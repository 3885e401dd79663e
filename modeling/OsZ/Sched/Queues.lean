import OsZ.Base.DList
import OsZ.Sched.Spec

/-!
# The queues of the scheduler

A running task is in the queue of its priority, any other task in the blocked queue:

* `Tcb.home`               the queue a task belongs to;
* `Queues s tasks Q`       `Q` are the queues: linked lists of the tasks at home there, and every
                           cursor is 0 or in its queue;
* `Queues.frame`           they depend on few fields of the TCBs of tasks;
* `Queues.moved`           a task goes to another queue;
* `Queues.block`, `Queues.awake`, `Queues.hybernate`, `Queues.add`, `Queues.pick`  the calls;
* `sched_queues`           every run of calls keeps the queues, through whatever windows the
                           tasks are given.
-/

namespace OsZ
open Function (update update_apply update_of_ne update_self)

inductive QName where
  | active (i : Nat)
  | blocked
deriving DecidableEq

def Ccb.head (c : Ccb) : QName → Nat
  | .active i => c.hdActive i
  | .blocked => c.hdBlocked

def Tcb.home (t : Tcb) : QName := if t.state = .running then .active t.priority else .blocked

structure IsTask (s : Core) (t : Nat) : Prop where
  isPid : s.IsPid t
  pid : (s.tcbs t).pid = t
  memroot : (s.tcbs t).memroot ≠ s.idleMapping
  priority : (s.tcbs t).priority < 8
  /-- a pid is the number of a page -/
  page : t < 2^40

structure Queues (s : Core) (tasks : List Nat) (Q : QName → List Nat) : Prop where
  task : ∀ t ∈ tasks, IsTask s t
  home : ∀ t q, t ∈ Q q ↔ t ∈ tasks ∧ (s.tcbs t).home = q
  list : ∀ q, DList (fun t => (s.tcbs t).next) (fun t => (s.tcbs t).prev) (s.ccb.head q) (Q q)
  cursor : ∀ i, s.ccb.crActive i = 0 ∨ s.ccb.crActive i ∈ Q (.active i)

/-- a task, or the idle task, which is in no queue -/
def Known (s : Core) (tasks : List Nat) (p : Nat) : Prop :=
  p ∈ tasks ∨ (s.tcbs p).memroot = s.idleMapping ∧ (s.tcbs p).state = .running

/-- the fields the queues depend on -/
structure Tcb.Same (t t' : Tcb) : Prop where
  pid : t'.pid = t.pid
  memroot : t'.memroot = t.memroot
  priority : t'.priority = t.priority
  home : t'.home = t.home
  next : t'.next = t.next
  prev : t'.prev = t.prev

/-- `p` with the fields of `t` goes to the queue `q` -/
structure Move (s s' : Core) (p : Nat) (q : QName) (t : Tcb) : Prop where
  tcbs : ∀ x ≠ 0, s'.tcbs x = relink s.tcbs p (s.ccb.head q) t x
  home : t.home = q
  pid : t.pid = p
  memroot : t.memroot = (s.tcbs p).memroot
  priority : t.priority = (s.tcbs p).priority
  head : ∀ q', s'.ccb.head q' = if q' = q then p
    else if (s.tcbs p).home = q' ∧ s.ccb.head q' = p then (s.tcbs p).next else s.ccb.head q'
  cursor : ∀ i, s'.ccb.crActive i =
    if (s.tcbs p).home = .active i ∧ s.ccb.crActive i = p then (s.tcbs p).next
    else s.ccb.crActive i
  addr : s'.addr = s.addr
  idle : s'.idleMapping = s.idleMapping

section
variable {s s' : Core} {tasks : List Nat} {Q : QName → List Nat} {p hd x : Nat} {q q' : QName}
  {t : Tcb} {w : Win}

theorem Tcb.Same.refl (t : Tcb) : t.Same t := ⟨rfl, rfl, rfl, rfl, rfl, rfl⟩

theorem Tcb.home_running (h : t.state = .running) : t.home = .active t.priority := if_pos h

theorem Tcb.home_ne_blocked (h : t.state = .running) : t.home ≠ .blocked := by
  rw [Tcb.home_running h]
  exact fun e => QName.noConfusion e

theorem Tcb.home_blocked (h : t.state ≠ .running) : t.home = .blocked := if_neg h

theorem IsTask.congr (h : IsTask s p) (hs : (s.tcbs p).Same (s'.tcbs p)) (ha : s'.addr = s.addr)
    (hi : s'.idleMapping = s.idleMapping) : IsTask s' p := by
  refine ⟨⟨h.isPid.1, fun w => ?_⟩, ?_, ?_, ?_, h.page⟩
  · rw [ha]
    exact h.isPid.2 w
  · rw [hs.pid, h.pid]
  · rw [hs.memroot, hi]
    exact h.memroot
  · rw [hs.priority]
    exact h.priority

namespace Queues

theorem frame (h : Queues s tasks Q) (ht : ∀ t ∈ tasks, (s.tcbs t).Same (s'.tcbs t))
    (hhd : ∀ q, s'.ccb.head q = s.ccb.head q)
    (hcr : ∀ i, s'.ccb.crActive i = 0 ∨ s'.ccb.crActive i ∈ Q (.active i))
    (ha : s'.addr = s.addr) (hi : s'.idleMapping = s.idleMapping) : Queues s' tasks Q := by
  have hm : ∀ q, ∀ t ∈ Q q, t ∈ tasks := fun q t hq => ((h.home t q).mp hq).1
  refine ⟨fun t htt => (h.task t htt).congr (ht t htt) ha hi, fun t q => ?_, fun q => ?_, hcr⟩
  · rw [h.home]
    constructor
    · rintro ⟨h1, h2⟩
      exact ⟨h1, (ht t h1).home.trans h2⟩
    · rintro ⟨h1, h2⟩
      exact ⟨h1, (ht t h1).home.symm.trans h2⟩
  · rw [hhd]
    exact (h.list q).frame (fun t hq => (ht t (hm q t hq)).next) (fun t hq => (ht t (hm q t hq)).prev)

theorem same_home (h : Queues s tasks Q) (h1 : x ∈ Q q) (h2 : x ∈ Q q') : q = q' :=
  ((h.home x q).mp h1).2.symm.trans ((h.home x q').mp h2).2

theorem mem_home (h : Queues s tasks Q) (hp : p ∈ tasks) : p ∈ Q (s.tcbs p).home :=
  (h.home p _).mpr ⟨hp, rfl⟩

theorem isTask (h : Queues s tasks Q) (hx : x ∈ Q q) : IsTask s x :=
  h.task x ((h.home x q).mp hx).1

theorem head_mem (h : Queues s tasks Q) (q : QName) : s.ccb.head q = 0 ∨ s.ccb.head q ∈ Q q := by
  by_cases h0 : s.ccb.head q = 0
  · exact Or.inl h0
  · exact Or.inr ((h.list q).head_mem h0)

theorem linked (h : Queues s tasks Q) (hp : p ∈ tasks) (hq : (s.tcbs p).home ≠ q) :
    Linked s p (s.ccb.head q) := by
  have hpQ := h.mem_home hp
  refine ⟨(h.task p hp).pid, (h.task p hp).isPid, ?_, ?_, ?_⟩
  · exact ((h.list _).next_mem hpQ).imp_right (fun hm => ⟨(h.isTask hm.1).isPid, hm.2⟩)
  · exact ((h.list _).prev_mem hpQ).imp_right (fun hm => ⟨(h.isTask hm.1).isPid, hm.2⟩)
  · refine (h.head_mem q).imp_right (fun hm => ⟨(h.isTask hm).isPid, fun e => ?_, fun e => ?_⟩)
    · rw [e] at hm
      exact hq (h.same_home hpQ hm)
    · rw [e] at hm
      obtain hn | hn := (h.list _).next_mem hpQ
      · exact (h.isTask hm).isPid.1 hn
      · exact hq (h.same_home hn.1 hm)

/-! ## a task goes to another queue -/

theorem moved_next (m : Move s s' p q t) (h0 : x ≠ 0) : (s'.tcbs x).next =
    if x = p then s.ccb.head q
    else if x = (s.tcbs p).prev then (s.tcbs p).next else (s.tcbs x).next := by
  rw [m.tcbs x h0]
  unfold relink
  split_ifs <;> rfl

theorem moved_prev (m : Move s s' p q t) (h0 : x ≠ 0) : (s'.tcbs x).prev =
    if x = p then 0 else if x = s.ccb.head q then p
    else if x = (s.tcbs p).next then (s.tcbs p).prev else (s.tcbs x).prev := by
  rw [m.tcbs x h0]
  unfold relink
  split_ifs <;> rfl

theorem moved_home (m : Move s s' p q t) (h0 : x ≠ 0) :
    (s'.tcbs x).home = if x = p then q else (s.tcbs x).home := by
  rw [m.tcbs x h0]
  unfold relink
  by_cases hx : x = p
  · rw [if_pos hx, if_pos hx]
    exact m.home
  · rw [if_neg hx, if_neg hx]
    rfl

theorem moved_isTask (m : Move s s' p q t) (hp : IsTask s p) (h : IsTask s x) : IsTask s' x := by
  have ha : s'.IsPid x := ⟨h.isPid.1, fun w => by rw [m.addr]; exact h.isPid.2 w⟩
  have ht := m.tcbs x h.isPid.1
  unfold relink at ht
  by_cases hx : x = p
  · rw [if_pos hx] at ht
    refine ⟨ha, ?_, ?_, ?_, h.page⟩
    · rw [ht, hx]
      exact m.pid
    · rw [ht, m.idle]
      exact m.memroot ▸ hp.memroot
    · rw [ht]
      exact m.priority ▸ hp.priority
  · rw [if_neg hx] at ht
    refine ⟨ha, ?_, ?_, ?_, h.page⟩
    · rw [ht]
      exact h.pid
    · rw [ht, m.idle]
      exact h.memroot
    · rw [ht]
      exact h.priority

theorem moved_to (h : Queues s tasks Q) (m : Move s s' p q t) (hp : p ∈ tasks)
    (hq : (s.tcbs p).home ≠ q) :
    DList (fun t => (s'.tcbs t).next) (fun t => (s'.tcbs t).prev) p (p :: Q q) := by
  have hpQ := h.mem_home hp
  have hp0 : p ≠ 0 := (h.task p hp).isPid.1
  have hpq : p ∉ Q q := fun hm => hq (h.same_home hpQ hm)
  have h0 : ∀ x ∈ p :: Q q, x ≠ 0 := by
    intro x hx
    obtain rfl | hx := List.mem_cons.mp hx
    · exact hp0
    · exact (h.isTask hx).isPid.1
  -- the neighbours of `p` are in another queue
  have hfar : ∀ y, y = 0 ∨ y ∈ Q (s.tcbs p).home ∧ y ≠ p → ∀ x ∈ Q q, x ≠ y := by
    rintro y (rfl | ⟨hy, -⟩) x hx rfl
    · exact (h.isTask hx).isPid.1 rfl
    · exact hq (h.same_home hy hx)
  refine (h.list q).pushed hpq hp0 (fun x hx => ?_) (fun x hx => ?_)
  · show (s'.tcbs x).next = _
    rw [moved_next m (h0 x hx)]
    obtain rfl | hx := List.mem_cons.mp hx
    · rw [if_pos rfl, if_pos rfl]
    · rw [if_neg (hfar _ ((h.list _).prev_mem hpQ) x hx)]
  · show (s'.tcbs x).prev = _
    rw [moved_prev m (h0 x hx)]
    obtain rfl | hx := List.mem_cons.mp hx
    · have hne : x ≠ s.ccb.head q := by
        rintro e
        obtain h1 | h1 := h.head_mem q
        · exact hp0 (e.trans h1)
        · exact hpq (e ▸ h1)
      rw [if_pos rfl, if_neg hne, if_pos rfl]
    · have hxp : x ≠ p := fun e => hpq (e ▸ hx)
      rw [if_neg hxp, if_neg hxp, if_neg (hfar _ ((h.list _).next_mem hpQ) x hx)]

theorem moved_from (h : Queues s tasks Q) (m : Move s s' p q t) (hp : p ∈ tasks)
    (hq : (s.tcbs p).home ≠ q) :
    DList (fun t => (s'.tcbs t).next) (fun t => (s'.tcbs t).prev)
      (if s.ccb.head (s.tcbs p).home = p then (s.tcbs p).next else s.ccb.head (s.tcbs p).home)
      ((Q (s.tcbs p).home).erase p) := by
  have hpQ := h.mem_home hp
  refine (h.list _).unlinked hpQ (fun x hx hxp => ?_) (fun x hx hxp => ?_)
  · show (s'.tcbs x).next = _
    rw [moved_next m (h.isTask hx).isPid.1, if_neg hxp]
  · have hne : x ≠ s.ccb.head q := by
      rintro rfl
      obtain h1 | h1 := h.head_mem q
      · exact (h.isTask hx).isPid.1 h1
      · exact hq (h.same_home hx h1)
    show (s'.tcbs x).prev = _
    rw [moved_prev m (h.isTask hx).isPid.1, if_neg hxp, if_neg hne]

theorem moved_other (h : Queues s tasks Q) (m : Move s s' p q t) (hp : p ∈ tasks)
    (hq' : q' ≠ q) (hh : q' ≠ (s.tcbs p).home) :
    DList (fun t => (s'.tcbs t).next) (fun t => (s'.tcbs t).prev) (s.ccb.head q') (Q q') := by
  have hpQ := h.mem_home hp
  have hfar : ∀ q'', q' ≠ q'' → ∀ y ∈ Q q'', ∀ x ∈ Q q', x ≠ y := by
    rintro q'' hne y hy x hx rfl
    exact hne (h.same_home hx hy)
  have hz : ∀ x ∈ Q q', x ≠ 0 := fun x hx => (h.isTask hx).isPid.1
  have hxp : ∀ x ∈ Q q', x ≠ p := hfar _ hh p hpQ
  refine (h.list q').frame (fun x hx => ?_) (fun x hx => ?_)
  · have hv : x ≠ (s.tcbs p).prev := by
      obtain h1 | h1 := (h.list _).prev_mem hpQ
      · exact fun e => hz x hx (e.trans h1)
      · exact hfar _ hh _ h1.1 x hx
    rw [moved_next m (hz x hx), if_neg (hxp x hx), if_neg hv]
  · have hn : x ≠ (s.tcbs p).next := by
      obtain h1 | h1 := (h.list _).next_mem hpQ
      · exact fun e => hz x hx (e.trans h1)
      · exact hfar _ hh _ h1.1 x hx
    have hd : x ≠ s.ccb.head q := by
      obtain h1 | h1 := h.head_mem q
      · exact fun e => hz x hx (e.trans h1)
      · exact hfar q hq' _ h1 x hx
    rw [moved_prev m (hz x hx), if_neg (hxp x hx), if_neg hd, if_neg hn]

theorem moved (h : Queues s tasks Q) (m : Move s s' p q t) (hp : p ∈ tasks)
    (hq : (s.tcbs p).home ≠ q) :
    Queues s' tasks (fun q' => if q' = q then p :: Q q else (Q q').erase p) := by
  have hpQ := h.mem_home hp
  have hnot : ∀ q' ≠ (s.tcbs p).home, p ∉ Q q' := fun q' hne hm => hne (h.same_home hm hpQ)
  refine ⟨fun x hx => moved_isTask m (h.task p hp) (h.task x hx), fun x q' => ?_, fun q' => ?_,
    fun i => ?_⟩
  · by_cases hx : x ∈ tasks
    · rw [moved_home m (h.task x hx).isPid.1]
      by_cases hxp : x = p
      · subst hxp
        rw [if_pos rfl]
        by_cases hqq : q' = q
        · rw [if_pos hqq]
          exact ⟨fun _ => ⟨hp, hqq.symm⟩, fun _ => List.mem_cons_self ..⟩
        · rw [if_neg hqq]
          have hnd := (h.list q').nodup
          exact ⟨fun hm => absurd hm hnd.not_mem_erase, fun hm => absurd hm.2.symm hqq⟩
      · rw [if_neg hxp, ← h.home]
        by_cases hqq : q' = q
        · rw [if_pos hqq, hqq]
          exact ⟨fun hm => (List.mem_cons.mp hm).resolve_left hxp, List.mem_cons_of_mem _⟩
        · rw [if_neg hqq]
          exact List.mem_erase_of_ne hxp
    · have hxQ : ∀ q', x ∉ Q q' := fun q' hm => hx ((h.home x q').mp hm).1
      have hxp : x ≠ p := fun e => hx (e ▸ hp)
      refine ⟨fun hm => ?_, fun hm => absurd hm.1 hx⟩
      by_cases hqq : q' = q
      · rw [if_pos hqq] at hm
        exact absurd ((List.mem_cons.mp hm).resolve_left hxp) (hxQ q)
      · rw [if_neg hqq] at hm
        exact absurd (List.mem_of_mem_erase hm) (hxQ q')
  · rw [m.head]
    by_cases hqq : q' = q
    · rw [if_pos hqq, if_pos hqq]
      exact h.moved_to m hp hq
    · rw [if_neg hqq, if_neg hqq]
      by_cases hh : q' = (s.tcbs p).home
      · subst hh
        simp only [true_and]
        exact h.moved_from m hp hq
      · rw [if_neg (fun e => hh e.1.symm), List.erase_of_not_mem (hnot q' hh)]
        exact h.moved_other m hp hqq hh
  · rw [m.cursor]
    by_cases hc : (s.tcbs p).home = .active i ∧ s.ccb.crActive i = p
    · rw [if_pos hc, if_neg (fun e => hq (hc.1.trans e))]
      refine ((h.list _).next_mem hpQ).imp_right (fun hm => ?_)
      rw [← hc.1]
      exact (List.mem_erase_of_ne hm.2).mpr hm.1
    · rw [if_neg hc]
      refine (h.cursor i).imp_right (fun hm => ?_)
      by_cases hqi : .active i = q
      · rw [if_pos hqi, ← hqi]
        exact List.mem_cons_of_mem _ hm
      · rw [if_neg hqi]
        refine (List.mem_erase_of_ne (fun e => hc ⟨?_, e⟩)).mpr hm
        rw [e] at hm
        exact h.same_home hpQ hm

/-! ## the calls -/

theorem drop_apply (f : Nat → Nat) (i p n j : Nat) :
    (if f i = p then update f i n else f) j =
      if QName.active i = .active j ∧ f j = p then n else f j := by
  by_cases hj : i = j
  · subst hj
    by_cases hp : f i = p
    · rw [if_pos hp, if_pos ⟨rfl, hp⟩, update_self]
    · rw [if_neg hp, if_neg (fun e => hp e.2)]
  · have hne : ¬(QName.active i = .active j ∧ f j = p) := fun e => hj (QName.active.inj e.1)
    rw [if_neg hne]
    split_ifs
    · exact update_of_ne (Ne.symm hj) ..
    · rfl

theorem block (h : Queues s tasks Q) (hp : s.win w ∈ tasks)
    (hr : (s.tcbs (s.win w)).state = .running) : ∃ Q', Queues (schedBlock s w) tasks Q' := by
  have hh := Tcb.home_running hr
  have hne : (s.tcbs (s.win w)).home ≠ .blocked := by
    rw [hh]
    exact fun e => QName.noConfusion e
  obtain ⟨T, he, hT⟩ := schedBlock_spec rfl (h.linked hp hne) (h.task _ hp).memroot
  refine ⟨_, h.moved (q := .blocked) (t := { s.tcbs (s.win w) with
    blktime := s.lo, state := .blocked }) ?_ hp hne⟩
  rw [he]
  refine ⟨hT, Tcb.home_blocked (fun e => TcbState.noConfusion e), (h.task _ hp).pid, rfl, rfl,
    fun q' => ?_, fun i => ?_, rfl, rfl⟩
  · rw [hh]
    cases q' with
    | blocked => rfl
    | active j =>
      rw [if_neg (fun e => QName.noConfusion e)]
      exact drop_apply s.ccb.hdActive _ _ _ j
  · rw [hh]
    exact drop_apply s.ccb.crActive _ _ _ i

theorem linked_awake (h : Queues s tasks Q) (hp : Known s tasks p) (hr : (s.tcbs p).state ≠ .running) :
    p ∈ tasks ∧ (s.tcbs p).home ≠ .active (s.tcbs p).priority ∧ Linked s p (s.ccb.hdActive (s.tcbs p).priority) := by
  have hp' := hp.resolve_right (fun e => hr e.2)
  have hne : (s.tcbs p).home ≠ .active (s.tcbs p).priority := by
    rw [Tcb.home_blocked hr]
    exact fun e => QName.noConfusion e
  exact ⟨hp', hne, h.linked hp' hne⟩

theorem awake (h : Queues s tasks Q) (hp : Known s tasks (s.win w)) :
    ∃ Q', Queues (schedAwake s w) tasks Q' := by
  by_cases hr : (s.tcbs (s.win w)).state = .running
  · refine ⟨Q, ?_⟩
    rw [schedAwake_running rfl hr]
    exact h.frame (fun t _ => Tcb.Same.refl _) (fun _ => rfl) h.cursor rfl rfl
  have hh := Tcb.home_blocked hr
  obtain ⟨hp, hne, hl⟩ := h.linked_awake hp hr
  obtain ⟨T, he, hT⟩ := schedAwake_spec rfl hl hr
  refine ⟨_, h.moved (q := .active (s.tcbs (s.win w)).priority)
    (t := (s.tcbs (s.win w)).awaken s.lo) ?_ hp hne⟩
  rw [he]
  refine ⟨hT, rfl, (h.task _ hp).pid, rfl, rfl, fun q' => ?_, fun i => ?_, rfl, rfl⟩
  · rw [hh]
    cases q' with
    | blocked => simp [Ccb.head]
    | active j =>
      simp only [Ccb.head, update_apply, QName.active.injEq, reduceCtorEq, false_and,
        if_false]
  · have hno : ¬((s.tcbs (s.win w)).home = .active i ∧ s.ccb.crActive i = s.win w) := by
      rw [hh]
      exact fun e => QName.noConfusion e.1
    rw [if_neg hno]

theorem hybernate (h : Queues s tasks Q) (hb : (s.tcbs (s.win w)).state = .blocked) :
    Queues (schedHybernate s w) tasks Q := by
  refine h.frame (fun t _ => ?_) (fun _ => rfl) h.cursor rfl rfl
  show (s.tcbs t).Same (update s.tcbs (s.win w) _ t)
  by_cases ht : t = s.win w
  · subst ht
    rw [update_self]
    refine ⟨rfl, rfl, rfl, ?_, rfl, rfl⟩
    rw [Tcb.home_blocked (t := s.tcbs (s.win w)) (by rw [hb]; decide)]
    exact Tcb.home_blocked (by show TcbState.hybernated ≠ _; decide)
  · rw [update_of_ne ht]
    exact Tcb.Same.refl _

theorem add (h : Queues s tasks Q) (hp : s.win w ∉ tasks) (hn : IsTask s (s.win w))
    (hr : (s.tcbs (s.win w)).state = .running) :
    Queues (schedAdd s w) (s.win w :: tasks) (fun q =>
      if q = .active (s.tcbs (s.win w)).priority then s.win w :: Q q else Q q) := by
  obtain ⟨p, hw⟩ : ∃ p, p = s.win w := ⟨_, rfl⟩
  obtain ⟨q, hq⟩ : ∃ q, q = QName.active (s.tcbs p).priority := ⟨_, rfl⟩
  rw [← hw] at hp hn hr ⊢
  rw [← hq]
  have hh : (s.tcbs p).home = q := hq ▸ Tcb.home_running hr
  have hm : ∀ q, ∀ x ∈ Q q, x ∈ tasks := fun q x hx => ((h.home x q).mp hx).1
  have hpQ : ∀ q, p ∉ Q q := fun q hx => hp (hm q p hx)
  have hhd : s.ccb.head q = 0 ∨ s.IsPid (s.ccb.head q) :=
    (h.head_mem q).imp_right (fun hx => (h.isTask hx).isPid)
  have hpd : p ≠ s.ccb.head q := by
    intro e
    obtain h1 | h1 := h.head_mem q
    · exact hn.isPid.1 (e.trans h1)
    · exact hpQ q (e ▸ h1)
  obtain ⟨m, he⟩ := schedAdd_spec hw.symm hn.pid hn.isPid
    (show s.ccb.hdActive (s.tcbs p).priority = s.ccb.head q by rw [hq]; rfl) hhd
  rw [he]
  obtain ⟨T, hT⟩ : ∃ T, T = setPrev (update s.tcbs p { s.tcbs p with
    prev := 0, next := s.ccb.head q }) (s.ccb.head q) p := ⟨_, rfl⟩
  rw [← hT]
  -- the links, and the fields the queues depend on
  have hx1 : ∀ x ≠ 0, T x = { s.tcbs x with
      next := if x = p then s.ccb.head q else (s.tcbs x).next
      prev := if x = s.ccb.head q then p else if x = p then 0 else (s.tcbs x).prev } := by
    intro x hx
    rw [hT, setPrev_apply hx, update_apply]
    by_cases hxp : x = p
    · subst hxp
      rw [if_neg hpd, if_neg hpd]
      simp only [if_true]
    · rw [if_neg hxp, if_neg hxp, if_neg hxp]
      split_ifs <;> rfl
  have htask : ∀ x ∈ p :: tasks, IsTask s x := by
    intro x hx
    obtain rfl | hx := List.mem_cons.mp hx
    · exact hn
    · exact h.task x hx
  have hhome : ∀ x ≠ 0, (T x).home = (s.tcbs x).home := fun x hx => by rw [hx1 x hx]; rfl
  refine ⟨fun x hx => ?_, fun x q' => ?_, fun q' => ?_, fun i => ?_⟩
  · have hi := htask x hx
    have e := hx1 x hi.isPid.1
    refine ⟨hi.isPid, ?_, ?_, ?_, hi.page⟩
    · exact (congrArg Tcb.pid e).trans hi.pid
    · exact fun e' => hi.memroot ((congrArg Tcb.memroot e).symm.trans e')
    · exact lt_of_eq_of_lt (congrArg Tcb.priority e) hi.priority
  · show (x ∈ if q' = q then p :: Q q' else Q q') ↔ x ∈ p :: tasks ∧ (T x).home = q'
    by_cases hxp : x = p
    · subst hxp
      rw [hhome x hn.isPid.1, hh]
      by_cases hqq : q' = q
      · rw [if_pos hqq]
        exact ⟨fun _ => ⟨List.mem_cons_self .., hqq.symm⟩, fun _ => List.mem_cons_self ..⟩
      · rw [if_neg hqq]
        exact ⟨fun hx => absurd hx (hpQ q'), fun hx => absurd hx.2.symm hqq⟩
    · have hxq : (x ∈ if q' = q then p :: Q q' else Q q') ↔ x ∈ Q q' := by
        split_ifs
        · exact ⟨fun hx => (List.mem_cons.mp hx).resolve_left hxp, List.mem_cons_of_mem _⟩
        · rfl
      rw [hxq, h.home, List.mem_cons, or_iff_right hxp]
      refine and_congr_right (fun hx => ?_)
      rw [hhome x (h.task x hx).isPid.1]
  · show DList (fun x => (T x).next) (fun x => (T x).prev) (Ccb.head _ q') _
    by_cases hqq : q' = q
    · subst hqq
      have hd' : Ccb.head { s.ccb with
          hdActive := update s.ccb.hdActive (s.tcbs p).priority p } q' = p := by
        rw [hq]
        exact update_self ..
      rw [if_pos rfl, hd']
      have h0 : ∀ x ∈ p :: Q q', x ≠ 0 := by
        intro x hx
        obtain rfl | hx := List.mem_cons.mp hx
        · exact hn.isPid.1
        · exact (h.isTask hx).isPid.1
      refine (h.list q').pushed (hpQ q') hn.isPid.1 (fun x hx => ?_) (fun x hx => ?_)
      · rw [hx1 x (h0 x hx)]
      · rw [hx1 x (h0 x hx)]
    · have hd' : Ccb.head { s.ccb with
          hdActive := update s.ccb.hdActive (s.tcbs p).priority p } q' = s.ccb.head q' := by
        cases q' with
        | blocked => rfl
        | active j => exact update_of_ne (fun e => hqq (by rw [hq, e])) ..
      have hxp : ∀ x ∈ Q q', x ≠ p := fun x hx e => hpQ q' (e ▸ hx)
      rw [if_neg hqq, hd']
      refine (h.list q').frame (fun x hx => ?_) (fun x hx => ?_)
      · rw [hx1 x (h.isTask hx).isPid.1]
        exact if_neg (hxp x hx)
      · have hne : x ≠ s.ccb.head q := by
          rintro rfl
          obtain h1 | h1 := h.head_mem q
          · exact (h.isTask hx).isPid.1 h1
          · exact hqq (h.same_home hx h1)
        rw [hx1 x (h.isTask hx).isPid.1]
        dsimp only
        rw [if_neg hne, if_neg (hxp x hx)]
  · refine (h.cursor i).imp_right (fun hx => ?_)
    show _ ∈ if _ then _ else _
    split_ifs
    · exact List.mem_cons_of_mem _ hx
    · exact hx

/-! ## picking a task -/

theorem other (h : Queues s tasks Q) (ht : s'.tcbs = s.tcbs) (hc : s'.ccb = s.ccb)
    (ha : s'.addr = s.addr) (hi : s'.idleMapping = s.idleMapping) : Queues s' tasks Q := by
  refine h.frame (fun t _ => ?_) (fun q => ?_) (fun i => ?_) ha hi
  · rw [ht]
    exact Tcb.Same.refl _
  · rw [hc]
  · rw [hc]
    exact h.cursor i

theorem setCursor (h : Queues s tasks Q) {i : Nat} (hp : p = 0 ∨ p ∈ Q (.active i)) :
    Queues (s.setCursor i p) tasks Q := by
  refine h.frame (fun t _ => Tcb.Same.refl _) (fun q => ?_) (fun j => ?_) rfl rfl
  · cases q <;> rfl
  · show update s.ccb.crActive i p j = 0 ∨ update s.ccb.crActive i p j ∈ _
    rw [update_apply]
    by_cases hj : j = i
    · rw [if_pos hj, hj]
      exact hp
    · rw [if_neg hj]
      exact h.cursor j

theorem scan (h : Queues s tasks Q) (l : List Nat) (b : Bool) :
    Queues (pickScan s l b).1 tasks Q := by
  induction l generalizing s b with
  | nil => exact h
  | cons i l ih =>
    unfold pickScan
    by_cases h1 : s.ccb.hdActive i = 0
    · rw [if_pos h1]
      exact ih h b
    · rw [if_neg h1]
      by_cases h2 : s.ccb.crActive i = 0
      · rw [if_pos h2]
        exact ih (h.setCursor (h.head_mem (.active i))) true
      · rw [if_neg h2]
        exact h

theorem pickFound_eq {i : Nat} (hp : s.IsPid (s.ccb.crActive i)) :
    ∃ n, pickFound s i = ({ (s.kmap .tmpmap (s.ccb.crActive i)).setCursor i
        (s.tcbs (s.ccb.crActive i)).next with isrNext := n },
        (s.tcbs (s.ccb.crActive i)).memroot) ∧
      (n = s.isrNext ∨ n = (s.tcbs (s.ccb.crActive i)).memroot) := by
  have ht : (s.kmap .tmpmap (s.ccb.crActive i)).tcb .tmpmap = s.tcbs (s.ccb.crActive i) := by
    simp [Core.tcb, Core.kmap]
  obtain ⟨u, hu⟩ : ∃ u, u = (s.kmap .tmpmap (s.ccb.crActive i)).setCursor i
    (s.tcbs (s.ccb.crActive i)).next := ⟨_, rfl⟩
  have hut : u.tcb .tmpmap = s.tcbs (s.ccb.crActive i) := by
    rw [hu]
    exact ht
  unfold pickFound
  rw [schedGetTcb_pid hp rfl]
  dsimp only
  rw [ht, ← hu, hut]
  by_cases h1 : (u.tcb .cur).pid = (s.tcbs (s.ccb.crActive i)).pid
  · refine ⟨s.isrNext, ?_, Or.inl rfl⟩
    rw [if_pos h1, hut, hu]
    rfl
  · refine ⟨_, ?_, Or.inr rfl⟩
    rw [if_neg h1]
    exact Prod.ext rfl (congrArg Tcb.memroot hut)

theorem found (h : Queues s tasks Q) {i : Nat} (hi : s.ccb.crActive i ≠ 0) :
    Queues (pickFound s i).1 tasks Q := by
  have hm : s.ccb.crActive i ∈ Q (.active i) := (h.cursor i).resolve_left hi
  have hk : Queues (s.kmap .tmpmap (s.ccb.crActive i)) tasks Q := h.other rfl rfl rfl rfl
  have hn := ((h.list _).next_mem hm).imp_right And.left
  obtain ⟨n, he, -⟩ := pickFound_eq (h.isTask hm).isPid
  rw [he]
  exact (hk.setCursor hn).other rfl rfl rfl rfl

theorem awake_eq (h : Queues s tasks Q) (hp : Known s tasks (s.win w)) : ∃ T c v,
    schedAwake s w = { s with tcbs := T, ccb := c, win := v, isrNext := (s.tcb w).memroot } := by
  by_cases hr : (s.tcbs (s.win w)).state = .running
  · exact ⟨_, _, _, schedAwake_running rfl hr⟩
  · obtain ⟨T, he, -⟩ := schedAwake_spec rfl (h.linked_awake hp hr).2.2 hr
    exact ⟨T, _, _, he⟩

theorem sends (h : Queues s tasks Q) (allowed : Core → Nat → Event → Bool) (e : Event) (a b : Nat)
    (hd : ∀ d, s.Dest e d → (s.tcbs d).magic = tcbMagic → Known s tasks d) :
    ∃ Q', Queues (msgSends allowed s e a b).1 tasks Q' := by
  obtain ⟨err, he⟩ | ⟨d, he⟩ | ⟨d, q, err, -, -, -, -, he⟩ | ⟨d, q, hdest, hm, he⟩ :=
    msgSends_cases allowed s e a b
  · rw [he]
    exact ⟨Q, h.other rfl rfl rfl rfl⟩
  · rw [he]
    exact ⟨Q, h.other rfl rfl rfl rfl⟩
  · rw [he]
    exact ⟨Q, h.other rfl rfl rfl rfl⟩
  · rw [he]
    obtain ⟨u, hu⟩ : ∃ u, u = ((s.mapped d q).fail .EBUSY).fail .SUCCESS := ⟨_, rfl⟩
    have huq : Queues u tasks Q := by
      rw [hu]
      exact h.other rfl rfl rfl rfl
    have huk : Known u tasks (u.win .tmpmap) := by
      rw [hu]
      exact hd d hdest hm
    unfold msgSent
    rw [if_neg (by decide)]
    dsimp only
    rw [← hu]
    split_ifs
    · exact ⟨Q, huq⟩
    · exact huq.awake huk

/-- the services are tasks, and a task (or idle) is current -/
structure Ready (s : Core) (tasks : List Nat) : Prop where
  services : ∀ k < 8, s.services k = 0 ∨ s.services k ∈ tasks
  cur : Known s tasks (s.win .cur)

theorem ready (h : Queues s tasks Q) (allowed : Core → Nat → Event → Bool) (hr : Ready s tasks) :
    ∃ Q', Queues (sysReady allowed s) tasks Q' := by
  -- `sched_get_tcb(services[-SRV_init])`
  obtain ⟨u, w, hg, huq, huk, hus⟩ : ∃ u w, schedGetTcb s (s.services 6) = (u, w) ∧
      Queues u tasks Q ∧ Known u tasks (u.win w) ∧ u.services = s.services := by
    obtain h0 | hm := hr.services 6 (by decide)
    · refine ⟨s, .cur, ?_, h, hr.cur, rfl⟩
      unfold schedGetTcb
      rw [if_pos h0]
    · refine ⟨_, _, schedGetTcb_pid (h.task _ hm).isPid rfl, h.other rfl rfl rfl rfl, Or.inl ?_, rfl⟩
      simpa [Core.kmap] using hm
  obtain ⟨Q1, h1⟩ := huq.awake huk
  obtain ⟨T, c, v, he⟩ := huq.awake_eq huk
  unfold sysReady
  rw [hg]
  dsimp only
  obtain ⟨m, hm⟩ : ∃ m, m = ((schedAwake u w).tcb w).memroot := ⟨_, rfl⟩
  rw [← hm]
  have h2 : Queues ((schedAwake u w).taskMap m) tasks Q1 := h1.other rfl rfl rfl rfl
  refine h2.sends allowed _ 0 0 (fun d hd _ => Or.inl ?_)
  -- the message goes to FS
  obtain ⟨-, task, ht, hdt⟩ := hd
  have hsv : ((schedAwake u w).taskMap m).services = s.services := by
    rw [he]
    exact hus
  unfold Core.destOf at ht
  rw [hsv, if_pos (by decide)] at ht
  by_cases h0 : s.services 1 = 0
  · rw [if_neg (by simpa using h0)] at ht
    cases ht
  · rw [if_pos (Or.inr (by simpa using h0))] at ht
    have hts : s.services 1 = task := Option.some.inj ht
    have hm := (hr.services 1 (by decide)).resolve_left h0
    rw [hdt, ← hts, if_neg h0, kmapPage, Nat.mod_eq_of_lt (h.task _ hm).page]
    exact hm

theorem scan_some {l : List Nat} {b : Bool} {i : Nat} (h : (pickScan s l b).2.2 = some i) :
    (pickScan s l b).1.ccb.crActive i ≠ 0 := by
  induction l generalizing s b with
  | nil => cases h
  | cons j l ih =>
    unfold pickScan at h ⊢
    by_cases h1 : s.ccb.hdActive j = 0
    · rw [if_pos h1] at h ⊢
      exact ih h
    · rw [if_neg h1] at h ⊢
      by_cases h2 : s.ccb.crActive j = 0
      · rw [if_pos h2] at h ⊢
        exact ih h
      · rw [if_neg h2] at h ⊢
        rw [← Option.some.inj h]
        exact h2

theorem idle (h : Queues s tasks Q) (allowed : Core → Nat → Event → Bool)
    (hr : s.idleFirst = true → Ready s tasks) :
    ∃ Q', Queues (pickIdle allowed s).1 tasks Q' := by
  have hi : Queues { s with isrNext := s.idleMapping } tasks Q := h.other rfl rfl rfl rfl
  unfold pickIdle
  by_cases h7 : s.ccb.hdActive 7 = 0
  · rw [if_pos h7]
    dsimp only
    by_cases hf : s.idleFirst = true
    · rw [if_pos hf]
      have h1 : Queues { s with isrNext := s.idleMapping, idleFirst := false } tasks Q :=
        h.other rfl rfl rfl rfl
      exact h1.ready allowed ⟨(hr hf).services, (hr hf).cur⟩
    · rw [if_neg hf]
      exact ⟨Q, hi⟩
  · rw [if_neg h7]
    refine ⟨Q, ?_⟩
    by_cases hc : s.ccb.crActive 7 = 0
    · rw [if_pos hc]
      refine (h.setCursor (h.head_mem (.active 7))).found ?_
      show update s.ccb.crActive 7 (s.ccb.hdActive 7) 7 ≠ 0
      rw [update_self]
      exact h7
    · rw [if_neg hc]
      exact h.found hc

theorem scan_eq (s : Core) (l : List Nat) (b : Bool) :
    ∃ c, (pickScan s l b).1 = { s with ccb := { s.ccb with crActive := c } } := by
  induction l generalizing s b with
  | nil => exact ⟨_, rfl⟩
  | cons i l ih =>
    unfold pickScan
    split_ifs
    · exact ih s b
    · obtain ⟨c, hc⟩ := ih (s.setCursor i (s.ccb.hdActive i)) true
      exact ⟨c, hc⟩
    · exact ⟨_, rfl⟩

/-- the passes write cursors only; after them a task or the idle queue is taken -/
theorem pickAgain_cases {allowed : Core → Nat → Event → Bool} {P : Core → Prop}
    (hscan : ∀ u l b, P u → P (pickScan u l b).1) {n : Nat} {b : Bool} {r : Core × Nat} (h : P s)
    (hp : pickAgain allowed n s b = some r) :
    ∃ u c, P u ∧ u = { s with ccb := { s.ccb with crActive := c } } ∧
      ((∃ i, u.ccb.crActive i ≠ 0 ∧ r = pickFound u i) ∨ r = pickIdle allowed u) := by
  induction n generalizing s b with
  | zero => cases hp
  | succ n ih =>
    unfold pickAgain at hp
    obtain ⟨u, ne, i, hs⟩ : ∃ u ne i, pickScan s [0, 1, 2, 3, 4, 5, 6] b = (u, ne, i) := ⟨_, _, _, rfl⟩
    have hu := hscan s [0, 1, 2, 3, 4, 5, 6] b h
    obtain ⟨c, hc⟩ := scan_eq s [0, 1, 2, 3, 4, 5, 6] b
    have hsome := fun j => scan_some (s := s) (l := [0, 1, 2, 3, 4, 5, 6]) (b := b) (i := j)
    rw [hs] at hp hu hc hsome
    match ne, i, hp, hsome with
    | _, some j, hp, hsome => exact ⟨u, c, hu, hc, Or.inl ⟨j, hsome j rfl, (Option.some.inj hp).symm⟩⟩
    | true, none, hp, _ =>
      obtain ⟨v, d, hv, he, hr⟩ := ih hu hp
      refine ⟨v, d, hv, ?_, hr⟩
      rw [he, show u = _ from hc]
    | false, none, hp, _ => exact ⟨u, c, hu, hc, Or.inr (Option.some.inj hp).symm⟩

theorem again (h : Queues s tasks Q) (allowed : Core → Nat → Event → Bool)
    (hr : s.idleFirst = true → Ready s tasks) {n : Nat} {b : Bool} {r : Core × Nat}
    (hp : pickAgain allowed n s b = some r) : ∃ Q', Queues r.1 tasks Q' := by
  obtain ⟨u, c, hu, he, hres⟩ := pickAgain_cases (P := fun u => Queues u tasks Q)
    (fun _ l b hu => hu.scan l b) h hp
  obtain ⟨i, hi, rfl⟩ | rfl := hres
  · exact ⟨Q, hu.found hi⟩
  · refine hu.idle allowed ?_
    rw [he]
    exact fun hf => ⟨(hr hf).services, (hr hf).cur⟩

end Queues

/-! ## `sched_pick` returns -/

theorem pickScan_found {l : List Nat} {b : Bool} {i : Nat} (hi : i ∈ l)
    (hh : s.ccb.hdActive i ≠ 0) (hc : s.ccb.crActive i ≠ 0) :
    ((pickScan s l b).2.2).isSome = true := by
  induction l generalizing s b with
  | nil => cases hi
  | cons j l ih =>
    unfold pickScan
    by_cases h1 : s.ccb.hdActive j = 0
    · rw [if_pos h1]
      obtain rfl | hi := List.mem_cons.mp hi
      · exact absurd h1 hh
      · exact ih hi hh hc
    · rw [if_neg h1]
      by_cases h2 : s.ccb.crActive j = 0
      · rw [if_pos h2]
        obtain rfl | hi := List.mem_cons.mp hi
        · exact absurd h2 hc
        · refine ih hi hh ?_
          show update s.ccb.crActive j _ i ≠ 0
          rw [update_apply]
          split_ifs
          · exact h1
          · exact hc
      · rw [if_neg h2]
        rfl

/-- no cursor is lost in a pass -/
theorem pickScan_keeps {l : List Nat} {b : Bool} {i : Nat} (h : s.ccb.crActive i ≠ 0) :
    (pickScan s l b).1.ccb.crActive i ≠ 0 := by
  induction l generalizing s b with
  | nil => exact h
  | cons j l ih =>
    unfold pickScan
    split_ifs with h1 h2
    · exact ih h
    · refine ih ?_
      show update s.ccb.crActive j _ i ≠ 0
      rw [update_apply]
      split_ifs
      · exact h1
      · exact h
    · exact h

/-- a pass without a task has set the cursor of a level that is not empty, if there is one -/
theorem pickScan_none {l : List Nat} {b : Bool} (h : (pickScan s l b).2.2 = none) :
    (pickScan s l b).2.1 = b ∨ ∃ i ∈ l, s.ccb.hdActive i ≠ 0 ∧
      (pickScan s l b).1.ccb.crActive i ≠ 0 := by
  induction l generalizing s b with
  | nil => exact Or.inl rfl
  | cons j l ih =>
    unfold pickScan at h ⊢
    by_cases h1 : s.ccb.hdActive j = 0
    · rw [if_pos h1] at h ⊢
      exact (ih h).imp_right (fun ⟨i, hi, hh⟩ => ⟨i, List.mem_cons_of_mem _ hi, hh⟩)
    · rw [if_neg h1] at h ⊢
      by_cases h2 : s.ccb.crActive j = 0
      · rw [if_pos h2]
        refine Or.inr ⟨j, List.mem_cons_self .., h1, pickScan_keeps ?_⟩
        show update s.ccb.crActive j _ j ≠ 0
        rw [update_self]
        exact h1
      · rw [if_neg h2] at h
        cases h

theorem schedPick_isSome (allowed : Core → Nat → Event → Bool) (s : Core) :
    (schedPick allowed s).isSome = true := by
  unfold schedPick pickAgain
  obtain ⟨u, ne, i, hs⟩ : ∃ u ne i, pickScan s [0, 1, 2, 3, 4, 5, 6] false = (u, ne, i) :=
    ⟨_, _, _, rfl⟩
  rw [hs]
  match ne, i, hs with
  | _, some j, _ => rfl
  | false, none, _ => rfl
  | true, none, hs =>
    have hn := pickScan_none (s := s) (l := [0, 1, 2, 3, 4, 5, 6]) (b := false) (by rw [hs])
    obtain ⟨c, hc⟩ := Queues.scan_eq s [0, 1, 2, 3, 4, 5, 6] false
    rw [hs] at hn hc
    obtain he | ⟨i, hi, hh, hcr⟩ := hn
    · cases he
    have hu : u.ccb.hdActive = s.ccb.hdActive := by
      rw [show u = _ from hc]
    have hf := pickScan_found (b := true) hi (hu ▸ hh) hcr
    dsimp only
    unfold pickAgain
    obtain ⟨u', ne', i', hs'⟩ : ∃ u' ne' i', pickScan u [0, 1, 2, 3, 4, 5, 6] true = (u', ne', i') :=
      ⟨_, _, _, rfl⟩
    rw [hs'] at hf ⊢
    match i', hf with
    | some j, _ => rfl

/-! ## runs -/

structure SchedWorld where
  core : Core
  /-- the tasks that have been added -/
  tasks : List Nat

inductive SchedOp where
  | other | add (w : Win) | block (w : Win) | awake (w : Win) | hybernate (w : Win) | pick

/-- `other` is what happens between the calls: windows are mapped, time passes, TCBs are set up,
fields of tasks that are no concern of the queues are written -/
inductive SchedStep (allowed : Core → Nat → Event → Bool) : SchedWorld → SchedOp → SchedWorld → Prop
  | other {s s' : Core} {tasks : List Nat} (ht : ∀ t ∈ tasks, (s.tcbs t).Same (s'.tcbs t))
      (hh : s'.ccb.hdActive = s.ccb.hdActive) (hb : s'.ccb.hdBlocked = s.ccb.hdBlocked)
      (hc : s'.ccb.crActive = s.ccb.crActive) (ha : s'.addr = s.addr)
      (hi : s'.idleMapping = s.idleMapping) : SchedStep allowed ⟨s, tasks⟩ .other ⟨s', tasks⟩
  | add {s : Core} {tasks : List Nat} {w : Win} (hn : s.win w ∉ tasks) (ht : IsTask s (s.win w))
      (hr : (s.tcbs (s.win w)).state = .running) :
      SchedStep allowed ⟨s, tasks⟩ (.add w) ⟨schedAdd s w, s.win w :: tasks⟩
  | block {s : Core} {tasks : List Nat} {w : Win} (hk : Known s tasks (s.win w))
      (hr : (s.tcbs (s.win w)).state = .running) :
      SchedStep allowed ⟨s, tasks⟩ (.block w) ⟨schedBlock s w, tasks⟩
  | awake {s : Core} {tasks : List Nat} {w : Win} (hk : Known s tasks (s.win w)) :
      SchedStep allowed ⟨s, tasks⟩ (.awake w) ⟨schedAwake s w, tasks⟩
  | hybernate {s : Core} {tasks : List Nat} {w : Win} (ht : s.win w ∈ tasks)
      (hb : (s.tcbs (s.win w)).state = .blocked) :
      SchedStep allowed ⟨s, tasks⟩ (.hybernate w) ⟨schedHybernate s w, tasks⟩
  | pick {s s' : Core} {tasks : List Nat} {m : Nat} (hf : s.idleFirst = true → Queues.Ready s tasks)
      (hp : schedPick allowed s = some (s', m)) :
      SchedStep allowed ⟨s, tasks⟩ .pick ⟨s', tasks⟩

/-- no task yet, all queues are empty -/
structure SchedWorld.Start (w : SchedWorld) : Prop where
  tasks : w.tasks = []
  hdActive : ∀ i, w.core.ccb.hdActive i = 0
  hdBlocked : w.core.ccb.hdBlocked = 0
  crActive : ∀ i, w.core.ccb.crActive i = 0

theorem SchedWorld.Start.queues {w : SchedWorld} (h : w.Start) :
    Queues w.core w.tasks (fun _ => []) := by
  refine ⟨fun t ht => ?_, fun t q => ?_, fun q => ?_, fun i => Or.inl (h.crActive i)⟩
  · rw [h.tasks] at ht
    cases ht
  · rw [h.tasks]
    exact ⟨fun ht => (List.not_mem_nil ht).elim, fun ht => (List.not_mem_nil ht.1).elim⟩
  · have hh : w.core.ccb.head q = 0 := by
      cases q with
      | active i => exact h.hdActive i
      | blocked => exact h.hdBlocked
    rw [hh]
    exact DList.nil

theorem SchedStep.queues {allowed : Core → Nat → Event → Bool} {a b : SchedWorld} {o : SchedOp}
    (hs : SchedStep allowed a o b) (h : ∃ Q, Queues a.core a.tasks Q) :
    ∃ Q, Queues b.core b.tasks Q := by
  obtain ⟨Q, h⟩ := h
  cases hs with
  | other ht hh hb hc ha hi =>
    refine ⟨Q, h.frame ht (fun q => ?_) (fun i => ?_) ha hi⟩
    · cases q with
      | active i => exact congrFun hh i
      | blocked => exact hb
    · rw [hc]
      exact h.cursor i
  | add hn ht hr => exact ⟨_, h.add hn ht hr⟩
  | block hk hr =>
    obtain hk | hk := hk
    · exact h.block hk hr
    · -- "never block the idle task"
      refine ⟨Q, ?_⟩
      unfold schedBlock
      dsimp only [Core.tcb]
      rw [if_pos hk.1]
      exact h
  | awake hk => exact h.awake hk
  | hybernate ht hb => exact ⟨Q, h.hybernate hb⟩
  | pick hf hp => exact h.again allowed hf hp

/-- **In every run every task is in the one queue of its state, and the queues are linked lists.** -/
theorem sched_queues {allowed : Core → Nat → Event → Bool} {a b : SchedWorld} (h0 : a.Start)
    (h : Reach (SchedStep allowed) (fun _ _ => True) a b) : ∃ Q, Queues b.core b.tasks Q :=
  h.keeps ⟨_, h0.queues⟩ (fun _ _ _ hi _ hs => hs.queues hi)

/-- the tasks 5 and 6 of priority 3, and the idle task 9 -/
def demoCore : Core where
  tcbs p := ⟨if p = 5 ∨ p = 6 ∨ p = 9 then tcbMagic else 0, if p = 9 then 7 else 3, .running, p,
    p * 4096, 0, 0, 0, 0, 0, 0, 0⟩
  win w := if w = .cur then 9 else 5
  addr w := match w with
    | .cur => 0
    | .tmpmap => 2^52
    | .tmp2map => 2^52 + 1
    | .tmpalarm => 2^52 + 2
    | .bssEnd => 2^52 + 3
  ccb := ⟨0, 0, fun _ => 0, fun _ => 0⟩
  isrNext := 0
  idleMapping := 9 * 4096
  idleFirst := false
  ts := 0
  nts := 0
  lo := 0
  services _ := 0
  tcbOf m := m / 4096
  mqPage m := m + 1
  mq _ := ⟨1, 1, 64, 2, 256⟩
  nrmqmax := 1
  coreerrno := .SUCCESS

theorem demo_isPid {p : Nat} (h : 0 < p) (hp : p < 100) : demoCore.IsPid p := by
  refine ⟨by omega, fun w => ?_⟩
  cases w <;> simp only [demoCore] <;> omega

/-- both tasks are added -/
def demoPair : Core := schedAdd ((schedAdd demoCore .bssEnd).kmap .bssEnd 6) .bssEnd

def demoQ (q : QName) : List Nat := if q = .active 3 then [6, 5] else []

theorem demoStart : (⟨demoCore, []⟩ : SchedWorld).Start := ⟨rfl, fun _ => rfl, rfl, fun _ => rfl⟩

theorem demoCore_isTask : IsTask demoCore 5 :=
  ⟨demo_isPid (by decide) (by decide), rfl, by decide, by decide, by decide⟩

theorem demoSix_isTask : IsTask ((schedAdd demoCore .bssEnd).kmap .bssEnd 6) 6 :=
  ⟨demo_isPid (p := 6) (by decide) (by decide), by decide, by decide, by decide, by decide⟩

theorem demoPair_queues : Queues demoPair [6, 5] demoQ := by
  have h1 := demoStart.queues.add (w := .bssEnd) List.not_mem_nil demoCore_isTask rfl
  have h2 : Queues ((schedAdd demoCore .bssEnd).kmap .bssEnd 6) [5] _ := h1.other rfl rfl rfl rfl
  have h3 := h2.add (w := .bssEnd) (by decide) demoSix_isTask (by decide)
  have hQ : demoQ = fun q => if q = .active 3 then 6 :: (if q = .active 3 then [5] else [])
      else (if q = .active 3 then [5] else []) := by
    funext q
    unfold demoQ
    split_ifs <;> rfl
  rw [hQ]
  exact h3

/-- both tasks are added, 5 is blocked, 6 is picked, and 5 is awaken through `tmpalarm` -/
theorem sched_queues_demo : ∃ a b : SchedWorld, a.Start ∧
    Reach (SchedStep (fun _ _ _ => true)) (fun _ _ => True) a b ∧ b.tasks = [6, 5] ∧
    b.core.ccb.hdActive 3 = 5 ∧ ∃ Q, Queues b.core b.tasks Q := by
  obtain ⟨s4, h4⟩ : ∃ s4, s4 = schedBlock demoPair .tmpalarm := ⟨_, rfl⟩
  obtain ⟨⟨s5, m⟩, h5⟩ := Option.isSome_iff_exists.mp (schedPick_isSome (fun _ _ _ => true) s4)
  let R := Reach (SchedStep (fun _ _ _ => true)) (fun _ _ => True) ⟨demoCore, []⟩
  have r1 : R ⟨schedAdd demoCore .bssEnd, [5]⟩ :=
    Reach.refl.tail (a := .add .bssEnd) trivial (.add List.not_mem_nil demoCore_isTask rfl)
  have r2 : R ⟨(schedAdd demoCore .bssEnd).kmap .bssEnd 6, [5]⟩ :=
    r1.tail (a := .other) trivial (by exact .other (fun t _ => Tcb.Same.refl _) rfl rfl rfl rfl rfl)
  have r3 : R ⟨demoPair, [6, 5]⟩ :=
    r2.tail (a := .add .bssEnd) trivial (.add (by decide) demoSix_isTask (by decide))
  have r4 : R ⟨s4, [6, 5]⟩ := by
    rw [h4]
    exact r3.tail (a := .block .tmpalarm) trivial (.block (Or.inl (by decide)) (by decide))
  have r5 : R ⟨s5, [6, 5]⟩ := by
    refine r4.tail (a := .pick) trivial (.pick (fun e => ?_) h5)
    rw [h4] at e
    exact absurd e (by decide)
  have hw : s5.win .tmpalarm = 5 := by
    have e : (schedPick (fun _ _ _ => true) s4).map (fun r => r.1.win .tmpalarm) = some 5 := by
      rw [h4]
      decide
    rw [h5] at e
    exact Option.some.inj e
  have r6 : R ⟨schedAwake s5 .tmpalarm, [6, 5]⟩ :=
    r5.tail (a := .awake .tmpalarm) trivial (.awake (Or.inl (by rw [hw]; decide)))
  refine ⟨_, _, demoStart, r6, rfl, ?_, sched_queues demoStart r6⟩
  have e : (schedPick (fun _ _ _ => true) s4).map
      (fun r => (schedAwake r.1 .tmpalarm).ccb.hdActive 3) = some 5 := by
    rw [h4]
    decide
  rw [h5] at e
  exact Option.some.inj e

end
end OsZ
