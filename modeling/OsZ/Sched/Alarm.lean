import OsZ.Base.SList
import OsZ.Sched.Syscall

/-!
# Alarms

The tasks that sleep are linked by `alarm`, from `ccb.hd_timerq` on, the first one to be awaken first;
its TCB is at `tmpalarm`.

* `Timed`            the timer queue and the clock are left alone;
* `alarmWalk_spec`   the walk of `sched_alarm` puts a task behind all tasks that are not later;
* `Timers`           the queue is sorted, and its tasks are blocked;
* `schedAlarm_spec`  `sched_alarm` returns and keeps the queue;
* `Timers.expire`    the first task leaves the queue.
-/

namespace OsZ
open Function (update update_apply update_self)

/-! ## what the other calls leave alone -/

structure Timed (s s' : Core) : Prop where
  alarm : ∀ x, (s'.tcbs x).alarm = (s.tcbs x).alarm
  sec : ∀ x, (s'.tcbs x).alarmsec = (s.tcbs x).alarmsec
  ns : ∀ x, (s'.tcbs x).alarmns = (s.tcbs x).alarmns
  timerq : s'.ccb.hdTimerq = s.ccb.hdTimerq
  tmpalarm : s'.win .tmpalarm = s.win .tmpalarm
  ts : s'.ts = s.ts
  nts : s'.nts = s.nts
  addr : s'.addr = s.addr

section
variable {s s' s'' u : Core} {w : Win} {p v x : Nat} {t : Tcb} {tasks : List Nat} {idle : Nat}
  {allowed : Core → Nat → Event → Bool}

namespace Timed

theorem trans (h : Timed s s') (h' : Timed s' s'') : Timed s s'' :=
  ⟨fun x => (h'.alarm x).trans (h.alarm x), fun x => (h'.sec x).trans (h.sec x),
    fun x => (h'.ns x).trans (h.ns x), h'.timerq.trans h.timerq, h'.tmpalarm.trans h.tmpalarm,
    h'.ts.trans h.ts, h'.nts.trans h.nts, h'.addr.trans h.addr⟩

theorem of_eq (ht : s'.tcbs = s.tcbs) (hq : s'.ccb.hdTimerq = s.ccb.hdTimerq)
    (hw : s'.win .tmpalarm = s.win .tmpalarm) (h1 : s'.ts = s.ts) (h2 : s'.nts = s.nts)
    (ha : s'.addr = s.addr) : Timed s s' :=
  ⟨fun x => by rw [ht], fun x => by rw [ht], fun x => by rw [ht], hq, hw, h1, h2, ha⟩

theorem refl (s : Core) : Timed s s := of_eq rfl rfl rfl rfl rfl rfl

theorem put (h1 : t.alarm = (s.tcb w).alarm) (h2 : t.alarmsec = (s.tcb w).alarmsec)
    (h3 : t.alarmns = (s.tcb w).alarmns) : Timed s (s.put w t) := by
  have hx : ∀ x, (s.put w t).tcbs x = if x = s.win w then t else s.tcbs x :=
    fun x => update_apply ..
  refine ⟨fun x => ?_, fun x => ?_, fun x => ?_, rfl, rfl, rfl, rfl, rfl⟩
  · rw [hx]
    split_ifs with e
    · rw [e]
      exact h1
    · rfl
  · rw [hx]
    split_ifs with e
    · rw [e]
      exact h2
    · rfl
  · rw [hx]
    split_ifs with e
    · rw [e]
      exact h3
    · rfl

theorem kmap (hw : w ≠ .tmpalarm) : Timed s (s.kmap w p) :=
  of_eq rfl rfl (kmap_win hw.symm) rfl rfl rfl

theorem getTcb (s : Core) (p : Nat) : Timed s (schedGetTcb s p).1 := by
  unfold schedGetTcb
  split_ifs
  iterate 5 exact refl s
  exact kmap (by decide)

theorem linkNext (s : Core) (p v : Nat) : Timed s (linkNext s p v) := by
  unfold OsZ.linkNext
  split_ifs
  · exact refl s
  · exact (getTcb s p).trans (put rfl rfl rfl)

theorem linkPrev (s : Core) (p v : Nat) : Timed s (linkPrev s p v) := by
  unfold OsZ.linkPrev
  split_ifs
  · exact refl s
  · exact (getTcb s p).trans (put rfl rfl rfl)

theorem setHead (s : Core) (i p : Nat) : Timed s (s.setHead i p) := of_eq rfl rfl rfl rfl rfl rfl

theorem setCursor (s : Core) (i p : Nat) : Timed s (s.setCursor i p) := of_eq rfl rfl rfl rfl rfl rfl

theorem setBlocked (s : Core) (p : Nat) : Timed s (s.setBlocked p) := of_eq rfl rfl rfl rfl rfl rfl

theorem fail (s : Core) (e : CoreErr) : Timed s (s.fail e) := of_eq rfl rfl rfl rfl rfl rfl

theorem ite {c : Prop} [Decidable c] (h : Timed s s') (h' : Timed s s'') :
    Timed s (if c then s' else s'') := by
  split_ifs
  · exact h
  · exact h'

theorem add (s : Core) (w : Win) : Timed s (schedAdd s w) := by
  have h1 : Timed s (s.put w { s.tcb w with
      prev := 0, next := s.ccb.hdActive (s.tcb w).priority }) := put rfl rfl rfl
  have h2 := h1.trans (setHead _ (s.tcb w).priority (s.tcb w).pid)
  unfold schedAdd
  exact ite h2 ((h2.trans (linkPrev ..)).trans (getTcb ..))

theorem remove (s : Core) (w : Win) : Timed s (schedRemove s w) := by
  have h1 : Timed s (s.put w { s.tcb w with prev := 0, next := 0 }) := put rfl rfl rfl
  have h2 := h1.trans (ite (c := (s.put w { s.tcb w with prev := 0, next := 0 }).ccb.hdActive
    (s.tcb w).priority = (s.tcb w).pid) (setHead _ (s.tcb w).priority (s.tcb w).next) (refl _))
  unfold schedRemove
  exact ((h2.trans (ite (setCursor ..) (refl _))).trans (linkNext ..)).trans (linkPrev ..)

theorem block (s : Core) (w : Win) : Timed s (schedBlock s w) := by
  unfold schedBlock
  refine ite (refl s) ?_
  have h1 : Timed s (s.put w { s.tcb w with blktime := s.lo, state := .blocked }) := put rfl rfl rfl
  refine .trans ?_ (setBlocked ..)
  refine .trans ?_ (put rfl rfl rfl)
  exact ((h1.trans (remove ..)).trans (linkPrev ..)).trans (getTcb ..)

theorem awakeBlocked (s : Core) (w : Win) (pid next prev : Nat) :
    Timed s (awakeBlocked s w pid next prev).1 := by
  unfold OsZ.awakeBlocked
  have h1 : Timed s (s.put w { s.tcb w with
    blkcnt := w64 ((s.tcb w).blkcnt + sub64 s.lo (s.tcb w).blktime), blktime := 0 }) :=
      put rfl rfl rfl
  refine .trans ?_ (getTcb ..)
  refine .trans ?_ (linkPrev ..)
  refine .trans ?_ (linkNext ..)
  exact (h1.trans (add ..)).trans (ite (setBlocked ..) (refl _))

theorem awake (s : Core) (w : Win) : Timed s (schedAwake s w) := by
  obtain ⟨a, ha⟩ : ∃ a, a = if (s.tcb w).state = .hybernated
    then s.put w { s.tcb w with state := .blocked } else s := ⟨_, rfl⟩
  obtain ⟨b, hb⟩ : ∃ b, b = if (a.tcb w).state = .blocked
    then OsZ.awakeBlocked a w (s.tcb w).pid (s.tcb w).next (s.tcb w).prev else (a, w) := ⟨_, rfl⟩
  have h1 : Timed s a := by
    rw [ha]
    exact ite (put rfl rfl rfl) (refl s)
  have h2 : Timed a b.1 := by
    rw [hb]
    split_ifs
    · exact awakeBlocked ..
    · exact refl a
  have he : schedAwake s w = { b.1.put b.2 { b.1.tcb b.2 with state := .running } with
      isrNext := ((b.1.put b.2 { b.1.tcb b.2 with state := .running }).tcb b.2).memroot } := by
    rw [hb, ha]
    rfl
  have h3 : Timed b.1 (b.1.put b.2 { b.1.tcb b.2 with state := .running }) := put rfl rfl rfl
  rw [he]
  exact ((h1.trans h2).trans h3).trans (of_eq rfl rfl rfl rfl rfl rfl)

theorem sends (s : Core) (e : Event) (a b : Nat) : Timed s (msgSends allowed s e a b).1 := by
  have hm : ∀ d q, Timed s (s.mapped d q) := fun d q =>
    of_eq rfl rfl (SysBase.mapped_tmpalarm s d q) rfl rfl rfl
  obtain ⟨err, he⟩ | ⟨d, he⟩ | ⟨d, q, err, -, -, -, -, he⟩ | ⟨d, q, -, -, he⟩ :=
    msgSends_cases allowed s e a b
  · rw [he]
    exact fail ..
  · rw [he]
    exact (kmap (w := .tmpmap) (by decide)).trans (fail ..)
  · rw [he]
    exact (hm d q).trans (fail ..)
  · rw [he]
    have h1 := ((hm d q).trans (fail _ .EBUSY)).trans (fail _ .SUCCESS)
    unfold msgSent
    exact ite h1 (h1.trans (awake ..))

theorem ready (s : Core) : Timed s (sysReady allowed s) := by
  unfold sysReady
  exact (((getTcb ..).trans (awake ..)).trans (kmap (by decide))).trans (sends ..)

theorem scan (s : Core) (l : List Nat) (b : Bool) : Timed s (pickScan s l b).1 := by
  obtain ⟨c, hc⟩ := Queues.scan_eq s l b
  rw [hc]
  exact of_eq rfl rfl rfl rfl rfl rfl

theorem found (s : Core) (i : Nat) : Timed s (pickFound s i).1 := by
  unfold pickFound
  exact ((getTcb ..).trans (setCursor ..)).trans (ite (refl _) (of_eq rfl rfl rfl rfl rfl rfl))

theorem pickIdle (s : Core) : Timed s (OsZ.pickIdle allowed s).1 := by
  unfold OsZ.pickIdle
  by_cases h7 : s.ccb.hdActive 7 = 0
  · rw [if_pos h7]
    have h1 : Timed s { s with isrNext := s.idleMapping } := of_eq rfl rfl rfl rfl rfl rfl
    have h2 : Timed s { s with isrNext := s.idleMapping, idleFirst := false } :=
      of_eq rfl rfl rfl rfl rfl rfl
    exact ite (h2.trans (ready _)) h1
  · rw [if_neg h7]
    exact (ite (setCursor ..) (refl s)).trans (found ..)

theorem again {n : Nat} {b : Bool} {r : Core × Nat} (h : pickAgain allowed n s b = some r) :
    Timed s r.1 := by
  obtain ⟨u, c, hu, -, hres⟩ := Queues.pickAgain_cases (P := Timed s)
    (fun _ l b hu => hu.trans (scan _ l b)) (refl s) h
  obtain ⟨i, -, rfl⟩ | rfl := hres
  · exact hu.trans (found ..)
  · exact hu.trans (pickIdle ..)

end Timed

/-! ## the walk -/

/-- `p` is linked behind `a` -/
def linkBehind (T : Nat → Tcb) (a p : Nat) (x : Nat) : Tcb :=
  { T x with alarm := if x = a then p else if x = p then (T a).alarm else (T x).alarm }

section
variable {b prev sec nsec n : Nat}

theorem kmap_tcb (s : Core) (w : Win) (b : Nat) : (s.kmap w b).tcb w = s.tcbs b := by
  simp [Core.tcb, Core.kmap]

theorem alarmWalk_next (hb : s.IsPid b) (h : (s.tcbs b).later sec nsec = false)
    (h0 : (s.tcbs b).alarm ≠ 0) : alarmWalk p sec nsec (n + 1) s b prev =
      alarmWalk p sec nsec n (s.kmap .tmpmap b) (s.tcbs b).alarm b := by
  rw [alarmWalk, schedGetTcb_pid hb rfl]
  dsimp only
  rw [kmap_tcb, h, if_neg (by decide), if_neg h0]

theorem alarmWalk_last (hb : s.IsPid b) (h : (s.tcbs b).later sec nsec = false)
    (h0 : (s.tcbs b).alarm = 0) (hp0 : (s.tcbs p).alarm = 0) :
    alarmWalk p sec nsec (n + 1) s b prev =
      some { s with tcbs := linkBehind s.tcbs b p, win := update s.win .tmpmap b } := by
  have hT : update s.tcbs b { s.tcbs b with alarm := p } = linkBehind s.tcbs b p := by
    funext x
    unfold linkBehind
    rw [update_apply, h0]
    by_cases hx : x = b
    · rw [if_pos hx, if_pos hx, hx]
    · rw [if_neg hx, if_neg hx]
      split_ifs with hxp
      · rw [← hp0, ← hxp]
      · rfl
  rw [alarmWalk, schedGetTcb_pid hb rfl]
  dsimp only
  rw [kmap_tcb, h, if_neg (by decide), if_pos h0, ← hT]
  simp [Core.put, Core.kmap]

theorem alarmWalk_between (hb : s.IsPid b) (hv : s.IsPid prev) (hp : s.IsPid p) (hne : p ≠ prev)
    (h : (s.tcbs b).later sec nsec = true) (h0 : (s.tcbs prev).alarm = b) :
    alarmWalk p sec nsec (n + 1) s b prev =
      some { s with tcbs := linkBehind s.tcbs prev p, win := update s.win .tmpmap p } := by
  have hT : update (update s.tcbs prev { s.tcbs prev with alarm := p }) p
      { s.tcbs p with alarm := b } = linkBehind s.tcbs prev p := by
    funext x
    unfold linkBehind
    rw [update_apply, update_apply, h0]
    by_cases hx : x = p
    · rw [if_pos hx, if_neg (fun e => hne (hx.symm.trans e)), if_pos hx, hx]
    · rw [if_neg hx, if_neg hx]
      split_ifs with hxv
      · rw [hxv]
      · rfl
  rw [alarmWalk, schedGetTcb_pid hb rfl]
  dsimp only
  rw [kmap_tcb, if_pos h, if_neg hv.1, schedGetTcb_pid (u := s.kmap .tmpmap b) hv rfl]
  dsimp only
  rw [kmap_tcb, schedGetTcb_pid hp]
  · dsimp only
    rw [kmap_tcb, ← hT]
    simp [Core.put, Core.kmap, hne]
  · rfl

theorem alarmWalk_spec (sec nsec prev : Nat) {hd : Nat} {A B : List Nat}
    (hl : SList (fun x => (s.tcbs x).alarm) hd (A ++ b :: B))
    (hid : ∀ x ∈ A ++ b :: B, s.IsPid x) (hpid : s.IsPid p) (hp : p ∉ A ++ b :: B)
    (hp0 : (s.tcbs p).alarm = 0) (hA : ∀ x ∈ A, (s.tcbs x).later sec nsec = false)
    (hprev : (s.tcbs b).later sec nsec = true → ∃ A', A = A' ++ [prev]) (hn : B.length < n) :
    ∃ m A' a B', alarmWalk p sec nsec n s b prev =
        some { s with tcbs := linkBehind s.tcbs a p, win := update s.win .tmpmap m } ∧
      A ++ b :: B = A' ++ a :: B' ∧ (∀ x ∈ A' ++ [a], (s.tcbs x).later sec nsec = false) ∧
      ∀ c ∈ B'.head?, (s.tcbs c).later sec nsec = true := by
  induction n generalizing s A b B prev with
  | zero => cases hn
  | succ n ih =>
    have hb : s.IsPid b := hid b (by simp)
    by_cases hlate : (s.tcbs b).later sec nsec = true
    · obtain ⟨A', rfl⟩ := hprev hlate
      have hl' : SList (fun x => (s.tcbs x).alarm) hd (A' ++ prev :: b :: B) := by
        rwa [List.append_assoc] at hl
      have hlink : (s.tcbs prev).alarm = b := hl'.drop.1
      refine ⟨p, A', prev, b :: B, ?_, by simp, hA, ?_⟩
      · refine alarmWalk_between hb (hid prev (by simp)) hpid (fun e => hp ?_) hlate hlink
        simp [e]
      · intro c hc
        rw [← Option.some.inj hc]
        exact hlate
    rw [Bool.not_eq_true] at hlate
    have hA' : ∀ x ∈ A ++ [b], (s.tcbs x).later sec nsec = false := by
      intro x hx
      obtain hx | hx := List.mem_append.mp hx
      · exact hA x hx
      · rw [List.mem_singleton.mp hx]
        exact hlate
    by_cases h0 : (s.tcbs b).alarm = 0
    · refine ⟨b, A, b, B, alarmWalk_last hb hlate h0 hp0, rfl, hA', ?_⟩
      have hB : B = [] := by
        have h1 : SList (fun x => (s.tcbs x).alarm) 0 B := by
          have := hl.drop
          rwa [h0] at this
        cases B with
        | nil => rfl
        | cons c B => exact absurd h1.1.symm h1.2.1
      rw [hB]
      intro c hc
      cases hc
    · obtain ⟨B', rfl⟩ := hl.drop.eq_cons h0
      have he : A ++ b :: (s.tcbs b).alarm :: B' = (A ++ [b]) ++ (s.tcbs b).alarm :: B' := by simp
      obtain ⟨m, A', a, B'', h1, h2, h3, h4⟩ := ih b (s := s.kmap .tmpmap b) (A := A ++ [b])
        (b := (s.tcbs b).alarm) (B := B') (he ▸ hl) (he ▸ hid) hpid (he ▸ hp) hp0 hA'
        (fun _ => ⟨A, rfl⟩) (by simpa using hn)
      refine ⟨m, A', a, B'', ?_, he.trans h2, h3, h4⟩
      rw [alarmWalk_next hb hlate h0, h1]
      simp [Core.kmap]

end
/-! ## the queue -/

/-- the alarm of `t` is not after that of `t'` -/
def Tcb.NotAfter (t t' : Tcb) : Prop :=
  t.alarmsec < t'.alarmsec ∨ t.alarmsec = t'.alarmsec ∧ t.alarmns ≤ t'.alarmns

structure Timers (s : Core) (tasks L : List Nat) : Prop where
  list : SList (fun x => (s.tcbs x).alarm) s.ccb.hdTimerq L
  sorted : L.Pairwise (fun x y => (s.tcbs x).NotAfter (s.tcbs y))
  blocked : ∀ x ∈ L, x ∈ tasks ∧ (s.tcbs x).state = .blocked
  head : s.ccb.hdTimerq ≠ 0 → s.win .tmpalarm = s.ccb.hdTimerq
  /-- the last task of the queue needs no link of its own -/
  clear : ∀ x ∈ tasks, x ∉ L → (s.tcbs x).alarm = 0

theorem Tcb.NotAfter.trans {t t' t'' : Tcb} (h : t.NotAfter t') (h' : t'.NotAfter t'') :
    t.NotAfter t'' := by
  unfold Tcb.NotAfter at *
  omega

theorem Tcb.notAfter_of_later {t t' : Tcb} (h : t'.later t.alarmsec t.alarmns = true) :
    t.NotAfter t' := by
  have h := of_decide_eq_true h
  unfold Tcb.NotAfter
  omega

theorem Tcb.notAfter_of_not_later {t t' : Tcb} (h : t.later t'.alarmsec t'.alarmns = false) :
    t.NotAfter t' := by
  have h := of_decide_eq_false h
  unfold Tcb.NotAfter
  omega

namespace Timers
variable {L : List Nat}

theorem frame (h : Timers s tasks L) (h1 : ∀ x ∈ L, (s'.tcbs x).alarmsec = (s.tcbs x).alarmsec)
    (h2 : ∀ x ∈ L, (s'.tcbs x).alarmns = (s.tcbs x).alarmns)
    (h3 : ∀ x ∈ L, (s'.tcbs x).state = (s.tcbs x).state)
    (h4 : ∀ x, (s'.tcbs x).alarm = (s.tcbs x).alarm) (hq : s'.ccb.hdTimerq = s.ccb.hdTimerq)
    (hw : s'.win .tmpalarm = s.win .tmpalarm) : Timers s' tasks L := by
  refine ⟨?_, ?_, fun x hx => ?_, ?_, fun x hx hn => ?_⟩
  · rw [hq]
    exact h.list.frame (fun x _ => h4 x)
  · refine h.sorted.imp_of_mem (fun {x y} hx hy hxy => ?_)
    unfold Tcb.NotAfter
    rw [h1 x hx, h1 y hy, h2 x hx, h2 y hy]
    exact hxy
  · rw [h3 x hx]
    exact h.blocked x hx
  · rw [hq, hw]
    exact h.head
  · rw [h4]
    exact h.clear x hx hn

theorem timed (h : Timers s tasks L) (ht : Timed s s')
    (hs : ∀ x ∈ L, (s'.tcbs x).state = (s.tcbs x).state) : Timers s' tasks L :=
  h.frame (fun x _ => ht.sec x) (fun x _ => ht.ns x) hs ht.alarm ht.timerq ht.tmpalarm

theorem not_mem (h : Timers s tasks L) (hr : (s.tcbs p).state = .running) : p ∉ L := by
  intro hp
  rw [(h.blocked p hp).2] at hr
  cases hr

theorem head_eq (h : Timers s tasks L) (h0 : s.ccb.hdTimerq ≠ 0) :
    ∃ L', L = s.win .tmpalarm :: L' := by
  rw [h.head h0]
  exact h.list.eq_cons h0

theorem enqueue_first (h : Timers s tasks L) (hp : p ∈ tasks) (hpL : p ∉ L) (hp0 : p ≠ 0)
    (hs : (s.tcbs p).state = .blocked) (hw : s.win .tmpmap = p)
    (hf : s.ccb.hdTimerq = 0 ∨
      (s.tcb .tmpalarm).later (s.tcbs p).alarmsec (s.tcbs p).alarmns = true) :
    Timers (((s.put .tmpmap { s.tcb .tmpmap with alarm := s.ccb.hdTimerq }).setTimerq p).kmap
      .tmpalarm p) tasks (p :: L) := by
  have hT : ∀ x, update s.tcbs p { s.tcbs p with alarm := s.ccb.hdTimerq } x =
      { s.tcbs x with alarm := if x = p then s.ccb.hdTimerq else (s.tcbs x).alarm } := by
    intro x
    rw [update_apply]
    split_ifs with hx
    · rw [hx]
    · rfl
  -- nothing in the queue is before its head
  have hall : ∀ y ∈ L, (s.tcbs p).NotAfter (s.tcbs y) := by
    intro y hy
    have h0 : s.ccb.hdTimerq ≠ 0 := by
      intro e
      have hl := h.list
      rw [e] at hl
      have hL : L = [] := hl.unique rfl
      rw [hL] at hy
      cases hy
    obtain ⟨L', rfl⟩ := h.head_eq h0
    have hlate := Tcb.notAfter_of_later (hf.resolve_left h0)
    obtain rfl | hy := List.mem_cons.mp hy
    · exact hlate
    · exact hlate.trans ((List.pairwise_cons.mp h.sorted).1 y hy)
  have htc : s.tcb .tmpmap = s.tcbs p := congrArg s.tcbs hw
  obtain ⟨v, hv⟩ : ∃ v, v = ((s.put .tmpmap { s.tcb .tmpmap with
    alarm := s.ccb.hdTimerq }).setTimerq p).kmap .tmpalarm p := ⟨_, rfl⟩
  have hvT : ∀ x, v.tcbs x =
      { s.tcbs x with alarm := if x = p then s.ccb.hdTimerq else (s.tcbs x).alarm } := by
    intro x
    rw [hv, htc, ← hT x, ← hw]
    rfl
  have hvq : v.ccb.hdTimerq = p := by rw [hv]; rfl
  rw [← hv]
  refine ⟨?_, ?_, fun x hx => ?_, fun _ => ?_, fun x hx hxL => ?_⟩
  · rw [hvq]
    refine h.list.pushed hpL hp0 ?_ (fun x hx => ?_)
    · simp only [hvT, if_true]
    · simp only [hvT, if_neg hx]
  · refine List.pairwise_cons.mpr ⟨fun y hy => ?_, h.sorted.imp (fun {x y} hxy => ?_)⟩
    · rw [hvT p, hvT y]
      exact hall y hy
    · rw [hvT x, hvT y]
      exact hxy
  · rw [hvT x]
    obtain rfl | hx := List.mem_cons.mp hx
    · exact ⟨hp, hs⟩
    · exact h.blocked x hx
  · rw [hvq, hv]
    simp [Core.kmap]
  · have hxp : x ≠ p := fun e => hxL (e ▸ List.mem_cons_self ..)
    rw [hvT x]
    show (if x = p then _ else _) = 0
    rw [if_neg hxp]
    exact h.clear x hx (fun hm => hxL (List.mem_cons_of_mem _ hm))

theorem enqueue_behind {A B : List Nat} {a : Nat} (h : Timers s tasks (A ++ a :: B))
    (hp : p ∈ tasks) (hpL : p ∉ A ++ a :: B) (hp0 : p ≠ 0) (hs : (s.tcbs p).state = .blocked)
    (hA : ∀ x ∈ A ++ [a], (s.tcbs x).later (s.tcbs p).alarmsec (s.tcbs p).alarmns = false)
    (hB : ∀ c ∈ B.head?, (s.tcbs c).later (s.tcbs p).alarmsec (s.tcbs p).alarmns = true)
    (ht : s'.tcbs = linkBehind s.tcbs a p) (hq : s'.ccb.hdTimerq = s.ccb.hdTimerq)
    (hw : s'.win .tmpalarm = s.win .tmpalarm) : Timers s' tasks (A ++ a :: p :: B) := by
  have hpa : p ≠ a := fun e => hpL (by simp [e])
  have hmem : ∀ x, x ∈ A ++ a :: p :: B ↔ x = p ∨ x ∈ A ++ a :: B := by
    intro x
    simp only [List.mem_append, List.mem_cons]
    tauto
  -- what comes after is not before the first task of `B`
  have hlate : ∀ y ∈ B, (s.tcbs p).NotAfter (s.tcbs y) := by
    intro y hy
    cases B with
    | nil => cases hy
    | cons c B =>
      have hc := Tcb.notAfter_of_later (hB c rfl)
      obtain rfl | hy := List.mem_cons.mp hy
      · exact hc
      · have hs := (List.pairwise_append.mp h.sorted).2.1
        exact hc.trans ((List.pairwise_cons.mp (List.pairwise_cons.mp hs).2).1 y hy)
  have hkey : ∀ x y, (s'.tcbs x).NotAfter (s'.tcbs y) ↔ (s.tcbs x).NotAfter (s.tcbs y) := by
    intro x y
    rw [ht]
    exact Iff.rfl
  refine ⟨?_, ?_, fun x hx => ?_, ?_, fun x hx hxL => ?_⟩
  · rw [hq, ht]
    refine h.list.inserted hpL hp0 ?_ ?_ (fun x h1 h2 => ?_)
    · simp only [linkBehind, if_true]
    · simp only [linkBehind, if_neg hpa, if_true]
    · simp only [linkBehind, if_neg h1, if_neg h2]
  · simp only [hkey]
    obtain ⟨h1, h2, h3⟩ := List.pairwise_append.mp h.sorted
    obtain ⟨h4, h5⟩ := List.pairwise_cons.mp h2
    refine List.pairwise_append.mpr ⟨h1, List.pairwise_cons.mpr ⟨fun y hy => ?_,
      List.pairwise_cons.mpr ⟨hlate, h5⟩⟩, fun x hx y hy => ?_⟩
    · obtain rfl | hy := List.mem_cons.mp hy
      · exact Tcb.notAfter_of_not_later (hA a (by simp))
      · exact h4 y hy
    · obtain rfl | hy := List.mem_cons.mp hy
      · exact h3 x hx y (List.mem_cons_self ..)
      · obtain rfl | hy := List.mem_cons.mp hy
        · exact Tcb.notAfter_of_not_later (hA x (by simp [hx]))
        · exact h3 x hx y (List.mem_cons_of_mem _ hy)
  · rw [ht]
    obtain rfl | hx := (hmem x).mp hx
    · exact ⟨hp, hs⟩
    · exact h.blocked x hx
  · rw [hq, hw]
    exact h.head
  · rw [hmem, not_or] at hxL
    have hxa : x ≠ a := fun e => hxL.2 (by simp [e])
    rw [ht]
    show (if x = a then p else if x = p then _ else _) = 0
    rw [if_neg hxa, if_neg hxL.1]
    exact h.clear x hx hxL.2

end Timers
/-! ## the calls -/

/-- the state in which `sched_alarm` links the task -/
def Core.asleep (s : Core) (w : Win) (sec nsec : Nat) : Core :=
  let b := (schedBlock s w).kmap .tmpmap (s.tcb w).pid
  b.put .tmpmap { b.tcb .tmpmap with alarmsec := sec, alarmns := nsec }

section
variable {L : List Nat} {Q : QName → List Nat} {sec nsec n : Nat}

theorem schedBlock_state (h : Queues s tasks Q) (hp : s.win w ∈ tasks)
    (hr : (s.tcbs (s.win w)).state = .running) :
    ((schedBlock s w).tcbs (s.win w)).state = .blocked := by
  obtain ⟨T, he, hT⟩ := schedBlock_spec rfl (h.linked hp (Tcb.home_ne_blocked hr)) (h.task _ hp).memroot
  rw [he]
  show (T (s.win w)).state = _
  rw [hT _ (h.task _ hp).isPid.1, relink_state, if_pos rfl]

theorem schedAlarm_eq (hp : s.IsPid p) (hpid : (s.tcb w).pid = p)
    (hn : ¬(sec < s.ts ∨ s.ts = sec ∧ nsec < s.nts)) : schedAlarm n s w sec nsec =
      if (s.asleep w sec nsec).ccb.hdTimerq = 0 ∨
          ((s.asleep w sec nsec).tcb .tmpalarm).later sec nsec = true then
        some ((((s.asleep w sec nsec).put .tmpmap { (s.asleep w sec nsec).tcb .tmpmap with
          alarm := (s.asleep w sec nsec).ccb.hdTimerq }).setTimerq p).kmap .tmpalarm p)
      else alarmWalk p sec nsec n (s.asleep w sec nsec) s.ccb.hdTimerq 0 := by
  have hg := schedGetTcb_pid hp (Timed.block s w).addr
  unfold schedAlarm Core.asleep
  rw [if_neg hn]
  dsimp only
  rw [hpid, hg]

structure Asleep (s b : Core) (p sec nsec : Nat) : Prop where
  state : (b.tcbs p).state = .blocked
  sec : (b.tcbs p).alarmsec = sec
  ns : (b.tcbs p).alarmns = nsec
  win : ∀ y ≠ .tmpmap, b.win y = s.win y
  tmpmap : b.win .tmpmap = p
  timerq : b.ccb.hdTimerq = s.ccb.hdTimerq

theorem asleep_spec (sec nsec : Nat) (hb : SysBase tasks idle s) (ht : Timers s tasks L) (hp : s.win w ∈ tasks)
    (hr : (s.tcbs (s.win w)).state = .running) :
    SysBase tasks idle (s.asleep w sec nsec) ∧ Timers (s.asleep w sec nsec) tasks L ∧
      Asleep s (s.asleep w sec nsec) (s.win w) sec nsec := by
  obtain ⟨Q, hq⟩ := hb.queues
  have hpid : (s.tcb w).pid = s.win w := (hq.task _ hp).pid
  obtain ⟨-, hst, hw⟩ := schedBlock_kept hq hp hr
  have hs := schedBlock_state hq hp hr
  have hbb := hb.block hp hr
  have htm := Timed.block s w
  obtain ⟨a, ha⟩ : ∃ a, a = schedBlock s w := ⟨_, rfl⟩
  obtain ⟨b, hbe⟩ : ∃ b, b = s.asleep w sec nsec := ⟨_, rfl⟩
  rw [← ha] at hst hw hs hbb htm
  have hbT : ∀ x, b.tcbs x = { a.tcbs x with
      alarmsec := if x = s.win w then sec else (a.tcbs x).alarmsec
      alarmns := if x = s.win w then nsec else (a.tcbs x).alarmns } := by
    intro x
    rw [hbe]
    unfold Core.asleep
    dsimp only
    rw [hpid, ← ha, kmap_tcb]
    show update a.tcbs (update a.win .tmpmap (s.win w) .tmpmap) _ x = _
    rw [update_self, update_apply]
    split_ifs with hx
    · rw [hx]
    · rfl
  have hbw : b.win = (a.kmap .tmpmap (s.win w)).win := by
    rw [hbe, ha, ← hpid]
    rfl
  have hbc : b.ccb = a.ccb := by
    rw [hbe, ha]
    rfl
  have hbal : b.win .tmpalarm = a.win .tmpalarm := by
    rw [hbw]
    exact kmap_win (by decide)
  have hpL := ht.not_mem hr
  have hne : ∀ x ∈ L, x ≠ s.win w := fun x hx e => hpL (e ▸ hx)
  rw [← hbe]
  refine ⟨?_, ?_, ?_⟩
  · refine hbb.timers (fun x => ⟨_, _, _, hbT x⟩) (n := a.ccb.hdTimerq) hbc ?_ ?_ ?_ ?_ ?_
      (fun t ht => ?_)
    iterate 4
      rw [hbe, ha]
      rfl
    · rw [hbal]
      exact hbb.timer
    · rw [hbT t]
      exact hbb.alarms t ht
  · refine ht.frame (fun x hx => ?_) (fun x hx => ?_) (fun x hx => ?_) (fun x => ?_) ?_ ?_
    · rw [hbT x, ← htm.sec x]
      exact if_neg (hne x hx)
    · rw [hbT x, ← htm.ns x]
      exact if_neg (hne x hx)
    · rw [hbT x, ← hst x (ht.list.ne_zero hx) (hne x hx)]
    · rw [hbT x, ← htm.alarm x]
    · rw [hbc, htm.timerq]
    · rw [hbal, htm.tmpalarm]
  · refine ⟨?_, ?_, ?_, fun y hy => ?_, ?_, ?_⟩
    · rw [hbT]
      exact hs
    · rw [hbT]
      exact if_pos rfl
    · rw [hbT]
      exact if_pos rfl
    · rw [hbw, kmap_win hy]
      exact hw y hy
    · rw [hbw]
      simp [Core.kmap]
    · rw [hbc, htm.timerq]

theorem SysBase.relinked (h : SysBase tasks idle s) (ht : Timers s' tasks L)
    (hT : ∀ x, ∃ a b c, s'.tcbs x = { s.tcbs x with alarm := a, alarmsec := b, alarmns := c })
    (hc : s'.ccb = { s.ccb with hdTimerq := n }) (ha : s'.addr = s.addr)
    (hs : s'.services = s.services) (hr : s'.tcbOf = s.tcbOf)
    (hi : s'.idleMapping = s.idleMapping) : SysBase tasks idle s' := by
  have hq : s'.ccb.hdTimerq = n := by rw [hc]
  refine h.timers hT hc ha hs hr hi ?_ (fun t htt => ?_)
  · by_cases h0 : n = 0
    · exact Or.inl h0
    · obtain ⟨L', hL⟩ := ht.head_eq (hq.symm ▸ h0)
      exact Or.inr (ht.blocked _ (hL ▸ List.mem_cons_self ..)).1
  · by_cases htL : t ∈ L
    · by_cases h0 : (s'.tcbs t).alarm = 0
      · exact Or.inl h0
      · exact Or.inr (ht.blocked _ (ht.list.next_mem htL h0)).1
    · exact Or.inl (ht.clear t htt htL)

theorem alarmWalk_mono {m b prev : Nat} (h : alarmWalk p sec nsec n s b prev = some s')
    (hm : n ≤ m) : alarmWalk p sec nsec m s b prev = some s' := by
  induction n generalizing m s b prev with
  | zero => cases h
  | succ n ih =>
    obtain ⟨m, rfl⟩ : ∃ k, m = k + 1 := ⟨m - 1, by omega⟩
    rw [alarmWalk] at h ⊢
    obtain ⟨u, w, hg⟩ : ∃ u w, schedGetTcb s b = (u, w) := ⟨_, _, rfl⟩
    rw [hg] at h ⊢
    dsimp only at h ⊢
    split_ifs at h ⊢ with h1 h2
    · exact h
    · exact h
    · exact h
    · exact ih h (by omega)

theorem schedAlarm_mono {m : Nat} (h : schedAlarm n s w sec nsec = some s') (hm : n ≤ m) :
    schedAlarm m s w sec nsec = some s' := by
  unfold schedAlarm at h ⊢
  dsimp only at h ⊢
  split_ifs at h ⊢
  · exact h
  · exact h
  · exact alarmWalk_mono h hm

theorem schedAlarm_spec (sec nsec : Nat) (hb : SysBase tasks idle s) (ht : Timers s tasks L) (hp : s.win w ∈ tasks)
    (hr : (s.tcbs (s.win w)).state = .running) (hn : L.length ≤ n) :
    ∃ s' L', schedAlarm n s w sec nsec = some s' ∧ SysBase tasks idle s' ∧ Timers s' tasks L' ∧
      s'.win .cur = s.win .cur := by
  obtain ⟨Q, hq⟩ := hb.queues
  by_cases hpast : sec < s.ts ∨ s.ts = sec ∧ nsec < s.nts
  · refine ⟨_, L, schedAlarm_past hpast, (hb.awake (Or.inl hp)).1, ?_, ?_⟩
    · refine ht.timed (Timed.awake s w) (fun x _ => ?_)
      rw [schedAwake_running rfl hr]
    · rw [schedAwake_running rfl hr]
  rw [schedAlarm_eq (hq.task _ hp).isPid (hq.task _ hp).pid hpast]
  obtain ⟨hbb, htb, ha⟩ := asleep_spec sec nsec hb ht hp hr
  obtain ⟨b, hbe⟩ : ∃ b, b = s.asleep w sec nsec := ⟨_, rfl⟩
  rw [← hbe] at hbb htb ha ⊢
  obtain ⟨Qb, hqb⟩ := hbb.queues
  have hpL := ht.not_mem hr
  have hp0 : s.win w ≠ 0 := (hq.task _ hp).isPid.1
  by_cases hf : b.ccb.hdTimerq = 0 ∨ (b.tcb .tmpalarm).later sec nsec = true
  · rw [if_pos hf]
    have hT : Timers (((b.put .tmpmap { b.tcb .tmpmap with alarm := b.ccb.hdTimerq }).setTimerq
        (s.win w)).kmap .tmpalarm (s.win w)) tasks (s.win w :: L) := by
      refine htb.enqueue_first hp hpL hp0 ha.state ha.tmpmap ?_
      rw [ha.sec, ha.ns]
      exact hf
    refine ⟨_, _, rfl, hbb.relinked hT (fun x => ?_) rfl rfl rfl rfl rfl, hT, ?_⟩
    · show ∃ a b_1 c, update b.tcbs (b.win .tmpmap) _ x = _
      rw [update_apply]
      split_ifs with hx
      · exact ⟨b.ccb.hdTimerq, _, _, by rw [hx]; rfl⟩
      · exact ⟨_, _, _, rfl⟩
    · exact (kmap_win (y := .cur) (by decide)).trans (ha.win .cur (by decide))
  · rw [if_neg hf]
    obtain ⟨h0, hlate⟩ := not_or.mp hf
    rw [Bool.not_eq_true] at hlate
    obtain ⟨L', hL⟩ := htb.head_eq h0
    have hhd : b.win .tmpalarm = s.ccb.hdTimerq := (htb.head h0).trans ha.timerq
    rw [hhd] at hL
    have hlate' : (b.tcbs s.ccb.hdTimerq).later sec nsec = false := by
      rw [← hhd]
      exact hlate
    have hlen : L'.length < n := by
      rw [hL, List.length_cons] at hn
      omega
    obtain ⟨m, A, a, B, h1, h2, h3, h4⟩ := alarmWalk_spec sec nsec 0 (A := [])
      (b := s.ccb.hdTimerq) (B := L') (n := n) (by rw [← hL]; exact htb.list)
      (fun x hx => (hqb.task x (htb.blocked x (hL ▸ hx)).1).isPid) (hqb.task _ hp).isPid
      (by rw [← hL]; exact hpL) (htb.clear _ hp hpL) (fun x hx => nomatch hx)
      (fun e => absurd e (by rw [hlate']; decide)) hlen
    rw [List.nil_append, ← hL] at h2
    rw [h1]
    have hwin : update b.win .tmpmap m .tmpalarm = b.win .tmpalarm := by simp
    have hT : Timers { b with
        tcbs := linkBehind b.tcbs a (s.win w)
        win := update b.win .tmpmap m } tasks (A ++ a :: s.win w :: B) := by
      refine (h2 ▸ htb).enqueue_behind hp (h2 ▸ hpL) hp0 ha.state ?_ ?_ rfl rfl hwin
      · rw [ha.sec, ha.ns]
        exact h3
      · rw [ha.sec, ha.ns]
        exact h4
    refine ⟨_, _, rfl, hbb.relinked hT (fun x => ⟨_, _, _, rfl⟩) rfl rfl rfl rfl rfl, hT, ?_⟩
    exact (kmap_win (s := b) (y := .cur) (by decide)).trans (ha.win .cur (by decide))

theorem Timers.expire (hb : SysBase tasks idle s) (ht : Timers s tasks L)
    (h0 : s.ccb.hdTimerq ≠ 0) : ∃ L', Timers (alarmExpire s) tasks L' := by
  obtain ⟨L', rfl⟩ := ht.head_eq h0
  have hmem := (ht.blocked _ (List.mem_cons_self ..)).1
  have hnd := (List.nodup_cons.mp ht.list.nodup).1
  obtain ⟨-, ha⟩ := hb.awake (w := .tmpalarm) (Or.inl hmem)
  have htm := Timed.awake s .tmpalarm
  have he := alarmExpire_expired s
  obtain ⟨a, haw⟩ : ∃ a, a = schedAwake s .tmpalarm := ⟨_, rfl⟩
  obtain ⟨v, hv⟩ : ∃ v, v = alarmExpire s := ⟨_, rfl⟩
  rw [← haw] at ha htm he
  rw [← hv] at he ⊢
  have hn : (a.tcb .tmpalarm).alarm = (s.tcb .tmpalarm).alarm := by
    unfold Core.tcb
    rw [htm.tmpalarm, htm.alarm]
  have hal : ∀ x, (v.tcbs x).alarm = if x = s.win .tmpalarm then 0 else (s.tcbs x).alarm := by
    intro x
    rw [he.tcbs x, ← htm.tmpalarm, ← htm.alarm x]
  have hne : ∀ x ∈ L', x ≠ s.win .tmpalarm := fun x hx e => hnd (e ▸ hx)
  refine ⟨L', ?_, ?_, fun x hx => ?_, fun h => ?_, fun x hx hxL => ?_⟩
  · rw [he.ccb, hn]
    refine ht.list.2.2.frame (fun x hx => ?_)
    rw [hal x, if_neg (hne x hx)]
  · refine (List.pairwise_cons.mp ht.sorted).2.imp (fun {x y} hxy => ?_)
    unfold Tcb.NotAfter at hxy ⊢
    rw [he.tcbs x, he.tcbs y]
    dsimp only
    rw [htm.sec, htm.sec, htm.ns, htm.ns]
    exact hxy
  · have hx' := ht.blocked x (List.mem_cons_of_mem _ hx)
    refine ⟨hx'.1, ?_⟩
    rw [he.tcbs x]
    show (a.tcbs x).state = _
    rw [ha.state x (ht.list.ne_zero (List.mem_cons_of_mem _ hx)), if_neg (hne x hx)]
    exact hx'.2
  · rw [he.ccb] at h ⊢
    exact he.tmpalarm h
  · rw [hal x]
    split_ifs with hxt
    · rfl
    · exact ht.clear x hx (fun hm => (List.mem_cons.mp hm).elim hxt hxL)

end
end
end OsZ
