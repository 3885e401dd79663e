import OsZ.Sched.Model

/-!
# What the queue operations do

The operations map one TCB after the other at `tmpmap`.  For a task, whose number is no address of a
window, their results are given here without the windows:

* `linkNext_eq`, `linkPrev_eq`      one link is set, `tmpmap` is another page afterwards;
* `relink T p hd t`                 the pages after `p` left its queue for the one that starts at `hd`;
* `Linked s p hd`                   what that needs: `p`, its neighbours and `hd` are tasks;
* `schedAdd_spec`, `schedBlock_spec`, `schedAwake_spec`  the whole calls; afterwards the task is at
                                    `tmpmap`;
* `msgSends_cases`                  how `msg_sends` can end.
-/

namespace OsZ
open Function (update update_apply update_eq_self update_idem update_of_ne update_self)

/-- a number that `sched_get_tcb` takes for a page -/
def Core.IsPid (s : Core) (p : Nat) : Prop := p ≠ 0 ∧ ∀ w, p ≠ s.addr w

section
variable {s u : Core} {w : Win} {p v hd x : Nat} {t : Tcb} {T : Nat → Tcb}

@[simp] theorem Core.put_tcbs : (s.put w t).tcbs = update s.tcbs (s.win w) t := rfl

@[simp] theorem Core.put_ccb : (s.put w t).ccb = s.ccb := rfl

@[simp] theorem Core.put_tcb : (s.put w t).tcb w = t := update_self ..

theorem schedGetTcb_pid (h : s.IsPid p) (ha : u.addr = s.addr) :
    schedGetTcb u p = (u.kmap .tmpmap p, .tmpmap) := by
  have h2 : ∀ w, p ≠ u.addr w := by
    intro w
    rw [ha]
    exact h.2 w
  unfold schedGetTcb
  rw [if_neg h.1, if_neg (h2 _), if_neg (h2 _), if_neg (h2 _), if_neg (h2 _)]

/-! ## one link -/

def setNext (T : Nat → Tcb) (p v : Nat) : Nat → Tcb :=
  if p = 0 then T else update T p { T p with next := v }

def setPrev (T : Nat → Tcb) (p v : Nat) : Nat → Tcb :=
  if p = 0 then T else update T p { T p with prev := v }

theorem setNext_apply (hx : x ≠ 0) :
    setNext T p v x = if x = p then { T x with next := v } else T x := by
  unfold setNext
  by_cases h0 : p = 0
  · rw [if_pos h0, if_neg (fun e => hx (e.trans h0))]
  · rw [if_neg h0, update_apply]
    by_cases hp : x = p
    · rw [if_pos hp, if_pos hp, hp]
    · rw [if_neg hp, if_neg hp]

theorem setPrev_apply (hx : x ≠ 0) :
    setPrev T p v x = if x = p then { T x with prev := v } else T x := by
  unfold setPrev
  by_cases h0 : p = 0
  · rw [if_pos h0, if_neg (fun e => hx (e.trans h0))]
  · rw [if_neg h0, update_apply]
    by_cases hp : x = p
    · rw [if_pos hp, if_pos hp, hp]
    · rw [if_neg hp, if_neg hp]

theorem linkNext_eq (h : p = 0 ∨ s.IsPid p) (ha : u.addr = s.addr) (v : Nat) :
    ∃ m, linkNext u p v =
      { u with tcbs := setNext u.tcbs p v, win := update u.win .tmpmap m } := by
  unfold linkNext setNext
  obtain rfl | h := h
  · exact ⟨u.win .tmpmap, by rw [if_pos rfl, if_pos rfl, update_eq_self]⟩
  · refine ⟨p, ?_⟩
    rw [if_neg h.1, if_neg h.1, schedGetTcb_pid h ha]
    simp [Core.put, Core.kmap, Core.tcb]

theorem linkPrev_eq (h : p = 0 ∨ s.IsPid p) (ha : u.addr = s.addr) (v : Nat) :
    ∃ m, linkPrev u p v =
      { u with tcbs := setPrev u.tcbs p v, win := update u.win .tmpmap m } := by
  unfold linkPrev setPrev
  obtain rfl | h := h
  · exact ⟨u.win .tmpmap, by rw [if_pos rfl, if_pos rfl, update_eq_self]⟩
  · refine ⟨p, ?_⟩
    rw [if_neg h.1, if_neg h.1, schedGetTcb_pid h ha]
    simp [Core.put, Core.kmap, Core.tcb]

/-! ## one task -/

/-- `p` with the fields of `t` leaves its queue and becomes the first one of the queue at `hd` -/
def relink (T : Nat → Tcb) (p hd : Nat) (t : Tcb) (x : Nat) : Tcb :=
  if x = p then { t with next := hd, prev := 0 }
  else { T x with
    next := if x = (T p).prev then (T p).next else (T x).next
    prev := if x = hd then p else if x = (T p).next then (T p).prev else (T x).prev }

structure Linked (s : Core) (p hd : Nat) : Prop where
  pid : (s.tcbs p).pid = p
  isPid : s.IsPid p
  next : (s.tcbs p).next = 0 ∨ s.IsPid (s.tcbs p).next ∧ (s.tcbs p).next ≠ p
  prev : (s.tcbs p).prev = 0 ∨ s.IsPid (s.tcbs p).prev ∧ (s.tcbs p).prev ≠ p
  head : hd = 0 ∨ s.IsPid hd ∧ hd ≠ p ∧ hd ≠ (s.tcbs p).next

theorem Linked.next_pid (h : Linked s p hd) : (s.tcbs p).next = 0 ∨ s.IsPid (s.tcbs p).next :=
  h.next.imp_right And.left

theorem Linked.prev_pid (h : Linked s p hd) : (s.tcbs p).prev = 0 ∨ s.IsPid (s.tcbs p).prev :=
  h.prev.imp_right And.left

theorem Linked.head_pid (h : Linked s p hd) : hd = 0 ∨ s.IsPid hd := h.head.imp_right And.left

theorem schedAdd_spec (hw : s.win w = p) (hpid : (s.tcbs p).pid = p) (hp : s.IsPid p)
    (hhd : s.ccb.hdActive (s.tcbs p).priority = hd) (hh : hd = 0 ∨ s.IsPid hd) :
    ∃ m, schedAdd s w = { s with
      tcbs := setPrev (update s.tcbs p { s.tcbs p with prev := 0, next := hd }) hd p
      ccb := { s.ccb with hdActive := update s.ccb.hdActive (s.tcbs p).priority p }
      win := update s.win .tmpmap m } := by
  subst hw hhd
  -- the state before the old head of the queue is looked at
  obtain ⟨a, ha⟩ : ∃ a, a = (s.put w { s.tcb w with
      prev := 0, next := s.ccb.hdActive (s.tcb w).priority }).setHead (s.tcb w).priority
        (s.tcb w).pid := ⟨_, rfl⟩
  have he : schedAdd s w = if (a.tcb w).next = 0 then a
      else (schedGetTcb (linkPrev a (a.tcb w).next (s.tcb w).pid) (s.tcb w).pid).1 := by
    rw [ha]
    rfl
  have hn : (a.tcb w).next = s.ccb.hdActive (s.tcb w).priority := by
    rw [ha]
    show ((s.put w _).tcb w).next = _
    rw [Core.put_tcb]
  rw [he, hn, show (s.tcb w).pid = s.win w from hpid]
  rw [show (s.tcb w).pid = s.win w from hpid] at ha
  by_cases h0 : s.ccb.hdActive (s.tcb w).priority = 0
  · refine ⟨s.win .tmpmap, ?_⟩
    rw [if_pos h0, update_eq_self, ha]
    unfold setPrev
    rw [if_pos (show s.ccb.hdActive (s.tcbs (s.win w)).priority = 0 from h0)]
    rfl
  · obtain ⟨m, hm⟩ := linkPrev_eq (u := a) hh (by rw [ha]; rfl) (s.win w)
    refine ⟨s.win w, ?_⟩
    rw [if_neg h0, show linkPrev a (s.ccb.hdActive (s.tcb w).priority) (s.win w) = _ from hm,
      schedGetTcb_pid hp (by rw [ha]; rfl)]
    unfold Core.kmap
    rw [update_idem, ha]
    rfl

/-- the task `p` of level `i` leaves, `n` is the next one -/
def Ccb.drop (c : Ccb) (i p n : Nat) : Ccb :=
  { c with
    hdActive := if c.hdActive i = p then update c.hdActive i n else c.hdActive
    crActive := if c.crActive i = p then update c.crActive i n else c.crActive }

theorem schedRemove_spec (hw : s.win w = p) (h : Linked s p hd) (hu : u.addr = s.addr)
    (huw : u.win = s.win) (hut : u.tcbs p = t) (hn : t.next = (s.tcbs p).next)
    (hv : t.prev = (s.tcbs p).prev) (hpid : t.pid = p) :
    ∃ m, schedRemove u w = { u with
      tcbs := setPrev (setNext (update u.tcbs p { t with prev := 0, next := 0 })
        t.prev t.next) t.next t.prev
      ccb := u.ccb.drop t.priority p t.next
      win := update u.win .tmpmap m } := by
  have htw : u.tcb w = t := by
    show u.tcbs (u.win w) = t
    rw [huw, hw, hut]
  obtain ⟨a, ha⟩ : ∃ a, a = { u with
      tcbs := update u.tcbs p { t with prev := 0, next := 0 }
      ccb := u.ccb.drop t.priority p t.next } := ⟨_, rfl⟩
  have he : schedRemove u w = linkPrev (linkNext a t.prev t.next) t.next t.prev := by
    unfold schedRemove
    rw [htw]
    have hput : u.put w { t with prev := 0, next := 0 } =
        { u with tcbs := update u.tcbs p { t with prev := 0, next := 0 } } := by
      unfold Core.put
      rw [huw, hw]
    simp only [hput]
    rw [ha]
    unfold Ccb.drop
    rw [hpid]
    by_cases h1 : u.ccb.hdActive t.priority = p <;> by_cases h2 : u.ccb.crActive t.priority = p <;>
      simp only [Core.setHead, Core.setCursor, if_pos, if_neg, h1, h2, not_false_eq_true]
  have haa : a.addr = s.addr := by
    rw [ha]
    exact hu
  obtain ⟨m1, hm1⟩ := linkNext_eq (u := a) (hv ▸ h.prev_pid) haa t.next
  obtain ⟨m2, hm2⟩ := linkPrev_eq (u := { a with
    tcbs := setNext a.tcbs t.prev t.next, win := update a.win .tmpmap m1 })
    (hn ▸ h.next_pid) haa t.prev
  refine ⟨m2, ?_⟩
  rw [he, hm1, hm2]
  dsimp only
  rw [update_idem, ha]

/-! ## whole calls -/

theorem schedBlock_spec (hw : s.win w = p) (h : Linked s p s.ccb.hdBlocked)
    (hi : (s.tcbs p).memroot ≠ s.idleMapping) :
    ∃ T, schedBlock s w = { s with
        tcbs := T
        ccb := { s.ccb.drop (s.tcbs p).priority p (s.tcbs p).next with hdBlocked := p }
        win := update s.win .tmpmap p } ∧
      ∀ x ≠ 0, T x = relink s.tcbs p s.ccb.hdBlocked
        { s.tcbs p with blktime := s.lo, state := .blocked } x := by
  have htw : s.tcb w = s.tcbs p := congrArg s.tcbs hw
  obtain ⟨t, ht⟩ : ∃ t : Tcb, t = { s.tcbs p with blktime := s.lo, state := .blocked } := ⟨_, rfl⟩
  have hn : t.next = (s.tcbs p).next := by rw [ht]
  have hv : t.prev = (s.tcbs p).prev := by rw [ht]
  have hpid : t.pid = p := by rw [ht]; exact h.pid
  have hpri : t.priority = (s.tcbs p).priority := by rw [ht]
  have hut : (s.put w t).tcbs p = t := by
    rw [Core.put_tcbs, hw, update_self]
  obtain ⟨m1, hm1⟩ := schedRemove_spec (u := s.put w t) hw h rfl rfl hut hn hv hpid
  obtain ⟨b, hb⟩ : ∃ b, b = schedRemove (s.put w t) w := ⟨_, rfl⟩
  have hba : b.addr = s.addr := by rw [hb, hm1]; rfl
  have hbb : b.ccb.hdBlocked = s.ccb.hdBlocked := by rw [hb, hm1]; rfl
  obtain ⟨m2, hm2⟩ := linkPrev_eq (u := b) h.head_pid hba p
  obtain ⟨c, hc⟩ : ∃ c, c = linkPrev b s.ccb.hdBlocked p := ⟨_, rfl⟩
  have hca : c.addr = s.addr := by rw [hc, hm2]; exact hba
  have hcb : c.ccb.hdBlocked = s.ccb.hdBlocked := by rw [hc, hm2]; exact hbb
  have he : schedBlock s w = ((c.kmap .tmpmap p).put .tmpmap { c.tcbs p with
      next := s.ccb.hdBlocked, prev := 0, state := .blocked }).setBlocked p := by
    unfold schedBlock
    rw [htw, if_neg hi]
    simp only
    rw [← ht, ← hb, h.pid, hbb, ← hc, schedGetTcb_pid h.isPid hca]
    dsimp only
    rw [show (c.kmap .tmpmap p).ccb.hdBlocked = _ from hcb]
    simp [Core.tcb, Core.kmap]
  have hcs : c = { s with
      tcbs := setPrev (setPrev (setNext (update s.tcbs p { t with prev := 0, next := 0 })
        t.prev t.next) t.next t.prev) s.ccb.hdBlocked p
      ccb := s.ccb.drop t.priority p t.next
      win := update s.win .tmpmap m2 } := by
    rw [hc, hm2, hb, hm1]
    dsimp only [Core.put]
    rw [hw, update_idem, update_idem]
  refine ⟨update c.tcbs p { c.tcbs p with
    next := s.ccb.hdBlocked, prev := 0, state := .blocked }, ?_, fun x hx => ?_⟩
  · rw [he, hcs]
    dsimp only [Core.put, Core.kmap, Core.setBlocked]
    rw [update_idem, update_self, hpri, hn]
  · rw [hcs]
    dsimp only
    rw [update_apply]
    unfold relink
    by_cases hxp : x = p
    · rw [if_pos hxp, if_pos hxp]
      rw [setPrev_apply h.isPid.1, setPrev_apply h.isPid.1, setNext_apply h.isPid.1,
        update_self, ht]
      split_ifs <;> rfl
    · rw [if_neg hxp, if_neg hxp, setPrev_apply hx, setPrev_apply hx, setNext_apply hx,
        update_of_ne hxp, hn, hv]
      split_ifs <;> rfl

/-- the fields of a task that is awaken, but for the links -/
def Tcb.awaken (t : Tcb) (lo : Nat) : Tcb :=
  { t with blkcnt := w64 (t.blkcnt + sub64 lo t.blktime), blktime := 0, state := .running }

theorem schedAwake_running (hw : s.win w = p) (hr : (s.tcbs p).state = .running) :
    schedAwake s w = { s with isrNext := (s.tcbs p).memroot } := by
  have htw : s.tcb w = s.tcbs p := congrArg s.tcbs hw
  have hput : s.put w { s.tcb w with state := .running } = s := by
    unfold Core.put
    rw [htw, ← hr, hw]
    exact congrArg (fun T => { s with tcbs := T }) (update_eq_self p s.tcbs)
  have h1 : ¬(s.tcb w).state = .hybernated := by
    rw [htw, hr]
    decide
  have h2 : ¬(s.tcb w).state = .blocked := by
    rw [htw, hr]
    decide
  unfold schedAwake
  dsimp only
  rw [if_neg h1, if_neg h2]
  dsimp only
  rw [hput, htw]

theorem awakeBlocked_spec (hw : s.win w = p) (h : Linked s p (s.ccb.hdActive (s.tcbs p).priority))
    (hu : u.addr = s.addr) (huw : u.win = s.win) (hut : u.tcbs p = t) (huc : u.ccb = s.ccb)
    (hpid : t.pid = p) (hpri : t.priority = (s.tcbs p).priority) :
    awakeBlocked u w p (s.tcbs p).next (s.tcbs p).prev = ({ u with
      tcbs := setPrev (setNext (setPrev (update u.tcbs p { t with
          blkcnt := w64 (t.blkcnt + sub64 u.lo t.blktime), blktime := 0, prev := 0,
          next := s.ccb.hdActive (s.tcbs p).priority })
        (s.ccb.hdActive (s.tcbs p).priority) p) (s.tcbs p).prev (s.tcbs p).next)
        (s.tcbs p).next (s.tcbs p).prev
      ccb := { s.ccb with
        hdActive := update s.ccb.hdActive (s.tcbs p).priority p
        hdBlocked := if s.ccb.hdBlocked = p then (s.tcbs p).next else s.ccb.hdBlocked }
      win := update u.win .tmpmap p }, .tmpmap) := by
  have htw : u.tcb w = t := by
    show u.tcbs (u.win w) = t
    rw [huw, hw, hut]
  obtain ⟨t', ht'⟩ : ∃ t' : Tcb, t' = { t with
    blkcnt := w64 (t.blkcnt + sub64 u.lo t.blktime), blktime := 0 } := ⟨_, rfl⟩
  have hat : (u.put w t').tcbs p = t' := by
    rw [Core.put_tcbs, huw, hw, update_self]
  have hpid' : t'.pid = p := by rw [ht']; exact hpid
  have hpri' : t'.priority = (s.tcbs p).priority := by rw [ht']; exact hpri
  have hpidu : ∀ x, s.IsPid x → (u.put w t').IsPid x := by
    intro x hx
    unfold Core.IsPid
    rw [show (u.put w t').addr = s.addr from hu]
    exact hx
  obtain ⟨m1, hm1⟩ := schedAdd_spec (s := u.put w t') (p := p)
    (show u.win w = p by rw [huw, hw]) (by rw [hat, hpid']) (hpidu p h.isPid) rfl
    (by rw [hat, Core.put_ccb, huc, hpri']; exact h.head_pid.imp_right (hpidu _))
  rw [hat, hpri', Core.put_ccb, huc] at hm1
  -- the state before the old neighbours are looked at
  obtain ⟨b, hb⟩ : ∃ b, b = { u with
      tcbs := setPrev (update u.tcbs p { t' with
        prev := 0, next := s.ccb.hdActive (s.tcbs p).priority })
        (s.ccb.hdActive (s.tcbs p).priority) p
      ccb := { s.ccb with
        hdActive := update s.ccb.hdActive (s.tcbs p).priority p
        hdBlocked := if s.ccb.hdBlocked = p then (s.tcbs p).next else s.ccb.hdBlocked }
      win := update u.win .tmpmap m1 } := ⟨_, rfl⟩
  have he : awakeBlocked u w p (s.tcbs p).next (s.tcbs p).prev = schedGetTcb
      (linkPrev (linkNext b (s.tcbs p).prev (s.tcbs p).next) (s.tcbs p).next (s.tcbs p).prev) p := by
    unfold awakeBlocked
    dsimp only
    rw [htw, ← ht', hm1, hb]
    dsimp only [Core.put]
    rw [huw, hw, update_idem]
    by_cases h1 : s.ccb.hdBlocked = p
    · rw [if_pos h1, if_pos h1]
      rfl
    · rw [if_neg h1, if_neg h1]
  have hba : b.addr = s.addr := by
    rw [hb]
    exact hu
  obtain ⟨m2, hm2⟩ := linkNext_eq (u := b) h.prev_pid hba (s.tcbs p).next
  obtain ⟨m3, hm3⟩ := linkPrev_eq (u := { b with
    tcbs := setNext b.tcbs (s.tcbs p).prev (s.tcbs p).next
    win := update b.win .tmpmap m2 }) h.next_pid hba (s.tcbs p).prev
  rw [he, hm2, hm3, schedGetTcb_pid h.isPid]
  · dsimp only [Core.kmap]
    rw [hb]
    dsimp only
    rw [update_idem, update_idem, update_idem, ht']
  · exact hba

theorem schedAwake_spec (hw : s.win w = p)
    (h : Linked s p (s.ccb.hdActive (s.tcbs p).priority)) (hb : (s.tcbs p).state ≠ .running) :
    ∃ T, schedAwake s w = { s with
        tcbs := T
        ccb := { s.ccb with
          hdActive := update s.ccb.hdActive (s.tcbs p).priority p
          hdBlocked := if s.ccb.hdBlocked = p then (s.tcbs p).next else s.ccb.hdBlocked }
        win := update s.win .tmpmap p
        isrNext := (s.tcbs p).memroot } ∧
      ∀ x ≠ 0, T x = relink s.tcbs p (s.ccb.hdActive (s.tcbs p).priority)
        ((s.tcbs p).awaken s.lo) x := by
  have htw : s.tcb w = s.tcbs p := congrArg s.tcbs hw
  obtain ⟨t, ht⟩ : ∃ t : Tcb, t = { s.tcbs p with state := .blocked } := ⟨_, rfl⟩
  -- a hybernated task is a blocked one first
  have hu : (if (s.tcbs p).state = .hybernated then s.put w { s.tcbs p with state := .blocked }
      else s) = { s with tcbs := update s.tcbs p t } := by
    cases hst : (s.tcbs p).state with
    | running => exact absurd hst hb
    | hybernated =>
      rw [if_pos rfl, ht]
      unfold Core.put
      rw [hw]
    | blocked =>
      have : s.tcbs p = t := by rw [ht, ← hst]
      rw [if_neg (by decide), ← this, update_eq_self]
  have hut : update s.tcbs p t p = t := update_self ..
  have ha := awakeBlocked_spec (u := { s with tcbs := update s.tcbs p t }) hw h rfl rfl hut
    rfl (by rw [ht]; exact h.pid) (by rw [ht])
  have he : schedAwake s w = (fun a : Core × Win =>
      let s := a.1.put a.2 { a.1.tcb a.2 with state := .running }
      { s with isrNext := (s.tcb a.2).memroot })
      (awakeBlocked { s with tcbs := update s.tcbs p t } w p (s.tcbs p).next
        (s.tcbs p).prev) := by
    unfold schedAwake
    dsimp only
    rw [htw, hu, if_pos, h.pid]
    show (update s.tcbs p t (s.win w)).state = _
    rw [hw, hut, ht]
  dsimp only at ha
  rw [update_idem] at ha
  rw [he, ha]
  obtain ⟨a, hat⟩ : ∃ a : Tcb, a = { t with
    blkcnt := w64 (t.blkcnt + sub64 s.lo t.blktime), blktime := 0, prev := 0,
    next := s.ccb.hdActive (s.tcbs p).priority } := ⟨_, rfl⟩
  obtain ⟨A, hA⟩ : ∃ A, A = setPrev (setNext (setPrev (update s.tcbs p a)
      (s.ccb.hdActive (s.tcbs p).priority) p) (s.tcbs p).prev (s.tcbs p).next)
      (s.tcbs p).next (s.tcbs p).prev := ⟨_, rfl⟩
  -- the links of `p` itself are those that `sched_add` has set
  have hAp : A p = a := by
    have h1 : p ≠ (s.tcbs p).next := fun e => h.next.elim (fun h0 => h.isPid.1 (e.trans h0))
      (fun h0 => h0.2 e.symm)
    have h2 : p ≠ (s.tcbs p).prev := fun e => h.prev.elim (fun h0 => h.isPid.1 (e.trans h0))
      (fun h0 => h0.2 e.symm)
    have h3 : p ≠ s.ccb.hdActive (s.tcbs p).priority := fun e =>
      h.head.elim (fun h0 => h.isPid.1 (e.trans h0)) (fun h0 => h0.2.1 e.symm)
    rw [hA, setPrev_apply h.isPid.1, if_neg h1, setNext_apply h.isPid.1, if_neg h2,
      setPrev_apply h.isPid.1, if_neg h3, update_self]
  rw [← hat, ← hA]
  refine ⟨update A p { a with state := .running }, ?_, fun x hx => ?_⟩
  · dsimp only [Core.put, Core.tcb]
    rw [update_self, hAp, update_self, hat, ht]
  · rw [update_apply]
    unfold relink
    by_cases hxp : x = p
    · rw [if_pos hxp, if_pos hxp, hat, ht]
      rfl
    · rw [if_neg hxp, if_neg hxp, hA, setPrev_apply hx, setNext_apply hx, setPrev_apply hx,
        update_of_ne hxp]
      by_cases hxh : x = s.ccb.hdActive (s.tcbs p).priority
      · have hxn : x ≠ (s.tcbs p).next := by
          rw [hxh]
          exact h.head.elim (fun h0 => absurd (hxh.trans h0) hx) (fun h0 => h0.2.2)
        rw [if_neg hxn, if_pos hxh, if_pos hxh]
        split_ifs <;> rfl
      · rw [if_neg hxh, if_neg hxh]
        split_ifs <;> rfl

/-! ## messages -/

/-- the page of the TCB a message goes to -/
def Core.Dest (s : Core) (e : Event) (d : Nat) : Prop :=
  d ≠ 0 ∧ ∃ task, s.destOf e.task = some task ∧ d = kmapPage (if task = 0 then (s.tcb .cur).pid else task)

/-- the state in which a message goes to the queue of `d`, with the header `q` -/
def Core.mapped (s : Core) (d : Nat) (q : Msghdr) : Core :=
  { s with
    win := update (update s.win .tmpmap d) .tmp2map (s.mqPage (s.tcbs d).memroot)
    isrNext := (s.tcbs d).memroot
    mq := update s.mq (s.tcbs d).memroot q }

/-- a message is refused, its pointer is refused, or it is sent: `ksend` does not fail -/
theorem msgSends_cases (allowed : Core → Nat → Event → Bool) (s : Core) (e : Event) (a b : Nat) :
    (∃ err, msgSends allowed s e a b = (s.fail err, false)) ∨
    (∃ d, msgSends allowed s e a b = ((s.kmap .tmpmap d).fail .ESRCH, false)) ∨
    (∃ d q err, s.Dest e d ∧ (s.tcbs d).magic = tcbMagic ∧ e.ptrdata = true ∧
      ptrBuf s.nrmqmax (s.mq (s.tcbs d).memroot) a b = .error (q, err) ∧
      msgSends allowed s e a b = ((s.mapped d q).fail err, false)) ∨
    (∃ d q, s.Dest e d ∧ (s.tcbs d).magic = tcbMagic ∧
      msgSends allowed s e a b = msgSent (s.mapped d q) true) := by
  by_cases hf : e.func = 0
  · refine Or.inl ⟨.EPERM, ?_⟩
    unfold msgSends
    rw [if_pos hf]
  cases hd : s.destOf e.task with
  | none =>
    refine Or.inl ⟨.ESRCH, ?_⟩
    unfold msgSends
    rw [if_neg hf, hd]
  | some task =>
    by_cases ha : allowed s task e = false
    · refine Or.inl ⟨.EPERM, ?_⟩
      unfold msgSends
      rw [if_neg hf, hd]
      dsimp only
      rw [if_pos ha]
    obtain ⟨d, hdd⟩ : ∃ d, d = kmapPage (if task = 0 then (s.tcb .cur).pid else task) := ⟨_, rfl⟩
    have htm : (s.kmap .tmpmap d).tcb .tmpmap = s.tcbs d := by simp [Core.tcb, Core.kmap]
    by_cases hn : d = 0 ∨ (s.tcbs d).magic ≠ tcbMagic
    · refine Or.inr (Or.inl ⟨d, ?_⟩)
      unfold msgSends
      rw [if_neg hf, hd]
      dsimp only
      rw [if_neg ha, ← hdd, htm, if_pos hn]
    obtain ⟨h0, hm⟩ := not_or.mp hn
    rw [not_not] at hm
    have hdest : s.Dest e d := ⟨h0, task, hd, hdd⟩
    refine Or.inr (Or.inr ?_)
    cases hp : (if e.ptrdata = true then ptrBuf s.nrmqmax (s.mq (s.tcbs d).memroot) a b
        else .ok (s.mq (s.tcbs d).memroot)) with
    | error qe =>
      obtain ⟨q, err⟩ := qe
      have hpt : e.ptrdata = true := by
        by_contra hn
        rw [if_neg hn] at hp
        cases hp
      refine Or.inl ⟨d, q, err, hdest, hm, hpt, ?_, ?_⟩
      · rw [if_pos hpt] at hp
        exact hp
      · unfold msgSends
        rw [if_neg hf, hd]
        dsimp only
        rw [if_neg ha, ← hdd, htm, if_neg hn]
        dsimp only [Core.kmap]
        rw [hp]
        rfl
    | ok q =>
      refine Or.inr ⟨d, (ksend q).1, hdest, hm, ?_⟩
      unfold msgSends
      rw [if_neg hf, hd]
      dsimp only
      rw [if_neg ha, ← hdd, htm, if_neg hn]
      dsimp only [Core.kmap]
      rw [hp]
      rfl

end
end OsZ
