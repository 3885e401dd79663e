import OsZ.Sched.Alarm

/-!
# The timer queue in every run

A message can come while a task sleeps.  `sched_awake` then moves the task to its active queue but
leaves it in the timer queue.

* `SysBase.again_state`  the tasks that `sched_pick` awakes: those of `sys_ready`;
* `TimerStep`            alarms, messages and timer interrupts;
* `TimerSafe`            no task is awaken by a message while it is in the timer queue;
* `timer_queue`          then the queue stays in order;
* `message_breaks_queue` otherwise it may even become a cycle.
-/

namespace OsZ
section
variable {s s' : Core} {w : Win} {p x n : Nat} {tasks : List Nat} {idle : Nat}
  {allowed : Core → Nat → Event → Bool}

/-! ## which tasks `sched_pick` awakes -/

theorem SysBase.sends_state (h : SysBase tasks idle s) {e : Event} {a b : Nat} (hx : x ≠ 0)
    (hd : ∀ d, s.Dest e d → x ≠ d) :
    ((msgSends allowed s e a b).1.tcbs x).state = (s.tcbs x).state := by
  obtain ⟨err, he⟩ | ⟨d, he⟩ | ⟨d, q, err, -, -, -, -, he⟩ | ⟨d, q, hde, hm, he⟩ :=
    msgSends_cases allowed s e a b
  · rw [he]
    rfl
  · rw [he]
    rfl
  · rw [he]
    rfl
  · rw [he]
    have hal := h.magic d hde.1 hm
    obtain ⟨u, hu⟩ : ∃ u, u = ((s.mapped d q).fail .EBUSY).fail .SUCCESS := ⟨_, rfl⟩
    have hut : u.tcbs = s.tcbs := by rw [hu]; rfl
    have hwind : u.win .tmpmap = d := by
      rw [hu]
      exact mapped_tmpmap s d q
    have hub : SysBase tasks idle u := by
      rw [hu]
      exact h.other rfl rfl rfl rfl rfl rfl (mapped_tmpalarm s d q)
    unfold msgSent
    rw [if_neg (by decide)]
    dsimp only
    rw [← hu]
    split_ifs
    · rw [hut]
    · obtain ⟨-, ha⟩ := hub.awake (w := .tmpmap) (hwind.symm ▸ hal)
      rw [ha.state x hx, hwind, if_neg (hd d hde), hut]

theorem SysBase.ready_state (h : SysBase tasks idle s) (hc : Alive tasks idle (s.win .cur))
    (hx : x ≠ 0) (hi : x ≠ s.initPage) (hf : x ≠ s.services 1) :
    ((sysReady allowed s).tcbs x).state = (s.tcbs x).state := by
  obtain ⟨b, he, hbb, -, hk, -, -, -, hst⟩ := h.readyMapped allowed hc
  rw [he, hbb.sends_state hx, hst x hx, if_neg hi]
  rintro d ⟨-, task, ht, rfl⟩
  unfold Core.destOf at ht
  rw [if_pos (by decide), hk.services] at ht
  split_ifs at ht with h1
  · have h2 : s.services 1 ≠ 0 := h1.resolve_left (by decide)
    rw [← Option.some.inj ht]
    obtain ⟨Q, hq⟩ := h.queues
    have hm := (h.services 1 (by decide)).resolve_left h2
    show x ≠ kmapPage (if s.services 1 = 0 then _ else s.services 1)
    rw [if_neg h2, kmapPage, Nat.mod_eq_of_lt (hq.task _ hm).page]
    exact hf

theorem pickFound_tcbs (s : Core) (i : Nat) : (pickFound s i).1.tcbs = s.tcbs := by
  have hg : (schedGetTcb s (s.ccb.crActive i)).1.tcbs = s.tcbs := by
    unfold schedGetTcb
    split_ifs <;> rfl
  unfold pickFound
  dsimp only
  split_ifs <;> exact hg

theorem SysBase.pickIdle_state (h : SysBase tasks idle s) (hc : Alive tasks idle (s.win .cur))
    (hx : x ≠ 0) (hf : s.idleFirst = true → x ≠ s.initPage ∧ x ≠ s.services 1) :
    ((OsZ.pickIdle allowed s).1.tcbs x).state = (s.tcbs x).state := by
  unfold OsZ.pickIdle
  by_cases h7 : s.ccb.hdActive 7 = 0
  · rw [if_pos h7]
    dsimp only
    by_cases hff : s.idleFirst = true
    · rw [if_pos hff]
      obtain ⟨u, hu⟩ : ∃ u : Core, u = { s with isrNext := s.idleMapping, idleFirst := false } :=
        ⟨_, rfl⟩
      have hub : SysBase tasks idle u := by
        rw [hu]
        exact h.other rfl rfl rfl rfl rfl rfl rfl
      rw [← hu, hub.ready_state (by rw [hu]; exact hc) hx]
      · rw [hu]
      · rw [hu]
        exact (hf hff).1
      · rw [hu]
        exact (hf hff).2
    · rw [if_neg hff]
  · rw [if_neg h7, pickFound_tcbs]
    split_ifs <;> rfl

theorem SysBase.again_state (h : SysBase tasks idle s) (hc : Alive tasks idle (s.win .cur))
    (hx : x ≠ 0) (hf : s.idleFirst = true → x ≠ s.initPage ∧ x ≠ s.services 1) {b : Bool}
    {r : Core × Nat} (hp : pickAgain allowed n s b = some r) :
    (r.1.tcbs x).state = (s.tcbs x).state := by
  obtain ⟨u, c, hu, he, hres⟩ := Queues.pickAgain_cases (P := SysBase tasks idle)
    (fun _ l b hu => hu.scan l b) h hp
  obtain ⟨i, -, rfl⟩ | rfl := hres
  · rw [pickFound_tcbs, he]
  · rw [hu.pickIdle_state (by rw [he]; exact hc) hx (by rw [he]; exact hf), he]

/-! ## runs -/

def Core.InTimerq (s : Core) (p : Nat) : Prop :=
  Chained (fun x => (s.tcbs x).alarm) s.ccb.hdTimerq p

inductive TimerOp where
  | map (w : Win) (p : Nat)
  | alarm (w : Win) (sec nsec : Nat)
  | awake (w : Win)
  | tick

/-- `map` is what happens between the calls: a window, or the address space of another task -/
inductive TimerStep (allowed : Core → Nat → Event → Bool) (tasks : List Nat) (idle : Nat) :
    Machine → TimerOp → Machine → Prop
  | map {m : Machine} {w : Win} {p : Nat} (hw : w ≠ .tmpalarm)
      (hp : w = .cur → Alive tasks idle p) :
      TimerStep allowed tasks idle m (.map w p) { m with core := m.core.kmap w p }
  | alarm {m : Machine} {w : Win} {sec nsec : Nat} {s : Core} (fuel : Nat)
      (hp : Alive tasks idle (m.core.win w)) (hr : (m.core.tcb w).state = .running)
      (h : schedAlarm fuel m.core w sec nsec = some s) :
      TimerStep allowed tasks idle m (.alarm w sec nsec) { m with core := s }
  | awake {m : Machine} {w : Win} (hp : Alive tasks idle (m.core.win w)) :
      TimerStep allowed tasks idle m (.awake w) { m with core := schedAwake m.core w }
  | tick {m m' : Machine} (h : isrTimer allowed m = some m') :
      TimerStep allowed tasks idle m .tick m'

/-- the idle task does not sleep; no task is awaken by a message (those of `sys_ready` included) while
it is in the timer queue -/
def TimerSafe (m : Machine) : TimerOp → Prop
  | .map _ _ => True
  | .alarm w _ _ => (m.core.tcb w).memroot ≠ m.core.idleMapping
  | .awake w => ¬m.core.InTimerq (m.core.win w)
  | .tick => m.core.idleFirst = true →
      ¬m.core.InTimerq m.core.initPage ∧ ¬m.core.InTimerq (m.core.services 1)

structure TimerInv (tasks : List Nat) (idle : Nat) (m : Machine) : Prop where
  base : SysBase tasks idle m.core
  cur : Alive tasks idle (m.core.win .cur)
  timers : ∃ L, Timers m.core tasks L

theorem Timers.mem_iff {L : List Nat} (h : Timers s tasks L) : p ∈ L ↔ s.InTimerq p := h.list.mem_iff

/-- "global clocksource": only the clock goes on -/
theorem Machine.tick_core (m : Machine) : ∃ a b c,
    m.tick.core = { m.core with lo := a, nts := b, ts := c } := by
  unfold Machine.tick
  dsimp only
  split_ifs
  · exact ⟨_, _, _, rfl⟩
  · exact ⟨_, _, m.core.ts, rfl⟩

namespace TimerInv
variable {m m' : Machine}

theorem tick (h : TimerInv tasks idle m) (hs : TimerSafe m .tick)
    (hp : isrTimer allowed m = some m') : TimerInv tasks idle m' := by
  obtain ⟨L, ht⟩ := h.timers
  obtain ⟨a, b, c, he⟩ := m.tick_core
  have hb : SysBase tasks idle m.tick.core := by
    rw [he]
    exact h.base.other rfl rfl rfl rfl rfl rfl rfl
  have hc : Alive tasks idle (m.tick.core.win .cur) := by
    rw [he]
    exact h.cur
  have ht' : Timers m.tick.core tasks L := by
    rw [he]
    exact ht.frame (fun _ _ => rfl) (fun _ _ => rfl) (fun _ _ => rfl) (fun _ => rfl) rfl rfl
  unfold isrTimer at hp
  dsimp only at hp
  split_ifs at hp with h1 h2 h3
  · rw [← Option.some.inj hp]
    exact ⟨hb, hc, L, ht'⟩
  · rw [← Option.some.inj hp]
    obtain ⟨hbe, -, -, hce⟩ := hb.expire h2.1
    refine ⟨hbe, ?_, ht'.expire hb h2.1⟩
    show Alive tasks idle ((alarmExpire m.tick.core).win .cur)
    rw [hce]
    exact hc
  · rw [← Option.some.inj hp]
    exact ⟨hb, hc, L, ht'⟩
  · obtain ⟨r, hr, rfl⟩ := Option.map_eq_some_iff.mp hp
    have hres := hb.again hc hr
    refine ⟨hres.went.base, ?_, L, ht'.timed (Timed.again hr) (fun x hx => ?_)⟩
    · obtain hcu | hcu := hres.cur
      · show Alive tasks idle (r.1.win .cur)
        rw [hcu]
        exact hc
      · exact hcu.1
    · -- `sys_ready` awakes none of the queue
      refine hb.again_state hc (ht'.list.ne_zero hx) (fun hf => ?_) hr
      rw [he] at hf ⊢
      obtain ⟨h4, h5⟩ := hs hf
      exact ⟨fun e => h4 (e ▸ ht.mem_iff.mp hx), fun e => h5 (e ▸ ht.mem_iff.mp hx)⟩

theorem step {o : TimerOp} (h : TimerInv tasks idle m) (hs : TimerSafe m o)
    (hp : TimerStep allowed tasks idle m o m') : TimerInv tasks idle m' := by
  obtain ⟨L, ht⟩ := h.timers
  cases hp with
  | @map w p hw hp =>
    have hwa : (m.core.kmap w p).win .tmpalarm = m.core.win .tmpalarm := kmap_win hw.symm
    refine ⟨h.base.other rfl rfl rfl rfl rfl rfl hwa, ?_, L, ?_⟩
    · by_cases hwc : w = .cur
      · subst hwc
        simpa [Core.kmap] using hp rfl
      · show Alive tasks idle ((m.core.kmap w p).win .cur)
        rw [kmap_win (Ne.symm hwc)]
        exact h.cur
    · exact ht.timed (Timed.kmap hw) (fun _ _ => rfl)
  | @alarm w sec nsec s fuel hp hr he =>
    have hp' : m.core.win w ∈ tasks := by
      refine hp.resolve_right (fun e => hs ?_)
      unfold Core.tcb
      rw [e]
      exact h.base.idle_root
    obtain ⟨s', L', h1, h2, h3, h4⟩ := schedAlarm_spec sec nsec (n := fuel + L.length) h.base
      ht hp' hr (by omega)
    obtain rfl : s = s' := Option.some.inj ((schedAlarm_mono he (by omega)).symm.trans h1)
    refine ⟨h2, ?_, L', h3⟩
    show Alive tasks idle (s.win .cur)
    rw [h4]
    exact h.cur
  | @awake w hp =>
    obtain ⟨hb, ha⟩ := h.base.awake hp
    refine ⟨hb, ?_, L, ht.timed (Timed.awake _ _) (fun x hx => ?_)⟩
    · show Alive tasks idle ((schedAwake m.core w).win .cur)
      rw [ha.win .cur (by decide)]
      exact h.cur
    · rw [ha.state x (ht.list.ne_zero hx), if_neg]
      exact fun e => hs (e ▸ ht.mem_iff.mp hx)
  | tick hp => exact h.tick hs hp

end TimerInv

/-- **The timer queue** is a list of different tasks, sorted by their alarms, all of them blocked, and
its head is at `tmpalarm`, in every run in which no task of the queue is awaken by a message. -/
theorem timer_queue {m m' : Machine} (h0 : TimerInv tasks idle m)
    (h : Reach (TimerStep allowed tasks idle) TimerSafe m m') :
    ∃ L, Timers m'.core tasks L ∧ L.Nodup := by
  have hi : TimerInv tasks idle m' := h.keeps h0 (fun _ _ _ hi hs hp => hi.step hs hp)
  obtain ⟨L, ht⟩ := hi.timers
  exact ⟨L, ht, ht.list.nodup⟩

end

theorem demoMachine_inv : TimerInv [6, 5] 9 demoMachine := by
  have h0 : demoMachine.core.ccb.hdTimerq = 0 := by decide +kernel
  refine ⟨demoPair_base, Or.inr rfl, [], h0, List.Pairwise.nil, fun x hx => ?_, fun h => absurd h0 h,
    fun x hx _ => ?_⟩
  · cases hx
  · obtain rfl | rfl : x = 6 ∨ x = 5 := by simpa using hx
    · decide +kernel
    · decide +kernel

/-- 6 sleeps until second 2 and 5 until second 1; 5 is the first one -/
theorem timer_queue_demo : ∃ m m' : Machine, TimerInv [6, 5] 9 m ∧
    Reach (TimerStep (fun _ _ _ => true) [6, 5] 9) TimerSafe m m' ∧
    m'.core.ccb.hdTimerq = 5 ∧ (m'.core.tcbs 5).alarm = 6 ∧
    ∃ L, Timers m'.core [6, 5] L ∧ L.Nodup := by
  let s1 := demoMachine.core.kmap .cur 6
  have e : ((schedAlarm 0 s1 .cur 2 0).bind (fun s => (schedAlarm 0 (s.kmap .cur 5) .cur 1 0).map
      (fun s' => (s.idleMapping, (s.tcbs 5).state, (s.tcbs 5).memroot, s'.ccb.hdTimerq,
        (s'.tcbs 5).alarm)))) = some (36864, .running, 20480, 5, 6) := by decide +kernel
  obtain ⟨s2, h2, h⟩ := Option.bind_eq_some_iff.mp e
  obtain ⟨s4, h4, he⟩ := Option.map_eq_some_iff.mp h
  simp only [Prod.mk.injEq] at he
  obtain ⟨hi, hs, hm, hq, ha⟩ := he
  have hw : (s2.kmap .cur 5).win .cur = 5 := by simp [Core.kmap]
  let R := Reach (TimerStep (fun _ _ _ => true) [6, 5] 9) TimerSafe demoMachine
  have r1 : R { demoMachine with core := s1 } :=
    Reach.refl.tail (a := .map .cur 6) trivial (.map (by decide) (fun _ => Or.inl (by decide)))
  have r2 : R { demoMachine with core := s2 } :=
    r1.tail (a := .alarm .cur 2 0) (show (s1.tcb .cur).memroot ≠ s1.idleMapping by decide +kernel)
      (.alarm 0 (Or.inl (by decide +kernel)) (by decide +kernel) h2)
  have r3 : R { demoMachine with core := s2.kmap .cur 5 } :=
    r2.tail (a := .map .cur 5) trivial (.map (by decide) (fun _ => Or.inl (by decide)))
  have r4 : R { demoMachine with core := s4 } := by
    refine r3.tail (a := .alarm .cur 1 0) ?_ (.alarm 0 ?_ ?_ h4)
    · show (s2.tcbs ((s2.kmap .cur 5).win .cur)).memroot ≠ s2.idleMapping
      rw [hw, hm, hi]
      decide
    · show Alive [6, 5] 9 ((s2.kmap .cur 5).win .cur)
      rw [hw]
      exact Or.inl (by decide)
    · show (s2.tcbs ((s2.kmap .cur 5).win .cur)).state = .running
      rw [hw, hs]
  exact ⟨_, _, demoMachine_inv, r4, hq, ha, timer_queue demoMachine_inv r4⟩

/-- 6 sleeps until second 1.  A message awakes it: it is running, and still in the queue.  When it
sleeps again, it is linked behind itself. -/
theorem message_breaks_queue : ∃ m m1 m2 m3 : Machine, TimerInv [6, 5] 9 m ∧
    TimerStep (fun _ _ _ => true) [6, 5] 9 m (.alarm .cur 1 0) m1 ∧
    TimerStep (fun _ _ _ => true) [6, 5] 9 m1 (.awake .cur) m2 ∧
    TimerStep (fun _ _ _ => true) [6, 5] 9 m2 (.alarm .cur 2 0) m3 ∧
    m2.core.ccb.hdTimerq = 6 ∧ (m2.core.tcbs 6).state = .running ∧
    m3.core.ccb.hdTimerq = 6 ∧ (m3.core.tcbs 6).alarm = 6 ∧ ¬∃ L, Timers m3.core [6, 5] L := by
  let s := demoMachine.core.kmap .cur 6
  have hm : TimerStep (fun _ _ _ => true) [6, 5] 9 demoMachine (.map .cur 6)
    { demoMachine with core := s } := .map (by decide) (fun _ => Or.inl (by decide))
  have h0 : TimerInv [6, 5] 9 { demoMachine with core := s } := demoMachine_inv.step (o := .map .cur 6) trivial hm
  have e : ((schedAlarm 0 s .cur 1 0).bind (fun s1 => (schedAlarm 1 (schedAwake s1 .cur) .cur 2 0).map
      (fun s3 => (s1.win .cur, (schedAwake s1 .cur).win .cur, (schedAwake s1 .cur).ccb.hdTimerq,
        ((schedAwake s1 .cur).tcbs 6).state, s3.ccb.hdTimerq, (s3.tcbs 6).alarm)))) =
        some (6, 6, 6, .running, 6, 6) := by decide +kernel
  obtain ⟨s1, h1, h⟩ := Option.bind_eq_some_iff.mp e
  obtain ⟨s3, h3, he⟩ := Option.map_eq_some_iff.mp h
  simp only [Prod.mk.injEq] at he
  obtain ⟨hw1, hw2, hq2, hs2, hq3, ha3⟩ := he
  refine ⟨_, { demoMachine with core := s1 }, { demoMachine with core := schedAwake s1 .cur },
    { demoMachine with core := s3 }, h0, ?_, ?_, ?_, hq2, hs2, hq3, ha3, ?_⟩
  · exact .alarm 0 (Or.inl (by decide +kernel)) (by decide +kernel) h1
  · refine .awake (Or.inl ?_)
    show s1.win .cur ∈ [6, 5]
    rw [hw1]
    decide
  · refine .alarm 1 (Or.inl ?_) ?_ h3
    · show (schedAwake s1 .cur).win .cur ∈ [6, 5]
      rw [hw2]
      decide
    · show ((schedAwake s1 .cur).tcbs ((schedAwake s1 .cur).win .cur)).state = .running
      rw [hw2, hs2]
  · rintro ⟨L, ht⟩
    have hl : SList (fun x => (s3.tcbs x).alarm) s3.ccb.hdTimerq L := ht.list
    rw [hq3] at hl
    obtain ⟨L', rfl⟩ := hl.eq_cons (by decide)
    have hl' : SList (fun x => (s3.tcbs x).alarm) (s3.tcbs 6).alarm L' := hl.2.2
    rw [ha3] at hl'
    have hlen := congrArg List.length (hl.unique hl')
    simp at hlen

end OsZ
