import OsZ.Sched.Timer

/-!
# How long an alarm lasts

The clock has seconds and microseconds; the microseconds are set to 0 whenever a second is over.
`SYS_alarm` adds seconds to seconds and microseconds to microseconds, without a carry.

* `Clock.Reached`     the clocks that timer interrupts lead to;
* `Clock.Ok`          what holds for them;
* `AlarmStep`         time passes, and whatever else happens while a task sleeps;
* `Punctual`          no alarm requested at this clock ends too early;
* `alarm_punctual`    this is so if the microseconds of clock and request are not more than a second.
-/

namespace OsZ
open Function (update update_apply update_idem update_self)

/-! ## the clock -/

structure Clock where
  ts : Nat
  nts : Nat
  seccnt : Nat

def Machine.clock (m : Machine) : Clock := ⟨m.core.ts, m.core.nts, m.seccnt⟩

/-- "calculate stepping in microsec", with the failsafe -/
def alarmstepOf (tmrfreq : Nat) : Nat := if 1000000 / tmrfreq < 1 then 1 else 1000000 / tmrfreq

def Clock.tick (tmrfreq : Nat) (c : Clock) : Clock :=
  if dec64 c.seccnt = 0 then ⟨w64 (c.ts + 1), 0, tmrfreq⟩
  else ⟨c.ts, w64 (c.nts + alarmstepOf tmrfreq), dec64 c.seccnt⟩

/-- `isr_init` sets the seconds from the date, `nts = 0` and `seccnt = 1` -/
inductive Clock.Reached (tmrfreq : Nat) : Clock → Prop
  | init {ts : Nat} (h : ts < 2^64) : Clock.Reached tmrfreq ⟨ts, 0, 1⟩
  | tick {c : Clock} (h : Clock.Reached tmrfreq c) : Clock.Reached tmrfreq (c.tick tmrfreq)

/-- microseconds -/
def Clock.value (c : Clock) : Nat := 1000000 * c.ts + c.nts

structure Clock.Ok (tmrfreq : Nat) (c : Clock) : Prop where
  ts : c.ts < 2^64
  pos : 0 < c.seccnt
  le : c.seccnt ≤ tmrfreq
  /-- the steps that are left fit into the second -/
  nts : c.nts + c.seccnt * alarmstepOf tmrfreq ≤ 1000000

section
variable {f : Nat} {c : Clock} {m m' : Machine} {s s' : Core} {p sec usec : Nat}
  {allowed : Core → Nat → Event → Bool}

theorem dec64_pos {n : Nat} (h : 0 < n) : dec64 n = n - 1 := if_neg (by omega)

theorem alarmstepOf_mul (hf : 1 ≤ f) (hf' : f ≤ 1000000) : f * alarmstepOf f ≤ 1000000 := by
  have h1 : 1 ≤ 1000000 / f := (Nat.one_le_div_iff hf).mpr hf'
  unfold alarmstepOf
  rw [if_neg (by omega)]
  exact Nat.mul_div_le 1000000 f

theorem alarmstepOf_pos (f : Nat) : 1 ≤ alarmstepOf f := by
  unfold alarmstepOf
  split_ifs with h
  · exact le_rfl
  · exact Nat.le_of_not_lt h

theorem Clock.Ok.nts_lt (h : c.Ok f) : c.nts + alarmstepOf f ≤ 1000000 := by
  have h1 : 1 * alarmstepOf f ≤ c.seccnt * alarmstepOf f := Nat.mul_le_mul_right _ h.pos
  have h2 := h.nts
  omega

theorem Clock.Ok.tick (hf : 1 ≤ f) (hf' : f ≤ 1000000) (h : c.Ok f) : (c.tick f).Ok f := by
  have hmul := alarmstepOf_mul hf hf'
  have hle := h.nts_lt
  unfold Clock.tick
  rw [dec64_pos h.pos]
  split_ifs with h1
  · exact ⟨w64_lt _, hf, le_rfl, by simpa using hmul⟩
  · have hs : (c.seccnt - 1) * alarmstepOf f + alarmstepOf f = c.seccnt * alarmstepOf f := by
      rw [← Nat.succ_mul]
      congr 1
      have := h.pos
      omega
    have hw : w64 (c.nts + alarmstepOf f) = c.nts + alarmstepOf f := w64_of_lt (by omega)
    have h2 := h.nts
    have h3 := h.le
    refine ⟨h.ts, ?_, ?_, ?_⟩
    · show 0 < c.seccnt - 1
      omega
    · show c.seccnt - 1 ≤ f
      omega
    · show w64 (c.nts + alarmstepOf f) + (c.seccnt - 1) * alarmstepOf f ≤ 1000000
      rw [hw]
      omega

theorem Clock.Reached.ok (hf : 1 ≤ f) (hf' : f ≤ 1000000) (h : c.Reached f) : c.Ok f := by
  induction h with
  | init ht =>
    have h1 : 1 * alarmstepOf f ≤ f * alarmstepOf f := Nat.mul_le_mul_right _ hf
    have h2 := alarmstepOf_mul hf hf'
    refine ⟨ht, Nat.one_pos, hf, ?_⟩
    show 0 + 1 * alarmstepOf f ≤ 1000000
    omega
  | tick _ ih => exact ih.tick hf hf'

theorem Machine.tick_clock (h : m.alarmstep = alarmstepOf m.tmrfreq) :
    m.tick.clock = m.clock.tick m.tmrfreq := by
  unfold Machine.tick Clock.tick Machine.clock
  dsimp only
  by_cases h0 : dec64 m.seccnt = 0
  · rw [if_pos h0, if_pos h0]
  · rw [if_neg h0, if_neg h0, h]

/-! ## what keeps the time of an alarm -/

/-- the clock and the times of all alarms are left alone -/
structure SameTimes (s s' : Core) : Prop where
  sec : ∀ x, (s'.tcbs x).alarmsec = (s.tcbs x).alarmsec
  ns : ∀ x, (s'.tcbs x).alarmns = (s.tcbs x).alarmns
  ts : s'.ts = s.ts
  nts : s'.nts = s.nts

theorem Timed.sameTimes (h : Timed s s') : SameTimes s s' := ⟨h.sec, h.ns, h.ts, h.nts⟩

theorem alarmExpire_sameTimes (s : Core) : SameTimes s (alarmExpire s) := by
  have ht := Timed.awake s .tmpalarm
  have he := alarmExpire_expired s
  have hts : (alarmExpire s).ts = (schedAwake s .tmpalarm).ts ∧
      (alarmExpire s).nts = (schedAwake s .tmpalarm).nts := by
    unfold alarmExpire
    dsimp only
    split_ifs <;> exact ⟨rfl, rfl⟩
  refine ⟨fun x => ?_, fun x => ?_, hts.1.trans ht.ts, hts.2.trans ht.nts⟩
  · rw [he.tcbs x]
    exact ht.sec x
  · rw [he.tcbs x]
    exact ht.ns x

theorem isrIrqtmr_sameTimes (h : isrIrqtmr allowed m = some m') :
    SameTimes m.tick.core m'.core ∧ m'.seccnt = m.tick.seccnt ∧ m'.tmrfreq = m.tmrfreq ∧
      m'.alarmstep = m.alarmstep := by
  have hm : m.tick.tmrfreq = m.tmrfreq ∧ m.tick.alarmstep = m.alarmstep := by
    unfold Machine.tick
    dsimp only
    split_ifs <;> exact ⟨rfl, rfl⟩
  unfold isrIrqtmr at h
  obtain ⟨a, ha, rfl⟩ := Option.map_eq_some_iff.mp h
  -- the task switch
  have hr : ∀ s : Core, SameTimes s (irqReturn s) := by
    intro s
    unfold irqReturn
    split_ifs <;> exact ⟨fun _ => rfl, fun _ => rfl, rfl, rfl⟩
  suffices hs : SameTimes m.tick.core a.core ∧ a.seccnt = m.tick.seccnt ∧
      a.tmrfreq = m.tick.tmrfreq ∧ a.alarmstep = m.tick.alarmstep by
    obtain ⟨h1, h2, h3, h4⟩ := hs
    have h5 := hr a.core
    exact ⟨⟨fun x => (h5.sec x).trans (h1.sec x), fun x => (h5.ns x).trans (h1.ns x),
      h5.ts.trans h1.ts, h5.nts.trans h1.nts⟩, h2, h3.trans hm.1, h4.trans hm.2⟩
  unfold isrTimer at ha
  dsimp only at ha
  split_ifs at ha
  · rw [← Option.some.inj ha]
    exact ⟨(Timed.refl _).sameTimes, rfl, rfl, rfl⟩
  · rw [← Option.some.inj ha]
    exact ⟨alarmExpire_sameTimes _, rfl, rfl, rfl⟩
  · rw [← Option.some.inj ha]
    exact ⟨(Timed.refl _).sameTimes, rfl, rfl, rfl⟩
  · obtain ⟨r, hr, rfl⟩ := Option.map_eq_some_iff.mp ha
    exact ⟨(Timed.again hr).sameTimes, rfl, rfl, rfl⟩

namespace SameTimes
variable {s'' : Core} {w : Win} {t : Tcb}

theorem trans (h : SameTimes s s') (h' : SameTimes s' s'') : SameTimes s s'' :=
  ⟨fun x => (h'.sec x).trans (h.sec x), fun x => (h'.ns x).trans (h.ns x), h'.ts.trans h.ts,
    h'.nts.trans h.nts⟩

theorem put (h1 : t.alarmsec = (s.tcb w).alarmsec) (h2 : t.alarmns = (s.tcb w).alarmns) :
    SameTimes s (s.put w t) := by
  refine ⟨fun x => ?_, fun x => ?_, rfl, rfl⟩
  · show (update s.tcbs (s.win w) t x).alarmsec = _
    rw [update_apply]
    split_ifs with e
    · rw [e]
      exact h1
    · rfl
  · show (update s.tcbs (s.win w) t x).alarmns = _
    rw [update_apply]
    split_ifs with e
    · rw [e]
      exact h2
    · rfl

theorem walk {sec nsec n b prev : Nat} (h : alarmWalk p sec nsec n s b prev = some s') :
    SameTimes s s' := by
  induction n generalizing s b prev with
  | zero => cases h
  | succ n ih =>
    rw [alarmWalk] at h
    have hg := (Timed.getTcb s b).sameTimes
    obtain ⟨u, w, hu⟩ : ∃ u w, schedGetTcb s b = (u, w) := ⟨_, _, rfl⟩
    rw [hu] at h hg
    dsimp only at h hg
    split_ifs at h with h1 h2 h3
    · rw [← Option.some.inj h]
      exact (hg.trans (Timed.getTcb u p).sameTimes).trans (put rfl rfl)
    · rw [← Option.some.inj h]
      have hv : SameTimes u ((schedGetTcb u prev).1.put (schedGetTcb u prev).2
          { (schedGetTcb u prev).1.tcb (schedGetTcb u prev).2 with alarm := p }) :=
        (Timed.getTcb u prev).sameTimes.trans (put rfl rfl)
      exact ((hg.trans hv).trans (Timed.getTcb _ p).sameTimes).trans (put rfl rfl)
    · rw [← Option.some.inj h]
      exact hg.trans (put rfl rfl)
    · exact hg.trans (ih h)

end SameTimes

theorem schedAlarm_time {w : Win} {sec nsec n : Nat} (hp : s.IsPid p) (hpid : (s.tcb w).pid = p)
    (hn : ¬(sec < s.ts ∨ s.ts = sec ∧ nsec < s.nts)) (h : schedAlarm n s w sec nsec = some s') :
    (s'.tcbs p).alarmsec = sec ∧ (s'.tcbs p).alarmns = nsec ∧ s'.ts = s.ts ∧ s'.nts = s.nts := by
  rw [schedAlarm_eq hp hpid hn] at h
  have hb : (s.asleep w sec nsec).ts = s.ts ∧ (s.asleep w sec nsec).nts = s.nts :=
    ⟨(Timed.block s w).ts, (Timed.block s w).nts⟩
  have ht : ((s.asleep w sec nsec).tcbs p).alarmsec = sec ∧
      ((s.asleep w sec nsec).tcbs p).alarmns = nsec := by
    unfold Core.asleep
    dsimp only
    rw [hpid, kmap_tcb]
    simp [Core.put, Core.kmap]
  have hs : SameTimes (s.asleep w sec nsec) s' := by
    split_ifs at h
    · rw [← Option.some.inj h]
      have h1 : SameTimes (s.asleep w sec nsec) ((s.asleep w sec nsec).put .tmpmap
        { (s.asleep w sec nsec).tcb .tmpmap with alarm := (s.asleep w sec nsec).ccb.hdTimerq }) :=
          .put rfl rfl
      exact h1.trans ⟨fun _ => rfl, fun _ => rfl, rfl, rfl⟩
    · exact .walk h
  exact ⟨(hs.sec p).trans ht.1, (hs.ns p).trans ht.2, hs.ts.trans hb.1, hs.nts.trans hb.2⟩

/-! ## alarms that end too early -/

/-- `isr_timer` awakes the task `p`, which is at `tmpalarm` -/
def Machine.Expires (m : Machine) (p : Nat) : Prop :=
  2 < (m.tick.core.tcb .cur).priority ∧ m.tick.core.ccb.hdTimerq ≠ 0 ∧
    m.tick.core.due (m.tick.core.tcb .tmpalarm) ∧ m.tick.core.win .tmpalarm = p

instance (m : Machine) (p : Nat) : Decidable (m.Expires p) := by
  unfold Machine.Expires
  infer_instance

/-- a timer interrupt; or anything else that neither sets the clock nor gives `p` another alarm -/
inductive AlarmStep (allowed : Core → Nat → Event → Bool) (p : Nat) : Machine → Unit → Machine → Prop
  | timer {m m' : Machine} (h : isrIrqtmr allowed m = some m') : AlarmStep allowed p m () m'
  | other {m m' : Machine} (hc : m'.clock = m.clock)
      (hs : (m'.core.tcbs p).alarmsec = (m.core.tcbs p).alarmsec)
      (hn : (m'.core.tcbs p).alarmns = (m.core.tcbs p).alarmns) : AlarmStep allowed p m () m'

/-- the current task `p` calls `SYS_alarm(sec, usec)`, and that time is not past -/
structure Request (allowed : Core → Nat → Event → Bool) (sec usec p : Nat) (m m' : Machine) :
    Prop where
  pid : (m.core.tcb .cur).pid = p
  isPid : m.core.IsPid p
  future : ¬m.core.past m.alarmstep sec usec
  call : ∃ fuel s, isrSyscall allowed fuel m.alarmstep m.core (.alarm sec usec) = some s ∧
    m' = { m with core := s }

/-- no alarm that is requested while the clock is `c` ends before its time -/
def Punctual (allowed : Core → Nat → Event → Bool) (tmrfreq : Nat) (c : Clock) (sec usec : Nat) :
    Prop :=
  ∀ m m1 m2 p, m.tmrfreq = tmrfreq → m.alarmstep = alarmstepOf tmrfreq → m.clock = c →
    Request allowed sec usec p m m1 → Reach (AlarmStep allowed p) (fun _ _ => True) m1 m2 →
    m2.Expires p → c.value + (sec * 1000000 + usec) ≤ m2.tick.clock.value

/-- the task `p` sleeps until `(sec, ns)` -/
structure Sleeps (p sec ns : Nat) (m : Machine) : Prop where
  sec : (m.core.tcbs p).alarmsec = sec
  ns : (m.core.tcbs p).alarmns = ns
  ts : m.core.ts < 2^64

theorem Machine.tick_ts (h : m.core.ts < 2^64) : m.tick.core.ts < 2^64 := by
  unfold Machine.tick
  dsimp only
  split_ifs
  · exact w64_lt _
  · exact h

theorem AlarmStep.sleeps {ns : Nat} {u : Unit} (h : AlarmStep allowed p m u m')
    (hs : Sleeps p sec ns m) : Sleeps p sec ns m' := by
  cases h with
  | timer h =>
    obtain ⟨ht, -, -, -⟩ := isrIrqtmr_sameTimes h
    obtain ⟨a, b, c, he⟩ := m.tick_core
    have htcb : m.tick.core.tcbs = m.core.tcbs := by rw [he]
    refine ⟨?_, ?_, ?_⟩
    · rw [ht.sec, htcb, hs.sec]
    · rw [ht.ns, htcb, hs.ns]
    · rw [ht.ts]
      exact Machine.tick_ts hs.ts
  | other hc h1 h2 => exact ⟨h1.trans hs.sec, h2.trans hs.ns, (congrArg Clock.ts hc).trans_lt hs.ts⟩

theorem alarmUsec_le (step sec usec : Nat) :
    usec ≤ alarmUsec step sec usec ∧ (alarmUsec step sec usec ≤ usec ∨
      alarmUsec step sec usec = step) := by
  unfold alarmUsec
  split_ifs with h
  · exact ⟨h.2, Or.inr rfl⟩
  · exact ⟨le_rfl, Or.inl le_rfl⟩

theorem Request.sleeps {m1 : Machine} {step : Nat} (h : Request allowed sec usec p m m1)
    (hst : m.alarmstep = step) (hts : m.core.ts < 2^64) (hs : sec < 2^64)
    (hn : m.core.nts + usec < 2^64) (hn' : m.core.nts + step < 2^64) :
    m.core.ts + sec < 2^64 ∧
      Sleeps p (m.core.ts + sec) (m.core.nts + alarmUsec step sec usec) m1 := by
  obtain ⟨fuel, s, hc, rfl⟩ := h.call
  have hu := alarmUsec_le step sec usec
  have hns : w64 (m.core.nts + alarmUsec step sec usec) =
      m.core.nts + alarmUsec step sec usec := w64_of_lt (by omega)
  have hfut := h.future
  unfold Core.past at hfut
  rw [hst, hns] at hfut
  have hlt : m.core.ts + sec < 2^64 := by
    by_contra hge
    have hw : w64 (m.core.ts + sec) = m.core.ts + sec - 2^64 := by
      unfold w64
      rw [Nat.mod_eq_sub_mod (by omega), Nat.mod_eq_of_lt (by omega)]
    rw [hw] at hfut
    omega
  have hw : w64 (m.core.ts + sec) = m.core.ts + sec := w64_of_lt hlt
  have ht := schedAlarm_time (s := m.core.fail .SUCCESS) h.isPid h.pid h.future hc
  rw [hst, hns, hw] at ht
  refine ⟨hlt, ht.1, ht.2.1, ?_⟩
  show s.ts < 2^64
  rw [ht.2.2.1]
  exact hts

theorem punctual_of (allowed : Core → Nat → Event → Bool) (hc : c.Ok f) (hs : sec < 2^64)
    (hu : usec < 1000000) (h : c.nts + usec ≤ 1000000 ∨ 2^64 ≤ c.ts + sec + 1) :
    Punctual allowed f c sec usec := by
  intro m m1 m2 p hfm hst hcl hr hrun hexp
  have hts : m.core.ts = c.ts := congrArg Clock.ts hcl
  have hnts : m.core.nts = c.nts := congrArg Clock.nts hcl
  have h1 := hc.ts
  have h2 := hc.nts_lt
  obtain ⟨hlt, hs1⟩ := hr.sleeps hst (by omega) hs (by omega) (by omega)
  have hs2 := hrun.keeps hs1 (fun _ _ _ hi _ hst => hst.sleeps hi)
  obtain ⟨-, -, hdue, hw⟩ := hexp
  obtain ⟨a, b, d, he⟩ := m2.tick_core
  have htcb : m2.tick.core.tcbs = m2.core.tcbs := by rw [he]
  have hlim := Machine.tick_ts hs2.ts
  unfold Core.due Core.tcb at hdue
  rw [hw, htcb, hs2.sec, hs2.ns] at hdue
  have hus := (alarmUsec_le (alarmstepOf f) sec usec).1
  unfold Clock.value
  show 1000000 * c.ts + c.nts + _ ≤ 1000000 * m2.tick.core.ts + m2.tick.core.nts
  omega

/-! ## the alarm of a lone task -/

theorem pickScan_empty {l : List Nat} {b : Bool} (h : ∀ i, s.ccb.hdActive i = 0) :
    pickScan s l b = (s, b, none) := by
  induction l with
  | nil => rfl
  | cons i l ih =>
    unfold pickScan
    rw [if_pos (h i)]
    exact ih

theorem schedPick_empty (h : ∀ i, s.ccb.hdActive i = 0) (hf : s.idleFirst = false) :
    schedPick allowed s = some ({ s with isrNext := s.idleMapping }, s.idleMapping) := by
  unfold schedPick pickAgain
  rw [pickScan_empty h]
  dsimp only
  unfold pickIdle
  rw [if_pos (h 7)]
  dsimp only
  rw [if_neg (by rw [hf]; decide)]

/-- the task 6 sleeps, there is no other one but idle -/
structure Lone (f sec ns : Nat) (m : Machine) : Prop where
  sec : (m.core.tcbs 6).alarmsec = sec
  ns : (m.core.tcbs 6).alarmns = ns
  tmpalarm : m.core.win .tmpalarm = 6
  timerq : m.core.ccb.hdTimerq ≠ 0
  empty : ∀ i, m.core.ccb.hdActive i = 0
  cur : m.core.win .cur = 6 ∨ m.core.win .cur = 9
  priority : 2 < (m.core.tcbs 6).priority ∧ 2 < (m.core.tcbs 9).priority
  idle : m.core.tcbOf m.core.idleMapping = 9
  idleFirst : m.core.idleFirst = false
  isrNext : m.core.isrNext = 0
  tmrfreq : m.tmrfreq = f
  alarmstep : m.alarmstep = alarmstepOf f

namespace Lone
variable {ns : Nat}

theorem tick (h : Lone f sec ns m) : Lone f sec ns m.tick := by
  obtain ⟨a, b, c, he⟩ := m.tick_core
  have hm : m.tick.tmrfreq = m.tmrfreq ∧ m.tick.alarmstep = m.alarmstep := by
    unfold Machine.tick
    dsimp only
    split_ifs <;> exact ⟨rfl, rfl⟩
  refine ⟨?_, ?_, ?_, ?_, ?_, ?_, ?_, ?_, ?_, ?_, hm.1.trans h.tmrfreq, hm.2.trans h.alarmstep⟩
  all_goals rw [he]
  · exact h.sec
  · exact h.ns
  · exact h.tmpalarm
  · exact h.timerq
  · exact h.empty
  · exact h.cur
  · exact h.priority
  · exact h.idle
  · exact h.idleFirst
  · exact h.isrNext

theorem cur_priority (h : Lone f sec ns m) : 2 < (m.core.tcb .cur).priority := by
  unfold Core.tcb
  obtain hc | hc := h.cur
  · rw [hc]
    exact h.priority.1
  · rw [hc]
    exact h.priority.2

theorem switch {n q : Nat} (h : Lone f sec ns m) (hn : n = 0 ∨ n = m.core.idleMapping) :
    Lone f sec ns { m with core := irqReturn { m.core with isrNext := n }, qcnt := q } ∧
      (irqReturn { m.core with isrNext := n }).ts = m.core.ts ∧
      (irqReturn { m.core with isrNext := n }).nts = m.core.nts := by
  unfold irqReturn
  split_ifs with hs
  · exact ⟨⟨h.sec, h.ns, h.tmpalarm, h.timerq, h.empty, h.cur, h.priority, h.idle, h.idleFirst, rfl,
      h.tmrfreq, h.alarmstep⟩, rfl, rfl⟩
  · have hni : n = m.core.idleMapping := by
      refine hn.resolve_left (fun e => hs (Or.inl ?_))
      show n < 4096
      omega
    refine ⟨⟨h.sec, h.ns, ?_, h.timerq, h.empty, Or.inr ?_, h.priority, h.idle, h.idleFirst, rfl,
      h.tmrfreq, h.alarmstep⟩, rfl, rfl⟩
    · exact (kmap_win (s := m.core) (w := .cur) (p := m.core.tcbOf n) (by decide)).trans h.tmpalarm
    · show update m.core.win .cur (m.core.tcbOf n) .cur = 9
      rw [update_self, hni, h.idle]

theorem waits (allowed : Core → Nat → Event → Bool) (h : Lone f sec ns m)
    (hd : ¬m.tick.core.due (m.tick.core.tcb .tmpalarm)) :
    ∃ m', isrIrqtmr allowed m = some m' ∧ Lone f sec ns m' ∧ m'.clock = m.clock.tick f := by
  have ht := h.tick
  have hcl : m.tick.clock = m.clock.tick f := by
    rw [← h.tmrfreq]
    exact Machine.tick_clock (by rw [h.alarmstep, h.tmrfreq])
  obtain ⟨t, hte⟩ : ∃ t, t = m.tick := ⟨_, rfl⟩
  rw [← hte] at ht hd hcl
  have hp : ¬(t.core.tcb .cur).priority ≤ 2 := Nat.not_le.mpr ht.cur_priority
  unfold isrIrqtmr isrTimer
  rw [← hte]
  dsimp only
  rw [if_neg hp, if_neg (fun e => hd e.2)]
  by_cases hq : dec64 t.qcnt ≠ 0
  · rw [if_pos hq]
    obtain ⟨h1, h2, h3⟩ := ht.switch (n := t.core.isrNext) (q := dec64 t.qcnt) (Or.inl ht.isrNext)
    refine ⟨_, rfl, h1, ?_⟩
    rw [← hcl]
    exact congrArg₂ (fun a b => Clock.mk a b t.seccnt) h2 h3
  · rw [if_neg hq, schedPick_empty ht.empty ht.idleFirst]
    obtain ⟨h1, h2, h3⟩ := ht.switch (n := t.core.idleMapping) (q := t.qdiv) (Or.inr rfl)
    refine ⟨_, rfl, h1, ?_⟩
    rw [← hcl]
    exact congrArg₂ (fun a b => Clock.mk a b t.seccnt) h2 h3

/-- an alarm with too many microseconds waits for the next second, and no longer -/
theorem waits_second (allowed : Core → Nat → Event → Bool) (hf : 1 ≤ f) (hf' : f ≤ 1000000)
    (hs : sec + 1 < 2^64) (hn : 1000000 ≤ ns) (h : Lone f sec ns m) (hc : m.clock.Ok f)
    (hle : m.core.ts ≤ sec) : ∃ m', Reach (AlarmStep allowed 6) (fun _ _ => True) m m' ∧
      m'.Expires 6 ∧ m'.tick.clock.value = 1000000 * (sec + 1) := by
  obtain ⟨k, hk⟩ : ∃ k, k = (sec - m.core.ts) * (f + 1) + m.seccnt := ⟨_, rfl⟩
  induction k using Nat.strong_induction_on generalizing m with
  | _ k ih =>
    have hcl : m.tick.clock = m.clock.tick f := by
      rw [← h.tmrfreq]
      exact Machine.tick_clock (by rw [h.alarmstep, h.tmrfreq])
    have hok := hc.tick hf hf'
    have hpos : 0 < m.seccnt := hc.pos
    have hts : m.tick.core.ts = (m.clock.tick f).ts := congrArg Clock.ts hcl
    have hnts : m.tick.core.nts = (m.clock.tick f).nts := congrArg Clock.nts hcl
    have ht := h.tick
    have htc : m.tick.core.tcb .tmpalarm = m.tick.core.tcbs 6 := congrArg m.tick.core.tcbs ht.tmpalarm
    -- the clock after the next tick
    have htick : m.clock.tick f = if m.seccnt = 1 then ⟨w64 (m.core.ts + 1), 0, f⟩
        else ⟨m.core.ts, w64 (m.core.nts + alarmstepOf f), m.seccnt - 1⟩ := by
      unfold Clock.tick Machine.clock
      dsimp only
      rw [dec64_pos hpos]
      by_cases h1 : m.seccnt = 1
      · rw [if_pos (by omega), if_pos h1]
      · rw [if_neg (by omega), if_neg h1]
    by_cases hend : m.core.ts = sec ∧ m.seccnt = 1
    · -- the second is over
      have hw : w64 (m.core.ts + 1) = sec + 1 := by
        rw [hend.1]
        exact w64_of_lt hs
      rw [if_pos hend.2, hw] at htick
      refine ⟨m, Reach.refl, ⟨ht.cur_priority, ht.timerq, Or.inl ?_, ht.tmpalarm⟩, ?_⟩
      · rw [htc, ht.sec, hts, htick]
        exact Nat.lt_succ_self sec
      · rw [hcl, htick]
        rfl
    · have hts' : (m.clock.tick f).ts ≤ sec := by
        rw [htick]
        split_ifs with h1
        · show w64 (m.core.ts + 1) ≤ sec
          rw [w64_of_lt (by omega)]
          omega
        · exact hle
      have hnd : ¬m.tick.core.due (m.tick.core.tcb .tmpalarm) := by
        have h2 := hok.nts_lt
        have h3 := alarmstepOf_pos f
        unfold Core.due
        rw [htc, ht.sec, ht.ns, hts, hnts]
        omega
      obtain ⟨m', hm', hl', hc'⟩ := h.waits allowed hnd
      have hts2 : m'.core.ts = (m.clock.tick f).ts := congrArg Clock.ts hc'
      have hsc : m'.seccnt = (m.clock.tick f).seccnt := congrArg Clock.seccnt hc'
      have hlt : (sec - m'.core.ts) * (f + 1) + m'.seccnt < k := by
        rw [hts2, hsc, htick, hk]
        split_ifs with h1
        · show (sec - w64 (m.core.ts + 1)) * (f + 1) + f < _
          rw [w64_of_lt (by omega)]
          have h2 : sec - m.core.ts = (sec - (m.core.ts + 1)) + 1 := by omega
          rw [h2, Nat.succ_mul]
          omega
        · show (sec - m.core.ts) * (f + 1) + (m.seccnt - 1) < _
          omega
      obtain ⟨m2, hr, he, hv⟩ := ih _ hlt hl' (hc' ▸ hok) (by rw [hts2]; exact hts') rfl
      refine ⟨m2, ?_, he, hv⟩
      exact Relation.ReflTransGen.head ⟨(), trivial, .timer hm'⟩ hr

end Lone
/-- the task 6 is current and alone -/
def loneMachine (f : Nat) (c : Clock) : Machine where
  core := { (schedAdd (demoCore.kmap .bssEnd 6) .bssEnd).kmap .cur 6 with ts := c.ts, nts := c.nts }
  alarmstep := alarmstepOf f
  tmrfreq := f
  seccnt := c.seccnt
  qcnt := 1
  qdiv := 10

theorem loneMachine_request (allowed : Core → Nat → Event → Bool)
    (hf : ¬(loneMachine f c).core.past (alarmstepOf f) sec usec) :
    ∃ m, Request allowed sec usec 6 (loneMachine f c) m ∧ m.clock = c ∧
      Lone f (w64 (c.ts + sec)) (w64 (c.nts + alarmUsec (alarmstepOf f) sec usec)) m := by
  obtain ⟨u, hu⟩ : ∃ u, u = (loneMachine f c).core.fail .SUCCESS := ⟨_, rfl⟩
  obtain ⟨D, hD⟩ : ∃ D, D = w64 (c.ts + sec) := ⟨_, rfl⟩
  obtain ⟨N, hN⟩ : ∃ N, N = w64 (c.nts + alarmUsec (alarmstepOf f) sec usec) := ⟨_, rfl⟩
  have hp : u.IsPid 6 := by
    rw [hu]
    exact demo_isPid (by decide) (by decide)
  have hpid : (u.tcb .cur).pid = 6 := by
    rw [hu]
    rfl
  have hfut : ¬(D < u.ts ∨ u.ts = D ∧ N < u.nts) := by
    rw [hD, hN, hu]
    exact hf
  have hq : (u.asleep .cur D N).ccb.hdTimerq = 0 := by
    refine (Timed.block u .cur).timerq.trans ?_
    rw [hu]
    rfl
  have he := schedAlarm_eq (n := 0) hp hpid hfut
  rw [if_pos (Or.inl hq)] at he
  obtain ⟨h1, h2, h3, h4⟩ := schedAlarm_time hp hpid hfut he
  obtain ⟨s, hs⟩ : ∃ s, s = (((u.asleep .cur D N).put .tmpmap { (u.asleep .cur D N).tcb .tmpmap with
    alarm := (u.asleep .cur D N).ccb.hdTimerq }).setTimerq 6).kmap .tmpalarm 6 := ⟨_, rfl⟩
  rw [← hs] at he h1 h2 h3 h4
  have hact : s.ccb.hdActive = update (update (fun _ => 0) 3 6) 3 0 := by
    rw [hs, hu]
    rfl
  refine ⟨{ loneMachine f c with core := s }, ⟨rfl, ?_, hf, 0, s, ?_, rfl⟩, ?_, ?_⟩
  · rw [hu] at hp
    exact hp
  · rw [hu, hD, hN] at he
    exact he
  · rw [hu] at h3 h4
    exact congrArg₂ (fun a b => Clock.mk a b c.seccnt) h3 h4
  · rw [← hD, ← hN]
    refine ⟨h1, h2, ?_, ?_, fun i => ?_, Or.inl ?_, ?_, ?_, ?_, ?_, rfl, rfl⟩
    · show s.win .tmpalarm = 6
      rw [hs, hu]
      rfl
    · show s.ccb.hdTimerq ≠ 0
      rw [hs]
      exact (by decide : (6 : Nat) ≠ 0)
    · show s.ccb.hdActive i = 0
      rw [hact, update_idem, update_apply]
      split_ifs <;> rfl
    · show s.win .cur = 6
      rw [hs, hu]
      rfl
    · show 2 < (s.tcbs 6).priority ∧ 2 < (s.tcbs 9).priority
      rw [hs, hu]
      exact ⟨Nat.lt_succ_self 2, (by decide : 2 < 7)⟩
    · have h5 : s.tcbOf = fun m => m / 4096 := by
        rw [hs, hu]
        rfl
      have h6 : s.idleMapping = 9 * 4096 := by
        rw [hs, hu]
        rfl
      show s.tcbOf s.idleMapping = 9
      rw [h5, h6]
    · show s.idleFirst = false
      rw [hs, hu]
      rfl
    · show s.isrNext = 0
      rw [hs, hu]
      rfl

/-- **Alarms do not end early** exactly when the microseconds of the clock and of the request are
together not more than a second (or the seconds are at the end of their 64 bits, where no alarm
ends). -/
theorem alarm_punctual (allowed : Core → Nat → Event → Bool) (hf : 1 ≤ f) (hf' : f ≤ 1000000)
    (hc : c.Reached f) (hs : sec < 2^64) (hu : usec < 1000000) :
    Punctual allowed f c sec usec ↔ c.nts + usec ≤ 1000000 ∨ 2^64 ≤ c.ts + sec + 1 := by
  have hok := hc.ok hf hf'
  refine ⟨fun h => ?_, punctual_of allowed hok hs hu⟩
  by_contra hn
  obtain ⟨hn1, hn2⟩ := not_or.mp hn
  have h1 := hok.nts_lt
  have h2 := alarmUsec_le (alarmstepOf f) sec usec
  have hw : w64 (c.ts + sec) = c.ts + sec := w64_of_lt (by omega)
  have hw' : w64 (c.nts + alarmUsec (alarmstepOf f) sec usec) =
      c.nts + alarmUsec (alarmstepOf f) sec usec := w64_of_lt (by omega)
  have hfut : ¬(loneMachine f c).core.past (alarmstepOf f) sec usec := by
    unfold Core.past
    show ¬(w64 (c.ts + sec) < c.ts ∨ c.ts = w64 (c.ts + sec) ∧
      w64 (c.nts + alarmUsec (alarmstepOf f) sec usec) < c.nts)
    rw [hw, hw']
    omega
  obtain ⟨m1, hr, hcl, hl⟩ := loneMachine_request allowed hfut
  rw [hw, hw'] at hl
  have hts : m1.core.ts = c.ts := congrArg Clock.ts hcl
  obtain ⟨m2, hrun, hexp, hv⟩ := hl.waits_second allowed hf hf' (by omega) (by omega)
    (hcl.symm ▸ hok) (by omega)
  have hle := h (loneMachine f c) m1 m2 6 rfl rfl rfl hr hrun hexp
  rw [hv] at hle
  unfold Clock.value at hle
  omega

/-- a clock of 1000 Hz, `k` ticks after the first second began -/
theorem clock_1000 (k : Nat) (hk : k ≤ 999) : (⟨1, 1000 * k, 1000 - k⟩ : Clock).Reached 1000 := by
  induction k with
  | zero => exact (.init (by decide) : (⟨0, 0, 1⟩ : Clock).Reached 1000).tick
  | succ k ih =>
    have hd : dec64 (1000 - k) = 1000 - (k + 1) := by
      unfold dec64
      rw [if_neg (by omega)]
      omega
    have hw : w64 (1000 * k + 1000) = 1000 * (k + 1) := w64_of_lt (by omega)
    have ht := (ih (by omega)).tick
    unfold Clock.tick at ht
    dsimp only at ht
    rw [hd, if_neg (by omega), show alarmstepOf 1000 = 1000 by decide, hw] at ht
    exact ht

/-- at 1.5 s an alarm of half a second -/
theorem alarm_punctual_half : (⟨1, 500000, 500⟩ : Clock).Reached 1000 ∧
    Punctual (fun _ _ _ => true) 1000 ⟨1, 500000, 500⟩ 0 500000 := by
  have h1 := clock_1000 500 (by decide)
  exact ⟨h1, (alarm_punctual _ (by decide) (by decide) h1 (by decide) (by decide)).mpr
    (Or.inl (by decide))⟩

end

/-- at 1.999 s the task 6 asks for half a second, and is awaken at 2.0 s -/
theorem alarm_early : ∃ m m1 m2 : Machine, m.clock.Reached m.tmrfreq ∧ m.tmrfreq = 1000 ∧
    m.alarmstep = alarmstepOf m.tmrfreq ∧ Request (fun _ _ _ => true) 0 500000 6 m m1 ∧
    m1.Expires 6 ∧ isrIrqtmr (fun _ _ _ => true) m1 = some m2 ∧
    (m1.core.tcbs 6).state = .blocked ∧ (m2.core.tcbs 6).state = .running ∧
    m2.clock.value = m.clock.value + 1000 := by
  let m := loneMachine 1000 ⟨1, 999000, 1⟩
  have hc : m.clock.Reached 1000 := clock_1000 999 (by decide)
  have e : ((isrSyscall (fun _ _ _ => true) 0 m.alarmstep m.core (.alarm 0 500000)).bind (fun s =>
      (isrIrqtmr (fun _ _ _ => true) { m with core := s }).map (fun m2 =>
        (decide ({ m with core := s }.Expires 6), (s.tcbs 6).state, (m2.core.tcbs 6).state,
          m2.clock.value)))) = some (true, .blocked, .running, 2000000) := by decide +kernel
  obtain ⟨s, hs, h⟩ := Option.bind_eq_some_iff.mp e
  obtain ⟨m2, hm2, he⟩ := Option.map_eq_some_iff.mp h
  simp only [Prod.mk.injEq] at he
  obtain ⟨h1, h2, h3, h4⟩ := he
  refine ⟨m, { m with core := s }, m2, hc, rfl, by decide +kernel, ?_, of_decide_eq_true h1, hm2, h2, h3,
    h4.trans (by decide +kernel)⟩
  exact ⟨by decide +kernel, demo_isPid (by decide) (by decide), by decide +kernel, 0, s, hs, rfl⟩

end OsZ
