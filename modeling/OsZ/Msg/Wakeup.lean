import OsZ.Sched.Timer

/-!
# No lost wake-up

A task that calls `SYS_recv` with an empty queue is blocked.  Messages come from tasks and the core
(`msg_sends`), which awake the task after `ksend`, and from the handlers of device interrupts
(`isr_irq*` of `x86_64/isrs.sh`), which awake it before.

* `isrIrq`           a device interrupt;
* `Quiet`            no message comes to a task that is not running afterwards;
* `WakeStep`         system calls, timer and device interrupts; `waits` are the tasks that
                     `SYS_recv` has blocked and nothing has awaken since;
* `no_lost_wakeup`   their queues are empty, if no pointer is refused for a task that is not running;
* `refused_loses_wakeup`  otherwise a message can wait in the queue of a task that nobody awakes.
-/

namespace OsZ
open Function (update update_of_ne update_self)

/-- `isr_irq`: `root` is the entry of `irq_routing_table` -/
def isrIrq (s : Core) (root : Nat) : Core :=
  let s := if (s.tcb .cur).memroot = root then s
    else
      -- "no, switch to the task"
      let s := s.taskMap root
      if (s.tcb .cur).state = .running then s else schedAwake s .cur
  { s with mq := update s.mq root (ksend (s.mq root)).1 }

/-- no message has been put in or taken out -/
def Msghdr.SameIdx (q q' : Msghdr) : Prop := q'.mqStart = q.mqStart ∧ q'.mqEnd = q.mqEnd

def Quiet (tasks : List Nat) (s s' : Core) : Prop :=
  ∀ p ∈ tasks, (s'.tcbs p).state ≠ .running →
    (s.mq (s.tcbs p).memroot).SameIdx (s'.mq (s'.tcbs p).memroot)

section
variable {s s' s'' : Core} {tasks : List Nat} {idle p d root : Nat} {w : Win}
  {allowed : Core → Nat → Event → Bool}

namespace Quiet

theorem trans (hb : SysBase tasks idle s) (h : Quiet tasks s s') (h' : Quiet tasks s' s'')
    (hu : StayUp s' s'') : Quiet tasks s s'' := by
  intro p hp hr
  have hp0 : p ≠ 0 := hb.alive_ne (Or.inl hp)
  have h1 := h p hp (fun e => hr (hu p hp0 e))
  have h2 := h' p hp hr
  exact ⟨h2.1.trans h1.1, h2.2.trans h1.2⟩

theorem of_mq (hb : SysBase tasks idle s) (hk : Steady s s') (hm : s'.mq = s.mq) :
    Quiet tasks s s' := by
  intro p hp _
  rw [hm, (hk.kin p (hb.alive_ne (Or.inl hp))).memroot]
  exact ⟨rfl, rfl⟩

theorem congr (h : Quiet tasks s s') (ht : s''.tcbs = s'.tcbs) (hm : s''.mq = s'.mq) :
    Quiet tasks s s'' := by
  unfold Quiet
  rw [ht, hm]
  exact h

theorem update {q : Msghdr} (hb : SysBase tasks idle s) (hd : Alive tasks idle d) (hk : Steady s s')
    (hm : s'.mq = update s.mq (s.tcbs d).memroot q)
    (hq : (s'.tcbs d).state ≠ .running → (s.mq (s.tcbs d).memroot).SameIdx q) :
    Quiet tasks s s' := by
  intro p hp hr
  rw [hm, (hk.kin p (hb.alive_ne (Or.inl hp))).memroot]
  by_cases hpd : p = d
  · subst hpd
    rw [update_self]
    exact hq hr
  · -- different tasks have different address spaces
    have hne : (s.tcbs p).memroot ≠ (s.tcbs d).memroot := by
      intro e
      have h1 := (hb.roots p (Or.inl hp)).1
      rw [e, (hb.roots d hd).1] at h1
      exact hpd h1.symm
    rw [update_of_ne hne]
    exact ⟨rfl, rfl⟩

end Quiet

theorem ptrBuf_error {n a b : Nat} {q q' : Msghdr} {err : CoreErr}
    (h : ptrBuf n q a b = .error (q', err)) : q.SameIdx q' := by
  unfold ptrBuf at h
  dsimp only at h
  split_ifs at h <;> cases h <;> exact ⟨rfl, rfl⟩

namespace SysBase

theorem sends_quiet (h : SysBase tasks idle s) (hc : Live tasks idle s (s.win .cur)) {e : Event}
    {a b : Nat} (ho : SendOk s e a b) : Quiet tasks s (msgSends allowed s e a b).1 := by
  have hk := (h.sends allowed hc ho).1.kept
  obtain ⟨err, he⟩ | ⟨d, he⟩ | ⟨d, q, err, hd, hm, -, hb, he⟩ | ⟨d, q, hd, hm, he⟩ :=
    msgSends_cases allowed s e a b
  · rw [he] at hk ⊢
    exact .of_mq h hk rfl
  · rw [he] at hk ⊢
    exact .of_mq h hk rfl
  · rw [he] at hk ⊢
    exact .update h (h.magic d hd.1 hm) hk rfl (fun _ => ptrBuf_error hb)
  · have hal := h.magic d hd.1 hm
    rw [he] at hk ⊢
    obtain ⟨u, hu⟩ : ∃ u, u = ((s.mapped d q).fail .EBUSY).fail .SUCCESS := ⟨_, rfl⟩
    have hut : u.tcbs = s.tcbs := by rw [hu]; rfl
    have hum : u.mq = update s.mq (s.tcbs d).memroot q := by rw [hu]; rfl
    have hwind : u.win .tmpmap = d := by
      rw [hu]
      exact mapped_tmpmap s d q
    have hwinc : u.win .cur = s.win .cur := by
      rw [hu]
      exact mapped_cur s d q
    have hub : SysBase tasks idle u := by
      rw [hu]
      exact h.other rfl rfl rfl rfl rfl rfl (mapped_tmpalarm s d q)
    unfold msgSent at hk ⊢
    rw [if_neg (by decide)] at hk ⊢
    dsimp only at hk ⊢
    rw [← hu] at hk ⊢
    -- the destination is running afterwards
    by_cases hsame : (u.tcb .cur).pid = (u.tcb .tmpmap).pid
    · rw [if_pos hsame] at hk ⊢
      refine .update h hal hk hum (fun hr => absurd ?_ hr)
      unfold Core.tcb at hsame
      rw [hut, hwinc, hwind, h.alive_pid hc.1, h.alive_pid hal] at hsame
      rw [hut, ← hsame]
      exact hc.2
    · rw [if_neg hsame] at hk ⊢
      have hal' : Alive tasks idle (u.win .tmpmap) := hwind.symm ▸ hal
      refine .update h hal hk ((hub.awake_mq hal').trans hum) (fun hr => absurd ?_ hr)
      have hst := (hub.awake hal').2.state d (h.alive_ne hal)
      rw [hst, hwind, if_pos rfl]

theorem ready_quiet (h : SysBase tasks idle s) (hc : Alive tasks idle (s.win .cur)) :
    Quiet tasks s (sysReady allowed s) := by
  obtain ⟨b, he, hbb, -, hk, hbl, -, hmq, -⟩ := h.readyMapped allowed hc
  have ho : SendOk b ⟨-1, 6, false⟩ 0 0 := fun _ _ _ _ hp _ => absurd hp (by decide)
  rw [he]
  exact (Quiet.of_mq h hk hmq).trans h (hbb.sends_quiet hbl ho) (hbb.sends allowed hbl ho).1.up

theorem pickFound_quiet (h : SysBase tasks idle s) (i : Nat) : Quiet tasks s (pickFound s i).1 := by
  have hm : (pickFound s i).1.mq = s.mq := by
    have hg : (schedGetTcb s (s.ccb.crActive i)).1.mq = s.mq := by
      unfold schedGetTcb
      split_ifs <;> rfl
    unfold pickFound
    dsimp only
    split_ifs <;> exact hg
  have h0 : Quiet tasks s s := .of_mq h (Steady.of_eq rfl rfl rfl rfl rfl rfl) rfl
  exact h0.congr (pickFound_tcbs s i) hm

theorem pickIdle_quiet (h : SysBase tasks idle s) (hc : Alive tasks idle (s.win .cur)) :
    Quiet tasks s (pickIdle allowed s).1 := by
  have h0 : Quiet tasks s s := .of_mq h (Steady.of_eq rfl rfl rfl rfl rfl rfl) rfl
  unfold pickIdle
  by_cases h7 : s.ccb.hdActive 7 = 0
  · rw [if_pos h7]
    dsimp only
    split_ifs
    · obtain ⟨u, hu⟩ : ∃ u : Core, u = { s with isrNext := s.idleMapping, idleFirst := false } :=
        ⟨_, rfl⟩
      have hub : SysBase tasks idle u := by
        rw [hu]
        exact h.other rfl rfl rfl rfl rfl rfl rfl
      have huc : Alive tasks idle (u.win .cur) := by
        rw [hu]
        exact hc
      have hq : Quiet tasks s u := h0.congr (by rw [hu]) (by rw [hu])
      rw [← hu]
      exact hq.trans h (hub.ready_quiet huc) (hub.ready allowed huc).2.1
    · exact h0.congr rfl rfl
  · rw [if_neg h7]
    split_ifs
    · exact (h.setCursor 7).pickFound_quiet 7
    · exact h.pickFound_quiet 7

theorem again_quiet (h : SysBase tasks idle s) (hc : Alive tasks idle (s.win .cur)) {n : Nat}
    {b : Bool} {r : Core × Nat} (hp : pickAgain allowed n s b = some r) : Quiet tasks s r.1 := by
  obtain ⟨u, c, hu, he, hres⟩ := Queues.pickAgain_cases (P := SysBase tasks idle)
    (fun _ l b hu => hu.scan l b) h hp
  have hcur : Alive tasks idle (u.win .cur) := by
    rw [he]
    exact hc
  have hq : Quiet tasks u r.1 := by
    obtain ⟨i, -, rfl⟩ | rfl := hres
    · exact hu.pickFound_quiet i
    · exact hu.pickIdle_quiet hcur
  rw [he] at hq
  exact hq

theorem pickSwitch_quiet (h : SysBase tasks idle s) (hc : Alive tasks idle (s.win .cur))
    (hp : OsZ.pickSwitch allowed s = some s') : Quiet tasks s s' ∧ StayUp s s' := by
  unfold OsZ.pickSwitch at hp
  obtain ⟨r, hr, rfl⟩ := Option.map_eq_some_iff.mp hp
  have hq := h.again_quiet hc hr
  have hu := (h.again hc hr).went.up
  split_ifs
  · exact ⟨hq, hu⟩
  · exact ⟨hq.congr rfl rfl, hu.trans (StayUp.of_eq rfl)⟩

end SysBase

/-! ## the entries -/

theorem schedBlock_mq {Q : QName → List Nat} (h : Queues s tasks Q) (hp : s.win w ∈ tasks)
    (hr : (s.tcbs (s.win w)).state = .running) : (schedBlock s w).mq = s.mq := by
  obtain ⟨T, he, -⟩ := schedBlock_spec rfl (h.linked hp (Tcb.home_ne_blocked hr)) (h.task _ hp).memroot
  rw [he]

namespace SysInv

theorem recv_quiet (h : SysInv tasks idle s) (hp : OsZ.sysRecv allowed s = some s') :
    Quiet tasks s s' := by
  unfold OsZ.sysRecv at hp
  by_cases he : s.curMq.mqEnd = s.curMq.mqStart
  · rw [if_pos he] at hp
    obtain ⟨Q, hq⟩ := h.base.queues
    obtain hc | hc := h.cur.1
    · obtain ⟨hk, -, hw⟩ := schedBlock_kept hq hc h.cur.2
      have hcur : Alive tasks idle ((schedBlock s .cur).win .cur) := by
        rw [hw .cur (by decide)]
        exact h.cur.1
      obtain ⟨h1, h2⟩ := (h.base.block hc h.cur.2).pickSwitch_quiet hcur hp
      exact (Quiet.of_mq h.base hk (schedBlock_mq hq hc h.cur.2)).trans h.base h1 h2
    · rw [h.block_idle hc] at hp
      exact (h.base.pickSwitch_quiet h.cur.1 hp).1
  · rw [if_neg he] at hp
    obtain rfl := Option.some.inj hp
    have hk : Steady s { s with mq := update s.mq (s.tcb .cur).memroot s.curMq.taken } :=
      Steady.of_eq rfl rfl rfl rfl rfl rfl
    exact .update h.base h.cur.1 hk rfl (fun hr => absurd h.cur.2 hr)

theorem isrTimer_quiet {m m' : Machine} (h : SysInv tasks idle m.core)
    (hp : OsZ.isrTimer allowed m = some m') : Quiet tasks m.core m'.core := by
  have ht := h.tick
  have h0 : Quiet tasks m.core m.tick.core := by
    obtain ⟨a, b, c, he⟩ := m.tick_core
    rw [he]
    exact .of_mq h.base (Steady.of_eq rfl rfl rfl rfl rfl rfl) rfl
  unfold OsZ.isrTimer at hp
  dsimp only at hp
  split_ifs at hp with h1 h2 h3
  · rw [← Option.some.inj hp]
    exact h0
  · rw [← Option.some.inj hp]
    have hmem : m.tick.core.win .tmpalarm ∈ tasks := ht.base.timer.resolve_left h2.1
    have hx := alarmExpire_expired m.tick.core
    obtain ⟨hb, ha⟩ := ht.base.awake (w := .tmpalarm) (Or.inl hmem)
    have h4 : Quiet tasks m.tick.core (schedAwake m.tick.core .tmpalarm) :=
      .of_mq ht.base ha.kept (ht.base.awake_mq (Or.inl hmem))
    have h5 : Quiet tasks (schedAwake m.tick.core .tmpalarm) (alarmExpire m.tick.core) := by
      intro p hp _
      have hm : (alarmExpire m.tick.core).mq = (schedAwake m.tick.core .tmpalarm).mq := by
        unfold alarmExpire
        dsimp only
        split_ifs <;> rfl
      rw [hm, hx.tcbs p]
      exact ⟨rfl, rfl⟩
    refine h0.trans h.base (h4.trans ht.base h5 ?_) (ht.base.expire h2.1).2.1
    intro x _ hr
    rw [hx.tcbs x]
    exact hr
  · rw [← Option.some.inj hp]
    exact h0
  · obtain ⟨r, hr, rfl⟩ := Option.map_eq_some_iff.mp hp
    exact h0.trans h.base (ht.base.again_quiet ht.cur.1 hr) (ht.base.again ht.cur.1 hr).went.up

theorem irqReturn_eq (s : Core) : (OsZ.irqReturn s).tcbs = s.tcbs ∧ (OsZ.irqReturn s).mq = s.mq := by
  unfold OsZ.irqReturn
  split_ifs <;> exact ⟨rfl, rfl⟩

/-- `a` is the state in which `isr_irq` calls `ksend`: the task `p` with the address space `root` is
current, and it is running -/
theorem irqMapped (h : SysInv tasks idle s) (hp : p ∈ tasks) (hr : (s.tcbs p).memroot = root) :
    ∃ a, isrIrq s root = { a with mq := update a.mq root (ksend (a.mq root)).1 } ∧
      SysInv tasks idle a ∧ Steady s a ∧ a.mq = s.mq ∧ (a.tcbs p).state = .running := by
  have hal : Alive tasks idle p := Or.inl hp
  by_cases hc : (s.tcb .cur).memroot = root
  · have hcp : s.win .cur = p := by
      have h1 : s.tcbOf (s.tcb .cur).memroot = s.win .cur := (h.base.roots _ h.cur.1).1
      rw [hc, ← hr, (h.base.roots p hal).1] at h1
      exact h1.symm
    refine ⟨s, ?_, h, Steady.of_eq rfl rfl rfl rfl rfl rfl, rfl, hcp ▸ h.cur.2⟩
    unfold isrIrq
    rw [if_pos hc]
  -- `movq %rax, %cr3`
  obtain ⟨u, hu⟩ : ∃ u, u = s.taskMap root := ⟨_, rfl⟩
  have hut : u.tcbs = s.tcbs := by rw [hu]; rfl
  have hum : u.mq = s.mq := by rw [hu]; rfl
  have huw : u.win .cur = p := by
    rw [hu]
    show update s.win .cur (s.tcbOf root) .cur = p
    rw [update_self, ← hr]
    exact (h.base.roots p hal).1
  have hua : u.win .tmpalarm = s.win .tmpalarm := by
    rw [hu]
    exact kmap_win (s := s) (w := .cur) (y := .tmpalarm) (by decide)
  have hui : u.isrNext = s.isrNext := by rw [hu]; rfl
  have huk : Steady s u := Steady.of_eq hut (by rw [hu]; rfl) (by rw [hu]; rfl) (by rw [hu]; rfl)
    (by rw [hu]; rfl) hua
  have hub : SysBase tasks idle u := h.base.other hut (by rw [hu]; rfl) (by rw [hu]; rfl)
    (by rw [hu]; rfl) (by rw [hu]; rfl) (by rw [hu]; rfl) hua
  have hal' : Alive tasks idle (u.win .cur) := huw.symm ▸ hal
  by_cases hs : (u.tcb .cur).state = .running
  · refine ⟨u, ?_, ⟨hub, ⟨hal', hs⟩, ?_⟩, huk, hum, ?_⟩
    · unfold isrIrq
      rw [if_neg hc, ← hu]
      dsimp only
      rw [if_pos hs]
    · rw [hui]
      exact h.next.imp_right (fun hl => hl.stays h.base (StayUp.of_eq hut) huk)
    · rw [← huw]
      exact hs
  · obtain ⟨hab, ha⟩ := hub.awake hal'
    obtain ⟨hl, hroot⟩ := ha.live hub hal'
    refine ⟨schedAwake u .cur, ?_, ⟨hab, ?_, Or.inr hroot⟩, huk.trans ha.kept,
      (hub.awake_mq hal').trans hum, ?_⟩
    · unfold isrIrq
      rw [if_neg hc, ← hu]
      dsimp only
      rw [if_neg hs]
    · rw [ha.win .cur (by decide)]
      exact hl
    · rw [huw] at hl
      exact hl.2

theorem irq (h : SysInv tasks idle s) (hp : p ∈ tasks) (hr : (s.tcbs p).memroot = root) :
    SysInv tasks idle (isrIrq s root) ∧ Quiet tasks s (isrIrq s root) := by
  obtain ⟨a, he, hi, hk, hm, hs⟩ := h.irqMapped hp hr
  rw [he]
  refine ⟨hi.other rfl rfl rfl rfl rfl rfl rfl rfl, ?_⟩
  refine .update (q := (ksend (s.mq root)).1) h.base (Or.inl hp)
    (hk.trans (Steady.of_eq rfl rfl rfl rfl rfl rfl)) ?_ (fun hn => absurd hs hn)
  show update a.mq root (ksend (a.mq root)).1 = _
  rw [hm, hr]

end SysInv

/-! ## runs -/

structure WakeRun where
  m : Machine
  waits : Nat → Bool

inductive WakeOp where
  | sys (o : Option SysOp)
  | irq (n : Nat)

/-- `SYS_recv` blocks its caller -/
def WakeOp.blocks (s : Core) (p : Nat) : WakeOp → Bool
  | .sys (some .recv) => decide (s.curMq.mqEnd = s.curMq.mqStart ∧ s.win .cur = p)
  | _ => false

/-- `sched_awake`, and nothing else, makes a task running -/
def WakeRun.next (r : WakeRun) (o : WakeOp) (m : Machine) : WakeRun :=
  ⟨m, fun p => (r.waits p || o.blocks r.m.core p) && decide ((m.core.tcbs p).state ≠ .running)⟩

/-- `SYS_recv`, messages and timer interrupts; device interrupts, delivered to tasks -/
inductive WakeStep (allowed : Core → Nat → Event → Bool) (routing : Nat → Nat) (tasks : List Nat) :
    WakeRun → WakeOp → WakeRun → Prop
  | sys {r : WakeRun} {o : Option SysOp} {m : Machine} (ho : ∀ sec usec, o ≠ some (.alarm sec usec))
      (h : SysStep allowed r.m o m) : WakeStep allowed routing tasks r (.sys o) (r.next (.sys o) m)
  | irq {r : WakeRun} {n p : Nat} (hp : p ∈ tasks) (hr : (r.m.core.tcbs p).memroot = routing n) :
      WakeStep allowed routing tasks r (.irq n)
        (r.next (.irq n) { r.m with core := isrIrq r.m.core (routing n) })

/-- no pointer is refused while the destination is not running -/
def WakeSafe (r : WakeRun) : WakeOp → Prop
  | .sys (some (.send e a b)) => SendOk r.m.core e a b
  | _ => True

structure WakeInv (tasks : List Nat) (idle : Nat) (r : WakeRun) : Prop where
  sys : SysInv tasks idle r.m.core
  empty : ∀ p ∈ tasks, r.waits p = true →
    (r.m.core.mq (r.m.core.tcbs p).memroot).mqStart = (r.m.core.mq (r.m.core.tcbs p).memroot).mqEnd

theorem WakeRun.next_waits {r : WakeRun} {o : WakeOp} {m : Machine}
    (h : r.waits p = true ∨ o.blocks r.m.core p = true) (hs : (m.core.tcbs p).state = .blocked) :
    (r.next o m).waits p = true := by
  have h1 : (r.waits p || o.blocks r.m.core p) = true := (Bool.or_eq_true _ _).mpr h
  have h2 : (m.core.tcbs p).state ≠ .running := by
    rw [hs]
    decide
  exact (Bool.and_eq_true _ _).mpr ⟨h1, decide_eq_true h2⟩

theorem SysStep.quiet {m m' : Machine} {o : Option SysOp} (hs : SysStep allowed m o m')
    (h : SysInv tasks idle m.core) (ho : ∀ sec usec, o ≠ some (.alarm sec usec))
    (hc : SysSafe m o) : Quiet tasks m.core m'.core := by
  cases hs with
  | @call o s fuel hd hp =>
    have h0 : SysInv tasks idle (m.core.fail .SUCCESS) := h.other rfl rfl rfl rfl rfl rfl rfl rfl
    cases o with
    | recv => exact h0.recv_quiet hp
    | yield => exact (h0.base.pickSwitch_quiet h0.cur.1 hp).1
    | alarm sec usec => exact absurd rfl (ho sec usec)
    | send e a b =>
      rw [← Option.some.inj hp]
      exact h0.base.sends_quiet h0.cur hc
  | timer hp =>
    unfold isrIrqtmr at hp
    obtain ⟨a, ha, rfl⟩ := Option.map_eq_some_iff.mp hp
    obtain ⟨h1, h2⟩ := SysInv.irqReturn_eq a.core
    exact (h.isrTimer_quiet ha).congr h1 h2

theorem WakeInv.next {r : WakeRun} {o : WakeOp} {m : Machine} (h : WakeInv tasks idle r)
    (hi : SysInv tasks idle m.core) (hq : Quiet tasks r.m.core m.core) :
    WakeInv tasks idle (r.next o m) := by
  refine ⟨hi, fun p hp hw => ?_⟩
  obtain ⟨h1, h2⟩ := (Bool.and_eq_true _ _).mp hw
  obtain ⟨h3, h4⟩ := hq p hp (of_decide_eq_true h2)
  show (m.core.mq (m.core.tcbs p).memroot).mqStart = (m.core.mq (m.core.tcbs p).memroot).mqEnd
  rw [h3, h4]
  obtain h1 | h1 := (Bool.or_eq_true _ _).mp h1
  · exact h.empty p hp h1
  · -- the queue was empty when the task was blocked
    match o, h1 with
    | .sys (some .recv), h1 =>
      obtain ⟨h5, rfl⟩ := of_decide_eq_true h1
      exact h5.symm

theorem WakeStep.inv {routing : Nat → Nat} {r r' : WakeRun} {o : WakeOp}
    (hs : WakeStep allowed routing tasks r o r') (h : WakeInv tasks idle r) (hc : WakeSafe r o) :
    WakeInv tasks idle r' := by
  cases hs with
  | @sys o m ho hs =>
    have hsafe : SysSafe r.m o := by
      match o, ho, hc with
      | none, _, _ => trivial
      | some .recv, _, _ => trivial
      | some .yield, _, _ => trivial
      | some (.alarm sec usec), ho, _ => exact absurd rfl (ho sec usec)
      | some (.send e a b), _, hc => exact hc
    exact h.next (hs.inv h.sys hsafe) (hs.quiet h.sys ho hsafe)
  | irq hp hr =>
    obtain ⟨h1, h2⟩ := h.sys.irq hp hr
    exact h.next h1 h2

end

/-- the driver 5, the task 6 of priority 3, and the idle task 9 -/
def drvCore : Core :=
  { demoCore with tcbs := update demoCore.tcbs 5 { demoCore.tcbs 5 with priority := 2 } }

/-- both tasks are added, the driver is current -/
def drvPair : Core :=
  (schedAdd ((schedAdd drvCore .bssEnd).kmap .bssEnd 6) .bssEnd).kmap .cur 5

theorem drvPair_queues : ∃ Q, Queues drvPair [6, 5] Q := by
  have h0 : (⟨drvCore, []⟩ : SchedWorld).Start := ⟨rfl, fun _ => rfl, rfl, fun _ => rfl⟩
  have t5 : IsTask drvCore 5 :=
    ⟨demo_isPid (by decide) (by decide), by decide, by decide, by decide, by decide⟩
  have h1 := h0.queues.add (w := .bssEnd) List.not_mem_nil t5 (by decide)
  have h2 : Queues ((schedAdd drvCore .bssEnd).kmap .bssEnd 6) [5] _ := h1.other rfl rfl rfl rfl
  have t6 : IsTask ((schedAdd drvCore .bssEnd).kmap .bssEnd 6) 6 :=
    ⟨demo_isPid (p := 6) (by decide) (by decide), by decide, by decide, by decide, by decide⟩
  have h3 := h2.add (w := .bssEnd) (by decide) t6 (by decide)
  exact ⟨_, h3.other rfl rfl rfl rfl⟩

theorem drvPair_inv : SysInv [6, 5] 9 drvPair := by
  have hmem : ∀ p ∈ [6, 5], p = 6 ∨ p = 5 := by decide
  obtain ⟨a, b, hT⟩ : ∃ a b, drvPair.tcbs = update (update drvCore.tcbs 5 a) 6 b :=
    ⟨_, _, rfl⟩
  refine ⟨⟨drvPair_queues, by decide +kernel, by decide +kernel, by decide +kernel, ?_,
    fun _ _ => Or.inl rfl, fun x _ hm => ?_, Or.inl rfl, ?_⟩,
    ⟨Or.inl (by decide +kernel), by decide +kernel⟩, Or.inl rfl⟩
  · rintro p (hp | rfl)
    · obtain rfl | rfl := hmem p hp <;> decide +kernel
    · decide +kernel
  · by_cases h5 : x = 5
    · exact Or.inl (by rw [h5]; decide)
    by_cases h6 : x = 6
    · exact Or.inl (by rw [h6]; decide)
    have hx : drvCore.tcbs x = demoCore.tcbs x := update_of_ne h5 ..
    rw [hT, update_of_ne h6, update_of_ne h5, hx] at hm
    refine Or.inr ?_
    by_contra h9
    have h0 : (demoCore.tcbs x).magic = 0 := if_neg (by omega)
    rw [h0] at hm
    exact absurd hm (by decide)
  · intro t ht
    obtain rfl | rfl := hmem t ht <;> exact Or.inl (by decide +kernel)

def drvRun : WakeRun := ⟨⟨drvPair, 1000, 1000, 1000, 5, 10⟩, fun _ => false⟩

end OsZ
