import OsZ.Sched.Queues

/-!
# System calls and the timer interrupt (`x86_64/isrc.S`, `isr_irqtmr` of `x86_64/ibmpc/isrs.S`)

The task whose TCB is at address 0 is the one that executes instructions.  A system call ends in the
task that made it, except for `recv` without a message and `sched_yield`; the timer interrupt ends in
the task of `isr_next`.

* `isrSyscall`, `isrIrqtmr`   the two entries;
* `BlockCall`                 the calls of `sched_block` in them;
* `SysBase`                   queues, address spaces and timer queue are in order;
* `SysInv`                    besides, the current task and the task of `isr_next` are running;
* `SysSafe`                   no alarm blocks its caller, no pointer is refused for a blocked task;
* `blocked_rests`             then no blocked task executes anything.

Other interrupts and the other functions of `msg_syscall` are left out.
-/

namespace OsZ
open Function (update update_apply update_of_ne update_self)

/-! ## the entries -/

/-- what the timer counts with -/
structure Machine where
  core : Core
  alarmstep : Nat
  tmrfreq : Nat
  seccnt : Nat
  qcnt : Nat
  qdiv : Nat

inductive SysOp where
  | recv
  | yield
  | alarm (sec usec : Nat)
  | send (e : Event) (arg0 arg1 : Nat)

def Core.curMq (s : Core) : Msghdr := s.mq (s.tcb .cur).memroot

/-- the message queue without its oldest message -/
def Msghdr.taken (q : Msghdr) : Msghdr :=
  { q with mqEnd := if q.mqEnd + 1 = q.mqSize then 1 else q.mqEnd + 1 }

section
variable (allowed : Core → Nat → Event → Bool)

/-- `call sched_pick` with the task switch behind it -/
def pickSwitch (s : Core) : Option Core :=
  (schedPick allowed s).map (fun r =>
    if r.2 < 4096 then r.1 else { r.1.taskMap r.2 with isrNext := 0 })

def sysRecv (s : Core) : Option Core :=
  if s.curMq.mqEnd = s.curMq.mqStart then pickSwitch allowed (schedBlock s .cur)
  else some { s with mq := update s.mq (s.tcb .cur).memroot s.curMq.taken }

/-- "small alarm(sec,usec)": at least one step of the timer -/
def alarmUsec (alarmstep sec usec : Nat) : Nat :=
  if sec = 0 ∧ usec ≤ alarmstep then alarmstep else usec

/-- the time until which the task wants to sleep is over -/
def Core.past (s : Core) (alarmstep sec usec : Nat) : Prop :=
  w64 (s.ts + sec) < s.ts ∨
    s.ts = w64 (s.ts + sec) ∧ w64 (s.nts + alarmUsec alarmstep sec usec) < s.nts

instance (s : Core) (a sec usec : Nat) : Decidable (s.past a sec usec) := by
  unfold Core.past
  infer_instance

def isrSyscall (fuel alarmstep : Nat) (s : Core) : SysOp → Option Core
  | .recv => sysRecv allowed (s.fail .SUCCESS)
  | .yield => pickSwitch allowed (s.fail .SUCCESS)
  | .alarm sec usec =>
    schedAlarm fuel (s.fail .SUCCESS) .cur (w64 (s.ts + sec))
      (w64 (s.nts + alarmUsec alarmstep sec usec))
  | .send e arg0 arg1 => some (msgSends allowed (s.fail .SUCCESS) e arg0 arg1).1

/-- `decq` -/
def dec64 (n : Nat) : Nat := if n = 0 then 2^64 - 1 else n - 1

/-- "global clocksource" -/
def Machine.tick (m : Machine) : Machine :=
  let s := { m.core with lo := w64 (m.core.lo + 1), nts := w64 (m.core.nts + m.alarmstep) }
  if dec64 m.seccnt = 0 then
    { m with core := { s with ts := w64 (s.ts + 1), nts := 0 }, seccnt := m.tmrfreq }
  else { m with core := s, seccnt := dec64 m.seccnt }

def Core.due (s : Core) (t : Tcb) : Prop :=
  t.alarmsec < s.ts ∨ t.alarmsec = s.ts ∧ t.alarmns ≤ s.nts

instance (s : Core) (t : Tcb) : Decidable (s.due t) := by
  unfold Core.due
  infer_instance

/-- the task at `tmpalarm` is awaken, the next one of the timer queue is mapped -/
def alarmExpire (s : Core) : Core :=
  let s := schedAwake s .tmpalarm
  let next := (s.tcb .tmpalarm).alarm
  let s := s.setTimerq next
  if next = 0 then s
  else (s.put .tmpalarm { s.tcb .tmpalarm with alarm := 0 }).kmap .tmpalarm next

def isrTimer (m : Machine) : Option Machine :=
  let m := m.tick
  -- "never preempt real-time and driver tasks", `PRI_DRV`
  if (m.core.tcb .cur).priority ≤ 2 then some m
  else if m.core.ccb.hdTimerq ≠ 0 ∧ m.core.due (m.core.tcb .tmpalarm) then
    some { m with core := alarmExpire m.core, qcnt := m.qdiv }
  else if dec64 m.qcnt ≠ 0 then some { m with qcnt := dec64 m.qcnt }
  else (schedPick allowed m.core).map (fun r => { m with core := r.1, qcnt := m.qdiv })

/-- "switch to a new task if any" -/
def irqReturn (s : Core) : Core :=
  { (if s.isrNext < 4096 ∨ s.isrNext = (s.tcb .cur).memroot then s else s.taskMap s.isrNext) with
    isrNext := 0 }

def isrIrqtmr (m : Machine) : Option Machine :=
  (isrTimer allowed m).map (fun m => { m with core := irqReturn m.core })

/-- a system call of the current task, or a timer interrupt; a message with the destination 0 is a
call of the core -/
inductive SysStep : Machine → Option SysOp → Machine → Prop
  | call {m : Machine} {o : SysOp} {s : Core} (fuel : Nat)
      (hd : ∀ e a b, o = .send e a b → e.task ≠ 0)
      (h : isrSyscall allowed fuel m.alarmstep m.core o = some s) :
      SysStep m (some o) { m with core := s }
  | timer {m m' : Machine} (h : isrIrqtmr allowed m = some m') : SysStep m none m'

end

/-- in the call `o`, made in the state `s`, `sched_block` is called in the state `u` for the task at
the window `w` -/
inductive BlockCall (alarmstep : Nat) (s : Core) : SysOp → Core → Win → Prop
  | recv (h : s.curMq.mqEnd = s.curMq.mqStart) :
      BlockCall alarmstep s .recv (s.fail .SUCCESS) .cur
  | alarm {sec usec : Nat} (h : ¬s.past alarmstep sec usec) :
      BlockCall alarmstep s (.alarm sec usec) (s.fail .SUCCESS) .cur
  | send {e : Event} {a b d : Nat} {q : Msghdr} (hd : s.Dest e d)
      (hm : (s.tcbs d).magic = tcbMagic) (h : (ksend q).2 = false) :
      BlockCall alarmstep s (.send e a b) (s.mapped d (ksend q).1) .tmpmap

/-! ## what the queue operations leave alone -/

structure Tcb.Kin (t t' : Tcb) : Prop where
  magic : t'.magic = t.magic
  pid : t'.pid = t.pid
  memroot : t'.memroot = t.memroot
  alarm : t'.alarm = t.alarm

structure Steady (s s' : Core) : Prop where
  kin : ∀ x ≠ 0, (s.tcbs x).Kin (s'.tcbs x)
  services : s'.services = s.services
  tcbOf : s'.tcbOf = s.tcbOf
  idleMapping : s'.idleMapping = s.idleMapping
  timerq : s'.ccb.hdTimerq = s.ccb.hdTimerq
  tmpalarm : s'.win .tmpalarm = s.win .tmpalarm

/-- running tasks go on -/
def StayUp (s s' : Core) : Prop :=
  ∀ x ≠ 0, (s.tcbs x).state = .running → (s'.tcbs x).state = .running

section
variable {s s' s'' u : Core} {tasks : List Nat} {Q : QName → List Nat} {idle p x hd : Nat} {w : Win}
  {allowed : Core → Nat → Event → Bool}

theorem kmap_win {y : Win} (hy : y ≠ w) : (s.kmap w p).win y = s.win y := by
  simp [Core.kmap, hy]

theorem Tcb.Kin.refl (t : Tcb) : t.Kin t := ⟨rfl, rfl, rfl, rfl⟩

theorem Steady.trans (h : Steady s s') (h' : Steady s' s'') : Steady s s'' := by
  refine ⟨fun x hx => ?_, h'.services.trans h.services, h'.tcbOf.trans h.tcbOf,
    h'.idleMapping.trans h.idleMapping, h'.timerq.trans h.timerq, h'.tmpalarm.trans h.tmpalarm⟩
  have h1 := h.kin x hx
  have h2 := h'.kin x hx
  exact ⟨h2.magic.trans h1.magic, h2.pid.trans h1.pid, h2.memroot.trans h1.memroot,
    h2.alarm.trans h1.alarm⟩

theorem StayUp.trans (h : StayUp s s') (h' : StayUp s' s'') : StayUp s s'' :=
  fun x hx hr => h' x hx (h x hx hr)

theorem StayUp.of_eq (h : s'.tcbs = s.tcbs) : StayUp s s' := fun x _ hr => by rw [h]; exact hr

/-- only the windows of tasks, the cursors and `isr_next` differ -/
theorem Steady.of_eq (ht : s'.tcbs = s.tcbs) (hs : s'.services = s.services) (hr : s'.tcbOf = s.tcbOf)
    (hi : s'.idleMapping = s.idleMapping) (hq : s'.ccb.hdTimerq = s.ccb.hdTimerq)
    (hw : s'.win .tmpalarm = s.win .tmpalarm) : Steady s s' :=
  ⟨fun x _ => by rw [ht]; exact Tcb.Kin.refl _, hs, hr, hi, hq, hw⟩

theorem relink_kin {T : Nat → Tcb} {t : Tcb} (ht : (T p).Kin t) (x : Nat) :
    (T x).Kin (relink T p hd t x) := by
  unfold relink
  by_cases hx : x = p
  · rw [if_pos hx, hx]
    exact ⟨ht.magic, ht.pid, ht.memroot, ht.alarm⟩
  · rw [if_neg hx]
    exact ⟨rfl, rfl, rfl, rfl⟩

theorem relink_state {T : Nat → Tcb} {t : Tcb} (x : Nat) :
    (relink T p hd t x).state = if x = p then t.state else (T x).state := by
  unfold relink
  by_cases hx : x = p
  · rw [if_pos hx, if_pos hx]
  · rw [if_neg hx, if_neg hx]

structure Awaken (s s' : Core) (p : Nat) : Prop where
  kept : Steady s s'
  state : ∀ x ≠ 0, (s'.tcbs x).state = if x = p then .running else (s.tcbs x).state
  isrNext : s'.isrNext = (s.tcbs p).memroot
  win : ∀ y ≠ .tmpmap, s'.win y = s.win y

theorem Awaken.up (h : Awaken s s' p) : StayUp s s' := by
  intro x hx hr
  rw [h.state x hx]
  split_ifs
  · rfl
  · exact hr

theorem schedAwake_awaken (h : Queues s tasks Q) (hp : Known s tasks (s.win w)) :
    Awaken s (schedAwake s w) (s.win w) := by
  by_cases hr : (s.tcbs (s.win w)).state = .running
  · rw [schedAwake_running rfl hr]
    refine ⟨Steady.of_eq rfl rfl rfl rfl rfl rfl, fun x hx => ?_, rfl, fun _ _ => rfl⟩
    split_ifs with hx
    · rw [hx]
      exact hr
    · rfl
  · obtain ⟨T, he, hT⟩ := schedAwake_spec rfl (h.linked_awake hp hr).2.2 hr
    rw [he]
    refine ⟨⟨fun x hx => ?_, rfl, rfl, rfl, rfl, ?_⟩, fun x hx => ?_, rfl, fun y hy => ?_⟩
    · show (s.tcbs x).Kin (T x)
      rw [hT x hx]
      refine relink_kin ?_ x
      exact ⟨rfl, rfl, rfl, rfl⟩
    · exact kmap_win (s := s) (w := .tmpmap) (p := s.win w) (by decide)
    · show (T x).state = _
      rw [hT x hx, relink_state]
      rfl
    · exact kmap_win (s := s) (w := .tmpmap) (p := s.win w) hy

theorem schedBlock_kept (h : Queues s tasks Q) (hp : s.win w ∈ tasks)
    (hr : (s.tcbs (s.win w)).state = .running) :
    Steady s (schedBlock s w) ∧
      (∀ x ≠ 0, x ≠ s.win w → ((schedBlock s w).tcbs x).state = (s.tcbs x).state) ∧
      ∀ y ≠ .tmpmap, (schedBlock s w).win y = s.win y := by
  obtain ⟨T, he, hT⟩ := schedBlock_spec rfl (h.linked hp (Tcb.home_ne_blocked hr)) (h.task _ hp).memroot
  rw [he]
  refine ⟨⟨fun x hx => ?_, rfl, rfl, rfl, rfl, ?_⟩, fun x hx hxp => ?_, fun y hy => ?_⟩
  · show (s.tcbs x).Kin (T x)
    rw [hT x hx]
    refine relink_kin ?_ x
    exact ⟨rfl, rfl, rfl, rfl⟩
  · exact kmap_win (s := s) (w := .tmpmap) (p := s.win w) (by decide)
  · show (T x).state = _
    rw [hT x hx, relink_state, if_neg hxp]
  · exact kmap_win (s := s) (w := .tmpmap) (p := s.win w) hy

/-! ## the invariant -/

/-- `idle` is the page of the idle task -/
def Alive (tasks : List Nat) (idle p : Nat) : Prop := p ∈ tasks ∨ p = idle

structure SysBase (tasks : List Nat) (idle : Nat) (s : Core) : Prop where
  queues : ∃ Q, Queues s tasks Q
  idle_pid : idle ≠ 0 ∧ (s.tcbs idle).pid = idle
  idle_root : (s.tcbs idle).memroot = s.idleMapping
  idle_up : (s.tcbs idle).state = .running
  /-- an address space has the TCB of its task at address 0 -/
  roots : ∀ p, Alive tasks idle p → s.tcbOf (s.tcbs p).memroot = p ∧ 4096 ≤ (s.tcbs p).memroot
  services : ∀ k < 8, s.services k = 0 ∨ s.services k ∈ tasks
  /-- only TCBs look like TCBs -/
  magic : ∀ x ≠ 0, (s.tcbs x).magic = tcbMagic → Alive tasks idle x
  timer : s.ccb.hdTimerq = 0 ∨ s.win .tmpalarm ∈ tasks
  alarms : ∀ t ∈ tasks, (s.tcbs t).alarm = 0 ∨ (s.tcbs t).alarm ∈ tasks

/-- a running task (or idle), the one of the address space `m` -/
def Live (tasks : List Nat) (idle : Nat) (s : Core) (p : Nat) : Prop :=
  Alive tasks idle p ∧ (s.tcbs p).state = .running

def LiveRoot (tasks : List Nat) (idle : Nat) (s : Core) (m : Nat) : Prop :=
  ∃ p, Live tasks idle s p ∧ (s.tcbs p).memroot = m

structure SysInv (tasks : List Nat) (idle : Nat) (s : Core) : Prop where
  base : SysBase tasks idle s
  cur : Live tasks idle s (s.win .cur)
  next : s.isrNext = 0 ∨ LiveRoot tasks idle s s.isrNext

namespace SysBase

theorem alive_ne (h : SysBase tasks idle s) (hp : Alive tasks idle p) : p ≠ 0 := by
  obtain ⟨Q, hq⟩ := h.queues
  obtain hp | rfl := hp
  · exact (hq.task p hp).isPid.1
  · exact h.idle_pid.1

theorem alive_pid (h : SysBase tasks idle s) (hp : Alive tasks idle p) : (s.tcbs p).pid = p := by
  obtain ⟨Q, hq⟩ := h.queues
  obtain hp | rfl := hp
  · exact (hq.task p hp).pid
  · exact h.idle_pid.2

theorem known (h : SysBase tasks idle s) (hp : Alive tasks idle p) : Known s tasks p := by
  obtain hp | rfl := hp
  · exact Or.inl hp
  · exact Or.inr ⟨h.idle_root, h.idle_up⟩

theorem kept (h : SysBase tasks idle s) (hk : Steady s s') (hq : ∃ Q, Queues s' tasks Q)
    (hi : (s'.tcbs idle).state = .running) : SysBase tasks idle s' := by
  have hi0 := hk.kin idle h.idle_pid.1
  refine ⟨hq, ⟨h.idle_pid.1, hi0.pid.trans h.idle_pid.2⟩, ?_, hi, fun p hp => ?_, ?_,
    fun x hx hm => ?_, ?_, fun t ht => ?_⟩
  · rw [hi0.memroot, hk.idleMapping]
    exact h.idle_root
  · rw [(hk.kin p (h.alive_ne hp)).memroot, hk.tcbOf]
    exact h.roots p hp
  · rw [hk.services]
    exact h.services
  · exact h.magic x hx ((hk.kin x hx).magic.symm.trans hm)
  · rw [hk.timerq, hk.tmpalarm]
    exact h.timer
  · rw [(hk.kin t (h.alive_ne (Or.inl ht))).alarm]
    exact h.alarms t ht

theorem other (h : SysBase tasks idle s) (ht : s'.tcbs = s.tcbs) (hc : s'.ccb = s.ccb)
    (ha : s'.addr = s.addr) (hs : s'.services = s.services) (hr : s'.tcbOf = s.tcbOf)
    (hi : s'.idleMapping = s.idleMapping) (hw : s'.win .tmpalarm = s.win .tmpalarm) :
    SysBase tasks idle s' := by
  refine h.kept (Steady.of_eq ht hs hr hi (by rw [hc]) hw) ?_ (by rw [ht]; exact h.idle_up)
  obtain ⟨Q, hq⟩ := h.queues
  exact ⟨Q, hq.other ht hc ha hi⟩

theorem awake (h : SysBase tasks idle s) (hp : Alive tasks idle (s.win w)) :
    SysBase tasks idle (schedAwake s w) ∧ Awaken s (schedAwake s w) (s.win w) := by
  obtain ⟨Q, hq⟩ := h.queues
  have ha := schedAwake_awaken hq (h.known hp)
  exact ⟨h.kept ha.kept (hq.awake (h.known hp)) (ha.up idle h.idle_pid.1 h.idle_up), ha⟩

theorem awake_mq (h : SysBase tasks idle s) (hp : Alive tasks idle (s.win w)) :
    (schedAwake s w).mq = s.mq := by
  obtain ⟨Q, hq⟩ := h.queues
  obtain ⟨T, c, v, he⟩ := hq.awake_eq (h.known hp)
  rw [he]

theorem block (h : SysBase tasks idle s) (hp : s.win w ∈ tasks)
    (hr : (s.tcbs (s.win w)).state = .running) : SysBase tasks idle (schedBlock s w) := by
  obtain ⟨Q, hq⟩ := h.queues
  obtain ⟨hk, hst, -⟩ := schedBlock_kept hq hp hr
  refine h.kept hk (hq.block hp hr) ?_
  have hne : idle ≠ s.win w := by
    intro e
    exact (hq.task _ hp).memroot (e ▸ h.idle_root)
  rw [hst idle h.idle_pid.1 hne]
  exact h.idle_up

theorem timers {n : Nat} (h : SysBase tasks idle s)
    (hT : ∀ x, ∃ a b c, s'.tcbs x = { s.tcbs x with alarm := a, alarmsec := b, alarmns := c })
    (hc : s'.ccb = { s.ccb with hdTimerq := n }) (ha : s'.addr = s.addr)
    (hs : s'.services = s.services) (hr : s'.tcbOf = s.tcbOf) (hi : s'.idleMapping = s.idleMapping)
    (ht : n = 0 ∨ s'.win .tmpalarm ∈ tasks)
    (hal : ∀ t ∈ tasks, (s'.tcbs t).alarm = 0 ∨ (s'.tcbs t).alarm ∈ tasks) :
    SysBase tasks idle s' := by
  have hst : ∀ x, (s'.tcbs x).state = (s.tcbs x).state := by
    intro x
    obtain ⟨a, b, c, e⟩ := hT x
    rw [e]
  have hmr : ∀ x, (s'.tcbs x).memroot = (s.tcbs x).memroot := by
    intro x
    obtain ⟨a, b, c, e⟩ := hT x
    rw [e]
  obtain ⟨Q, hq⟩ := h.queues
  have hq' : Queues s' tasks Q := by
    refine hq.frame (fun x _ => ?_) (fun q => ?_) ?_ ha hi
    · obtain ⟨a, b, c, e⟩ := hT x
      rw [e]
      exact ⟨rfl, rfl, rfl, rfl, rfl, rfl⟩
    · rw [hc]
      cases q <;> rfl
    · rw [hc]
      exact hq.cursor
  refine ⟨⟨Q, hq'⟩, ⟨h.idle_pid.1, ?_⟩, ?_, ?_, fun p hp => ?_, ?_, fun x hx hm => ?_, ?_, hal⟩
  · obtain ⟨a, b, c, e⟩ := hT idle
    rw [e]
    exact h.idle_pid.2
  · rw [hmr, hi]
    exact h.idle_root
  · rw [hst]
    exact h.idle_up
  · rw [hmr, hr]
    exact h.roots p hp
  · rw [hs]
    exact h.services
  · obtain ⟨a, b, c, e⟩ := hT x
    rw [e] at hm
    exact h.magic x hx hm
  · rw [hc]
    exact ht

end SysBase

theorem Live.stays (h : Live tasks idle s p) (hb : SysBase tasks idle s) (hu : StayUp s s') :
    Live tasks idle s' p := ⟨h.1, hu p (hb.alive_ne h.1) h.2⟩

theorem LiveRoot.stays {m : Nat} (h : LiveRoot tasks idle s m) (hb : SysBase tasks idle s)
    (hu : StayUp s s') (hk : Steady s s') : LiveRoot tasks idle s' m := by
  obtain ⟨p, hp, hm⟩ := h
  exact ⟨p, hp.stays hb hu, ((hk.kin p (hb.alive_ne hp.1)).memroot).trans hm⟩

theorem Awaken.live (h : Awaken s s' p) (hb : SysBase tasks idle s) (hp : Alive tasks idle p) :
    Live tasks idle s' p ∧ LiveRoot tasks idle s' s'.isrNext := by
  have hl : Live tasks idle s' p := ⟨hp, by rw [h.state p (hb.alive_ne hp), if_pos rfl]⟩
  exact ⟨hl, p, hl, ((h.kept.kin p (hb.alive_ne hp)).memroot).trans h.isrNext.symm⟩

theorem schedAwake_win (h : Queues s tasks Q) (hp : Known s tasks (s.win w)) :
    (schedAwake s w).win w = s.win w := by
  by_cases hr : (s.tcbs (s.win w)).state = .running
  · rw [schedAwake_running rfl hr]
  · obtain ⟨T, he, -⟩ := schedAwake_spec rfl (h.linked_awake hp hr).2.2 hr
    rw [he]
    show update s.win .tmpmap (s.win w) w = s.win w
    rw [update_apply]
    split_ifs <;> rfl

/-! ## messages and picking -/

/-- the invariant is kept, no task stops, and `isr_next` is the old one or a running task -/
structure Went (tasks : List Nat) (idle : Nat) (s s' : Core) : Prop where
  base : SysBase tasks idle s'
  up : StayUp s s'
  kept : Steady s s'
  next : s'.isrNext = s.isrNext ∨ LiveRoot tasks idle s' s'.isrNext

/-- no pointer is refused while the destination is not running -/
def SendOk (s : Core) (e : Event) (a b : Nat) : Prop :=
  ∀ d q err, s.Dest e d → e.ptrdata = true →
    ptrBuf s.nrmqmax (s.mq (s.tcbs d).memroot) a b = .error (q, err) → (s.tcbs d).state = .running

/-- the page that `sched_get_tcb(services[-SRV_init])` gives -/
def Core.initPage (s : Core) : Nat := if s.services 6 = 0 then s.win .cur else s.services 6

theorem Went.inv (h : Went tasks idle s s') (hi : SysInv tasks idle s)
    (hc : s'.win .cur = s.win .cur) : SysInv tasks idle s' := by
  refine ⟨h.base, ?_, ?_⟩
  · rw [hc]
    exact hi.cur.stays hi.base h.up
  · obtain hn | hn := h.next
    · rw [hn]
      exact hi.next.imp_right (fun hl => hl.stays hi.base h.up h.kept)
    · exact Or.inr hn

namespace SysBase

theorem went_other (h : SysBase tasks idle s) (ht : s'.tcbs = s.tcbs) (hc : s'.ccb = s.ccb)
    (ha : s'.addr = s.addr) (hs : s'.services = s.services) (hr : s'.tcbOf = s.tcbOf)
    (hi : s'.idleMapping = s.idleMapping) (hw : s'.win .tmpalarm = s.win .tmpalarm)
    (hn : s'.isrNext = s.isrNext ∨ LiveRoot tasks idle s' s'.isrNext) : Went tasks idle s s' :=
  ⟨h.other ht hc ha hs hr hi hw, StayUp.of_eq ht, Steady.of_eq ht hs hr hi (by rw [hc]) hw, hn⟩

theorem mapped_cur (s : Core) (d : Nat) (q : Msghdr) : (s.mapped d q).win .cur = s.win .cur := by
  simp [Core.mapped]

theorem mapped_tmpalarm (s : Core) (d : Nat) (q : Msghdr) :
    (s.mapped d q).win .tmpalarm = s.win .tmpalarm := by
  simp [Core.mapped]

theorem mapped_tmpmap (s : Core) (d : Nat) (q : Msghdr) : (s.mapped d q).win .tmpmap = d := by
  simp [Core.mapped]

theorem sends (h : SysBase tasks idle s) (allowed : Core → Nat → Event → Bool)
    (hc : Live tasks idle s (s.win .cur)) {e : Event} {a b : Nat} (ho : SendOk s e a b) :
    Went tasks idle s (msgSends allowed s e a b).1 ∧
      (msgSends allowed s e a b).1.win .cur = s.win .cur := by
  obtain ⟨err, he⟩ | ⟨d, he⟩ | ⟨d, q, err, hd, hm, hp, hb, he⟩ | ⟨d, q, hd, hm, he⟩ :=
    msgSends_cases allowed s e a b
  · rw [he]
    exact ⟨h.went_other rfl rfl rfl rfl rfl rfl rfl (Or.inl rfl), rfl⟩
  · rw [he]
    refine ⟨h.went_other rfl rfl rfl rfl rfl rfl ?_ (Or.inl rfl), ?_⟩
    · exact kmap_win (s := s) (w := .tmpmap) (p := d) (y := .tmpalarm) (by decide)
    · exact kmap_win (s := s) (w := .tmpmap) (p := d) (y := .cur) (by decide)
  · rw [he]
    have hal := h.magic d hd.1 hm
    refine ⟨h.went_other rfl rfl rfl rfl rfl rfl (mapped_tmpalarm s d q) ?_, mapped_cur s d q⟩
    exact Or.inr ⟨d, ⟨hal, ho d q err hd hp hb⟩, rfl⟩
  · rw [he]
    have hal := h.magic d hd.1 hm
    obtain ⟨u, hu⟩ : ∃ u, u = ((s.mapped d q).fail .EBUSY).fail .SUCCESS := ⟨_, rfl⟩
    have hut : u.tcbs = s.tcbs := by rw [hu]; rfl
    have huw : u.win = (s.mapped d q).win := by rw [hu]; rfl
    have hwind : u.win .tmpmap = d := by rw [huw, mapped_tmpmap]
    have hcu : u.win .cur = s.win .cur := by rw [huw, mapped_cur]
    have hub : SysBase tasks idle u := by
      rw [hu]
      exact h.other rfl rfl rfl rfl rfl rfl (mapped_tmpalarm s d q)
    have huk : Steady s u := by
      rw [hu]
      exact Steady.of_eq rfl rfl rfl rfl rfl (mapped_tmpalarm s d q)
    have hup : StayUp s u := StayUp.of_eq hut
    unfold msgSent
    rw [if_neg (by decide)]
    dsimp only
    rw [← hu]
    by_cases hsame : (u.tcb .cur).pid = (u.tcb .tmpmap).pid
    · -- the task sends to itself
      rw [if_pos hsame]
      have hdc : s.win .cur = d := by
        have h1 : (s.tcbs (s.win .cur)).pid = s.win .cur := h.alive_pid hc.1
        have h2 : (s.tcbs d).pid = d := h.alive_pid hal
        unfold Core.tcb at hsame
        rw [hut, hcu, hwind, h1, h2] at hsame
        exact hsame
      refine ⟨⟨hub, hup, huk, Or.inr ⟨d, ⟨hal, ?_⟩, ?_⟩⟩, hcu⟩
      · rw [hut, ← hdc]
        exact hc.2
      · rw [hu]
        rfl
    · rw [if_neg hsame]
      have hal' : Alive tasks idle (u.win .tmpmap) := by rw [hwind]; exact hal
      obtain ⟨hb', ha⟩ := hub.awake hal'
      refine ⟨⟨hb', hup.trans ha.up, huk.trans ha.kept, Or.inr (ha.live hub hal').2⟩, ?_⟩
      rw [ha.win .cur (by decide), hcu]

theorem getInit (h : SysBase tasks idle s) (hc : Alive tasks idle (s.win .cur)) :
    ∃ u w, schedGetTcb s (s.services 6) = (u, w) ∧ SysBase tasks idle u ∧ Steady s u ∧
      u.tcbs = s.tcbs ∧ u.mq = s.mq ∧ u.win w = s.initPage ∧ Alive tasks idle s.initPage := by
  obtain ⟨Q, hq⟩ := h.queues
  obtain h0 | hm := h.services 6 (by decide)
  · have hi : s.initPage = s.win .cur := if_pos h0
    refine ⟨s, .cur, ?_, h, Steady.of_eq rfl rfl rfl rfl rfl rfl, rfl, rfl, hi.symm, hi ▸ hc⟩
    unfold schedGetTcb
    rw [if_pos h0]
  · have hi : s.initPage = s.services 6 := if_neg (h.alive_ne (Or.inl hm))
    have hw : (s.kmap .tmpmap (s.services 6)).win .tmpalarm = s.win .tmpalarm :=
      kmap_win (by decide)
    refine ⟨_, _, schedGetTcb_pid (hq.task _ hm).isPid rfl, h.other rfl rfl rfl rfl rfl rfl hw,
      Steady.of_eq rfl rfl rfl rfl rfl hw, rfl, rfl, ?_, hi ▸ Or.inl hm⟩
    rw [hi]
    simp [Core.kmap]

/-- `b` is the state in which `sys_ready` sends its message: `init` (or the current task, if there is
no `init`) has been awaken and is the current task -/
theorem readyMapped (h : SysBase tasks idle s) (allowed : Core → Nat → Event → Bool)
    (hc : Alive tasks idle (s.win .cur)) :
    ∃ b, sysReady allowed s = (msgSends allowed b ⟨-1, 6, false⟩ 0 0).1 ∧
      SysBase tasks idle b ∧ StayUp s b ∧ Steady s b ∧ Live tasks idle b (b.win .cur) ∧
      LiveRoot tasks idle b b.isrNext ∧ b.mq = s.mq ∧
      ∀ x ≠ 0, (b.tcbs x).state = if x = s.initPage then .running else (s.tcbs x).state := by
  -- `sched_get_tcb(services[-SRV_init])`
  obtain ⟨u, w, hg, hub, huk, hut, hum, huw, hal⟩ := h.getInit hc
  rw [← huw] at hal
  obtain ⟨Qu, hqu⟩ := hub.queues
  obtain ⟨hab, ha⟩ := hub.awake hal
  obtain ⟨hlive, hroot⟩ := ha.live hub hal
  have hwin := schedAwake_win hqu (hub.known hal)
  obtain ⟨a, haw⟩ : ∃ a, a = schedAwake u w := ⟨_, rfl⟩
  rw [← haw] at hab ha hlive hroot hwin
  -- `task_map(tcb->memroot)`
  obtain ⟨b, hb⟩ : ∃ b, b = a.taskMap (a.tcb w).memroot := ⟨_, rfl⟩
  have hbw : b.win .tmpalarm = a.win .tmpalarm := by
    rw [hb]
    exact kmap_win (s := a) (w := .cur) (y := .tmpalarm) (by decide)
  have hbc : b.win .cur = u.win w := by
    rw [hb]
    show update a.win .cur _ .cur = _
    rw [update_self]
    unfold Core.tcb
    rw [hwin]
    exact (hab.roots _ hal).1
  have hbt : b.tcbs = a.tcbs := by rw [hb]; rfl
  have hbk : Steady a b := Steady.of_eq hbt (by rw [hb]; rfl) (by rw [hb]; rfl) (by rw [hb]; rfl)
    (by rw [hb]; rfl) hbw
  have hbb : SysBase tasks idle b := hab.other hbt (by rw [hb]; rfl) (by rw [hb]; rfl)
    (by rw [hb]; rfl) (by rw [hb]; rfl) (by rw [hb]; rfl) hbw
  have hbi : b.isrNext = a.isrNext := by rw [hb]; rfl
  refine ⟨b, ?_, hbb, ((StayUp.of_eq hut).trans ha.up).trans (StayUp.of_eq hbt),
    (huk.trans ha.kept).trans hbk, ?_, ?_, ?_, fun x hx => ?_⟩
  · unfold sysReady
    rw [hg]
    dsimp only
    rw [← haw, ← hb]
  · rw [hbc]
    exact hlive.stays hab (StayUp.of_eq hbt)
  · rw [hbi]
    exact hroot.stays hab (StayUp.of_eq hbt) hbk
  · rw [hb, haw]
    show (schedAwake u w).mq = s.mq
    rw [hub.awake_mq hal, hum]
  · rw [hbt, ha.state x hx, hut, huw]

theorem ready (h : SysBase tasks idle s) (allowed : Core → Nat → Event → Bool)
    (hc : Alive tasks idle (s.win .cur)) :
    SysBase tasks idle (sysReady allowed s) ∧ StayUp s (sysReady allowed s) ∧
      Steady s (sysReady allowed s) ∧ SysInv tasks idle (sysReady allowed s) ∧
      LiveRoot tasks idle (sysReady allowed s) (sysReady allowed s).isrNext := by
  obtain ⟨b, he, hbb, hup, hk, hbl, hbn, -, -⟩ := h.readyMapped allowed hc
  obtain ⟨hw, hcw⟩ := hbb.sends allowed (e := ⟨-1, 6, false⟩) (a := 0) (b := 0) hbl
    (fun _ _ _ _ hp _ => absurd hp (by decide))
  rw [he]
  have hinv := hw.inv ⟨hbb, hbl, Or.inr hbn⟩ hcw
  refine ⟨hw.base, hup.trans hw.up, hk.trans hw.kept, hinv, ?_⟩
  obtain hn | hn := hw.next
  · rw [hn]
    exact hbn.stays hbb hw.up hw.kept
  · exact hn

end SysBase

/-- `s'` and `m` are what `sched_pick` leaves and returns -/
structure PickRes (tasks : List Nat) (idle : Nat) (s s' : Core) (m : Nat) : Prop where
  went : Went tasks idle s s'
  target : LiveRoot tasks idle s' m
  cur : s'.win .cur = s.win .cur ∨ Live tasks idle s' (s'.win .cur)

namespace SysBase

theorem found (h : SysBase tasks idle s) {i : Nat} (hi : s.ccb.crActive i ≠ 0) :
    PickRes tasks idle s (pickFound s i).1 (pickFound s i).2 := by
  obtain ⟨Q, hq⟩ := h.queues
  have hm := (hq.cursor i).resolve_left hi
  have hal : Alive tasks idle (s.ccb.crActive i) := Or.inl ((hq.home _ _).mp hm).1
  -- a task of an active queue is running
  have hrun : (s.tcbs (s.ccb.crActive i)).state = .running := by
    by_contra hn
    have hh := ((hq.home _ _).mp hm).2
    rw [Tcb.home_blocked hn] at hh
    exact QName.noConfusion hh
  obtain ⟨n, he, hn⟩ := Queues.pickFound_eq (hq.isTask hm).isPid
  have hqf := hq.found hi
  rw [he] at hqf ⊢
  have hwin : ∀ y ≠ .tmpmap, (s.kmap .tmpmap (s.ccb.crActive i)).win y = s.win y :=
    fun y hy => kmap_win hy
  have hk : Steady s { (s.kmap .tmpmap (s.ccb.crActive i)).setCursor i
      (s.tcbs (s.ccb.crActive i)).next with isrNext := n } :=
    Steady.of_eq rfl rfl rfl rfl rfl (hwin .tmpalarm (by decide))
  refine ⟨⟨h.kept hk ⟨Q, hqf⟩ h.idle_up, StayUp.of_eq rfl, hk, ?_⟩, ?_, ?_⟩
  · obtain rfl | rfl := hn
    · exact Or.inl rfl
    · exact Or.inr ⟨_, ⟨hal, hrun⟩, rfl⟩
  · exact ⟨_, ⟨hal, hrun⟩, rfl⟩
  · exact Or.inl (hwin .cur (by decide))

theorem scan (h : SysBase tasks idle s) (l : List Nat) (b : Bool) :
    SysBase tasks idle (pickScan s l b).1 := by
  obtain ⟨Q, hq⟩ := h.queues
  have hs := hq.scan l b
  obtain ⟨c, hc⟩ := Queues.scan_eq s l b
  rw [hc] at hs ⊢
  exact h.kept (Steady.of_eq rfl rfl rfl rfl rfl rfl) ⟨Q, hs⟩ h.idle_up

theorem setCursor (h : SysBase tasks idle s) (i : Nat) :
    SysBase tasks idle (s.setCursor i (s.ccb.hdActive i)) := by
  obtain ⟨Q, hq⟩ := h.queues
  exact h.kept (Steady.of_eq rfl rfl rfl rfl rfl rfl) ⟨Q, hq.setCursor (hq.head_mem (.active i))⟩
    h.idle_up

theorem pickIdle_res (h : SysBase tasks idle s) (hc : Alive tasks idle (s.win .cur)) :
    PickRes tasks idle s (pickIdle allowed s).1 (pickIdle allowed s).2 := by
  unfold pickIdle
  by_cases h7 : s.ccb.hdActive 7 = 0
  · rw [if_pos h7]
    dsimp only
    by_cases hf : s.idleFirst = true
    · rw [if_pos hf]
      obtain ⟨u, hu⟩ : ∃ u : Core, u = { s with isrNext := s.idleMapping, idleFirst := false } :=
        ⟨_, rfl⟩
      have hub : SysBase tasks idle u := by
        rw [hu]
        exact h.other rfl rfl rfl rfl rfl rfl rfl
      have huc : Alive tasks idle (u.win .cur) := by
        rw [hu]
        exact hc
      have hup : StayUp s u := StayUp.of_eq (by rw [hu])
      have huk : Steady s u := by
        rw [hu]
        exact Steady.of_eq rfl rfl rfl rfl rfl rfl
      rw [← hu]
      obtain ⟨h1, h2, h3, h4, h5⟩ := hub.ready allowed huc
      exact ⟨⟨h1, hup.trans h2, huk.trans h3, Or.inr h5⟩, h5, Or.inr h4.cur⟩
    · rw [if_neg hf]
      have hl : LiveRoot tasks idle s s.idleMapping :=
        ⟨idle, ⟨Or.inr rfl, h.idle_up⟩, h.idle_root⟩
      exact ⟨h.went_other rfl rfl rfl rfl rfl rfl rfl (Or.inr hl), hl, Or.inl rfl⟩
  · rw [if_neg h7]
    by_cases h8 : s.ccb.crActive 7 = 0
    · rw [if_pos h8]
      have hcr : (s.setCursor 7 (s.ccb.hdActive 7)).ccb.crActive 7 ≠ 0 := by
        show update s.ccb.crActive 7 (s.ccb.hdActive 7) 7 ≠ 0
        rw [update_self]
        exact h7
      obtain ⟨⟨h1, h2, h3, h4⟩, h5, h6⟩ := (h.setCursor 7).found hcr
      exact ⟨⟨h1, h2, ⟨h3.kin, h3.services, h3.tcbOf, h3.idleMapping, h3.timerq, h3.tmpalarm⟩, h4⟩,
        h5, h6⟩
    · rw [if_neg h8]
      exact h.found h8

theorem again (h : SysBase tasks idle s) (hc : Alive tasks idle (s.win .cur)) {n : Nat} {b : Bool}
    {r : Core × Nat} (hp : pickAgain allowed n s b = some r) : PickRes tasks idle s r.1 r.2 := by
  obtain ⟨u, c, hu, he, hres⟩ := Queues.pickAgain_cases (P := SysBase tasks idle)
    (fun _ l b hu => hu.scan l b) h hp
  have hcur : Alive tasks idle (u.win .cur) := by
    rw [he]
    exact hc
  -- a pass writes cursors only
  have hback : PickRes tasks idle u r.1 r.2 → PickRes tasks idle s r.1 r.2 := by
    rw [he]
    rintro ⟨⟨h1, h2, h3, h4⟩, h5, h6⟩
    exact ⟨⟨h1, h2, ⟨h3.kin, h3.services, h3.tcbOf, h3.idleMapping, h3.timerq, h3.tmpalarm⟩, h4⟩,
      h5, h6⟩
  apply hback
  obtain ⟨i, hi, rfl⟩ | rfl := hres
  · exact hu.found hi
  · exact hu.pickIdle_res hcur

end SysBase

/-! ## the entries keep the invariant -/

theorem SysInv.other (h : SysInv tasks idle s) (ht : s'.tcbs = s.tcbs) (hc : s'.ccb = s.ccb)
    (ha : s'.addr = s.addr) (hs : s'.services = s.services) (hr : s'.tcbOf = s.tcbOf)
    (hi : s'.idleMapping = s.idleMapping) (hw : s'.win = s.win) (hn : s'.isrNext = s.isrNext) :
    SysInv tasks idle s' := by
  refine ⟨h.base.other ht hc ha hs hr hi (by rw [hw]), ?_, ?_⟩
  · unfold Live
    rw [hw, ht]
    exact h.cur
  · unfold LiveRoot Live
    rw [hn, ht]
    exact h.next

theorem SysBase.switch {m : Nat} (h : SysBase tasks idle s) (hm : LiveRoot tasks idle s m) :
    SysInv tasks idle { s.taskMap m with isrNext := 0 } := by
  obtain ⟨p, hp, rfl⟩ := hm
  have hw : (s.taskMap (s.tcbs p).memroot).win .tmpalarm = s.win .tmpalarm := by
    unfold Core.taskMap
    exact kmap_win (by decide)
  have hc : (s.taskMap (s.tcbs p).memroot).win .cur = p := by
    simp [Core.taskMap, Core.kmap, (h.roots p hp.1).1]
  refine ⟨h.other rfl rfl rfl rfl rfl rfl hw, ?_, Or.inl rfl⟩
  show Live tasks idle _ ((s.taskMap (s.tcbs p).memroot).win .cur)
  rw [hc]
  exact hp

theorem SysBase.pickSwitch (h : SysBase tasks idle s) (hc : Alive tasks idle (s.win .cur))
    (hp : OsZ.pickSwitch allowed s = some s') : SysInv tasks idle s' := by
  unfold OsZ.pickSwitch at hp
  obtain ⟨r, hr, rfl⟩ := Option.map_eq_some_iff.mp hp
  have hres := h.again hc hr
  obtain ⟨p, hp, hm⟩ := hres.target
  have h4 : ¬r.2 < 4096 := by
    rw [← hm]
    exact Nat.not_lt.mpr (hres.went.base.roots p hp.1).2
  rw [if_neg h4]
  exact hres.went.base.switch hres.target

/-- "never block the idle task" -/
theorem SysInv.block_idle (h : SysInv tasks idle s) (hc : s.win .cur = idle) : schedBlock s .cur = s := by
  unfold schedBlock Core.tcb
  rw [hc]
  exact if_pos h.base.idle_root

theorem SysInv.sysRecv (h : SysInv tasks idle s) (hp : OsZ.sysRecv allowed s = some s') :
    SysInv tasks idle s' := by
  unfold OsZ.sysRecv at hp
  by_cases he : s.curMq.mqEnd = s.curMq.mqStart
  · rw [if_pos he] at hp
    obtain ⟨Q, hq⟩ := h.base.queues
    obtain hc | hc := h.cur.1
    · obtain ⟨-, -, hw⟩ := schedBlock_kept hq hc h.cur.2
      refine (h.base.block hc h.cur.2).pickSwitch ?_ hp
      rw [hw .cur (by decide)]
      exact h.cur.1
    · rw [h.block_idle hc] at hp
      exact h.base.pickSwitch h.cur.1 hp
  · rw [if_neg he] at hp
    obtain rfl := Option.some.inj hp
    exact h.other rfl rfl rfl rfl rfl rfl rfl rfl

/-- no alarm blocks its caller, no pointer is refused while the destination is not running -/
def SysSafe (m : Machine) : Option SysOp → Prop
  | some (.alarm sec usec) => m.core.past m.alarmstep sec usec
  | some (.send e a b) => SendOk m.core e a b
  | _ => True

theorem schedAlarm_past {fuel sec nsec : Nat} (h : sec < s.ts ∨ s.ts = sec ∧ nsec < s.nts) :
    schedAlarm fuel s w sec nsec = some (schedAwake s w) := if_pos h

theorem SysInv.call {fuel : Nat} {m : Machine} {o : SysOp} (h : SysInv tasks idle m.core)
    (hs : SysSafe m (some o)) (hp : isrSyscall allowed fuel m.alarmstep m.core o = some s) :
    SysInv tasks idle s := by
  have h0 : SysInv tasks idle (m.core.fail .SUCCESS) :=
    h.other rfl rfl rfl rfl rfl rfl rfl rfl
  cases o with
  | recv => exact h0.sysRecv hp
  | yield => exact h0.base.pickSwitch h0.cur.1 hp
  | alarm sec usec =>
    have he : schedAwake (m.core.fail .SUCCESS) .cur = s :=
      Option.some.inj ((schedAlarm_past (s := m.core.fail .SUCCESS) hs).symm.trans hp)
    obtain ⟨hb, ha⟩ := h0.base.awake h0.cur.1
    rw [he] at hb ha
    refine ⟨hb, ?_, Or.inr (ha.live h0.base h0.cur.1).2⟩
    rw [ha.win .cur (by decide)]
    exact h0.cur.stays h0.base ha.up
  | send e a b =>
    obtain ⟨hw, hc⟩ := h0.base.sends allowed (e := e) (a := a) (b := b) h0.cur hs
    rw [← Option.some.inj hp]
    exact hw.inv h0 hc

/-- what the second part of `alarmExpire` does to the TCBs: `a` is the state after `sched_awake` -/
structure Expired (a v : Core) (n : Nat) : Prop where
  tcbs : ∀ x, v.tcbs x = { a.tcbs x with
    alarm := if x = a.win .tmpalarm then 0 else (a.tcbs x).alarm }
  ccb : v.ccb = { a.ccb with hdTimerq := n }
  win : ∀ y ≠ .tmpalarm, v.win y = a.win y
  tmpalarm : n ≠ 0 → v.win .tmpalarm = n
  addr : v.addr = a.addr
  services : v.services = a.services
  tcbOf : v.tcbOf = a.tcbOf
  idleMapping : v.idleMapping = a.idleMapping
  isrNext : v.isrNext = a.isrNext

theorem alarmExpire_expired (s : Core) : Expired (schedAwake s .tmpalarm) (alarmExpire s)
    ((schedAwake s .tmpalarm).tcb .tmpalarm).alarm := by
  unfold alarmExpire
  obtain ⟨a, ha⟩ : ∃ a, a = schedAwake s .tmpalarm := ⟨_, rfl⟩
  rw [← ha]
  dsimp only
  by_cases hn : (a.tcb .tmpalarm).alarm = 0
  · rw [if_pos hn]
    refine ⟨fun x => ?_, rfl, fun _ _ => rfl, fun h => absurd hn h, rfl, rfl, rfl, rfl, rfl⟩
    show a.tcbs x = _
    split_ifs with hx
    · rw [hx, ← show (a.tcbs (a.win .tmpalarm)).alarm = 0 from hn]
    · rfl
  · rw [if_neg hn]
    refine ⟨fun x => ?_, rfl, fun y hy => kmap_win hy, fun _ => ?_, rfl, rfl, rfl, rfl, rfl⟩
    · show update a.tcbs (a.win .tmpalarm) _ x = _
      rw [update_apply]
      split_ifs with hx
      · rw [hx]
        rfl
      · rfl
    · simp [Core.kmap]

/-- the task at `tmpalarm` is awaken, everything else is in order -/
theorem SysBase.expire (h : SysBase tasks idle s) (h0 : s.ccb.hdTimerq ≠ 0) :
    SysBase tasks idle (alarmExpire s) ∧ StayUp s (alarmExpire s) ∧
      LiveRoot tasks idle (alarmExpire s) (alarmExpire s).isrNext ∧
      (alarmExpire s).win .cur = s.win .cur := by
  have hmem : s.win .tmpalarm ∈ tasks := h.timer.resolve_left h0
  obtain ⟨hb, ha⟩ := h.awake (w := .tmpalarm) (Or.inl hmem)
  have hl := (ha.live h (Or.inl hmem)).2
  have he := alarmExpire_expired s
  obtain ⟨a, haw⟩ : ∃ a, a = schedAwake s .tmpalarm := ⟨_, rfl⟩
  obtain ⟨v, hv⟩ : ∃ v, v = alarmExpire s := ⟨_, rfl⟩
  rw [← haw, ← hv] at he
  rw [← haw] at hb ha hl
  rw [← hv]
  have hwa : a.win .tmpalarm = s.win .tmpalarm := ha.win .tmpalarm (by decide)
  have hst : ∀ x, (v.tcbs x).state = (a.tcbs x).state := fun x => by rw [he.tcbs x]
  have hmr : ∀ x, (v.tcbs x).memroot = (a.tcbs x).memroot := fun x => by rw [he.tcbs x]
  have hnext : (a.tcb .tmpalarm).alarm = 0 ∨ (a.tcb .tmpalarm).alarm ∈ tasks := by
    refine hb.alarms _ ?_
    rw [hwa]
    exact hmem
  refine ⟨?_, fun x hx hr => ?_, ?_, ?_⟩
  · refine hb.timers (fun x => ⟨_, _, _, he.tcbs x⟩) he.ccb he.addr he.services he.tcbOf
      he.idleMapping ?_ (fun t ht => ?_)
    · by_cases hn : (a.tcb .tmpalarm).alarm = 0
      · exact Or.inl hn
      · rw [he.tmpalarm hn]
        exact Or.inr (hnext.resolve_left hn)
    · rw [he.tcbs t]
      show (if t = a.win .tmpalarm then 0 else _) = 0 ∨ (if t = a.win .tmpalarm then 0 else _) ∈ tasks
      split_ifs
      · exact Or.inl rfl
      · exact hb.alarms t ht
  · rw [hst]
    exact ha.up x hx hr
  · obtain ⟨p, hp, hm⟩ := hl
    exact ⟨p, ⟨hp.1, (hst p).trans hp.2⟩, (hmr p).trans (hm.trans he.isrNext.symm)⟩
  · rw [he.win .cur (by decide), ha.win .cur (by decide)]

theorem SysInv.expire (h : SysInv tasks idle s) (h0 : s.ccb.hdTimerq ≠ 0) :
    SysInv tasks idle (alarmExpire s) := by
  obtain ⟨hb, hu, hl, hc⟩ := h.base.expire h0
  refine ⟨hb, ?_, Or.inr hl⟩
  rw [hc]
  exact h.cur.stays h.base hu

theorem SysInv.tick {m : Machine} (h : SysInv tasks idle m.core) : SysInv tasks idle m.tick.core := by
  unfold Machine.tick
  dsimp only
  split_ifs
  · exact h.other rfl rfl rfl rfl rfl rfl rfl rfl
  · exact h.other rfl rfl rfl rfl rfl rfl rfl rfl

theorem SysInv.isrTimer {m m' : Machine} (h : SysInv tasks idle m.core)
    (hp : OsZ.isrTimer allowed m = some m') : SysInv tasks idle m'.core := by
  have ht := h.tick
  unfold OsZ.isrTimer at hp
  dsimp only at hp
  split_ifs at hp with h1 h2 h3
  · rw [← Option.some.inj hp]
    exact ht
  · rw [← Option.some.inj hp]
    exact ht.expire h2.1
  · rw [← Option.some.inj hp]
    exact ht
  · obtain ⟨r, hr, rfl⟩ := Option.map_eq_some_iff.mp hp
    have hres := ht.base.again ht.cur.1 hr
    obtain hc | hc := hres.cur
    · exact hres.went.inv ht hc
    · refine ⟨hres.went.base, hc, ?_⟩
      obtain hn | hn := hres.went.next
      · show r.1.isrNext = 0 ∨ LiveRoot tasks idle r.1 r.1.isrNext
        rw [hn]
        exact ht.next.imp_right (fun hl => hl.stays ht.base hres.went.up hres.went.kept)
      · exact Or.inr hn

theorem SysInv.irqReturn (h : SysInv tasks idle s) : SysInv tasks idle (OsZ.irqReturn s) := by
  unfold OsZ.irqReturn
  by_cases hs : s.isrNext < 4096 ∨ s.isrNext = (s.tcb .cur).memroot
  · rw [if_pos hs]
    exact ⟨h.base.other rfl rfl rfl rfl rfl rfl rfl, h.cur, Or.inl rfl⟩
  · rw [if_neg hs]
    have h4 := fun h0 : s.isrNext = 0 => hs (Or.inl (by omega))
    exact h.base.switch (h.next.resolve_left h4)

theorem SysStep.inv {m m' : Machine} {o : Option SysOp} (hs : SysStep allowed m o m')
    (h : SysInv tasks idle m.core) (hc : SysSafe m o) : SysInv tasks idle m'.core := by
  cases hs with
  | call fuel hd hp => exact h.call hc hp
  | timer hp =>
    unfold isrIrqtmr at hp
    obtain ⟨a, ha, rfl⟩ := Option.map_eq_some_iff.mp hp
    exact (h.isrTimer ha).irqReturn

/-- the idle task is current, 5 and 6 wait for their turn -/
def demoMachine : Machine := ⟨demoPair, 1000, 1000, 1000, 1, 10⟩

theorem demoPair_base : SysBase [6, 5] 9 demoPair := by
  have hmem : ∀ p ∈ [6, 5], p = 6 ∨ p = 5 := by decide
  obtain ⟨a, b, c, hT⟩ : ∃ a b c, demoPair.tcbs = update (update
    (update demoCore.tcbs 5 a) 6 b) 5 c := ⟨_, _, _, rfl⟩
  refine ⟨⟨demoQ, demoPair_queues⟩, by decide +kernel, by decide +kernel, by decide +kernel, ?_,
    fun _ _ => Or.inl rfl, fun x _ hm => ?_, Or.inl rfl, ?_⟩
  · rintro p (hp | rfl)
    · obtain rfl | rfl := hmem p hp <;> decide +kernel
    · decide +kernel
  · by_cases h5 : x = 5
    · exact Or.inl (by rw [h5]; decide)
    by_cases h6 : x = 6
    · exact Or.inl (by rw [h6]; decide)
    rw [hT, update_of_ne h5, update_of_ne h6, update_of_ne h5] at hm
    refine Or.inr ?_
    by_contra h9
    have h0 : (demoCore.tcbs x).magic = 0 := if_neg (by omega)
    rw [h0] at hm
    exact absurd hm (by decide)
  · intro t ht
    obtain rfl | rfl := hmem t ht <;> exact Or.inl (by decide +kernel)

/-- the task 6 is current -/
def demoSix : Machine := { demoMachine with core := demoPair.kmap .cur 6, qcnt := 5 }

theorem demoSix_inv : SysInv [6, 5] 9 demoSix.core :=
  ⟨demoPair_base.other rfl rfl rfl rfl rfl rfl (by decide +kernel),
    ⟨Or.inl (by decide +kernel), by decide +kernel⟩, Or.inl (by decide +kernel)⟩

end
end OsZ
