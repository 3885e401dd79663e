import OsZ.Base.Word
import OsZ.Base.Run

/-!
# The scheduler (`core/sched.c`) and what it calls

A task is the number of the page with its TCB.  The core sees a TCB only through a window: the page
at address 0 of the current address space, `tmpmap`, `tmp2map`, `tmpalarm` and the page at
`pmm.bss_end`.  `Core.tcbs` are the pages, `Core.win` says which page is seen through which window.

* `schedGetTcb`                `sched_get_tcb(task)`: it may map the page at `tmpmap`;
* `schedAdd`, `schedRemove`, `schedBlock`, `schedAwake`, `schedHybernate`  the queues;
* `schedAlarm`                 `sched_alarm(tcb,sec,nsec)`;
* `msgSends`                   `msg_sends(event,...)` of `core/msg.c`, called by `sys_ready()`;
* `schedPick`                  `sched_pick()`.

Left out are the contents of messages, the mapping of message buffers and the random seed.  `allowed` is
`msg_allowed(sender,dest,event)` of `core/security.c`.
-/

namespace OsZ
open Function (update)

inductive TcbState where
  | hybernated | blocked | running
deriving DecidableEq

/-- `tcb_t` -/
structure Tcb where
  magic : Nat
  priority : Nat
  state : TcbState
  pid : Nat
  memroot : Nat
  next : Nat
  prev : Nat
  alarm : Nat
  alarmsec : Nat
  alarmns : Nat
  blktime : Nat
  blkcnt : Nat

/-- `ccb_t` -/
structure Ccb where
  hdTimerq : Nat
  hdBlocked : Nat
  hdActive : Nat → Nat
  crActive : Nat → Nat

/-- `msghdr_t` -/
structure Msghdr where
  mqStart : Nat
  mqEnd : Nat
  mqSize : Nat
  mqBuffstart : Nat
  mqBuffsize : Nat

inductive Win where
  | cur | tmpmap | tmp2map | tmpalarm | bssEnd
deriving DecidableEq

inductive CoreErr where
  | SUCCESS | EPERM | ESRCH | EFAULT | ENOTSHM | EBUSY
deriving DecidableEq

structure Core where
  tcbs : Nat → Tcb
  win : Win → Nat
  /-- where the windows are -/
  addr : Win → Nat
  ccb : Ccb
  isrNext : Nat
  idleMapping : Nat
  idleFirst : Bool
  /-- `ticks[TICKS_TS]`, `ticks[TICKS_NTS]` and `ticks[TICKS_LO]` -/
  ts : Nat
  nts : Nat
  lo : Nat
  services : Nat → Nat
  /-- the page at address 0, the page table of the message queue and the queue of an address space -/
  tcbOf : Nat → Nat
  mqPage : Nat → Nat
  mq : Nat → Msghdr
  nrmqmax : Nat
  coreerrno : CoreErr

namespace Core

/-- the TCB seen through a window -/
def tcb (s : Core) (w : Win) : Tcb := s.tcbs (s.win w)

def put (s : Core) (w : Win) (t : Tcb) : Core := { s with tcbs := update s.tcbs (s.win w) t }

def kmap (s : Core) (w : Win) (page : Nat) : Core := { s with win := update s.win w page }

def setHead (s : Core) (i p : Nat) : Core :=
  { s with ccb := { s.ccb with hdActive := update s.ccb.hdActive i p } }

def setCursor (s : Core) (i p : Nat) : Core :=
  { s with ccb := { s.ccb with crActive := update s.ccb.crActive i p } }

def setBlocked (s : Core) (p : Nat) : Core := { s with ccb := { s.ccb with hdBlocked := p } }

def setTimerq (s : Core) (p : Nat) : Core := { s with ccb := { s.ccb with hdTimerq := p } }

end Core

/-- `sched_get_tcb(task)` -/
def schedGetTcb (s : Core) (task : Nat) : Core × Win :=
  if task = 0 then (s, .cur)
  else if task = s.addr .tmpmap then (s, .tmpmap)
  else if task = s.addr .tmp2map then (s, .tmp2map)
  else if task = s.addr .tmpalarm then (s, .tmpalarm)
  else if task = s.addr .bssEnd then (s, .bssEnd)
  else (s.kmap .tmpmap task, .tmpmap)

/-! ## queues -/

/-- `if(p != 0) { tcb = sched_get_tcb(p); tcb->next = v; }` -/
def linkNext (s : Core) (p v : Nat) : Core :=
  if p = 0 then s
  else
    let (s, w) := schedGetTcb s p
    s.put w { s.tcb w with next := v }

/-- `if(p != 0) { tcb = sched_get_tcb(p); tcb->prev = v; }` -/
def linkPrev (s : Core) (p v : Nat) : Core :=
  if p = 0 then s
  else
    let (s, w) := schedGetTcb s p
    s.put w { s.tcb w with prev := v }

def schedAdd (s : Core) (w : Win) : Core :=
  let t := s.tcb w
  let s := s.put w { t with prev := 0, next := s.ccb.hdActive t.priority }
  let s := s.setHead t.priority t.pid
  if (s.tcb w).next = 0 then s
  else (schedGetTcb (linkPrev s (s.tcb w).next t.pid) t.pid).1

def schedRemove (s : Core) (w : Win) : Core :=
  let t := s.tcb w
  let s := s.put w { t with prev := 0, next := 0 }
  let s := if s.ccb.hdActive t.priority = t.pid then s.setHead t.priority t.next else s
  let s := if s.ccb.crActive t.priority = t.pid then s.setCursor t.priority t.next else s
  let s := linkNext s t.prev t.next
  linkPrev s t.next t.prev

def schedBlock (s : Core) (w : Win) : Core :=
  let t := s.tcb w
  -- "never block the idle task"
  if t.memroot = s.idleMapping then s
  else
    let s := s.put w { t with blktime := s.lo, state := .blocked }
    let s := schedRemove s w
    let s := linkPrev s s.ccb.hdBlocked t.pid
    -- "restore mapping"
    let (s, w) := schedGetTcb s t.pid
    let s := s.put w { s.tcb w with next := s.ccb.hdBlocked, prev := 0, state := .blocked }
    s.setBlocked t.pid

def schedHybernate (s : Core) (w : Win) : Core := s.put w { s.tcb w with state := .hybernated }

/-- the part of `sched_awake` for a blocked task -/
def awakeBlocked (s : Core) (w : Win) (pid next prev : Nat) : Core × Win :=
  let t := s.tcb w
  let s := s.put w { t with blkcnt := w64 (t.blkcnt + sub64 s.lo t.blktime), blktime := 0 }
  let s := schedAdd s w
  let s := if s.ccb.hdBlocked = pid then s.setBlocked next else s
  let s := linkNext s prev next
  let s := linkPrev s next prev
  schedGetTcb s pid

def schedAwake (s : Core) (w : Win) : Core :=
  let t := s.tcb w
  let s := if t.state = .hybernated then s.put w { t with state := .blocked } else s
  let (s, w) := if (s.tcb w).state = .blocked then awakeBlocked s w t.pid t.next t.prev else (s, w)
  let s := s.put w { s.tcb w with state := .running }
  { s with isrNext := (s.tcb w).memroot }

/-! ## alarms -/

/-- is the time of `t` later than `sec`, `nsec`? -/
def Tcb.later (t : Tcb) (sec nsec : Nat) : Bool :=
  decide (sec < t.alarmsec ∨ (t.alarmsec = sec ∧ nsec < t.alarmns))

def alarmWalk (pid sec nsec : Nat) : Nat → Core → Nat → Nat → Option Core
  | 0, _, _, _ => none
  | n+1, s, next, prev =>
    let (s, w) := schedGetTcb s next
    if (s.tcb w).later sec nsec = true then
      let s := if prev = 0 then s
        else
          let (s, w) := schedGetTcb s prev
          s.put w { s.tcb w with alarm := pid }
      let (s, w) := schedGetTcb s pid
      some (s.put w { s.tcb w with alarm := next })
    else if (s.tcb w).alarm = 0 then some (s.put w { s.tcb w with alarm := pid })
    else alarmWalk pid sec nsec n s (s.tcb w).alarm next

/-- `fuel` bounds the walk -/
def schedAlarm (fuel : Nat) (s : Core) (w : Win) (sec nsec : Nat) : Option Core :=
  -- "if alarm time is in the past, make sure it's running and return"
  if sec < s.ts ∨ (s.ts = sec ∧ nsec < s.nts) then some (schedAwake s w)
  else
    let pid := (s.tcb w).pid
    let next := s.ccb.hdTimerq
    let s := schedBlock s w
    let (s, w) := schedGetTcb s pid
    let s := s.put w { s.tcb w with alarmsec := sec, alarmns := nsec }
    if s.ccb.hdTimerq = 0 ∨ (s.tcb .tmpalarm).later sec nsec = true then
      let s := s.put w { s.tcb w with alarm := s.ccb.hdTimerq }
      some ((s.setTimerq pid).kmap .tmpalarm pid)
    else alarmWalk pid sec nsec fuel s next 0

/-! ## messages -/

/-- `ksend(mq,...)`: a full queue loses its oldest message; the result is never false -/
def ksend (q : Msghdr) : Msghdr × Bool :=
  let q := if q.mqStart + 1 = q.mqEnd ∨ (q.mqStart + 1 = q.mqSize ∧ q.mqEnd = 1) then
      { q with mqEnd := if q.mqEnd + 1 = q.mqSize then 1 else q.mqEnd + 1 }
    else q
  ({ q with mqStart := if q.mqStart + 1 = q.mqSize then 1 else q.mqStart + 1 }, true)

/-- the event word, taken apart: destination (negative for a service), function, `MSG_PTRDATA` -/
structure Event where
  task : Int
  func : Nat
  ptrdata : Bool

/-- `OSZ_TCB_MAGICH` -/
def tcbMagic : Nat := 0x4B534154

/-- "do we need pid_t translation?" -/
def Core.destOf (s : Core) (task : Int) : Option Nat :=
  if task < 0 then
    if 8 ≤ -task ∨ s.services (-task).toNat ≠ 0 then some (s.services (-task).toNat) else none
  else some task.toNat

/-- the page that `kmap` maps for a pid: 40 bits of it fit in the entry -/
def kmapPage (pid : Nat) : Nat := pid % 2^40

def Core.fail (s : Core) (e : CoreErr) : Core := { s with coreerrno := e }

/-- "we have to save message buffer's address first": the header of the queue, or an error -/
def ptrBuf (nrmqmax : Nat) (q : Msghdr) (arg0 arg1 : Nat) : Except (Msghdr × CoreErr) Msghdr :=
  let p := arg0 / 4096 * 4096
  -- `int bs`
  let bs := u64 (i32 (w64 (arg1 + 4095) / 4096 : Nat))
  let q := if nrmqmax + 1 + q.mqBuffsize ≤ w64 (q.mqBuffstart / 4096 + bs) then
      { q with mqBuffstart := (nrmqmax + 1) * 4096 } else q
  -- "core memory cannot be sent", from `FBUF_ADDRESS` on
  if 2^63 ≤ p ∧ 0xfffffffffc000000 < p then .error (q, .EFAULT)
  else if 0 < p ∧ p < 2^63 then
    -- `__BUFFSIZE`
    if 1048576 < arg1 then .error (q, .ENOTSHM) else .ok { q with mqBuffstart := q.mqBuffstart + bs }
  else .ok q

section
variable (allowed : Core → Nat → Event → Bool)

/-- the end of `msg_sends`, when the message went to the queue -/
def msgSent (s : Core) (r : Bool) : Core × Bool :=
  let s := s.fail .EBUSY
  if r = false then
    (if (s.tcb .cur).pid = (s.tcb .tmpmap).pid then s else schedBlock s .tmpmap, false)
  else
    let s := s.fail .SUCCESS
    (if (s.tcb .cur).pid = (s.tcb .tmpmap).pid then s else schedAwake s .tmpmap, true)

def msgSends (s : Core) (e : Event) (arg0 arg1 : Nat) : Core × Bool :=
  if e.func = 0 then (s.fail .EPERM, false)
  else
    match s.destOf e.task with
    | none => (s.fail .ESRCH, false)
    | some task =>
      -- "security checks"
      if allowed s task e = false then (s.fail .EPERM, false)
      else
        let page := kmapPage (if task = 0 then (s.tcb .cur).pid else task)
        let s := s.kmap .tmpmap page
        let root := (s.tcb .tmpmap).memroot
        -- the first page of memory has no TCB
        if page = 0 ∨ (s.tcb .tmpmap).magic ≠ tcbMagic then (s.fail .ESRCH, false)
        else
          let s := { s with isrNext := root }.kmap .tmp2map (s.mqPage root)
          match if e.ptrdata = true then ptrBuf s.nrmqmax (s.mq root) arg0 arg1 else .ok (s.mq root) with
          | .error (q, err) => ({ s with mq := update s.mq root q }.fail err, false)
          | .ok q =>
            let r := ksend q
            msgSent { s with mq := update s.mq root r.1 } r.2

/-- `task_map(m)`: another address space -/
def Core.taskMap (s : Core) (m : Nat) : Core := s.kmap .cur (s.tcbOf m)

/-- `sys_ready()`: `init` is awaken and sends `SYS_mountfs` to FS -/
def sysReady (s : Core) : Core :=
  let (s, w) := schedGetTcb s (s.services 6)
  let s := schedAwake s w
  let s := s.taskMap (s.tcb w).memroot
  (msgSends allowed s ⟨-1, 6, false⟩ 0 0).1

/-! ## picking a task -/

/-- the loop over the levels `is`; `nonempty` and the level found -/
def pickScan (s : Core) : List Nat → Bool → Core × Bool × Option Nat
  | [], ne => (s, ne, none)
  | i :: is, ne =>
    if s.ccb.hdActive i = 0 then pickScan s is ne
    else if s.ccb.crActive i = 0 then pickScan (s.setCursor i (s.ccb.hdActive i)) is true
    else (s, true, some i)

/-- from `found:` on -/
def pickFound (s : Core) (i : Nat) : Core × Nat :=
  let (s, w) := schedGetTcb s (s.ccb.crActive i)
  let s := s.setCursor i (s.tcb w).next
  let s := if (s.tcb .cur).pid = (s.tcb w).pid then s else { s with isrNext := (s.tcb w).memroot }
  (s, (s.tcb w).memroot)

/-- the queue of `PRI_IDLE`, and the idle task -/
def pickIdle (s : Core) : Core × Nat :=
  if s.ccb.hdActive 7 = 0 then
    let s := { s with isrNext := s.idleMapping }
    let s := if s.idleFirst = true then sysReady allowed { s with idleFirst := false } else s
    (s, s.isrNext)
  else
    pickFound (if s.ccb.crActive 7 = 0 then s.setCursor 7 (s.ccb.hdActive 7) else s) 7

/-- `n` bounds the number of passes (`goto again`); `nonempty` is not reset between them -/
def pickAgain : Nat → Core → Bool → Option (Core × Nat)
  | 0, _, _ => none
  | n+1, s, ne =>
    match pickScan s [0, 1, 2, 3, 4, 5, 6] ne with
    | (s, _, some i) => some (pickFound s i)
    | (s, true, none) => pickAgain n s true
    | (s, false, none) => some (pickIdle allowed s)

/-- two passes are enough -/
def schedPick (s : Core) : Option (Core × Nat) := pickAgain allowed 2 s false

end
end OsZ
