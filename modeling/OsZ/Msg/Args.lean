import OsZ.Base.Asm
import OsZ.Msg.Queue

/-!
# The arguments of a message on their way into the queue

`mq_send` and `mq_call` of `libc/x86_64/stdlib.S`, `isr_syscall` of `x86_64/isrc.S`, the frame of
`msg_sends` and `ksend` of `x86_64/libk.S`, instruction by instruction.

* `mqSend`, `mqCall`, `isrSyscallAsm`, `msgSendsFrame`, `ksendAsm`   the programs;
* `ksendAsm_spec`         the instructions of `ksend` are `Mq.ksend`;
* `mqSend_spec`, `mqCall_spec`, `isr_spec`, `frame_spec`   what each hands on to the next;
* `AtSyscall.sent`        the message that arrives;
* `arguments_arrive`      when it has the arguments of the sender;
* `send_shifts_arguments` `mq_send` with six different arguments.
-/

namespace OsZ
open Function (update update_apply update_of_ne update_self)

/-- the areas of memory that the programs use: stacks, the page at 0 with the sender's TCB, the data
of the core, and the pages of the destination's queue -/
inductive Space where
  | stack | tcb | core | mq
deriving DecidableEq

/-- values from outside -/
structure Env where
  /-- the return address of `syscall` -/
  rip : Word64
  /-- what `pushf` pushes -/
  flags : Word64
  /-- the return addresses of the calls in `mq_call`, `isr_syscall` and `msg_sends` -/
  ret : Nat → Word64
  /-- `msghdr` in `msg_sends` -/
  mq : Word64
  /-- `task` in `msg_sends`, after its translation -/
  task : Word64
  /-- `arg0` in `msg_sends`, after the mapping of a buffer -/
  ptr : Word64

/-! ## the programs -/

section
open Instr Operand Reg

def mqSend (e : Env) : List (Instr Space) :=
  [movq (reg rdi) (reg rax),
   shlq 16 (reg rax),
   movw rsi rax,
   movq (reg rdx) (reg rdi),
   movq (reg rcx) (reg rsi),
   movq (reg r8) (reg rdx),
   movq (reg r9) (reg rbx),
   movq (mem .stack (some rsp) 8) (reg r8),
   movq (mem .stack (some rsp) 16) (reg r9),
   movq (mem .stack (some rsp) 24) (reg r10),
   -- `syscall`
   movq (imm e.rip) (reg rcx)]

def mqCall (e : Env) : List (Instr Space) := call (e.ret 0) :: mqSend e

/-- `coreerrno` is at 0 and `safestack` at 8 -/
def isrEntry : List (Instr Space) :=
  [movq (reg rcx) (mem .tcb none 4056),
   movq (reg rbx) (reg rcx),
   movq (imm 0) (mem .core none 0),
   movq (reg rsp) (mem .tcb none 4080),
   movq (mem .core none 8) (reg rsp),
   addq (imm 512) (reg rsp),
   movq (reg rax) (reg rbx),
   shrq 16 (reg rbx),
   orq (reg rbx) (reg rbx)]

def isrSend (e : Env) : List (Instr Space) :=
  [pushq (reg r9),
   pushq (reg r10),
   movq (reg r8) (reg r9),
   movq (reg rcx) (reg r8),
   movq (reg rdx) (reg rcx),
   movq (reg rsi) (reg rdx),
   movq (reg rdi) (reg rsi),
   movq (reg rax) (reg rdi),
   call (e.ret 1)]

/-- a call of the core itself leaves at 9 or into another task, without `msg_sends` -/
def isrSyscallAsm (e : Env) : List (Instr Space) :=
  isrEntry ++ jne 4 :: jmp 9 :: label 4 :: isrSend e

/-- the call of `ksend` with eight arguments, two of them on the stack -/
def msgSendsCall (e : Env) : List (Instr Space) :=
  [movq (mem .stack (some rbp) 16) (reg rax),
   pushq (reg rax),
   pushq (reg r9),
   movq (reg r8) (reg r9),
   movq (reg rcx) (reg r8),
   movq (reg rdx) (reg rcx),
   movq (reg rsi) (reg rdx),
   movq (imm e.task) (reg rsi),
   shlq 16 (reg rsi),
   andq (imm 0xFFFF) (reg rdi),
   orq (reg rdi) (reg rsi),
   movq (imm e.mq) (reg rdi),
   call (e.ret 2)]

/-- `msg_sends` with a frame pointer, for a message that passes the checks of the destination:
`EVT_FUNC(event)==0` is refused, and a buffer (`MSG_PTRDATA`) has another `arg0` -/
def msgSendsFrame (e : Env) : List (Instr Space) :=
  [pushq (reg rbp), movq (reg rsp) (reg rbp), movq (reg rdi) (reg rax),
    andq (imm 0x7FFF) (reg rax)] ++
  je 9 ::
  ([movq (reg rdi) (reg rax), andq (imm 0x8000) (reg rax)] ++
  je 1 ::
  movq (imm e.ptr) (reg rsi) ::
  label 1 :: msgSendsCall e)

/-- `mq_start++` or `mq_end++` (the word `a` of the header), and `mq_size` becomes 1 -/
def bump (a l : Nat) : List (Instr Space) :=
  [incq (mem .mq (some rdi) (8 * a)), movq (mem .mq (some rdi) (8 * a)) (reg rax)] ++
  cmpq (mem .mq (some rdi) 16) (reg rax) ::
  jne l ::
  [movq (imm 1) (mem .mq (some rdi) (8 * a))]

/-- "check if message queue is full" -/
def ksendMakeRoom (e : Env) : List (Instr Space) :=
  [pushq (imm e.flags), movq (mem .mq (some rdi) 0) (reg rax), incq (reg rax)] ++
  cmpq (mem .mq (some rdi) 8) (reg rax) ::
  je 1 ::
  cmpq (mem .mq (some rdi) 16) (reg rax) ::
  jne 2 ::
  cmpq (imm 1) (mem .mq (some rdi) 8) ::
  jne 2 ::
  label 1 :: bump 1 2

/-- "replace destination pid with sender's" and "copy message"; `tcb_pid` is 640 and `tcb_serial`
816 -/
def ksendCopy : List (Instr Space) :=
  [andq (imm 0xFFFF) (reg rsi),
   movq (mem .tcb none 640) (reg rax),
   shlq 16 (reg rax),
   orq (reg rax) (reg rsi),
   movq (mem .mq (some rdi) 0) (reg rax),
   shlq 6 (reg rax),
   addq (reg rdi) (reg rax),
   movq (reg rsi) (mem .mq (some rax) 0),
   movq (reg rdx) (mem .mq (some rax) 8),
   movq (reg rcx) (mem .mq (some rax) 16),
   movq (reg r8) (mem .mq (some rax) 24),
   movq (reg r9) (mem .mq (some rax) 32),
   movq (mem .stack (some rbp) 24) (reg r9),
   movq (reg r9) (mem .mq (some rax) 40),
   movq (mem .stack (some rbp) 16) (reg r9),
   movq (reg r9) (mem .mq (some rax) 48),
   incq (mem .tcb none 816),
   movq (mem .tcb none 816) (reg r9),
   movq (reg r9) (mem .mq (some rax) 56)]

/-- `incb %al` increments 0, and `popf` and `ret` drop a word each -/
def ksendReturn : List (Instr Space) := [xorq (reg rax) (reg rax), incq (reg rax), popq, popq]

def ksendAsm (e : Env) : List (Instr Space) :=
  ksendMakeRoom e ++ label 2 :: (ksendCopy ++ (bump 0 3 ++ label 3 :: ksendReturn))

end

def sendRun (e : Env) (stub : List (Instr Space)) (c : Cpu Space) : Option Nat × Cpu Space :=
  run .stack (stub ++ isrSyscallAsm e ++ msgSendsFrame e ++ ksendAsm e) (none, c)

/-- the words from the address `mq` on, up to the end of the address space -/
def wordsAt (m : Word64 → Word64) (mq : Word64) : Mq :=
  ⟨fun w => if w < 2 ^ 61 then (m (mq + BitVec.ofNat 64 (8 * w))).toNat else 0⟩

/-- the queue at `mq` -/
def queueAt (c : Cpu Space) (mq : Word64) : Mq := wordsAt (c.mem .mq) mq

/-- the message of a call of `ksend` -/
def ksendMsg (c : Cpu Space) : Msg where
  evt := ((c.reg .rsi &&& 0xFFFF#64) ||| (c.mem .tcb 640#64 <<< 16)).toNat
  arg0 := (c.reg .rdx).toNat
  arg1 := (c.reg .rcx).toNat
  arg2 := (c.reg .r8).toNat
  arg3 := (c.reg .r9).toNat
  arg4 := (c.mem .stack (c.reg .rbp + 24#64)).toNat
  arg5 := (c.mem .stack (c.reg .rbp + 16#64)).toNat
  serial := (c.mem .tcb 816#64 + 1).toNat

section
variable {e : Env} {c u : Cpu Space} {mq : Word64} {a l : Nat}

/-! ## `ksend` -/

theorem word_addr_inj {w : Nat} (mq : Word64) (hw : w < 2 ^ 61) (ha : a < 2 ^ 61) :
    mq + BitVec.ofNat 64 (8 * w) = mq + BitVec.ofNat 64 (8 * a) ↔ w = a := by
  rw [BitVec.add_right_inj, ← BitVec.toNat_inj, BitVec.toNat_ofNat, BitVec.toNat_ofNat,
    Nat.mod_eq_of_lt (by omega), Nat.mod_eq_of_lt (by omega)]
  omega

theorem queueAt_word (c : Cpu Space) (mq : Word64) (ha : a < 2 ^ 61) :
    (queueAt c mq).word a = (c.mem .mq (mq + BitVec.ofNat 64 (8 * a))).toNat := if_pos ha

theorem wordsAt_update (m : Word64 → Word64) (mq v : Word64) (ha : a < 2 ^ 61) :
    wordsAt (update m (mq + BitVec.ofNat 64 (8 * a)) v) mq =
      (wordsAt m mq).set a v.toNat := by
  refine congrArg Mq.mk (funext fun w => ?_)
  rw [update_apply, update_apply]
  by_cases hw : w < 2 ^ 61
  · simp only [if_pos hw, wordsAt, word_addr_inj mq hw ha]
    split_ifs <;> rfl
  · rw [if_neg hw, if_neg (by omega)]
    exact (if_neg hw).symm

theorem queueAt_set (v : Word64) (ha : a < 2 ^ 61)
    (h : u.mem .mq = update (c.mem .mq) (mq + BitVec.ofNat 64 (8 * a)) v) :
    queueAt u mq = (queueAt c mq).set a v.toNat := by
  rw [queueAt, h, wordsAt_update _ _ _ ha]
  rfl

theorem queueAt_congr (h : u.mem .mq = c.mem .mq) : queueAt u mq = queueAt c mq := by
  rw [queueAt, h]
  rfl

/-- all but `%rax` and the queue -/
structure Outside (c u : Cpu Space) : Prop where
  reg : ∀ r, r ≠ .rax → u.reg r = c.reg r
  stack : u.mem .stack = c.mem .stack
  tcb : u.mem .tcb = c.mem .tcb

theorem bump_spec (l : Nat) (ha : a < 2) (c : Cpu Space)
    (hc : (queueAt c (c.reg .rdi)).word a + 1 < 2 ^ 64) :
    ∃ o u, run .stack (bump a l) (none, c) = (o, u) ∧ (o = none ∨ o = some l) ∧ Outside c u ∧
      queueAt u (c.reg .rdi) = (queueAt c (c.reg .rdi)).step a := by
  obtain ⟨x, hx⟩ : ∃ x, x = c.mem .mq (c.reg .rdi + BitVec.ofNat 64 (8 * a)) := ⟨_, rfl⟩
  have hxa : (queueAt c (c.reg .rdi)).word a = x.toNat := by rw [hx, queueAt_word _ _ (by omega)]
  have hx1 : (x + 1).toNat = x.toNat + 1 := by
    rw [hxa] at hc
    rw [BitVec.toNat_add]
    exact Nat.mod_eq_of_lt hc
  obtain ⟨m, hm, hk, hq, hrax⟩ : ∃ m, run .stack [.incq (.mem .mq (some .rdi) (8 * a)),
        .movq (.mem .mq (some .rdi) (8 * a)) (.reg .rax)] (none, c) = (none, m) ∧ Outside c m ∧
      m.mem .mq = update (c.mem .mq) (c.reg .rdi + BitVec.ofNat 64 (8 * a)) (x + 1) ∧
      m.reg .rax = x + 1 := by
    rw [run_cons, exec, run_cons, exec, run_nil]
    refine ⟨_, rfl, ⟨fun r hr => ?_, ?_, ?_⟩, ?_, ?_⟩
    · simp [hr]
    all_goals simp [hx]
  have hrdi := hk.reg .rdi (by decide)
  have hqm := queueAt_set (x + 1) (by omega) hq
  have hlast : m.reg .rax = m.mem .mq (m.reg .rdi + 16#64) ↔
      (queueAt m (c.reg .rdi)).word a = (queueAt m (c.reg .rdi)).word 2 := by
    rw [queueAt_word _ _ (by omega), queueAt_word _ _ (by omega), BitVec.toNat_inj, hrax, hrdi, hq,
      update_self]
  have hstep : (queueAt c (c.reg .rdi)).step a =
      if (queueAt m (c.reg .rdi)).word a = (queueAt m (c.reg .rdi)).word 2
      then (queueAt m (c.reg .rdi)).set a 1 else queueAt m (c.reg .rdi) := by
    rw [hqm, hx1, ← hxa]
    rfl
  rw [bump, run_append, hm, hstep]
  by_cases he : m.reg .rax = m.mem .mq (m.reg .rdi + 16#64)
  · rw [run_cmpq_jne_eq (by exact he), if_pos (hlast.mp he)]
    refine ⟨_, _, rfl, .inl rfl, ⟨hk.reg, hk.stack, hk.tcb⟩, ?_⟩
    refine queueAt_set 1 (by omega) ?_
    rw [← hrdi]
    rfl
  · rw [run_cmpq_jne_ne (by exact he), if_neg fun h => he (hlast.mpr h)]
    exact ⟨_, _, rfl, .inr rfl, ⟨hk.reg, hk.stack, hk.tcb⟩, rfl⟩

theorem makeRoom_full (c : Cpu Space) (hs : (queueAt c (c.reg .rdi)).word 0 < 2 ^ 58) :
    (queueAt c (c.reg .rdi)).Full ↔
      c.mem .mq (c.reg .rdi + 0#64) + 1 = c.mem .mq (c.reg .rdi + 8#64) ∨
      c.mem .mq (c.reg .rdi + 0#64) + 1 = c.mem .mq (c.reg .rdi + 16#64) ∧
        c.mem .mq (c.reg .rdi + 8#64) = 1 := by
  have h0 : (queueAt c (c.reg .rdi)).word 0 = (c.mem .mq (c.reg .rdi + 0#64)).toNat :=
    queueAt_word _ _ (by decide)
  have h1 : (queueAt c (c.reg .rdi)).word 1 = (c.mem .mq (c.reg .rdi + 8#64)).toNat :=
    queueAt_word _ _ (by decide)
  have h2 : (queueAt c (c.reg .rdi)).word 2 = (c.mem .mq (c.reg .rdi + 16#64)).toNat :=
    queueAt_word _ _ (by decide)
  have hinc : (c.mem .mq (c.reg .rdi + 0#64) + 1).toNat = (queueAt c (c.reg .rdi)).word 0 + 1 := by
    rw [h0] at hs ⊢
    rw [BitVec.toNat_add]
    exact Nat.mod_eq_of_lt (Nat.lt_of_le_of_lt hs (by decide))
  unfold Mq.Full
  rw [← BitVec.toNat_inj, ← BitVec.toNat_inj, ← BitVec.toNat_inj, hinc, ← h1, ← h2]
  rfl

theorem makeRoom_flow (m : Cpu Space) :
    run .stack (.cmpq (.mem .mq (some .rdi) 8) (.reg .rax) :: .je 1 ::
        .cmpq (.mem .mq (some .rdi) 16) (.reg .rax) :: .jne 2 ::
        .cmpq (.imm 1) (.mem .mq (some .rdi) 8) :: .jne 2 :: .label 1 :: bump 1 2) (none, m) =
      if m.reg .rax = m.mem .mq (m.reg .rdi + 8#64) ∨
        m.reg .rax = m.mem .mq (m.reg .rdi + 16#64) ∧ m.mem .mq (m.reg .rdi + 8#64) = 1
      then run .stack (bump 1 2) (none, m.setZf true) else (some 2, m.setZf false) := by
  have hskip : ∀ c : Cpu Space, run .stack (bump 1 2) (some 2, c) = (some 2, c) := fun _ => rfl
  by_cases h1 : m.reg .rax = m.mem .mq (m.reg .rdi + 8#64)
  · rw [run_cmpq_je_eq (by exact h1), if_pos (.inl h1)]
    rfl
  rw [run_cmpq_je_ne (by exact h1)]
  by_cases h2 : m.reg .rax = m.mem .mq (m.reg .rdi + 16#64)
  · rw [run_cmpq_jne_eq (by exact h2)]
    by_cases h3 : m.mem .mq (m.reg .rdi + 8#64) = 1
    · rw [run_cmpq_jne_eq (by exact h3), if_pos (.inr ⟨h2, h3⟩)]
      rfl
    · rw [run_cmpq_jne_ne (by exact h3), if_neg fun h => h.elim h1 fun h => h3 h.2]
      exact hskip _
  · rw [run_cmpq_jne_ne (by exact h2), if_neg fun h => h.elim h1 fun h => h2 h.1]
    exact hskip _

theorem makeRoom_spec (c : Cpu Space) (hs : (queueAt c (c.reg .rdi)).word 0 < 2 ^ 58) :
    ∃ o u, run .stack (ksendMakeRoom e) (none, c) = (o, u) ∧ (o = none ∨ o = some 2) ∧
      (∀ r, r ≠ .rax → r ≠ .rsp → u.reg r = c.reg r) ∧
      u.mem .stack = update (c.mem .stack) (c.reg .rsp - 8#64) e.flags ∧
      u.mem .tcb = c.mem .tcb ∧
      queueAt u (c.reg .rdi) = if (queueAt c (c.reg .rdi)).Full
        then (queueAt c (c.reg .rdi)).step 1 else queueAt c (c.reg .rdi) := by
  obtain ⟨m, hm, hreg, hst, htcb, hq, hrax⟩ : ∃ m : Cpu Space,
      run .stack [.pushq (.imm e.flags), .movq (.mem .mq (some .rdi) 0) (.reg .rax),
        .incq (.reg .rax)] (none, c) = (none, m) ∧
      (∀ r, r ≠ .rax → r ≠ .rsp → m.reg r = c.reg r) ∧
      m.mem .stack = update (c.mem .stack) (c.reg .rsp - 8#64) e.flags ∧
      m.mem .tcb = c.mem .tcb ∧ m.mem .mq = c.mem .mq ∧
      m.reg .rax = c.mem .mq (c.reg .rdi + 0#64) + 1 := by
    rw [run_cons, exec, run_cons, exec, run_cons, exec, run_nil]
    refine ⟨_, rfl, fun r hr hr' => ?_, ?_, ?_, ?_, ?_⟩
    · simp [hr, hr']
    all_goals simp
  have hrdi : m.reg .rdi = c.reg .rdi := hreg _ (by decide) (by decide)
  have hfull := makeRoom_full c hs
  rw [← hrax, ← hq, ← hrdi] at hfull
  -- "mqhdr->mq_end++", with any zero flag
  have hend : ∀ z, (queueAt c (m.reg .rdi)).Full →
      ∃ o u, run .stack (bump 1 2) (none, m.setZf z) = (o, u) ∧ (o = none ∨ o = some 2) ∧
        (∀ r, r ≠ .rax → r ≠ .rsp → u.reg r = c.reg r) ∧
        u.mem .stack = update (c.mem .stack) (c.reg .rsp - 8#64) e.flags ∧
        u.mem .tcb = c.mem .tcb ∧
        queueAt u (m.reg .rdi) = (queueAt c (m.reg .rdi)).step 1 := by
    intro z hf
    have hqz : queueAt (m.setZf z) (m.reg .rdi) = queueAt c (m.reg .rdi) := queueAt_congr hq
    obtain ⟨o, u, hu, ho, hk, hqu⟩ := bump_spec 2 (by decide : 1 < 2) (m.setZf z) (by
      show (queueAt (m.setZf z) (m.reg .rdi)).word 1 + 1 < 2 ^ 64
      rw [hqz]
      rw [← hrdi] at hs
      obtain h | ⟨-, h⟩ := hf <;> omega)
    refine ⟨o, u, hu, ho, fun r hr hr' => (hk.reg r hr).trans (hreg r hr hr'), hk.stack.trans hst,
      hk.tcb.trans htcb, ?_⟩
    rw [← hqz]
    exact hqu
  rw [ksendMakeRoom, run_append, hm, makeRoom_flow, ← hrdi]
  by_cases hf : (queueAt c (m.reg .rdi)).Full
  · rw [if_pos hf, if_pos (hfull.mp hf)]
    exact hend true hf
  · rw [if_neg hf, if_neg fun h => hf (hfull.mpr h)]
    exact ⟨_, _, rfl, .inr rfl, hreg, hst, htcb, queueAt_congr hq⟩

theorem slot_addr (x mq : Word64) (k : Nat) :
    x <<< 6 + mq + BitVec.ofNat 64 (8 * k) = mq + BitVec.ofNat 64 (8 * (8 * x.toNat + k)) := by
  apply BitVec.eq_of_toNat_eq
  simp only [BitVec.toNat_add, BitVec.toNat_shiftLeft, BitVec.toNat_ofNat, Nat.shiftLeft_eq]
  omega

theorem copy_spec (c : Cpu Space) (hs : (queueAt c (c.reg .rdi)).word 0 < 2 ^ 58) :
    ∃ u, run .stack ksendCopy (none, c) = (none, u) ∧ u.reg .rdi = c.reg .rdi ∧
      queueAt u (c.reg .rdi) = (queueAt c (c.reg .rdi)).store ((queueAt c (c.reg .rdi)).word 0)
        (ksendMsg c) := by
  obtain ⟨x, hx⟩ : ∃ x, x = c.mem .mq (c.reg .rdi + 0#64) := ⟨_, rfl⟩
  have hx0 : (queueAt c (c.reg .rdi)).word 0 = x.toNat := by
    rw [hx]
    exact queueAt_word _ _ (by decide)
  rw [hx0] at hs ⊢
  obtain ⟨A, hA⟩ : ∃ A, A = x <<< 6 + c.reg .rdi := ⟨_, rfl⟩
  obtain ⟨u, hu, hrdi, hm⟩ : ∃ u, run .stack ksendCopy (none, c) = (none, u) ∧
      u.reg .rdi = c.reg .rdi ∧ u.mem .mq =
        update (update (update (update (update
          (update (update (update (c.mem .mq)
          (A + BitVec.ofNat 64 (8 * 0)) ((c.reg .rsi &&& 0xFFFF#64) ||| (c.mem .tcb 640#64 <<< 16)))
          (A + BitVec.ofNat 64 (8 * 1)) (c.reg .rdx)) (A + BitVec.ofNat 64 (8 * 2)) (c.reg .rcx))
          (A + BitVec.ofNat 64 (8 * 3)) (c.reg .r8)) (A + BitVec.ofNat 64 (8 * 4)) (c.reg .r9))
          (A + BitVec.ofNat 64 (8 * 5)) (c.mem .stack (c.reg .rbp + 24#64)))
          (A + BitVec.ofNat 64 (8 * 6)) (c.mem .stack (c.reg .rbp + 16#64)))
          (A + BitVec.ofNat 64 (8 * 7)) (c.mem .tcb 816#64 + 1) := by
    subst hA hx
    unfold ksendCopy
    simp only [run_cons, exec, run_nil]
    exact ⟨_, rfl, by simp, by simp⟩
  refine ⟨u, hu, hrdi, ?_⟩
  rw [queueAt, hm, hA]
  simp only [slot_addr]
  rw [wordsAt_update _ _ _ (by omega), wordsAt_update _ _ _ (by omega),
    wordsAt_update _ _ _ (by omega), wordsAt_update _ _ _ (by omega),
    wordsAt_update _ _ _ (by omega), wordsAt_update _ _ _ (by omega),
    wordsAt_update _ _ _ (by omega), wordsAt_update _ _ _ (by omega)]
  rfl

/-- the instructions of `ksend` are `Mq.ksend` -/
theorem ksendAsm_spec (c : Cpu Space) (h0 : 1 ≤ (queueAt c (c.reg .rdi)).word 0)
    (hs : (queueAt c (c.reg .rdi)).word 0 < 2 ^ 58) (h24 : c.reg .rbp + 24#64 ≠ c.reg .rsp - 8#64)
    (h16 : c.reg .rbp + 16#64 ≠ c.reg .rsp - 8#64) :
    ∃ u, run .stack (ksendAsm e) (none, c) = (none, u) ∧
      queueAt u (c.reg .rdi) = ((queueAt c (c.reg .rdi)).ksend (ksendMsg c)).1 := by
  obtain ⟨o, m, hm, ho, hreg, hst, htcb, hqm⟩ := makeRoom_spec (e := e) c hs
  have hrdi : m.reg .rdi = c.reg .rdi := hreg _ (by decide) (by decide)
  have hmsg : ksendMsg m = ksendMsg c := by
    unfold ksendMsg
    rw [htcb, hst, hreg .rbp (by decide) (by decide), update_of_ne h24,
      update_of_ne h16, hreg .rsi (by decide) (by decide), hreg .rdx (by decide) (by decide),
      hreg .rcx (by decide) (by decide), hreg .r8 (by decide) (by decide),
      hreg .r9 (by decide) (by decide)]
  have hm0 : (queueAt m (c.reg .rdi)).word 0 = (queueAt c (c.reg .rdi)).word 0 := by
    rw [hqm]
    split_ifs
    · rw [Mq.step_word (by decide), if_neg (by decide)]
    · rfl
  obtain ⟨w, hw, hwrdi, hqw⟩ := copy_spec m (by rw [hrdi, hm0]; exact hs)
  rw [hrdi] at hwrdi hqw
  have hw0 : (queueAt w (c.reg .rdi)).word 0 = (queueAt c (c.reg .rdi)).word 0 := by
    rw [hqw, Mq.store_word _ _ _ _ (.inl (by omega)), hm0]
  obtain ⟨o', v, hv, ho', hk, hqv⟩ := bump_spec 3 (by decide : 0 < 2) w (by rw [hwrdi, hw0]; omega)
  rw [hwrdi] at hqv
  rw [ksendAsm, run_append, hm, run_label _ _ _ _ ho, run_append, hw, run_append, hv,
    run_label _ _ _ _ ho', ksendReturn]
  simp only [run_cons, exec, run_nil]
  refine ⟨_, rfl, ?_⟩
  rw [queueAt_congr (c := v) (by simp), hqv, hqw, hqm, hmsg]
  rfl

/-! ## from the stub to `ksend` -/

/-- the state `u` at `syscall`, for the arguments in the state `c`; `a` and `b` will be the last two
fields of the message -/
structure AtSyscall (c u : Cpu Space) (a b : Word64) : Prop where
  mq : u.mem .mq = c.mem .mq
  tcb : u.mem .tcb = c.mem .tcb
  rax : u.reg .rax = ((c.reg .rdi <<< 16).extractLsb' 16 48 ++ (c.reg .rsi).setWidth 16)
  rdi : u.reg .rdi = c.reg .rdx
  rsi : u.reg .rsi = c.reg .rcx
  rdx : u.reg .rdx = c.reg .r8
  rbx : u.reg .rbx = c.reg .r9
  r9 : u.reg .r9 = a
  r10 : u.reg .r10 = b

theorem mqSend_spec (e : Env) (c : Cpu Space) : ∃ u, run .stack (mqSend e) (none, c) = (none, u) ∧
    AtSyscall c u (c.mem .stack (c.reg .rsp + 16#64)) (c.mem .stack (c.reg .rsp + 24#64)) := by
  unfold mqSend
  simp only [run_cons, exec, run_nil]
  refine ⟨_, rfl, ?_⟩
  constructor <;> simp

theorem mqCall_spec (e : Env) (c : Cpu Space) : ∃ u, run .stack (mqCall e) (none, c) = (none, u) ∧
    AtSyscall c u (c.mem .stack (c.reg .rsp + 8#64)) (c.mem .stack (c.reg .rsp + 16#64)) := by
  obtain ⟨u, hu, h⟩ := mqSend_spec e (c.push .stack (e.ret 0))
  have h16 : c.reg .rsp - 8#64 + 16#64 = c.reg .rsp + 8#64 := by bv_omega
  have h24 : c.reg .rsp - 8#64 + 24#64 = c.reg .rsp + 16#64 := by bv_omega
  have h9 := h.r9
  have h10 := h.r10
  simp only [Cpu.push, Cpu.setMem_reg, Cpu.setReg_reg, Cpu.setMem_mem, Cpu.setReg_mem, if_true,
    h16, h24] at h9 h10
  rw [update_of_ne (by bv_omega)] at h9 h10
  exact ⟨u, hu, h.mq, h.tcb, h.rax, h.rdi, h.rsi, h.rdx, h.rbx, h9, h10⟩

theorem isr_spec (e : Env) (u : Cpu Space) (h : u.reg .rax >>> 16 ≠ 0#64) :
    ∃ v, run .stack (isrSyscallAsm e) (none, u) = (none, v) ∧
    v.mem .mq = u.mem .mq ∧ v.mem .tcb 640#64 = u.mem .tcb 640#64 ∧
    v.mem .tcb 816#64 = u.mem .tcb 816#64 ∧
    v.reg .rdi = u.reg .rax ∧ v.reg .rsi = u.reg .rdi ∧ v.reg .rdx = u.reg .rsi ∧
    v.reg .rcx = u.reg .rdx ∧ v.reg .r8 = u.reg .rbx ∧
    v.mem .stack (v.reg .rsp + 8#64) = u.reg .r10 ∧
    v.mem .stack (v.reg .rsp + 16#64) = u.reg .r9 := by
  unfold isrSyscallAsm isrEntry isrSend
  simp only [List.cons_append, List.nil_append, run_cons, exec]
  -- the event has a destination, so this is no call of the core
  rw [if_neg (by simpa using h)]
  simp only [run_seek, seek, if_true, run_cons, exec, run_nil]
  refine ⟨_, rfl, by simp, by simp, by simp, by simp, by simp, by simp, by simp, by simp, ?_, ?_⟩
  all_goals simp [BitVec.sub_eq_add_neg, BitVec.add_assoc]

/-- the frame of `msg_sends` below what `isr_syscall` has pushed, and its call of `ksend` -/
theorem frame_spec (e : Env) (v : Cpu Space) (hf : v.reg .rdi &&& 0x7FFF#64 ≠ 0#64)
    (hp : v.reg .rdi &&& 0x8000#64 = 0#64) :
    ∃ w, run .stack (msgSendsFrame e) (none, v) = (none, w) ∧
    w.mem .mq = v.mem .mq ∧ w.mem .tcb = v.mem .tcb ∧ w.reg .rdi = e.mq ∧
    w.reg .rsi = e.task <<< 16 ||| (v.reg .rdi &&& 0xFFFF#64) ∧ w.reg .rdx = v.reg .rsi ∧
    w.reg .rcx = v.reg .rdx ∧ w.reg .r8 = v.reg .rcx ∧ w.reg .r9 = v.reg .r8 ∧
    w.reg .rbp = v.reg .rsp - 8#64 ∧ w.reg .rsp = v.reg .rsp - 8#64 - 8#64 - 8#64 - 8#64 ∧
    w.mem .stack (v.reg .rsp + 8#64) = v.mem .stack (v.reg .rsp + 8#64) ∧
    w.mem .stack (v.reg .rsp + 16#64) = v.mem .stack (v.reg .rsp + 16#64) := by
  unfold msgSendsFrame msgSendsCall
  simp only [List.cons_append, List.nil_append, run_cons, exec]
  -- there is a function, and no buffer is mapped
  rw [if_neg (by simpa using hf)]
  simp only [run_cons, exec]
  rw [if_pos (by simpa using hp)]
  simp only [run_seek, seek, if_true, run_cons, exec, run_nil]
  refine ⟨_, rfl, by simp, by simp, by simp, by simp, by simp, by simp, by simp, by simp, by simp, by simp, ?_, ?_⟩
  all_goals simp [BitVec.sub_eq_add_neg, BitVec.add_assoc]

/-! ## the event -/

theorem low16_toNat (x : Word64) : (x &&& 0xFFFF#64).toNat = x.toNat % 65536 :=
  (BitVec.toNat_and ..).trans (Nat.and_two_pow_sub_one_eq_mod _ 16)

theorem low16_eq {x y : Word64} (h : x.toNat % 65536 = y.toNat % 65536) :
    x &&& 0xFFFF#64 = y &&& 0xFFFF#64 := by
  apply BitVec.eq_of_toNat_eq
  rw [low16_toNat, low16_toNat, h]

theorem rax_toNat (x y : Word64) :
    ((x <<< 16).extractLsb' 16 48 ++ y.setWidth 16 : Word64).toNat =
      x.toNat % 2 ^ 48 * 65536 + y.toNat % 65536 := by
  rw [BitVec.toNat_append, ← Nat.shiftLeft_add_eq_or_of_lt (BitVec.isLt _)]
  simp [BitVec.extractLsb'_toNat, Nat.shiftLeft_eq, Nat.shiftRight_eq_div_pow]
  omega

theorem evt_toNat (x y : Word64) : ((x &&& 0xFFFF#64) ||| (y <<< 16)).toNat =
    y.toNat % 2 ^ 48 * 65536 + x.toNat % 65536 := by
  have h : (y <<< 16).toNat = (y.toNat % 2 ^ 48) <<< 16 := by
    rw [BitVec.toNat_shiftLeft, Nat.shiftLeft_eq, Nat.shiftLeft_eq]
    omega
  rw [BitVec.toNat_or, low16_toNat, h, Nat.or_comm,
    ← Nat.shiftLeft_add_eq_or_of_lt (Nat.mod_lt _ (by decide)), Nat.shiftLeft_eq]

/-- the message for the arguments in the state `c`, but for the last two -/
def argMsg (c : Cpu Space) (a b : Word64) : Msg where
  evt := ((c.reg .rsi &&& 0xFFFF#64) ||| (c.mem .tcb 640#64 <<< 16)).toNat
  arg0 := (c.reg .rdx).toNat
  arg1 := (c.reg .rcx).toNat
  arg2 := (c.reg .r8).toNat
  arg3 := (c.reg .r9).toNat
  arg4 := a.toNat
  arg5 := b.toNat
  serial := (c.mem .tcb 816#64 + 1).toNat

theorem AtSyscall.sent {e : Env} {a b : Word64} (h : AtSyscall c u a b)
    (hdest : (c.reg .rdi).toNat % 2 ^ 48 ≠ 0) (hf : c.reg .rsi &&& 0x7FFF#64 ≠ 0#64)
    (hp : c.reg .rsi &&& 0x8000#64 = 0#64) (h0 : 1 ≤ (queueAt c e.mq).word 0)
    (hs : (queueAt c e.mq).word 0 < 2 ^ 58) :
    ∃ w, run .stack (ksendAsm e) (run .stack (msgSendsFrame e) (run .stack (isrSyscallAsm e)
        (none, u))) = (none, w) ∧
      queueAt w e.mq = ((queueAt c e.mq).ksend (argMsg c a b)).1 := by
  have hax : (u.reg .rax).toNat =
      (c.reg .rdi).toNat % 2 ^ 48 * 65536 + (c.reg .rsi).toNat % 65536 := by
    rw [h.rax]
    exact rax_toNat _ _
  have hlow : u.reg .rax &&& 0xFFFF#64 = c.reg .rsi &&& 0xFFFF#64 := low16_eq (by rw [hax]; omega)
  have hbit : ∀ k : Word64, 0xFFFF#64 &&& k = k → u.reg .rax &&& k = c.reg .rsi &&& k := by
    intro k hk
    rw [← hk, ← BitVec.and_assoc, ← BitVec.and_assoc, hlow]
  have h16 : u.reg .rax >>> 16 ≠ 0#64 := by
    intro h
    have := congrArg BitVec.toNat h
    rw [BitVec.toNat_ushiftRight, Nat.shiftRight_eq_div_pow, hax] at this
    simp only [BitVec.toNat_ofNat] at this
    omega
  obtain ⟨v, hv, hvmq, hvpid, hvser, hvdi, hvsi, hvdx, hvcx, hv8, hv10, hv9⟩ := isr_spec e u h16
  obtain ⟨w, hw, hwmq, hwtcb, hwdi, hwsi, hwdx, hwcx, hw8, hw9, hwbp, hwsp, hwb, hwa⟩ :=
    frame_spec e v (by rw [hvdi, hbit _ (by decide)]; exact hf)
      (by rw [hvdi, hbit _ (by decide)]; exact hp)
  have hq : queueAt w e.mq = queueAt c e.mq := queueAt_congr (by rw [hwmq, hvmq, h.mq])
  -- the arguments on the stack are two words above the saved `%rbp`
  have ha : w.reg .rbp + 24#64 = v.reg .rsp + 16#64 := by
    rw [hwbp, BitVec.sub_eq_add_neg, BitVec.add_assoc]
    rfl
  have hb : w.reg .rbp + 16#64 = v.reg .rsp + 8#64 := by
    rw [hwbp, BitVec.sub_eq_add_neg, BitVec.add_assoc]
    rfl
  have hsi : w.reg .rsi &&& 0xFFFF#64 = c.reg .rsi &&& 0xFFFF#64 := by
    rw [← hlow]
    apply low16_eq
    rw [hwsi, hvdi, BitVec.or_comm, evt_toNat]
    omega
  have hmsg : ksendMsg w = argMsg c a b := by
    unfold ksendMsg argMsg
    rw [hsi, hwtcb, hvpid, hvser, ha, hb, hwa, hwb, hv9, hv10, hwdx, hwcx, hw8, hw9, hvsi, hvdx,
      hvcx, hv8, h.tcb, h.rdi, h.rsi, h.rdx, h.rbx, h.r9, h.r10]
  obtain ⟨z, hz, hqz⟩ := ksendAsm_spec (e := e) w (by rw [hwdi, hq]; exact h0)
    (by rw [hwdi, hq]; exact hs)
    (by rw [ha, hwsp]
        simp only [BitVec.sub_eq_add_neg, BitVec.add_assoc]
        exact stack_ne _ (by decide))
    (by rw [hb, hwsp]
        simp only [BitVec.sub_eq_add_neg, BitVec.add_assoc]
        exact stack_ne _ (by decide))
  rw [hwdi, hq, hmsg] at hqz
  exact ⟨z, by rw [hv, hw, hz], hqz⟩

end

/-! ## what arrives -/

/-- the arguments of `mq_send` and `mq_call` -/
structure MqArgs where
  task : Word64
  event : Word64
  arg0 : Word64
  arg1 : Word64
  arg2 : Word64
  arg3 : Word64
  arg4 : Word64
  arg5 : Word64

/-- a call with these arguments (System V AMD64): six in registers, the others above the return
address -/
structure Called (c : Cpu Space) (x : MqArgs) : Prop where
  task : c.reg .rdi = x.task
  event : c.reg .rsi = x.event
  arg0 : c.reg .rdx = x.arg0
  arg1 : c.reg .rcx = x.arg1
  arg2 : c.reg .r8 = x.arg2
  arg3 : c.reg .r9 = x.arg3
  arg4 : c.mem .stack (c.reg .rsp + 8#64) = x.arg4
  arg5 : c.mem .stack (c.reg .rsp + 16#64) = x.arg5

/-- the message has the arguments in order, the low 16 bits of `event`, and the `pid` (which is the
number of a page: 48 bits) of the sender -/
structure MqArgs.Arrived (x : MqArgs) (pid : Word64) (m : Msg) : Prop where
  arg0 : m.arg0 = x.arg0.toNat
  arg1 : m.arg1 = x.arg1.toNat
  arg2 : m.arg2 = x.arg2.toNat
  arg3 : m.arg3 = x.arg3.toNat
  arg4 : m.arg4 = x.arg4.toNat
  arg5 : m.arg5 = x.arg5.toNat
  event : m.evt % 65536 = x.event.toNat % 65536
  sender : m.evt / 65536 = pid.toNat % 2 ^ 48

/-- a destination other than the core, a function other than `SYS_IRQ`, no `MSG_PTRDATA` -/
structure MqArgs.Scalar (x : MqArgs) : Prop where
  dest : x.task.toNat % 2 ^ 48 ≠ 0
  func : x.event &&& 0x7FFF#64 ≠ 0#64
  noptr : x.event &&& 0x8000#64 = 0#64

/-- the stub `stub`, called in the state `c`, sends a message that `P` holds of: it is in the slot
at `mq_start` of the queue afterwards -/
def Sends (e : Env) (stub : List (Instr Space)) (c : Cpu Space) (P : Msg → Prop) : Prop :=
  (sendRun e stub c).1 = none ∧
    P ((queueAt (sendRun e stub c).2 e.mq).msg ((queueAt c e.mq).word 0))

section
variable {e : Env} {c : Cpu Space} {x : MqArgs}

theorem argMsg_arrived (hc : Called c x) (a b : Word64) :
    x.Arrived (c.mem .tcb 640#64) (argMsg c a b) ↔ a = x.arg4 ∧ b = x.arg5 := by
  constructor
  · intro h
    exact ⟨BitVec.eq_of_toNat_eq h.arg4, BitVec.eq_of_toNat_eq h.arg5⟩
  · rintro ⟨rfl, rfl⟩
    have hevt := evt_toNat (c.reg .rsi) (c.mem .tcb 640#64)
    refine ⟨congrArg BitVec.toNat hc.arg0, congrArg BitVec.toNat hc.arg1,
      congrArg BitVec.toNat hc.arg2, congrArg BitVec.toNat hc.arg3, rfl, rfl, ?_, ?_⟩
    · rw [← hc.event]
      exact (congrArg (· % 65536) hevt).trans (by omega)
    · exact (congrArg (· / 65536) hevt).trans (by omega)

/-- a stub that leaves `a` and `b` in `%r9` and `%r10` -/
theorem stub_sends {stub : List (Instr Space)} {u : Cpu Space} {a b : Word64} (hc : Called c x)
    (hx : x.Scalar) (hu : run .stack stub (none, c) = (none, u)) (h : AtSyscall c u a b)
    (h0 : 1 ≤ (queueAt c e.mq).word 0) (hs : (queueAt c e.mq).word 0 < 2 ^ 58) :
    Sends e stub c (x.Arrived (c.mem .tcb 640#64)) ↔ a = x.arg4 ∧ b = x.arg5 := by
  obtain ⟨w, hw, hq⟩ := h.sent (e := e) (by rw [hc.task]; exact hx.dest)
    (by rw [hc.event]; exact hx.func) (by rw [hc.event]; exact hx.noptr) h0 hs
  have hrun : sendRun e stub c = (none, w) := by
    rw [sendRun, run_append, run_append, run_append, hu, hw]
  have hmsg : (queueAt w e.mq).msg ((queueAt c e.mq).word 0) = argMsg c a b := by
    rw [hq, Mq.ksend_msg h0, if_pos rfl]
  rw [Sends, hrun, hmsg, argMsg_arrived hc]
  exact and_iff_right rfl

/-- both stubs deliver the arguments if and only if the last two, and the word above them on the
sender's stack, are the same -/
theorem arguments_arrive (hc : Called c x) (hx : x.Scalar) (h0 : 1 ≤ (queueAt c e.mq).word 0)
    (hs : (queueAt c e.mq).word 0 < 2 ^ 58) :
    Sends e (mqSend e) c (x.Arrived (c.mem .tcb 640#64)) ∧
      Sends e (mqCall e) c (x.Arrived (c.mem .tcb 640#64)) ↔
    x.arg4 = x.arg5 ∧ c.mem .stack (c.reg .rsp + 24#64) = x.arg5 := by
  obtain ⟨u, hu, hat⟩ := mqSend_spec e c
  obtain ⟨u', hu', hat'⟩ := mqCall_spec e c
  rw [stub_sends hc hx hu hat h0 hs, stub_sends hc hx hu' hat' h0 hs, hc.arg4, hc.arg5]
  constructor
  · rintro ⟨⟨h4, h5⟩, -⟩
    exact ⟨h4.symm, h5⟩
  · rintro ⟨h4, h5⟩
    exact ⟨⟨h4.symm, h5⟩, rfl, rfl⟩

end

/-- task 7 calls with the arguments 1, 2, 3, 4, `a`, `b` and `above` on its stack above them; the
queue at 4096 is empty -/
def demoCpu (a b above : Word64) : Cpu Space where
  reg
    | .rdi => 5
    | .rsi => 1
    | .rdx => 1
    | .rcx => 2
    | .r8 => 3
    | .r9 => 4
    | .rsp => 8192
    | _ => 0
  mem
    | .stack, p => if p = 8200#64 then a else if p = 8208#64 then b else above
    | .tcb, p => if p = 640#64 then 7 else 0
    | .core, _ => 65536
    | .mq, p => if p = 4112#64 then 64 else 1
  zf := false

def demoEnv : Env := ⟨0, 0, fun _ => 0, 4096, 5, 0⟩

def demoArgs (a b : Word64) : MqArgs := ⟨5, 1, 1, 2, 3, 4, a, b⟩

theorem demoArgs_called (a b above : Word64) : Called (demoCpu a b above) (demoArgs a b) := by
  constructor <;> rfl

theorem demoArgs_scalar (a b : Word64) : (demoArgs a b).Scalar where
  dest := show (5#64).toNat % 2 ^ 48 ≠ 0 by decide
  func := show 1#64 &&& 0x7FFF#64 ≠ 0#64 by decide
  noptr := show 1#64 &&& 0x8000#64 = 0#64 by decide

theorem arguments_arrive_demo :
    Sends demoEnv (mqSend demoEnv) (demoCpu 5 5 5) ((demoArgs 5 5).Arrived 7) ∧
      Sends demoEnv (mqCall demoEnv) (demoCpu 5 5 5) ((demoArgs 5 5).Arrived 7) :=
  (arguments_arrive (demoArgs_called 5 5 5) (demoArgs_scalar 5 5) (by decide +kernel)
    (by decide +kernel)).mpr ⟨rfl, rfl⟩

/-- `mq_send` with the arguments 1 to 6: 6 arrives as `arg4`, and a word of the stack as `arg5` -/
theorem send_shifts_arguments : Called (demoCpu 5 6 99) (demoArgs 5 6) ∧ (demoArgs 5 6).Scalar ∧
    Sends demoEnv (mqSend demoEnv) (demoCpu 5 6 99)
      (fun m => m.arg4 = 6 ∧ m.arg5 = 99 ∧ ¬(demoArgs 5 6).Arrived 7 m) := by
  refine ⟨demoArgs_called .., demoArgs_scalar .., ?_⟩
  have h : (sendRun demoEnv (mqSend demoEnv) (demoCpu 5 6 99)).1 = none ∧
      ((queueAt (sendRun demoEnv (mqSend demoEnv) (demoCpu 5 6 99)).2 4096).msg 1).arg4 = 6 ∧
      ((queueAt (sendRun demoEnv (mqSend demoEnv) (demoCpu 5 6 99)).2 4096).msg 1).arg5 = 99 := by
    decide +kernel
  obtain ⟨h1, h4, h5⟩ := h
  refine ⟨h1, h4, h5, fun ha => ?_⟩
  have := h4.symm.trans ha.arg4
  exact absurd this (by decide)

end OsZ
