import Mathlib.Data.BitVec
import Mathlib.Tactic

/-!
# Assembly code without loops

A few instructions of x86-64 in the order of operands of the GNU assembler (source, destination).
Jumps go forward, to the next label of that number, as `1f` does.  Memory is several spaces of words
of 64 bits; a program whose accesses to two areas never meet has them in two spaces.

* `Operand`, `Instr`   operands and instructions;
* `Cpu`                registers, memory and the zero flag;
* `exec`               one instruction;
* `run`                a program: what is left is the label that a jump is still looking for;
* `run_append`         programs one after the other.
-/

set_option linter.unusedSectionVars false

namespace OsZ

abbrev Word64 := BitVec 64

inductive Reg where
  | rax | rbx | rcx | rdx | rsi | rdi | r8 | r9 | r10 | rsp | rbp
deriving DecidableEq

/-- an immediate value, a register, or the memory at a base (0 if there is none) and a displacement -/
inductive Operand (σ : Type) where
  | imm (v : Word64)
  | reg (r : Reg)
  | mem (sp : σ) (base : Option Reg) (disp : Nat)

inductive Instr (σ : Type) where
  | movq (src dst : Operand σ)
  /-- the low 16 bits -/
  | movw (src dst : Reg)
  | addq (src dst : Operand σ)
  | andq (src dst : Operand σ)
  | orq (src dst : Operand σ)
  | xorq (src dst : Operand σ)
  | shlq (n : Nat) (dst : Operand σ)
  | shrq (n : Nat) (dst : Operand σ)
  | incq (dst : Operand σ)
  | cmpq (src dst : Operand σ)
  | pushq (src : Operand σ)
  /-- the value is dropped -/
  | popq
  /-- the return address is pushed -/
  | call (ret : Word64)
  | je (l : Nat)
  | jne (l : Nat)
  | jmp (l : Nat)
  | label (l : Nat)

structure Cpu (σ : Type) where
  reg : Reg → Word64
  mem : σ → Word64 → Word64
  zf : Bool

section
variable {σ : Type} [DecidableEq σ]

namespace Cpu

def setReg (c : Cpu σ) (r : Reg) (v : Word64) : Cpu σ := { c with reg := Function.update c.reg r v }

def setMem (c : Cpu σ) (sp : σ) (a v : Word64) : Cpu σ :=
  { c with mem := Function.update c.mem sp (Function.update (c.mem sp) a v) }

def setZf (c : Cpu σ) (z : Bool) : Cpu σ := { c with zf := z }

def addr (c : Cpu σ) : Option Reg → Nat → Word64
  | none, d => BitVec.ofNat 64 d
  | some r, d => c.reg r + BitVec.ofNat 64 d

def read (c : Cpu σ) : Operand σ → Word64
  | .imm v => v
  | .reg r => c.reg r
  | .mem sp b d => c.mem sp (c.addr b d)

def write (c : Cpu σ) (v : Word64) : Operand σ → Cpu σ
  | .imm _ => c
  | .reg r => c.setReg r v
  | .mem sp b d => c.setMem sp (c.addr b d) v

/-- the result of an operation, with its zero flag -/
def result (c : Cpu σ) (v : Word64) (dst : Operand σ) : Cpu σ := (c.write v dst).setZf (decide (v = 0))

/-- `stack` is the space of the stack -/
def push (stack : σ) (c : Cpu σ) (v : Word64) : Cpu σ :=
  (c.setReg .rsp (c.reg .rsp - 8#64)).setMem stack (c.reg .rsp - 8#64) v

end Cpu

/-- the state, and the label that a jump is looking for -/
def exec (stack : σ) (c : Cpu σ) : Instr σ → Option Nat × Cpu σ
  | .movq a b => (none, c.write (c.read a) b)
  | .movw a b => (none, c.setReg b ((c.reg b).extractLsb' 16 48 ++ (c.reg a).setWidth 16))
  | .addq a b => (none, c.result (c.read b + c.read a) b)
  | .andq a b => (none, c.result (c.read b &&& c.read a) b)
  | .orq a b => (none, c.result (c.read b ||| c.read a) b)
  | .xorq a b => (none, c.result (c.read b ^^^ c.read a) b)
  | .shlq n b => (none, c.result (c.read b <<< n) b)
  | .shrq n b => (none, c.result (c.read b >>> n) b)
  | .incq b => (none, c.result (c.read b + 1#64) b)
  | .cmpq a b => (none, c.setZf (decide (c.read b = c.read a)))
  | .pushq a => (none, c.push stack (c.read a))
  | .popq => (none, c.setReg .rsp (c.reg .rsp + 8#64))
  | .call ret => (none, c.push stack ret)
  | .je l => (if c.zf = true then some l else none, c)
  | .jne l => (if c.zf = true then none else some l, c)
  | .jmp l => (some l, c)
  | .label _ => (none, c)

/-- everything before the label is skipped -/
def seek (l : Nat) : Instr σ → Option Nat
  | .label l' => if l' = l then none else some l
  | _ => some l

def step (stack : σ) (s : Option Nat × Cpu σ) (i : Instr σ) : Option Nat × Cpu σ :=
  match s with
  | (none, c) => exec stack c i
  | (some l, c) => (seek l i, c)

def run (stack : σ) (p : List (Instr σ)) (s : Option Nat × Cpu σ) : Option Nat × Cpu σ :=
  p.foldl (step stack) s

/-! ## reading the state -/

namespace Cpu

@[simp] theorem setReg_reg (c : Cpu σ) (r r' : Reg) (v : Word64) :
    (c.setReg r v).reg r' = if r' = r then v else c.reg r' := Function.update_apply ..
@[simp] theorem setReg_mem (c : Cpu σ) (r : Reg) (v : Word64) : (c.setReg r v).mem = c.mem := rfl
@[simp] theorem setMem_reg (c : Cpu σ) (sp : σ) (a v : Word64) : (c.setMem sp a v).reg = c.reg := rfl
@[simp] theorem setMem_mem (c : Cpu σ) (sp sp' : σ) (a v : Word64) : (c.setMem sp a v).mem sp' =
    if sp' = sp then Function.update (c.mem sp) a v else c.mem sp' := Function.update_apply ..
@[simp] theorem setZf_reg (c : Cpu σ) (z : Bool) : (c.setZf z).reg = c.reg := rfl
@[simp] theorem setZf_mem (c : Cpu σ) (z : Bool) : (c.setZf z).mem = c.mem := rfl
@[simp] theorem setZf_zf (c : Cpu σ) (z : Bool) : (c.setZf z).zf = z := rfl

@[simp] theorem read_imm (c : Cpu σ) (v : Word64) : c.read (.imm v) = v := rfl
@[simp] theorem read_reg (c : Cpu σ) (r : Reg) : c.read (.reg r) = c.reg r := rfl
@[simp] theorem read_sym (c : Cpu σ) (sp : σ) (d : Nat) :
    c.read (.mem sp none d) = c.mem sp (BitVec.ofNat 64 d) := rfl
@[simp] theorem read_mem (c : Cpu σ) (sp : σ) (r : Reg) (d : Nat) :
    c.read (.mem sp (some r) d) = c.mem sp (c.reg r + BitVec.ofNat 64 d) := rfl
@[simp] theorem write_reg (c : Cpu σ) (v : Word64) (r : Reg) :
    c.write v (.reg r) = c.setReg r v := rfl
@[simp] theorem write_sym (c : Cpu σ) (v : Word64) (sp : σ) (d : Nat) :
    c.write v (.mem sp none d) = c.setMem sp (BitVec.ofNat 64 d) v := rfl
@[simp] theorem write_mem (c : Cpu σ) (v : Word64) (sp : σ) (r : Reg) (d : Nat) :
    c.write v (.mem sp (some r) d) = c.setMem sp (c.reg r + BitVec.ofNat 64 d) v := rfl

end Cpu

attribute [simp] Cpu.result Cpu.push exec seek

theorem stack_ne (x : Word64) {a b : Word64} (h : a ≠ b) : x + a ≠ x + b :=
  fun e => h ((BitVec.add_right_inj x).mp e)

/-! ## running a program -/

section
variable (stack : σ) (p p' : List (Instr σ)) (c : Cpu σ) (l : Nat)

theorem run_append (s : Option Nat × Cpu σ) :
    run stack (p ++ p') s = run stack p' (run stack p s) := List.foldl_append ..

@[simp] theorem run_nil (s : Option Nat × Cpu σ) : run stack [] s = s := rfl

@[simp] theorem run_cons (i : Instr σ) :
    run stack (i :: p) (none, c) = run stack p (exec stack c i) := rfl

@[simp] theorem run_seek (i : Instr σ) :
    run stack (i :: p) (some l, c) = run stack p (seek l i, c) := rfl

section
variable {stack p c l} {a b : Operand σ}

theorem run_cmpq_je_eq (h : c.read b = c.read a) :
    run stack (.cmpq a b :: .je l :: p) (none, c) = run stack p (some l, c.setZf true) := by
  rw [run_cons, exec, decide_eq_true h, run_cons, exec, Cpu.setZf_zf, if_pos rfl]

theorem run_cmpq_je_ne (h : c.read b ≠ c.read a) :
    run stack (.cmpq a b :: .je l :: p) (none, c) = run stack p (none, c.setZf false) := by
  rw [run_cons, exec, decide_eq_false h, run_cons, exec, Cpu.setZf_zf, if_neg Bool.false_ne_true]

theorem run_cmpq_jne_eq (h : c.read b = c.read a) :
    run stack (.cmpq a b :: .jne l :: p) (none, c) = run stack p (none, c.setZf true) := by
  rw [run_cons, exec, decide_eq_true h, run_cons, exec, Cpu.setZf_zf, if_pos rfl]

theorem run_cmpq_jne_ne (h : c.read b ≠ c.read a) :
    run stack (.cmpq a b :: .jne l :: p) (none, c) = run stack p (some l, c.setZf false) := by
  rw [run_cons, exec, decide_eq_false h, run_cons, exec, Cpu.setZf_zf, if_neg Bool.false_ne_true]

end

theorem run_label {o : Option Nat} (ho : o = none ∨ o = some l) :
    run stack (.label l :: p) (o, c) = run stack p (none, c) := by
  obtain rfl | rfl := ho
  · rfl
  · rw [run_seek, seek, if_pos rfl]

end

end
end OsZ
