import OsZ.Base.Overlay
import OsZ.Fs.Model

/-!
# Writing to a file (`fs/fcb.c`)

`fcb_write` keeps what is written to a regular file in the write buffers of its file control block,
a list of buffers linked by `next`.  The first loop removes the buffers that the new one covers, the
second one finds the place of the new buffer.

* `dropCovered`  the first loop;
* `placeBuf`     the second loop;
* `fcbWrite`     `fcb_write(idx,offs,buf,size)`.

Allocations succeed.  `none` is a call that goes on with a NULL pointer or stores behind the end of
an allocated block.

* `fcb_writes_exact`  calls for a file without write buffers do what they should only when there is
                      no call: `l` is NULL behind the second loop, so the first buffer is not added.
-/

namespace OsZ

/-- the value of an `off_t` -/
def s64 (z : Int) : Int := Int.bmod z (2^64)

/-- `write(fd,file,offs,blk,s)`; the first argument counts the calls -/
def WriteFn : Type := Nat → Nat → Nat → Nat → (Nat → UInt8) → Nat → Bool

inductive DrvCall where
  | writetrb
  | write (w : WriteBuf)
  | writetre

/-- the globals of the task that writing needs; a driver is known by its `read` and its `write` -/
structure FcbState extends FsState where
  nfcb : Nat
  writers : List (Option WriteFn)
  /-- the driver has `writetrb` and `writetre` -/
  transact : Nat → Bool × Bool
  drvlog : List DrvCall

def FcbState.seterr (fs : FcbState) (e : Errno) : FcbState := { fs with errno := some e }

/-- `fsdrv[i].write`, NULL for a driver that does not exist -/
def FcbState.writer (fs : FcbState) (i : Nat) : Option WriteFn := fs.writers.getD i none

def FcbState.setBuf (fs : FcbState) (idx : Nat) (l : List WriteBuf) : FcbState :=
  { fs with fcb := Function.update fs.fcb idx { fs.fcb idx with buf := l } }

/-- `O_WRITE` -/
def oWrite (mode : Nat) : Bool := mode.testBit 1

/-- `we=w->offs+w->size` -/
def WriteBuf.we (w : WriteBuf) : Int := s64 (w.offs + w.size)

def WriteBuf.piece (w : WriteBuf) : Piece UInt8 := ⟨w.offs, w.size, w.data⟩

/-- "remove old buffers entirely covered by the new one": `l` says whether there is a buffer before
the current one.  Behind a removed buffer the loop goes on with `w=l`, then `w->next`. -/
def dropCovered (offs e : Int) (l : Bool) : List WriteBuf → Option (List WriteBuf)
  | [] => some []
  | w :: ws =>
    if offs ≤ w.offs ∧ w.we ≤ e then
      if l then dropCovered offs e l ws else none
    else (dropCovered offs e true ws).map (w :: ·)

section
variable (nw : WriteBuf) (offs e : Int)

/-- the second loop; `pre` are the buffers passed.  `l` is NULL all the time, so a buffer that is
put in front of `w` becomes the first one and `pre` is lost.  The inner `none` says that no place was
found. -/
def placeBuf (pre : List WriteBuf) : List WriteBuf → Option (Option (List WriteBuf))
  | [] => some none
  | w :: ws =>
    if e < w.offs then some (some (nw :: w :: ws))
    else if offs < w.offs ∧ w.offs ≤ e ∧ e < w.we then
      let d := fun i => if i < nw.size then nw.data i else w.data (i - nw.size)
      some (some (pre ++ ⟨nw.offs, (w.we - offs).toNat, d⟩ :: ws))
    else if w.offs ≤ offs ∧ e ≤ w.we then
      let k := (offs - w.offs).toNat
      let d := fun i => if k ≤ i ∧ i < k + nw.size then nw.data (i - k) else w.data i
      some (some (pre ++ { w with data := d } :: ws))
    else if w.offs < offs ∧ offs ≤ w.we ∧ w.we < e then
      -- `w->data` is a block of `we-offs` bytes now, `size` bytes are stored at `offs-w->offs` in it
      none
    else if w.we < offs ∧ offs ≤ w.we ∧ w.we < e ∧ ws ≠ [] then
      some (some (pre ++ w :: nw :: ws))
    else placeBuf (pre ++ [w]) ws

end

def fcbWrite (fs : FcbState) (idx : Nat) (offs : Int) (buf : Nat → UInt8) (size : Nat) :
    Option (FcbState × Bool) :=
  if idx = minus1 ∨ fs.nfcb ≤ idx ∨ offs < 0 then some (fs.seterr .EFAULT, false)
  else
    let f := fs.fcb idx
    if f.type ≠ .regFile then some (fs.seterr .EBADF, false)
    else if f.storage ≠ minus1 ∧ fs.fsckdev = f.storage then some (fs.seterr .EBUSY, false)
    else if oWrite f.mode = false then some (fs.seterr .EACCES, false)
    else if (fs.writer f.fs).isNone then some (fs.seterr .EROFS, false)
    else
      let e := s64 (offs + size)
      match dropCovered offs e false f.buf with
      | none => none
      | some l =>
        match placeBuf ⟨offs.toNat, size, buf⟩ offs e [] l with
        | none => none
        | some (some l') => some (fs.setBuf idx l', true)
        -- `l` is NULL here too: the new buffer is not linked
        | some none => some (fs.setBuf idx l, false)

/-! ## a sequence of calls -/

structure WriteOp where
  offs : Int
  size : Nat
  data : Nat → UInt8

def WriteOp.piece (op : WriteOp) : Piece UInt8 := ⟨op.offs.toNat, op.size, op.data⟩

/-- the calls one after the other, with their results -/
def fcbWrites (idx : Nat) : List WriteOp → FcbState → Option (FcbState × List Bool)
  | [], fs => some (fs, [])
  | op :: ops, fs =>
    match fcbWrite fs idx op.offs op.data op.size with
    | none => none
    | some (fs', b) => (fcbWrites idx ops fs').map (fun r => (r.1, b :: r.2))

/-- a regular file that may be written, on a file system with a write driver -/
structure Writable (fs : FcbState) (idx : Nat) : Prop where
  ne : idx ≠ minus1
  lt : idx < fs.nfcb
  regular : (fs.fcb idx).type = .regFile
  unlocked : ¬ ((fs.fcb idx).storage ≠ minus1 ∧ fs.fsckdev = (fs.fcb idx).storage)
  mode : oWrite (fs.fcb idx).mode = true
  drv : (fs.writer (fs.fcb idx).fs).isSome = true

/-- every call returned true; the write buffers are sorted and disjoint and hold at every position
what was written there last -/
def WritesOk (fs : FcbState) (idx : Nat) (ops : List WriteOp) : Prop :=
  ∃ fs' rets, fcbWrites idx ops fs = some (fs', rets) ∧ (∀ b ∈ rets, b = true) ∧
    InOrder ((fs'.fcb idx).buf.map WriteBuf.piece) ∧
    ∀ p, overlay ((fs'.fcb idx).buf.map WriteBuf.piece) p
      = overlay (ops.reverse.map WriteOp.piece) p

section
variable {fs : FcbState} {idx : Nat}

/-- the first write to a file is lost -/
theorem fcbWrite_first (h : Writable fs idx) (hb : (fs.fcb idx).buf = []) {offs : Int} (ho : 0 ≤ offs)
    (buf : Nat → UInt8) (size : Nat) :
    fcbWrite fs idx offs buf size = some (fs.setBuf idx [], false) := by
  unfold fcbWrite
  rw [if_neg (by have := h.lt; have := h.ne; omega)]
  simp only [h.regular, h.unlocked, h.mode, hb, dropCovered, placeBuf, ne_eq, not_true_eq_false,
    if_false, Bool.true_eq_false]
  rw [if_neg (by have := h.drv; cases hd : fs.writer (fs.fcb idx).fs <;> simp_all)]

theorem fcbWrite_first_false (h : Writable fs idx) (hb : (fs.fcb idx).buf = []) (offs : Int)
    (buf : Nat → UInt8) (size : Nat) : ∃ fs', fcbWrite fs idx offs buf size = some (fs', false) := by
  rcases lt_or_ge offs 0 with ho | ho
  · refine ⟨fs.seterr .EFAULT, ?_⟩
    unfold fcbWrite
    rw [if_pos (Or.inr (Or.inr ho))]
  · exact ⟨_, fcbWrite_first h hb ho buf size⟩

/-- **Writing to a file without write buffers.**  All calls do what they should if and only if there
is none. -/
theorem fcb_writes_exact (h : Writable fs idx) (hb : (fs.fcb idx).buf = []) (ops : List WriteOp) :
    WritesOk fs idx ops ↔ ops = [] := by
  constructor
  · rintro ⟨fs', rets, hr, hret, -, -⟩
    cases ops with
    | nil => rfl
    | cons op ops =>
      obtain ⟨fs1, h1⟩ := fcbWrite_first_false h hb op.offs op.data op.size
      rw [fcbWrites, h1] at hr
      obtain ⟨r, -, hr⟩ := Option.map_eq_some_iff.mp hr
      cases hr
      exact absurd (hret false (List.mem_cons_self ..)) (by decide)
  · rintro rfl
    refine ⟨fs, [], rfl, fun b hb => absurd hb (List.not_mem_nil), ?_, fun p => ?_⟩
    · rw [hb]
      exact List.Pairwise.nil
    · rw [hb]
      rfl

end

/-- a file of a driver that writes -/
def demoFile (bufs : List WriteBuf) (read : Option ReadFn) : FcbState where
  fcb _ := ⟨some "/a", .regFile, 0, 3, 0, 2, 4, bufs, []⟩
  fsdrv := [read]
  devfsidx := 1
  ndev := 0
  fsckdev := minus1
  ackdelayed := false
  errno := none
  mem := ⟨fun _ => 0, []⟩
  calls := 0
  nfcb := 1
  writers := [some (fun _ _ _ _ _ _ => true)]
  transact _ := (false, false)
  drvlog := []

theorem demoFile_writable (bufs : List WriteBuf) (read : Option ReadFn) :
    Writable (demoFile bufs read) 0 :=
  ⟨(by decide : minus1 ≠ 0).symm, Nat.one_pos, rfl, fun h => (by decide : minus1 ≠ 0) h.2,
    (by decide : oWrite 3 = true), rfl⟩

/-- one byte at the start of an empty file, and no write -/
theorem fcb_writes_exact_demo :
    ¬ WritesOk (demoFile [] none) 0 [⟨0, 1, fun _ => 7⟩] ∧ WritesOk (demoFile [] none) 0 [] := by
  have h := fcb_writes_exact (demoFile_writable [] none) rfl
  exact ⟨fun hw => absurd ((h _).mp hw) (by simp), (h []).mpr rfl⟩

/-- one byte written to an empty file: the call returns false, and nothing is buffered -/
theorem first_write_lost : Writable (demoFile [] none) 0 ∧
    fcbWrite (demoFile [] none) 0 0 (fun _ => 7) 1 = some ((demoFile [] none).setBuf 0 [], false) ∧
    ¬ WritesOk (demoFile [] none) 0 [⟨0, 1, fun _ => 7⟩] := by
  have h1 := fcbWrite_first (demoFile_writable [] none) rfl (le_refl 0) (fun _ => 7) 1
  refine ⟨demoFile_writable [] none, h1, ?_⟩
  rintro ⟨fs', rets, hr, hret, -⟩
  rw [fcbWrites] at hr
  dsimp only at hr
  rw [h1] at hr
  cases hr
  exact absurd (hret false (List.mem_cons_self ..)) (by decide)

end OsZ
