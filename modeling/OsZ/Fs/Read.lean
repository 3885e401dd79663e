import OsZ.Fs.Model
import Mathlib.Tactic

/-!
# What `taskctx_read` copies

A regular file without write buffers, open for reading, and a driver whose answers are correct
pieces of it (`GoodRead`); a request for `size` bytes at offset `offs` of a file of `N` bytes.

* `readLoop_exits`     the loop returns, and is left by a miss or at the end of the file only;
* `readLoop_progress`  what is copied, when the request reaches the end of the file;
* `taskctxRead_exact`  the request is served as it should when it reaches beyond the end of the file
                       and never when it ends before it: the last piece of the request sets
                       `workleft` to `(size_t)-1`, for which `workleft>0` holds, so the loop goes on.
-/

namespace OsZ

/-- the answer for offset `o` of a file of `N` bytes -/
def Reply.Good (file : Nat → UInt8) (N o : Nat) : Reply → Prop
  | .miss => True
  | .data blk s =>
    if o < N then 0 < s ∧ s ≤ N - o ∧ ∀ i < s, blk.getD (fun _ => 0) i = file (o + i) else s = 0

def GoodRead (file : Nat → UInt8) (N storage inode : Nat) (read : ReadFn) : Prop :=
  ∀ c o bs, (read c storage inode o bs).Good file N o

/-- end of file is known without a missing block -/
def EofAtOnce (N storage inode : Nat) (read : ReadFn) : Prop :=
  ∀ c o bs, N ≤ o → read c storage inode o bs ≠ .miss

theorem minus1_ne_zero : minus1 ≠ 0 := by decide

/-! ## one round -/

theorem copyOut_last (ptr : Nat) (blk : Nat → UInt8) {bs : Nat} {s : ReadState} (h : s.workleft ≤ bs) :
    copyOut ptr blk bs s = { s with
      ret := w64 (s.workoffs + s.workleft), mem := s.mem.copy (ptr + s.workoffs) blk s.workleft,
      workoffs := w64 (s.workoffs + s.workleft), workleft := minus1 } := if_pos h

theorem copyOut_more (ptr : Nat) (blk : Nat → UInt8) {bs : Nat} {s : ReadState} (h : bs < s.workleft) :
    copyOut ptr blk bs s = { s with
      mem := s.mem.copy (ptr + s.workoffs) blk bs, workoffs := w64 (s.workoffs + bs),
      workleft := s.workleft - bs } := if_neg (by omega)

section
variable {file : Nat → UInt8} {N storage inode blksize offs ptr : Nat} {read : ReadFn}

/-- one round without write buffers: a miss, a suspended task, the end of the file, or a piece -/
theorem readLoop_cases {s : ReadState} (read : ReadFn) (storage inode blksize offs ptr n : Nat) (hb : s.bufs = [])
    (hw : s.workleft ≠ 0) :
    (read s.calls storage inode (w64 (offs + s.workoffs)) blksize = .miss ∧
      readLoop read storage inode blksize offs ptr (n+1) s
        = some { s with calls := s.calls + 1, ackdelayed := true }) ∨
    ∃ blk bs, read s.calls storage inode (w64 (offs + s.workoffs)) blksize = .data blk bs ∧
      ((s.ackdelayed = true ∧ readLoop read storage inode blksize offs ptr (n+1) s
          = some { s with calls := s.calls + 1 }) ∨
        (s.ackdelayed = false ∧ bs = 0 ∧ readLoop read storage inode blksize offs ptr (n+1) s
          = some { s with calls := s.calls + 1, ret := s.workoffs, workleft := minus1 }) ∨
        (s.ackdelayed = false ∧ bs ≠ 0 ∧ readLoop read storage inode blksize offs ptr (n+1) s
          = readLoop read storage inode blksize offs ptr n
              (copyOut ptr (blk.getD (fun _ => 0)) bs { s with calls := s.calls + 1 }))) := by
  rw [readLoop, if_neg hw]
  simp only [hb, List.find?_nil, mergeBuf]
  cases read s.calls storage inode (w64 (offs + s.workoffs)) blksize with
  | miss => exact Or.inl ⟨rfl, rfl⟩
  | data blk bs =>
    refine Or.inr ⟨blk, bs, rfl, ?_⟩
    by_cases ha : s.ackdelayed = true
    · exact Or.inl ⟨ha, by simp [ha]⟩
    · rw [Bool.not_eq_true] at ha
      by_cases h0 : bs = 0
      · exact Or.inr (Or.inl ⟨ha, h0, by simp [ha, h0]⟩)
      · refine Or.inr (Or.inr ⟨ha, h0, ?_⟩)
        simp only [ha, h0, if_false, Bool.false_eq_true]

/-- where the loop can be left; the fuel is enough because every piece moves the offset on -/
theorem readLoop_exits (hN : N < 2^64) (hg : GoodRead file N storage inode read)
    (blksize offs ptr fuel : Nat) (s : ReadState) (hb : s.bufs = []) (hw : s.workleft ≠ 0)
    (hf : N - w64 (offs + s.workoffs) < fuel) :
    ∃ s', readLoop read storage inode blksize offs ptr fuel s = some s' ∧ s'.bufs = [] ∧
      s'.workleft ≠ 0 ∧
      (s'.ackdelayed = true ∨ (N ≤ w64 (offs + s'.workoffs) ∧ s'.ret = s'.workoffs)) := by
  induction fuel generalizing s with
  | zero => omega
  | succ fuel ih =>
    have hgood := hg s.calls (w64 (offs + s.workoffs)) blksize
    rcases readLoop_cases read storage inode blksize offs ptr fuel hb hw with
      ⟨-, hl⟩ | ⟨blk, bs, hr, ⟨ha, hl⟩ | ⟨-, h0, hl⟩ | ⟨-, h0, hl⟩⟩
    · exact ⟨_, hl, hb, hw, Or.inl rfl⟩
    · exact ⟨_, hl, hb, hw, Or.inl ha⟩
    · rw [hr, Reply.Good, h0] at hgood
      refine ⟨_, hl, hb, minus1_ne_zero, Or.inr ⟨?_, rfl⟩⟩
      by_contra hlt
      rw [if_pos (not_le.mp hlt)] at hgood
      exact absurd hgood.1 (lt_irrefl 0)
    · rw [hr, Reply.Good] at hgood
      have ho : w64 (offs + s.workoffs) < N := by
        by_contra hge
        rw [if_neg hge] at hgood
        exact h0 hgood
      rw [if_pos ho] at hgood
      obtain ⟨-, hle, -⟩ := hgood
      -- `k` bytes further on, without wrapping around
      have hmove : ∀ k, k ≠ 0 → k ≤ bs →
          N - w64 (offs + w64 (s.workoffs + k)) < fuel := by
        intro k hk hk'
        unfold w64 at *
        omega
      rw [hl]
      rcases Nat.lt_or_ge bs s.workleft with hlt | hge
      · rw [copyOut_more (s := { s with calls := s.calls + 1 }) _ _ hlt]
        exact ih _ hb (by dsimp only; omega) (hmove bs h0 le_rfl)
      · rw [copyOut_last (s := { s with calls := s.calls + 1 }) _ _ hge]
        exact ih _ hb minus1_ne_zero (hmove s.workleft hw hge)

/-! ## what is copied -/

/-- the first `workoffs` bytes of the request are copied, and nothing else is written -/
structure Progress (file : Nat → UInt8) (N offs ptr : Nat) (workoffs : Nat) (mem : Table UInt8) :
    Prop where
  le : workoffs ≤ N - offs
  bytes : ∀ i < workoffs, mem.cell (ptr + i) = file (offs + i)
  log : ∀ a, a ∈ mem.log ↔ ptr ≤ a ∧ a < ptr + workoffs

theorem Progress.copy {mem : Table UInt8} {w k : Nat} {blk : Nat → UInt8}
    (h : Progress file N offs ptr w mem) (hle : w + k ≤ N - offs)
    (hblk : ∀ i < k, blk i = file (offs + w + i)) :
    Progress file N offs ptr (w + k) (mem.copy (ptr + w) blk k) := by
  refine ⟨hle, fun i hi => ?_, fun a => ?_⟩
  · rcases Nat.lt_or_ge i w with hiw | hiw
    · rw [Table.copy_cell_out _ _ _ (Or.inl (by omega)), h.bytes i hiw]
    · obtain ⟨j, rfl⟩ := Nat.exists_eq_add_of_le hiw
      rw [← Nat.add_assoc, Table.copy_cell_in _ _ _ (by omega), hblk j (by omega), Nat.add_assoc]
  · rw [Table.mem_copy_log, h.log]
    omega

/-- the request is not yet served -/
def Midway (size : Nat) (s : ReadState) : Prop :=
  s.workleft = size - s.workoffs ∧ s.workoffs < size ∧ s.ret = 0

/-- the request is served and ends with the file; the end of the file is still to be found -/
def Filled (size : Nat) (s : ReadState) : Prop :=
  s.workoffs = size ∧ s.workleft = minus1 ∧ s.ret = size ∧ s.ackdelayed = false

theorem readLoop_progress {size : Nat} (hN : N < 2^64) (ho : offs < 2^64) (hs : size < 2^64)
    (hg : GoodRead file N storage inode read)
    (hend : N - offs < size ∨ (N - offs = size ∧ EofAtOnce N storage inode read))
    (fuel : Nat) (s s' : ReadState) (hb : s.bufs = [])
    (hp : Progress file N offs ptr s.workoffs s.mem) (hm : Midway size s ∨ Filled size s)
    (hl : readLoop read storage inode blksize offs ptr fuel s = some s') :
    Progress file N offs ptr s'.workoffs s'.mem ∧
      ((s'.ackdelayed = true ∧ Midway size s') ∨
        (s'.ackdelayed = false ∧ s'.workoffs = N - offs ∧ s'.ret = N - offs)) := by
  induction fuel generalizing s with
  | zero => exact absurd hl (by simp [readLoop])
  | succ fuel ih =>
    have hle := hp.le
    have hpos : w64 (offs + s.workoffs) = offs + s.workoffs := w64_of_lt (by omega)
    have hw : s.workleft ≠ 0 := by
      rcases hm with ⟨h1, h2, -⟩ | ⟨-, h1, -⟩
      · omega
      · rw [h1]; exact minus1_ne_zero
    have hgood := hg s.calls (offs + s.workoffs) blksize
    rcases readLoop_cases read storage inode blksize offs ptr fuel hb hw with
      ⟨hr, hl'⟩ | ⟨blk, bs, hr, ⟨ha, hl'⟩ | ⟨ha, h0, hl'⟩ | ⟨ha, h0, hl'⟩⟩
    all_goals
      rw [hpos] at hr
      rw [hl'] at hl
    · rcases hm with hm | ⟨h1, -⟩
      · cases hl
        exact ⟨hp, Or.inl ⟨rfl, hm⟩⟩
      · -- a miss at the end of the file
        obtain ⟨h2, hat⟩ := hend.resolve_left (by omega)
        exact absurd hr (hat _ _ _ (by omega))
    · rcases hm with hm | ⟨-, -, -, h1⟩
      · cases hl
        exact ⟨hp, Or.inl ⟨ha, hm⟩⟩
      · rw [ha] at h1; cases h1
    · rw [hr, Reply.Good, h0] at hgood
      have hge : N ≤ offs + s.workoffs := by
        by_contra hlt
        rw [if_pos (not_le.mp hlt)] at hgood
        exact absurd hgood.1 (lt_irrefl 0)
      have hend' : s.workoffs = N - offs := by omega
      cases hl
      exact ⟨hp, Or.inr ⟨ha, hend', hend'⟩⟩
    · rw [hr, Reply.Good] at hgood
      have hlt : offs + s.workoffs < N := by
        by_contra hge
        rw [if_neg hge] at hgood
        exact h0 hgood
      rw [if_pos hlt] at hgood
      obtain ⟨-, hbs, hblk⟩ := hgood
      rcases hm with ⟨h1, h2, h3⟩ | ⟨h1, -⟩
      · rcases Nat.lt_or_ge bs s.workleft with hmore | hlast
        · rw [copyOut_more (s := { s with calls := s.calls + 1 }) _ _ hmore] at hl
          have hw' : w64 (s.workoffs + bs) = s.workoffs + bs := w64_of_lt (by omega)
          refine ih _ ?_ ?_ (Or.inl ?_) hl
          · exact hb
          · show Progress file N offs ptr (w64 (s.workoffs + bs)) _
            rw [hw']
            exact hp.copy (by omega) hblk
          · refine ⟨?_, ?_, h3⟩
            · show s.workleft - bs = size - w64 (s.workoffs + bs)
              omega
            · show w64 (s.workoffs + bs) < size
              omega
        · rw [copyOut_last (s := { s with calls := s.calls + 1 }) _ _ hlast] at hl
          have hw' : w64 (s.workoffs + s.workleft) = size := by rw [w64_of_lt (by omega)]; omega
          refine ih _ ?_ ?_ (Or.inr ?_) hl
          · exact hb
          · show Progress file N offs ptr (w64 (s.workoffs + s.workleft)) _
            rw [w64_of_lt (by omega)]
            exact hp.copy (by omega) (fun i hi => hblk i (by omega))
          · exact ⟨hw', rfl, hw', ha⟩
      · omega

end

/-! ## one call -/

/-- `idx` is a regular file without write buffers that may be read with the driver `read` -/
structure Reading (fs : FsState) (tc : TaskCtx) (idx : Nat) (fd : OpenFile) (read : ReadFn) : Prop where
  open_ : tc.openfiles[idx]? = some fd
  fid : fd.fid ≠ minus1
  path : (fs.fcb fd.fid).abspath.isSome = true
  mode : oRead (fs.fcb fd.fid).mode = true
  regular : (fs.fcb fd.fid).type = .regFile
  file : ofModeReaddir fd.mode = false
  unlocked : ¬ ((fs.fcb fd.fid).storage ≠ minus1 ∧ fs.fsckdev = (fs.fcb fd.fid).storage)
  drv : fs.fsdrv[(fs.fcb fd.fid).fs]? = some (some read)
  buf : (fs.fcb fd.fid).buf = []

def readStart (fs : FsState) (tc : TaskCtx) (size : Nat) : ReadState :=
  if tc.workleft = minus1 then ⟨size, 0, 0, [], fs.mem, fs.calls, fs.ackdelayed⟩
  else ⟨tc.workleft, tc.workoffs, 0, [], fs.mem, fs.calls, fs.ackdelayed⟩

/-- the state a call leaves behind when its loop ends in `s` -/
def readEnd (fs : FsState) (tc : TaskCtx) (idx : Nat) (fd : OpenFile) (s : ReadState) :
    FsState × TaskCtx × Nat :=
  ({ fs with mem := s.mem, calls := s.calls, ackdelayed := s.ackdelayed },
    { tc with workleft := s.workleft, workoffs := s.workoffs,
              openfiles := tc.openfiles.set idx { fd with offs := w64 (fd.offs + s.ret) } }, s.ret)

section
variable {fs : FsState} {tc : TaskCtx} {idx ptr size fuel : Nat} {fd : OpenFile} {read : ReadFn}
  {s : ReadState}

theorem Reading.fcb_update (h : Reading fs tc idx fd read) :
    Function.update fs.fcb fd.fid { fs.fcb fd.fid with buf := [] } = fs.fcb := by
  have e : { fs.fcb fd.fid with buf := [] } = fs.fcb fd.fid := by rw [← h.buf]
  rw [e, Function.update_eq_self]

theorem taskctxRead_of_loop (h : Reading fs tc idx fd read)
    (hl : readLoop read (fs.fcb fd.fid).storage (fs.fcb fd.fid).inode
      (fs.fcb (fs.fcb fd.fid).storage).blksize fd.offs ptr fuel (readStart fs tc size) = some s)
    (hb : s.bufs = []) :
    taskctxRead fuel fs tc idx ptr size = some (readEnd fs tc idx fd s) := by
  have hv : taskctxValidfid fs tc idx = true := by
    unfold taskctxValidfid
    rw [h.open_]
    simp [h.fid, h.path]
  have hr : readBlocks fuel fs tc idx fd fd.fid ptr size = some (readEnd fs tc idx fd s) := by
    unfold readBlocks
    simp only [h.drv, h.buf, h.file, List.find?_nil, ite_self]
    unfold readStart at hl
    by_cases hw : tc.workleft = minus1
    · simp only [hw, if_true] at hl ⊢
      rw [hl]
      simp only [hb, h.fcb_update]
      rfl
    · simp only [hw, if_false] at hl ⊢
      rw [hl]
      simp only [hb, h.fcb_update]
      rfl
  unfold taskctxRead
  rw [h.open_]
  simp only [hv, h.mode, h.regular, h.file, h.unlocked, hr]
  simp

theorem Reading.after (h : Reading fs tc idx fd read) (s : ReadState) :
    Reading (readEnd fs tc idx fd s).1 (readEnd fs tc idx fd s).2.1 idx
      { fd with offs := w64 (fd.offs + s.ret) } read := by
  refine ⟨?_, h.fid, h.path, h.mode, h.regular, h.file, h.unlocked, h.drv, h.buf⟩
  obtain ⟨hlt, -⟩ := List.getElem?_eq_some_iff.mp h.open_
  exact List.getElem?_set_self hlt

theorem Reading.clear (h : Reading fs tc idx fd read) (nomem : Bool) :
    Reading (fs.clear nomem) tc idx fd read :=
  ⟨h.open_, h.fid, h.path, h.mode, h.regular, h.file, h.unlocked, h.drv, h.buf⟩

theorem readSession_cons (h : Reading fs tc idx fd read) (nomem : Bool) (rest : List Bool)
    (hl : readLoop read (fs.fcb fd.fid).storage (fs.fcb fd.fid).inode
      (fs.fcb (fs.fcb fd.fid).storage).blksize fd.offs ptr fuel (readStart (fs.clear nomem) tc size)
        = some s)
    (hb : s.bufs = []) :
    readSession fuel idx ptr size (nomem :: rest) fs tc =
      if s.ackdelayed = true then
        readSession fuel idx ptr size rest (readEnd (fs.clear nomem) tc idx fd s).1
          (readEnd (fs.clear nomem) tc idx fd s).2.1
      else some (some (readEnd (fs.clear nomem) tc idx fd s)) := by
  rw [readSession, taskctxRead_of_loop (h.clear nomem) hl hb]
  rfl

theorem readStart_bufs : (readStart fs tc size).bufs = [] := by
  unfold readStart; split <;> rfl

theorem readStart_workleft (hw : tc.workleft ≠ 0) (hs : size ≠ 0) :
    (readStart fs tc size).workleft ≠ 0 := by
  unfold readStart; split
  · exact hs
  · exact hw

end

/-! ## the calls for one message -/

structure ReadOk (file : Nat → UInt8) (N offs size ptr idx : Nat) (r : FsState × TaskCtx × Nat) :
    Prop where
  ret : r.2.2 = min size (N - offs)
  pos : ∃ fd, r.2.1.openfiles[idx]? = some fd ∧ fd.offs = offs + min size (N - offs)
  bytes : ∀ i < min size (N - offs), r.1.mem.cell (ptr + i) = file (offs + i)
  stored : ∀ a, a ∈ r.1.mem.log ↔ ptr ≤ a ∧ a < ptr + min size (N - offs)

section
variable {file : Nat → UInt8} {N idx ptr size fuel : Nat} {read : ReadFn}

/-- every call returns, and a message that is answered leaves the offset at the end of the file or
behind it -/
theorem readSession_ends (ptr : Nat) (hN : N < 2^64) (hs : size ≠ 0) (hfuel : N < fuel) (nomem : List Bool)
    (fs : FsState) (tc : TaskCtx) (fd : OpenFile) (h : Reading fs tc idx fd read)
    (hg : GoodRead file N (fs.fcb fd.fid).storage (fs.fcb fd.fid).inode read)
    (hw : tc.workleft ≠ 0) :
    ∃ r, readSession fuel idx ptr size nomem fs tc = some r ∧
      ∀ x, r = some x → ∃ fd', x.2.1.openfiles[idx]? = some fd' ∧ N ≤ fd'.offs := by
  induction nomem generalizing fs tc fd with
  | nil => exact ⟨none, rfl, fun x hx => absurd hx (by simp)⟩
  | cons b rest ih =>
    obtain ⟨s, hl, hb, hw', hexit⟩ := readLoop_exits hN hg
      (fs.fcb (fs.fcb fd.fid).storage).blksize fd.offs ptr fuel
      (readStart (fs.clear b) tc size) readStart_bufs (readStart_workleft hw hs) (by omega)
    have hnext := (h.clear b).after s
    rw [readSession_cons h b rest hl hb]
    by_cases ha : s.ackdelayed = true
    · rw [if_pos ha]
      exact ih _ _ _ hnext hg hw'
    · rw [if_neg ha]
      refine ⟨_, rfl, fun x hx => ?_⟩
      cases hx
      obtain ⟨hge, hret⟩ := hexit.resolve_left ha
      refine ⟨_, hnext.open_, ?_⟩
      show N ≤ w64 (fd.offs + s.ret)
      rw [hret]
      exact hge

/-- a request that reaches the end of the file: what is copied before each of its calls -/
theorem readSession_ok {offs : Nat} (hN : N < 2^64) (ho : offs < 2^64) (hs : size < 2^64)
    (nomem : List Bool) (fs : FsState) (tc : TaskCtx) (fd : OpenFile)
    (h : Reading fs tc idx fd read)
    (hg : GoodRead file N (fs.fcb fd.fid).storage (fs.fcb fd.fid).inode read)
    (hend : N - offs < size ∨
      (N - offs = size ∧ EofAtOnce N (fs.fcb fd.fid).storage (fs.fcb fd.fid).inode read))
    (hfd : fd.offs = offs)
    (hm : Midway size (readStart fs tc size))
    (hp : Progress file N offs ptr (readStart fs tc size).workoffs fs.mem)
    (hfuel : N < fuel) (x : FsState × TaskCtx × Nat)
    (hx : readSession fuel idx ptr size nomem fs tc = some (some x)) :
    ReadOk file N offs size ptr idx x := by
  induction nomem generalizing fs tc fd with
  | nil => exact absurd hx (by simp [readSession])
  | cons b rest ih =>
    have hstart : readStart (fs.clear b) tc size = { readStart fs tc size with ackdelayed := b } := by
      unfold readStart; split <;> rfl
    have hmem : (readStart fs tc size).mem = fs.mem := by unfold readStart; split <;> rfl
    have hw : (readStart fs tc size).workleft ≠ 0 := by
      obtain ⟨h1, h2, -⟩ := hm
      omega
    obtain ⟨s, hl, hb, -, -⟩ := readLoop_exits hN hg
      (fs.fcb (fs.fcb fd.fid).storage).blksize fd.offs ptr fuel
      (readStart (fs.clear b) tc size) readStart_bufs (by rw [hstart]; exact hw) (by omega)
    have hnext := (h.clear b).after s
    rw [readSession_cons h b rest hl hb] at hx
    rw [hstart, hfd] at hl
    obtain ⟨hp', hcase⟩ := readLoop_progress hN ho hs hg hend fuel
      { readStart fs tc size with ackdelayed := b } s
      (show (readStart fs tc size).bufs = [] from readStart_bufs)
      (show Progress file N offs ptr (readStart fs tc size).workoffs (readStart fs tc size).mem by
        rw [hmem]; exact hp)
      (Or.inl hm) hl
    rcases hcase with ⟨ha, m1, m2, m3⟩ | ⟨ha, hoffs, hret⟩
    · rw [if_pos ha] at hx
      have hfd' : w64 (fd.offs + s.ret) = offs := by rw [m3, hfd, Nat.add_zero, w64_of_lt ho]
      -- `workleft` can look like a fresh request only when nothing was copied yet
      have hagain : readStart (readEnd (fs.clear b) tc idx fd s).1
          (readEnd (fs.clear b) tc idx fd s).2.1 size
          = ⟨s.workleft, s.workoffs, 0, [], s.mem, s.calls, s.ackdelayed⟩ := by
        unfold readStart
        split
        · next hc =>
          change s.workleft = 2^64 - 1 at hc
          have e1 : s.workoffs = 0 := by omega
          have e2 : s.workleft = size := by omega
          rw [e1, e2]
          rfl
        · rfl
      refine ih _ _ _ hnext hg hend hfd' ?_ ?_ hx
      · rw [hagain]
        exact ⟨m1, m2, rfl⟩
      · rw [hagain]
        exact hp'
    · rw [if_neg (by rw [ha]; simp)] at hx
      cases hx
      have hn : min size (N - offs) = N - offs := by omega
      refine ⟨?_, ⟨_, hnext.open_, ?_⟩, ?_, ?_⟩
      · rw [hn]; exact hret
      · show w64 (fd.offs + s.ret) = _
        rw [hn, hret, hfd, w64_of_lt (by omega)]
      · rw [hn, ← hoffs]; exact hp'.bytes
      · rw [hn, ← hoffs]; exact hp'.log

/-- **A read request.**  Every call for it returns.  When it is answered, it was served as it should
if it reaches beyond the end of the file, and was not if it ends before the end of the file; a
request that ends with the file is served if the driver finds the end of the file at once. -/
theorem taskctxRead_exact {fs : FsState} {tc : TaskCtx} {fd : OpenFile} (hN : N < 2^64)
    (h : Reading fs tc idx fd read)
    (hg : GoodRead file N (fs.fcb fd.fid).storage (fs.fcb fd.fid).inode read)
    (ho : fd.offs < 2^64) (hs : 0 < size) (hs' : size < 2^64) (hw : tc.workleft = minus1)
    (hlog : fs.mem.log = []) (hfuel : N < fuel) (nomem : List Bool) :
    ∃ r, readSession fuel idx ptr size nomem fs tc = some r ∧ ∀ x, r = some x →
      (N - fd.offs < size → ReadOk file N fd.offs size ptr idx x) ∧
      (size < N - fd.offs → ¬ ReadOk file N fd.offs size ptr idx x) ∧
      (EofAtOnce N (fs.fcb fd.fid).storage (fs.fcb fd.fid).inode read →
        (ReadOk file N fd.offs size ptr idx x ↔ N - fd.offs ≤ size)) := by
  obtain ⟨r, hr, hend⟩ := readSession_ends ptr hN (Nat.ne_of_gt hs) hfuel nomem fs tc fd h hg
    (by rw [hw]; exact minus1_ne_zero)
  refine ⟨r, hr, fun x hx => ?_⟩
  have hstart : readStart fs tc size = ⟨size, 0, 0, [], fs.mem, fs.calls, fs.ackdelayed⟩ := if_pos hw
  have hok : (N - fd.offs < size ∨ (N - fd.offs = size ∧
      EofAtOnce N (fs.fcb fd.fid).storage (fs.fcb fd.fid).inode read)) →
      ReadOk file N fd.offs size ptr idx x := by
    intro he
    refine readSession_ok hN ho hs' nomem fs tc fd h hg he rfl ?_ ?_ hfuel x (by rw [hr, hx])
    · rw [hstart]
      exact ⟨rfl, hs, rfl⟩
    · rw [hstart]
      exact ⟨Nat.zero_le _, fun i hi => absurd hi (Nat.not_lt_zero i), fun a => by simp [hlog]⟩
  have hbad : size < N - fd.offs → ¬ ReadOk file N fd.offs size ptr idx x := by
    intro hlt hro
    obtain ⟨fd', hfd', hge⟩ := hend x hx
    obtain ⟨fd'', hfd'', he⟩ := hro.pos
    rw [hfd'] at hfd''
    cases hfd''
    omega
  refine ⟨fun he => hok (Or.inl he), hbad, fun heof => ⟨fun hro => ?_, fun hle => ?_⟩⟩
  · by_contra hgt
    exact hbad (by omega) hro
  · rcases Nat.lt_or_ge (N - fd.offs) size with hlt | hge
    · exact hok (Or.inl hlt)
    · exact hok (Or.inr ⟨by omega, heof⟩)

/-! ## examples of requests -/

/-- a driver for an inlined file: the rest of it, whatever was asked for -/
def inlineRead (file : Nat → UInt8) (N : Nat) : ReadFn := fun _ _ _ o _ =>
  if o < N then .data (some (fun i => file (o + i))) (N - o) else .data none 0

theorem inlineRead_good (file : Nat → UInt8) (N storage inode : Nat) :
    GoodRead file N storage inode (inlineRead file N) := by
  intro c o bs
  unfold inlineRead
  by_cases h : o < N
  · rw [if_pos h, Reply.Good, if_pos h]
    exact ⟨by omega, le_rfl, fun i _ => rfl⟩
  · rw [if_neg h, Reply.Good, if_neg h]

/-- the same driver, for which the inode is not in the cache when it is asked for the second time -/
def lateRead (file : Nat → UInt8) (N : Nat) : ReadFn := fun c storage inode o bs =>
  if c = 1 then .miss else inlineRead file N c storage inode o bs

theorem lateRead_good (file : Nat → UInt8) (N storage inode : Nat) :
    GoodRead file N storage inode (lateRead file N) := by
  intro c o bs
  unfold lateRead
  split
  · trivial
  · exact inlineRead_good file N storage inode c o bs

/-- the file `0 1 2 .. 7`, open for reading at offset `offs` -/
def demoFs (read : ReadFn) : FsState where
  fcb _ := ⟨some "/a", .regFile, 0, 1, 0, 2, 4096, [], []⟩
  fsdrv := [some read]
  devfsidx := 1
  ndev := 0
  fsckdev := minus1
  ackdelayed := false
  errno := none
  mem := ⟨fun _ => 255, []⟩
  calls := 0

def demoCtx (offs : Nat) : TaskCtx := ⟨0, minus1, [⟨0, 1, offs, 0⟩]⟩

theorem demo_reading (read : ReadFn) (offs : Nat) :
    Reading (demoFs read) (demoCtx offs) 0 ⟨0, 1, offs, 0⟩ read :=
  ⟨rfl, minus1_ne_zero.symm, rfl, (by decide : oRead 1 = true), rfl,
    (by decide : ofModeReaddir 1 = false), fun h => minus1_ne_zero h.2, rfl, rfl⟩

/-- eight bytes asked for at offset 5: three bytes are copied -/
theorem taskctxRead_exact_demo : ∃ r, readSession 9 0 100 8 [false]
      (demoFs (inlineRead UInt8.ofNat 8)) (demoCtx 5) = some r ∧
    ∀ x, r = some x → ReadOk UInt8.ofNat 8 5 8 100 0 x := by
  have hread : ∃ r, readSession 9 0 100 8 [false] (demoFs (inlineRead UInt8.ofNat 8)) (demoCtx 5)
      = some r ∧ _ :=
    taskctxRead_exact (by decide) (demo_reading (inlineRead UInt8.ofNat 8) 5)
      (inlineRead_good UInt8.ofNat 8 _ _) (by decide) (by decide) (by decide) rfl rfl (by decide) [false]
  obtain ⟨r, hr, h⟩ := hread
  exact ⟨r, hr, fun x hx => (h x hx).1 (by decide)⟩

/-- what a caller sees of the answer: the return value and the addresses written -/
def answer (r : Option (Option (FsState × TaskCtx × Nat))) : Option (Nat × List Nat) :=
  r.join.map (fun x => (x.2.2, x.1.mem.log))

/-- Three bytes asked for at offset 0 of a file of eight bytes: all eight are copied, five of them
behind the buffer, and the call returns 8.  Eight bytes asked for: if the end of the file is found
late, the call returns 0 although all bytes were copied. -/
theorem taskctxRead_overruns :
    GoodRead UInt8.ofNat 8 0 2 (inlineRead UInt8.ofNat 8) ∧
    GoodRead UInt8.ofNat 8 0 2 (lateRead UInt8.ofNat 8) ∧
    answer (readSession 9 0 100 3 [false] (demoFs (inlineRead UInt8.ofNat 8)) (demoCtx 0))
      = some (8, [107, 106, 105, 104, 103, 102, 101, 100]) ∧
    answer (readSession 9 0 100 8 [false, false] (demoFs (lateRead UInt8.ofNat 8)) (demoCtx 0))
      = some (0, [107, 106, 105, 104, 103, 102, 101, 100]) := by
  refine ⟨inlineRead_good _ _ _ _, lateRead_good _ _ _ _, ?_, ?_⟩
  · decide
  · decide

end

end OsZ
