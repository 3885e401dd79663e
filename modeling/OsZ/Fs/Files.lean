import OsZ.Fs.Flush
import OsZ.Fs.Cache

/-!
# Open files (`fs/fcb.c`, `fs/taskctx.c`, `fs/main.c`)

A file control block counts what refers to it (`nopen`), and a descriptor of a task refers to one by
its index.

* `fcbDel`, `fcbFree`  `fcb_del(idx)`, `fcb_free()`;
* `taskctxOpen`        `taskctx_open(tc,fid,mode,offs,idx)`;
* `taskctxClose`       `taskctx_close(tc,idx,dontfree)`;
* `sysDup`, `sysDup2`, `sysFcloseall`  the requests of a task.

Allocations succeed and `realloc` keeps the contents, but may move the table.  `none` is a call that does not
return, or one that goes on with a pointer into a table that was moved.

* `fcbDel_drops`, `fcbFlush_keeps`  what deleting and flushing leave as it is.
-/

namespace OsZ
open Function (update update_of_ne update_self)

/-- `fcb_t` has the size of a regular file too -/
structure VfsState extends FcbState where
  filesize : Nat → Nat

/-- `fcb_t` has a link counter and flags, too -/
structure FileState extends VfsState where
  nopen : Nat → Nat
  /-- `FCB_FLAG_EXCL` -/
  excl : Nat → Bool
  nfiles : Nat
  /-- where `realloc` puts a table of so many entries -/
  tableAt : Nat → Nat

/-- `taskctx_t` with the number of open files; `nopenfiles` is the length of `openfiles` -/
structure TaskFiles extends TaskCtx where
  nfiles : Nat

/-! ## file control blocks -/

/-- `while(n>0 && !p(n-1)) n--;` -/
def lastUsed (p : Nat → Bool) : Nat → Nat
  | 0 => 0
  | n+1 => if p n then n + 1 else lastUsed p n

/-- the end of `fcb_del`: the entry is empty, and the table is cut behind its last entry -/
def FileState.dropFcb (s : FileState) (idx : Nat) : FileState :=
  let fcb' := update s.fcb idx { s.fcb idx with abspath := none, unionlist := [] }
  { s with
    fcb := fcb'
    filesize := update s.filesize idx 0
    nfiles := sub64 s.nfiles 1
    nfcb := lastUsed (fun i => (fcb' i).abspath.isSome) s.nfcb }

/-- the members of a union are listed up to a 0 -/
def Fcb.members (f : Fcb) : List Nat := if f.type = .union then f.unionlist.takeWhile (· ≠ 0) else []

/-- the pointer `f=&fcb[idx]` into the table of `s` still points into the one of `t` -/
def FileState.pinned (s t : FileState) : Bool := t.tableAt t.nfcb == s.tableAt s.nfcb

/-- unions may be members of each other, so the depth of the calls is counted -/
def fcbDel : Nat → FileState → Nat → Option FileState
  | 0, _, _ => none
  | n+1, s, idx =>
    if s.nfcb ≤ idx ∨ (s.fcb idx).abspath = none then some s
    else
      let s' : FileState := { s with nopen := update s.nopen idx (s.nopen idx - 1) }
      if s'.nopen idx = 0 then
        ((s.fcb idx).members.foldlM (fun t m => if idx ≠ m then (fcbDel n t m).filter s.pinned else some t) s').map
          (FileState.dropFcb · idx)
      else some s'

/-- `for(i=0;i<nfcb;i++)` of `fcb_free`, with the flag `was` -/
def freePass (fuel : Nat) : Nat → Nat → FileState → Bool → Option (FileState × Bool)
  | 0, _, s, was => some (s, was)
  | n+1, i, s, was =>
    if s.nfcb ≤ i then some (s, was)
    else if s.nopen i = 0 then (fcbDel fuel s i).bind (fun s' => freePass fuel n (i + 1) s' true)
    else freePass fuel n (i + 1) s was

/-- an empty entry in front of the last one sets `was` in every round, so the loop may go on for ever -/
def fcbFree (fuel : Nat) : Nat → FileState → Option FileState
  | 0, _ => none
  | n+1, s => (freePass fuel s.nfcb 0 s false).bind (fun r => if r.2 then fcbFree fuel n r.1 else some r.1)

/-! ## descriptors -/

def oExcl (mode : Nat) : Bool := mode.testBit 2
def oAppend (mode : Nat) : Bool := mode.testBit 3
def oCreat (mode : Nat) : Bool := mode.testBit 4
def oTmpfile (mode : Nat) : Bool := mode.testBit 8
/-- `mode & O_AMSK` -/
def oAmsk (mode : Nat) : Nat := mode &&& 15

/-- an access that is neither read nor write is read -/
def readMode (mode : Nat) : Nat := if oRead mode = false ∧ oWrite mode = false then mode ||| 1 else mode

/-- the access is refused -/
def modeDenied (fmode mode : Nat) : Bool :=
  decide (oAmsk mode ≠ oAmsk fmode) && !((oAppend mode || oCreat mode) && oWrite fmode)

def openMode (mode : Nat) : Nat := if oCreat mode ∨ oAppend mode then mode ||| 2 else mode

def OpenFile.unused (fd : OpenFile) : Bool := decide (fd.fid = minus1)

/-- the slot of a new descriptor: the given one if it is unused, the first unused one, or a new one -/
def openSlot (l : List OpenFile) (idx : Nat) : Nat :=
  if idx ≠ minus1 ∧ (l[idx]?.map OpenFile.unused) = some true then idx
  else (l.findIdx? OpenFile.unused).getD l.length

/-- the descriptor is stored into a slot, or behind the last one -/
def putFile (l : List OpenFile) (i : Nat) (fd : OpenFile) : List OpenFile :=
  if i < l.length then l.set i fd else l ++ [fd]

/-- why `taskctx_open` fails -/
def openError (s : FileState) (fid mode : Nat) : Option Errno :=
  if s.nfcb ≤ fid ∨ (s.fcb fid).abspath = none then some .ENOENT
  else if s.excl fid then some .EBUSY
  else if modeDenied (s.fcb fid).mode (readMode mode) then some .EACCES
  else none

def taskctxOpen (s : FileState) (tc : TaskFiles) (fid mode offs idx : Nat) : FileState × TaskFiles × Nat :=
  match openError s fid mode with
  | some e => ({ s with errno := some e }, tc, minus1)
  | none =>
    let mode := openMode (readMode mode)
    let i := openSlot tc.openfiles idx
    ({ s with
        excl := if oExcl mode ∨ oExcl (s.fcb fid).mode then update s.excl fid true else s.excl
        nopen := update s.nopen fid (w64 (s.nopen fid + 1)) },
      { tc with openfiles := putFile tc.openfiles i ⟨fid, mode, offs, 0⟩, nfiles := w64 (tc.nfiles + 1) }, i)

/-- `if(of->mode & O_WRITE) fcb_flush(of->fid);` -/
def closeFlush (s : FileState) (tc : TaskFiles) (fd : OpenFile) : Option (FileState × TaskFiles) :=
  if oWrite fd.mode then
    (fcbFlush s.toFcbState tc.toTaskCtx fd.fid).map (fun r =>
      ({ s with toVfsState := { s.toVfsState with toFcbState := r.1 } }, { tc with toTaskCtx := r.2.1 }))
  else some (s, tc)

/-- a temporary file keeps its file control block.  The mode is compared with `FCB_TYPE_REG_DIR`. -/
def closeFcb (fuel : Nat) (s : FileState) (fd : OpenFile) : Option FileState :=
  if oTmpfile fd.mode ∧ (s.fcb fd.fid).mode ≠ 1 then some s
  else fcbDel fuel { s with excl := update s.excl fd.fid false } fd.fid

/-- the slot is unused, and the unused slots at the end are given back -/
def closeSlot (tc : TaskFiles) (idx : Nat) (fd : OpenFile) (dontfree : Bool) : TaskFiles :=
  let l := tc.openfiles.set idx { fd with fid := minus1 }
  { tc with openfiles := if dontfree then l else l.rdropWhile OpenFile.unused, nfiles := sub64 tc.nfiles 1 }

def taskctxClose (fuel : Nat) (s : FileState) (tc : TaskFiles) (idx : Nat) (dontfree : Bool) :
    Option (FileState × TaskFiles × Bool) :=
  match tc.openfiles[idx]? with
  | none => some (s, tc, false)
  | some fd =>
    if taskctxValidfid s.toFsState tc.toTaskCtx idx = false then some (s, tc, false)
    else
      (closeFlush s tc fd).bind (fun r =>
        (closeFcb fuel r.1 fd).map (fun s' => (s', closeSlot r.2 idx fd dontfree, true)))

/-! ## requests -/

def FileState.fail (s : FileState) (tc : TaskFiles) (e : Errno) : FileState × TaskFiles × Nat :=
  ({ s with errno := some e }, tc, minus1)

/-- the fields of the descriptor `idx`, for a new one -/
def reopen (s : FileState) (tc : TaskFiles) (idx i : Nat) : FileState × TaskFiles × Nat :=
  let fd := tc.openfiles.getD idx ⟨minus1, 0, 0, 0⟩
  taskctxOpen s tc fd.fid fd.mode fd.offs i

def sysDup (s : FileState) (tc : TaskFiles) (idx : Nat) : FileState × TaskFiles × Nat :=
  if taskctxValidfid s.toFsState tc.toTaskCtx idx = false then s.fail tc .EBADF else reopen s tc idx minus1

def sysDup2 (fuel : Nat) (s : FileState) (tc : TaskFiles) (idx i : Nat) : Option (FileState × TaskFiles × Nat) :=
  if taskctxValidfid s.toFsState tc.toTaskCtx idx = false then some (s.fail tc .EBADF)
  else if (tc.openfiles[i]?.map OpenFile.unused) = some false then
    (taskctxClose fuel s tc i true).map (fun r => reopen r.1 r.2.1 idx i)
  else some (reopen s tc idx i)

/-- `for(j=0;j<ctx->nopenfiles;j++) taskctx_close(ctx, j, false);` -/
def closeFrom (fuel : Nat) : Nat → Nat → FileState → TaskFiles → Option (FileState × TaskFiles)
  | 0, _, s, tc => some (s, tc)
  | n+1, j, s, tc =>
    if tc.openfiles.length ≤ j then some (s, tc)
    else (taskctxClose fuel s tc j false).bind (fun r => closeFrom fuel n (j + 1) r.1 r.2.1)

def closeAll (fuel : Nat) (s : FileState) (tc : TaskFiles) : Option (FileState × TaskFiles) :=
  closeFrom fuel tc.openfiles.length 0 s tc

/-- the block cache is not part of this state -/
def sysFcloseall (fuel : Nat) (s : FileState) (tc : TaskFiles) : Option (FileState × TaskFiles) :=
  (closeAll fuel s tc).bind (fun r => (fcbFree fuel fuel r.1).map (fun s' => (s', r.2)))

/-! ## what the file control blocks keep -/

/-- entries are deleted, and nothing else is changed -/
structure Drops (s s' : FileState) : Prop where
  nfcb : s'.nfcb ≤ s.nfcb
  path : ∀ i, (s'.fcb i).abspath = (s.fcb i).abspath ∨ (s'.fcb i).abspath = none
  mode : ∀ i, (s'.fcb i).mode = (s.fcb i).mode
  nopen : ∀ i, s'.nopen i ≤ s.nopen i
  excl : s'.excl = s.excl

theorem Drops.refl (s : FileState) : Drops s s :=
  ⟨le_rfl, fun _ => Or.inl rfl, fun _ => rfl, fun _ => le_rfl, rfl⟩

theorem Drops.trans {s t u : FileState} (h : Drops s t) (h' : Drops t u) : Drops s u := by
  refine ⟨h'.nfcb.trans h.nfcb, fun i => ?_, fun i => (h'.mode i).trans (h.mode i),
    fun i => (h'.nopen i).trans (h.nopen i), h'.excl.trans h.excl⟩
  rcases h'.path i with e | e
  · rw [e]
    exact h.path i
  · exact Or.inr e

theorem lastUsed_le (p : Nat → Bool) (n : Nat) : lastUsed p n ≤ n := by
  induction n with
  | zero => exact le_rfl
  | succ n ih =>
    unfold lastUsed
    split
    · exact le_rfl
    · exact ih.trans (Nat.le_succ n)

theorem dropFcb_drops (s : FileState) (idx : Nat) : Drops s (s.dropFcb idx) := by
  refine ⟨lastUsed_le _ _, fun i => ?_, fun i => ?_, fun _ => le_rfl, rfl⟩
  · show (update s.fcb idx _ i).abspath = _ ∨ (update s.fcb idx _ i).abspath = none
    rcases eq_or_ne i idx with rfl | h
    · rw [update_self]
      exact Or.inr rfl
    · rw [update_of_ne h]
      exact Or.inl rfl
  · show (update s.fcb idx _ i).mode = _
    rcases eq_or_ne i idx with rfl | h
    · rw [update_self]
    · rw [update_of_ne h]

/-- the count of the entry, and what the calls for the members do -/
theorem members_drops {f : FileState → Nat → Option FileState} {g : FileState → Bool} {idx : Nat} {s t : FileState}
    (hf : ∀ u m u', f u m = some u' → Drops u u') {l : List Nat}
    (h : l.foldlM (fun u m => if idx ≠ m then (f u m).filter g else some u)
      { s with nopen := update s.nopen idx (s.nopen idx - 1) } = some t) : Drops s t := by
  have hdown : Drops s { s with nopen := update s.nopen idx (s.nopen idx - 1) } := by
    refine ⟨le_rfl, fun _ => Or.inl rfl, fun _ => rfl, fun i => ?_, rfl⟩
    show update s.nopen idx _ i ≤ _
    rcases eq_or_ne i idx with rfl | hi
    · rw [update_self]
      exact Nat.sub_le _ _
    · rw [update_of_ne hi]
  refine foldlM_keeps (I := Drops s) (fun u hu m _ u' hu' => ?_) hdown h
  split at hu'
  · exact hu.trans (hf _ _ _ (Option.filter_eq_some_iff.mp hu').1)
  · cases hu'
    exact hu

theorem fcbDel_drops {fuel idx : Nat} {s s' : FileState} (h : fcbDel fuel s idx = some s') : Drops s s' := by
  induction fuel generalizing s s' idx with
  | zero => cases h
  | succ n ih =>
    unfold fcbDel at h
    split at h
    · cases h
      exact Drops.refl s
    · dsimp only at h
      split at h
      · obtain ⟨t, ht, rfl⟩ := Option.map_eq_some_iff.mp h
        exact (members_drops (fun _ _ _ => ih) ht).trans (dropFcb_drops t idx)
      · cases h
        exact members_drops (f := fun _ _ => none) (g := fun _ => true) (l := []) nofun rfl

/-! ## what flushing keeps -/

/-- only write buffers are changed -/
structure KeepsFiles (fs fs' : FcbState) : Prop where
  nfcb : fs'.nfcb = fs.nfcb
  fcb : ∀ i, ∃ l, fs'.fcb i = { fs.fcb i with buf := l }

theorem KeepsFiles.of_eq {fs fs' : FcbState} (h1 : fs'.nfcb = fs.nfcb) (h2 : fs'.fcb = fs.fcb) : KeepsFiles fs fs' :=
  ⟨h1, fun i => ⟨(fs.fcb i).buf, by rw [h2]⟩⟩

theorem KeepsFiles.setBuf {fs fs' : FcbState} (h : KeepsFiles fs fs') (idx : Nat) (l : List WriteBuf) :
    KeepsFiles fs (fs'.setBuf idx l) := by
  refine ⟨h.nfcb, fun i => ?_⟩
  obtain ⟨l', hl'⟩ := h.fcb i
  rcases eq_or_ne i idx with rfl | hi
  · refine ⟨l, ?_⟩
    show update fs'.fcb i _ i = _
    rw [update_self, hl']
  · refine ⟨l', ?_⟩
    show update fs'.fcb idx _ i = _
    rw [update_of_ne hi, hl']

section
variable {fs fs' : FcbState} {tc tc' : TaskCtx} {idx : Nat} {r : Bool}

theorem flushRead_keeps (fs : FcbState) (f : Fcb) (o bs : Nat) :
    (flushRead fs f o bs).1.nfcb = fs.nfcb ∧ (flushRead fs f o bs).1.fcb = fs.fcb := by
  unfold flushRead
  split
  · exact ⟨rfl, rfl⟩
  · split
    · exact ⟨rfl, rfl⟩
    · split <;> exact ⟨rfl, rfl⟩

def Flushed.Keeps (fs : FcbState) : Flushed → Prop
  | .fault => True
  | .again fs' _ => fs'.nfcb = fs.nfcb ∧ fs'.fcb = fs.fcb
  | .done fs' => fs'.nfcb = fs.nfcb ∧ fs'.fcb = fs.fcb

theorem flushTail_keeps (fs : FcbState) (f : Fcb) (bs : Nat) (w : WriteBuf) : (flushTail fs f bs w).Keeps fs := by
  unfold flushTail
  dsimp only
  split
  · split
    · exact trivial
    · split <;> exact ⟨rfl, rfl⟩
  · have hk := flushRead_keeps fs f (w.offs + w.size - w.size % bs) bs
    split
    · next fs' he =>
      rw [he] at hk
      exact hk
    · next fs' blk he =>
      rw [he] at hk
      split
      · exact trivial
      · split <;> exact hk

theorem flushBuf_keeps (fs : FcbState) (f : Fcb) (bs : Nat) (w : WriteBuf) : (flushBuf fs f bs w).Keeps fs := by
  unfold flushBuf
  split
  · exact flushTail_keeps fs f bs w
  · have hk := flushRead_keeps fs f w.offs bs
    split
    · next fs' he =>
      rw [he] at hk
      exact hk
    · next fs' blk he =>
      rw [he] at hk
      dsimp only at hk
      split
      · exact trivial
      · next w' _ =>
        have ht := flushTail_keeps fs' f bs w'
        cases hf : flushTail fs' f bs w' with
        | fault => exact trivial
        | again u v =>
          rw [hf] at ht
          exact ⟨ht.1.trans hk.1, ht.2.trans hk.2⟩
        | done u =>
          rw [hf] at ht
          exact ⟨ht.1.trans hk.1, ht.2.trans hk.2⟩

theorem flushLoop_keeps (h : flushLoop fs tc idx = some (fs', tc', r)) :
    KeepsFiles fs fs' ∧ tc'.openfiles = tc.openfiles := by
  cases hb : (fs.fcb idx).buf with
  | nil =>
    rw [flushLoop_nil tc hb] at h
    cases h
    exact ⟨KeepsFiles.of_eq rfl rfl, rfl⟩
  | cons w ws =>
    rw [flushLoop_cons tc hb] at h
    have hk := flushBuf_keeps fs (fs.fcb idx) (fs.fcb (fs.fcb idx).storage).blksize w
    cases hf : flushBuf fs (fs.fcb idx) (fs.fcb (fs.fcb idx).storage).blksize w with
    | fault =>
      rw [hf] at h
      cases h
    | again u v =>
      rw [hf] at h hk
      cases h
      exact ⟨(KeepsFiles.of_eq hk.1 hk.2).setBuf idx _, rfl⟩
    | done u =>
      rw [hf] at h hk
      cases ws with
      | nil =>
        cases h
        have hs := (KeepsFiles.of_eq hk.1 hk.2).setBuf idx []
        exact ⟨⟨hs.nfcb, hs.fcb⟩, rfl⟩
      | cons v ws => cases h

theorem fcbFlush_keeps (h : fcbFlush fs tc idx = some (fs', tc', r)) :
    KeepsFiles fs fs' ∧ tc'.openfiles = tc.openfiles := by
  unfold fcbFlush at h
  split at h
  · cases h
    exact ⟨KeepsFiles.of_eq rfl rfl, rfl⟩
  · split at h
    · dsimp only at h
      split at h
      · cases h
        exact ⟨KeepsFiles.of_eq rfl rfl, rfl⟩
      · obtain ⟨hk, ho⟩ := flushLoop_keeps h
        exact ⟨⟨hk.nfcb, hk.fcb⟩, ho⟩
    · exact flushLoop_keeps h

end

end OsZ
