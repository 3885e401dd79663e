import OsZ.Base.Word
import OsZ.Base.Table

/-!
# Reading a file in the file system task (`fs/taskctx.c`)

`taskctx_read` copies blocks of a file to its caller.  A block may be missing from the block cache;
then `ackdelayed` is set, the message is suspended, and the same call is made again when the block
is there.  What is done so far is kept in `workoffs` and `workleft` of the task context;
`workleft` is a `size_t`, and `(size_t)-1` says that no work is suspended.

* `Reply`, `ReadFn`  what a file system driver answers;
* `readLoop`         the loop over blocks;
* `taskctxRead`      `taskctx_read(tc,idx,ptr,size)`;
* `readSession`      the calls for one message, until one ends without `ackdelayed`.

A pointer to data is the function of its bytes.  Allocations succeed, `tc` is not NULL, and the
union in `fcb_t` is a record of all the fields used.  Addresses and file offsets of the write
buffers are natural numbers.  `none` is a call that does not return within the given rounds.
-/

namespace OsZ

/-- `(size_t)-1` -/
def minus1 : Nat := 2^64 - 1

/-- `writebuf_t` -/
structure WriteBuf where
  offs : Nat
  size : Nat
  data : Nat → UInt8

/-- `FCB_TYPE_*` -/
inductive FcbType where
  | regFile | regDir | union | device | pipe | socket
deriving DecidableEq

/-- `fcb_t`; `blksize` is used through `device.blksize` of the storage -/
structure Fcb where
  abspath : Option String
  type : FcbType
  fs : Nat
  mode : Nat
  storage : Nat
  inode : Nat
  blksize : Nat
  buf : List WriteBuf
  unionlist : List Nat

/-- `openfiles_t` -/
structure OpenFile where
  fid : Nat
  mode : Nat
  offs : Nat
  unionidx : Nat

/-- `taskctx_t`; no open files is `openfiles==NULL` -/
structure TaskCtx where
  workoffs : Nat
  workleft : Nat
  openfiles : List OpenFile

/-- answer of a driver's `read`: the block is not in the cache (`ackdelayed` is set), or a pointer
(`none` is NULL, a hole in the file) and the number of bytes there -/
inductive Reply where
  | miss
  | data (blk : Option (Nat → UInt8)) (s : Nat)

/-- `read(fd,file,offs,&s)`; the first argument counts the calls, since the same question has
another answer when the block was loaded meanwhile -/
def ReadFn : Type := Nat → Nat → Nat → Nat → Nat → Reply

inductive Errno where
  | EBADF | EACCES | EBUSY | EFAULT | EROFS | EINVAL | ENODEV | EPERM | ENOENT | ENOTDIR | ESPIPE | ENOTSHM
deriving DecidableEq

/-- the globals of the task, and the memory of the caller -/
structure FsState where
  fcb : Nat → Fcb
  fsdrv : List (Option ReadFn)
  devfsidx : Nat
  ndev : Nat
  /-- `fsck.dev`, the device that is locked by a file system check -/
  fsckdev : Nat
  ackdelayed : Bool
  errno : Option Errno
  mem : Table UInt8
  calls : Nat

/-- `O_READ` -/
def oRead (mode : Nat) : Bool := mode.testBit 0

/-- `OF_MODE_READDIR` -/
def ofModeReaddir (mode : Nat) : Bool := mode.testBit 15

def taskctxValidfid (fs : FsState) (tc : TaskCtx) (idx : Nat) : Bool :=
  match tc.openfiles[idx]? with
  | none => false
  | some fd => decide (fd.fid ≠ minus1) && (fs.fcb fd.fid).abspath.isSome

/-! ## the loop -/

/-- the bytes `o .. e-1` are all in the write buffer -/
def WriteBuf.covers (w : WriteBuf) (o e : Nat) : Bool :=
  decide (w.offs ≤ o) && decide (e ≤ w.offs + w.size)

/-- "Merging with write buf": the first buffer that overlaps one end of the block is enlarged by
the rest of the block, which is then read from the buffer -/
def mergeBuf (o e : Nat) (blk : Nat → UInt8) : List WriteBuf → List WriteBuf × (Nat → UInt8)
  | [] => ([], blk)
  | w :: ws =>
    let we := w.offs + w.size
    if o < w.offs ∧ w.offs < e ∧ e ≤ we then
      let p := fun i => if i < w.offs - o then blk i else w.data (i - (w.offs - o))
      (⟨o, we - o, p⟩ :: ws, p)
    else if w.offs < o ∧ o < we ∧ we < e then
      let d := fun i => if i < w.size then w.data i else blk (we - o + (i - w.size))
      (⟨w.offs, e - w.offs, d⟩ :: ws, fun i => d (o - w.offs + i))
    else
      let r := mergeBuf o e blk ws
      (w :: r.1, r.2)

/-- what the loop of `taskctx_read` changes -/
structure ReadState where
  workleft : Nat
  workoffs : Nat
  ret : Nat
  bufs : List WriteBuf
  mem : Table UInt8
  calls : Nat
  ackdelayed : Bool

/-- "failsafe, get number of bytes read" and the copy to the caller; `memcpy` for shared memory and
`p2pcpy` for the address space of the caller copy the same bytes -/
def copyOut (ptr : Nat) (blk : Nat → UInt8) (bs : Nat) (s : ReadState) : ReadState :=
  if s.workleft ≤ bs then
    { s with ret := w64 (s.workoffs + s.workleft), mem := s.mem.copy (ptr + s.workoffs) blk s.workleft,
             workoffs := w64 (s.workoffs + s.workleft), workleft := minus1 }
  else
    { s with mem := s.mem.copy (ptr + s.workoffs) blk bs, workoffs := w64 (s.workoffs + bs),
             workleft := s.workleft - bs }

section
variable (read : ReadFn) (storage inode blksize offs ptr : Nat)

/-- `while(tc->workleft>0)` -/
def readLoop : Nat → ReadState → Option ReadState
  | 0, _ => none
  | n+1, s =>
    if s.workleft = 0 then some s
    else
      let o := w64 (offs + s.workoffs)
      let e := w64 (o + blksize)
      match s.bufs.find? (fun w => w.covers o e) with
      | some w => readLoop n (copyOut ptr (fun i => w.data (o - w.offs + i)) blksize s)
      | none =>
        match read s.calls storage inode o blksize with
        | .miss => some { s with calls := s.calls + 1, ackdelayed := true }
        | .data blk bs =>
          if s.ackdelayed then some { s with calls := s.calls + 1 }
          else if bs = 0 then
            some { s with calls := s.calls + 1, ret := s.workoffs, workleft := minus1 }
          else
            -- a NULL block is a hole: the zero block
            let m := mergeBuf o e (blk.getD (fun _ => 0)) s.bufs
            readLoop n (copyOut ptr m.2 bs { s with calls := s.calls + 1, bufs := m.1 })

end

/-! ## the call -/

def fsError (fs : FsState) (tc : TaskCtx) (e : Errno) : Option (FsState × TaskCtx × Nat) :=
  some ({ fs with errno := some e }, tc, 0)

/-- the part of `taskctx_read` from the driver check on, for the file `fid` -/
def readBlocks (fuel : Nat) (fs : FsState) (tc : TaskCtx) (idx : Nat) (fd : OpenFile) (fid ptr size : Nat) :
    Option (FsState × TaskCtx × Nat) :=
  let f := fs.fcb fid
  match fs.fsdrv[f.fs]? with
  | none | some none => fsError fs tc .EACCES
  | some (some read) =>
    -- served from the write buffers entirely
    match if tc.workleft = minus1 then f.buf.find? (fun w => w.covers fd.offs (w64 (fd.offs + size)))
        else none with
    | some w =>
      some ({ fs with mem := fs.mem.copy ptr (fun i => w.data (fd.offs - w.offs + i)) size }, tc, size)
    | none =>
      let tc := if tc.workleft = minus1 then { tc with workleft := size, workoffs := 0 } else tc
      match readLoop read f.storage f.inode (fs.fcb f.storage).blksize fd.offs ptr fuel
          ⟨tc.workleft, tc.workoffs, 0, f.buf, fs.mem, fs.calls, fs.ackdelayed⟩ with
      | none => none
      | some s =>
        -- the offset is altered when the loop ends, also when the loop was left by a miss
        let fd' := if ofModeReaddir fd.mode then fd else { fd with offs := w64 (fd.offs + s.ret) }
        some ({ fs with fcb := Function.update fs.fcb fid { f with buf := s.bufs }, mem := s.mem,
                        calls := s.calls, ackdelayed := s.ackdelayed },
          { tc with workleft := s.workleft, workoffs := s.workoffs,
                    openfiles := tc.openfiles.set idx fd' }, s.ret)

def taskctxRead (fuel : Nat) (fs : FsState) (tc : TaskCtx) (idx ptr size : Nat) :
    Option (FsState × TaskCtx × Nat) :=
  match tc.openfiles[idx]? with
  | none => fsError fs tc .EBADF
  | some fd =>
    let f := fs.fcb fd.fid
    if taskctxValidfid fs tc idx = false then fsError fs tc .EBADF
    else if f.fs = fs.devfsidx ∧ ofModeReaddir fd.mode = true then
      some (fs, tc, if fd.offs < fs.ndev then 1 else 0)
    else if oRead f.mode = false then fsError fs tc .EACCES
    else if f.type = .pipe ∨ f.type = .socket then some (fs, tc, 0)
    else if f.storage ≠ minus1 ∧ fs.fsckdev = f.storage then fsError fs tc .EBUSY
    else if f.type = .union ∧ ofModeReaddir fd.mode = true then
      if f.unionlist.getD fd.unionidx 0 = 0 then some (fs, tc, 0)
      else readBlocks fuel fs tc idx fd (f.unionlist.getD fd.unionidx 0) ptr size
    else readBlocks fuel fs tc idx fd fd.fid ptr size

/-- `seterr(SUCCESS)` and `ackdelayed = nomem` before a message is served -/
def FsState.clear (fs : FsState) (nomem : Bool) : FsState :=
  { fs with errno := none, ackdelayed := nomem }

/-- the calls for one message: a message that was delayed is served again.
The inner `none` says that the last call of the list was still delayed. -/
def readSession (fuel idx ptr size : Nat) :
    List Bool → FsState → TaskCtx → Option (Option (FsState × TaskCtx × Nat))
  | [], _, _ => some none
  | nomem :: rest, fs, tc =>
    match taskctxRead fuel (fs.clear nomem) tc idx ptr size with
    | none => none
    | some r =>
      if r.1.ackdelayed then readSession fuel idx ptr size rest r.1 r.2.1 else some (some r)

end OsZ
