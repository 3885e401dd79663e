import OsZ.Fsz.Read
import OsZ.Base.Cstr

/-!
# Three ways to find a file by its path

* `fszLocate`  `locate` of the driver (`drivers/fs/fsz/main.c`);
* `fsLocate`   `fs_locate` of the core (`core/fs.c`);
* `mkfsLocate` `locate` of the image tool (`tools/mkfs.c`).

A path is an address in a buffer.  The driver changes the buffer: `..` copies the rest of the path
over the directory name before it, and the joker `...` puts the name that was found in its place.
`pathstack` has the directories that were entered, each with its place in the buffer.
-/

namespace OsZ

def chSlash : UInt8 := 0x2F
def chDot : UInt8 := 0x2E
def chNewline : UInt8 := 0x0A

/-- `PATHEND(a)` -/
def pathEnd (a : UInt8) : Bool := a == 0x3B || a == 0x23 || a == 0

/-! ## the driver -/

/-- `PATHSTACKSIZE` -/
def pathStackSize : Nat := 64

/-- the path buffer, `pathstack` from its top, and `loc->fileblk` -/
structure LocState where
  buf : Nat → UInt8
  stack : List (Nat × Nat)
  fileblk : Option Sector

/-- the statuses; `success` has the fields of `loc` that are set with it -/
inductive LocStatus where
  | success (inode : Nat) (type : FcbType) (filesize : Nat)
  | noblock | notfound | fserror | updir | fileinpath | syminpath | unioninpath | nospace
deriving DecidableEq

/-- status, `loc->path` and what else changed -/
structure LocRes where
  status : LocStatus
  path : Nat
  st : LocState

/-- `pathpush(lsn,path)`; the oldest entry is lost when the stack is full -/
def LocState.pathpush (st : LocState) (lsn path : Nat) : LocState :=
  { st with stack := ((lsn, path) :: st.stack).take pathStackSize }

/-- the address behind the first name of the path, with the slash -/
def nameEnd (pathmax : Nat) (buf : Nat → UInt8) (path : Nat) : Nat :=
  let e := path + spanTo (fun a => a == chSlash || pathEnd a) buf path pathmax
  if buf e = chSlash then e + 1 else e

/-- the first entries of `l` levels of sector directories -/
def sdFirst (v : FszVol) : Nat → Sector → Option Sector
  | 0, blk => some blk
  | l+1, blk => if sdEntry blk 0 0 = 0 then none else (v.readblock (sdEntry blk 0 0)).bind (sdFirst v l)

/-- `switch(l)`: where the entries are; sector lists are not supported and leave the pointer alone -/
def dirBlock (v : FszVol) (inode : Sector) (old : Option Sector) : LocStatus ⊕ Option Sector :=
  let l := inTranslation inode
  if l = 0xFF then .inr (some (inode.from inlinedata))
  else if 0x80 ≤ l ∧ l ≤ 0x83 then .inr old
  else if l = 0x7F then
    match sdFirst v 1 (inode.from inlinedata) with
    | none => .inl .noblock
    | some blk => .inr (some blk)
  else if inSec inode = 0 then .inl .noblock
  else match v.readblock (inSec inode) with
    | none => .inl .noblock
    | some blk =>
      if l = 0 then .inr (some blk)
      else if 8 ≤ l then .inl .fserror
      else match sdFirst v l blk with
        | none => .inl .noblock
        | some blk => .inr (some blk)

inductive DirScan where
  | entry (fid : Nat) (st : LocState)
  | joker (status : LocStatus) (st : LocState)
  | none (st : LocState)

/-- `strcpy(loc->path, name)`, `strcat(loc->path, c)` with `c` the string that was at `e` -/
def putName (buf : Nat → UInt8) (path : Nat) (dir : Sector) (k e pathmax : Nat) : Nat → UInt8 := fun i =>
  let n := spanTo (fun a => a == 0) dir (entName k) pathmax
  let c := spanTo (fun a => a == 0) buf e pathmax
  if path ≤ i ∧ i < path + n then dir (entName k + (i - path))
  else if path + n ≤ i ∧ i ≤ path + n + c then buf (e + (i - (path + n)))
  else buf i

/-- `e-loc->path>=3` and three dots -/
def isJoker (buf : Nat → UInt8) (path e : Nat) : Bool :=
  decide (3 ≤ e - path ∧ buf path = chDot ∧ buf (path + 1) = chDot ∧ buf (path + 2) = chDot)

/-- the loop over `i` entries from entry `k` on; `inner` is the call of `locate` for a joker, which may
change the path that the next entry is compared with -/
def dirScan (inner : Nat → LocState → Option LocRes) (dir : Sector) (pathmax path e : Nat) :
    Nat → Nat → LocState → Option DirScan
  | 0, _, st => some (.none st)
  | i+1, k, st =>
    if dir (entName k) = 0 then some (.none st)
    else if isJoker st.buf path e then
      if dir (entName k + spanTo (fun a => a == 0) dir (entName k) pathmax - 1) = chSlash then
        match inner (entFid dir k) { st with fileblk := none } with
        | none => none
        | some r => match r.status with
          | .success _ _ _ => some (.joker r.status { r.st with buf := putName r.st.buf path dir k e pathmax })
          | _ => dirScan inner dir pathmax path e i (k + 1) { r.st with fileblk := st.fileblk }
      else dirScan inner dir pathmax path e i (k + 1) st
    else if memEq dir (entName k) st.buf path (e - path) then some (.entry (entFid dir k) st)
    else dirScan inner dir pathmax path e i (k + 1) st

/-- the file type of an inode, for `loc->type` -/
def locType (inode : Sector) : FcbType :=
  if inFiletype inode = typeDir then .regDir
  else if inFiletype inode = typeUnion then .union
  else .regFile

/-- `creat` and no entry: `allocateblock(fd)` decides about the status -/
def notFound (creat spare : Bool) : LocStatus := if creat && !spare then .nospace else .notfound

/-- from the label `nextdir` on, with `lsn` not yet tested; `spare` says that `allocateblock` finds
a block, and `none` is a path with more than `fuel` steps, a copy that does not end, or a pointer NULL
that is used -/
def locateFrom (v : FszVol) (pathmax root : Nat) (spare : Bool) :
    Nat → Bool → Nat → Nat → LocState → Option LocRes
  | 0, _, _, _, _ => none
  | fuel+1, creat, lsn, path, st =>
    let e := nameEnd pathmax st.buf path
    if 2 ≤ e - path ∧ st.buf path = chDot ∧ st.buf (path + 1) = chDot ∧ st.buf (path + 2) ≠ chDot then
      match st.stack with
      | [] => some ⟨.updir, path, st⟩
      | (inode, p) :: stack =>
        let n := spanTo (fun a => a == 0) st.buf e pathmax
        -- behind a joker: `strcpy` writes over the 0 at the end of the path before it reads it
        if e < p ∧ p ≤ e + n then none
        else locateFrom v pathmax root spare fuel creat inode p { st with buf := strcpy st.buf p e n, stack := stack }
    else if lsn = 0 then some ⟨.noblock, path, st⟩
    else match v.readblock lsn with
    | none => some ⟨.noblock, path, st⟩
    | some inode =>
      if bytesAt inode 0 4 ≠ inMagic then some ⟨.fserror, path, st⟩
      else if inFiletype inode = typeSymlink then
        some ⟨.syminpath, path, { st with fileblk := some (inode.from inlinedata) }⟩
      else if pathEnd (st.buf path) then
        some ⟨.success lsn (locType inode) (inSize inode), path, st⟩
      else if inFiletype inode = typeUnion then
        some ⟨.unioninpath, path, { st with fileblk := some (inode.from inlinedata) }⟩
      else match dirBlock v inode st.fileblk with
      | .inl status => some ⟨status, path, st⟩
      | .inr fileblk =>
        if inFiletype inode = typeApp then some ⟨.fileinpath, path, { st with fileblk := fileblk }⟩
        else if inFiletype inode = typeDir then
          match fileblk with
          | none => none
          | some dir =>
            if bytesAt dir 0 4 ≠ dirMagic then some ⟨.fserror, path, { st with fileblk := fileblk }⟩
            else
              let inner fid st := locateFrom v pathmax root spare fuel false
                (if fid = 0 then root else fid) e st
              match dirScan inner dir pathmax path e (numentries dir) 0 { st with fileblk := fileblk } with
              | none => none
              | some (.entry fid st) => locateFrom v pathmax root spare fuel creat fid e (st.pathpush lsn path)
              | some (.joker status st) => some ⟨status, path, st⟩
              | some (.none st) => some ⟨notFound creat spare, path, st⟩
        else some ⟨notFound creat spare, path, { st with fileblk := fileblk }⟩

/-- `locate(fd,parent,loc)`; the storage has a path -/
def fszLocate (v : FszVol) (pathmax : Nat) (spare : Bool) (fuel parent : Nat) (creat : Bool) (path : Nat)
    (st : LocState) : Option LocRes :=
  if v.fd = minus1 ∨ v.nfcb ≤ v.fd then some ⟨.notfound, path, st⟩
  else match v.readblock 0 with
    | none => some ⟨.noblock, path, st⟩
    | some sb => locateFrom v pathmax (rootdirfid sb) spare fuel creat
        (if parent = 0 then rootdirfid sb else parent) path st

/-- an inode number that is kept in an `int` and used as a 64-bit number again -/
def intFid (fid : Nat) : Nat := u64 (i32 fid)

/-! ## the core -/

/-- what `fs_locate` returns: NULL, `kpanic`, or the address of a byte of a sector -/
inductive CorePtr where
  | null | panic
  | data (sector offs : Nat)
deriving DecidableEq

/-- the variable `i`, `fs_size` and the pointer -/
structure CoreRes where
  i : Nat
  size : Nat
  ptr : CorePtr
deriving DecidableEq

/-- `while(j-->0)` with an `int j`: the index of the entry; `n` is not less than `j` -/
def coreScan (dir : Sector) (fn : Nat → UInt8) (s len : Nat) : Nat → Int → Nat → Option Nat
  | 0, _, _ => none
  | n+1, j, k =>
    if j ≤ 0 then none
    else if strnEq dir (entName k) fn s len then some k
    else coreScan dir fn s len n (j - 1) (k + 1)

/-- the entries of a directory, in the inode or in a sector of their own -/
def coreDir (D : Disk) (lsn : Nat) : Option Sector :=
  if bytesAt (D lsn) inlinedata 4 = dirMagic then some ((D lsn).from inlinedata)
  else if bytesAt (D (inSec (D lsn))) 0 4 = dirMagic then some (D (inSec (D lsn)))
  else none

/-- from the label `again` on, with the inode in sector `lsn`: the value of `i`, or a return of NULL;
`kmemcmp` ends at a common 0 like `strncmp`, and `i` is an `int` -/
def coreWalk (D : Disk) (fn : Nat → UInt8) (pathmax : Nat) : Nat → Nat → Nat → Option Nat
  | 0, _, _ => none
  | fuel+1, lsn, s =>
    let e0 := s + spanTo (fun a => a == chSlash || a == 0 || a == chNewline) fn s pathmax
    let e := if fn e0 = chSlash then e0 + 1 else e0
    if bytesAt (D lsn) 0 4 ≠ inMagic then some 0
    else match coreDir D lsn with
      | none => none
      | some dir => match coreScan dir fn s (e - s) (numentries dir) (i32 (numentries dir)) 0 with
        | none => some 0
        | some k =>
          if fn e = 0 ∨ fn e = chNewline then some (intFid (entFid dir k))
          else coreWalk D fn pathmax fuel (entFid dir k) e

/-- `switch(FSZ_FLAG_TRANSLATION(in->flags))` -/
def coreData (D : Disk) (i : Nat) : CorePtr :=
  let inode := D i
  let l := inTranslation inode
  if l = 0xFF then .data i inlinedata
  else if l = 0x80 ∨ l = 0x7F then .data (sdEntry inode inlinedata 0) 0
  else if l = 0 then .data (inSec inode) 0
  else if l = 0x81 ∨ l = 1 then .data (sdEntry (D (inSec inode)) 0 0 % 2^32) 0
  else .panic

/-- `fs_locate(fn)` on an initrd with the FS/Z magic; sector `n` of the disk is at
`bootboot.initrd_ptr+n*ss` -/
def fsLocate (D : Disk) (fn : Nat → UInt8) (pathmax fuel : Nat) : CoreRes :=
  match coreWalk D fn pathmax fuel (rootdirfid (D 0)) 0 with
  | none => ⟨0, 0, .null⟩
  | some i =>
    if i = 0 then ⟨i, 0, .null⟩
    else if bytesAt (D i) 0 4 ≠ inMagic then ⟨i, 0, .null⟩
    else ⟨i, inSize (D i), coreData D i⟩

/-! ## the image tool -/

inductive MkfsScan where
  | whole (k : Nat)
  | dir (k : Nat)
  | none

/-- `while(ent->fid!=0 && cnt<((secsize-1024)/128-1))`: an entry that `strncmp` finds equal, or a
directory with the last name of the path -/
def mkfsScan (dir : Sector) (fn : Nat → UInt8) (s ns : Nat) : Nat → Nat → MkfsScan
  | 0, _ => .none
  | n+1, k =>
    if entFid dir k = 0 then .none
    else if strnEq dir (entName k) fn s (ns + 1) then .whole k
    else if strnEq dir (entName k) fn s ns && fn (s + ns) == 0 && dir (entName k + ns) == chSlash then .dir k
    else mkfsScan dir fn s ns n (k + 1)

/-- `locate(data,inode,path)`: the sector of the inode, 0 for NULL; the argument `inode` is an `int`,
and its product with `secsize` is one of 32 bits -/
def mkfsLocate (D : Disk) (secsize : Nat) (fn : Nat → UInt8) (pathmax : Nat) : Nat → Nat → Nat → Option Nat
  | 0, _, _ => none
  | fuel+1, inode, path =>
    let dir := (D (if inode = 0 then rootdirfid (D 0) else inode)).from 1024
    if fn path = 0 then some (inode * secsize % 2^32 / secsize)
    else
      let s := if fn path = chSlash then path + 1 else path
      if fn path = chSlash ∧ fn s = 0 then some (rootdirfid (D 0))
      else
        let ns := spanTo (fun a => a == chSlash || a == 0) fn s pathmax
        match mkfsScan dir fn s ns ((secsize - 1024) / 128 - 1) 0 with
        | .whole k =>
          if fn (s + ns) = 0 then some (entFid dir k)
          else mkfsLocate D secsize fn pathmax fuel (intFid (entFid dir k)) (s + ns + 1)
        | .dir k => some (entFid dir k)
        | .none => some 0

end OsZ
