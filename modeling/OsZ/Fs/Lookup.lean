import OsZ.Base.Recurse
import OsZ.Fs.Path

/-!
# The lookup of a path (`lookup` in `fs/vfs.c`, `fs/mtab.c`)

* `fcbGet`, `fcbAdd`   the cache of paths;
* `mtabAdd`            `mtab_add(dev,file,opts)`;
* `mountScan`          the longest mount point that is a prefix of the path;
* `lookupPass`         `lookup` up to the call of the driver's `locate`;
* `lookup`             with what follows: symbolic links start again, and the members of a union are
                       looked up one after the other.

A path is a list of bytes; the driver gets its address in a buffer that ends with 0.  Memory is always
there, and all blocks are in the cache, so no request is put off.  `fid_t` and `fs` are `none` for -1.
The path that a symbolic link leads to is freed before it is read, so what is read is up to the memory.
-/

namespace OsZ

inductive LookErr where
  | EINVAL | ENOENT | ENODEV | ENOFS | EAGAIN | EBADFS | EISUNI | ENOSPC | ENOTDIR
deriving DecidableEq

/-- the fields of an `fcb_t` that a lookup reads or sets -/
structure PathFcb where
  abspath : Option (List UInt8)
  type : FcbType
  nopen : Nat
  fs : Option Nat
  mode : Nat
  storage : Nat
  inode : Nat
  filesize : Nat
deriving DecidableEq

/-- `mtab_t` -/
structure Mount where
  mountpoint : Nat
  storage : Nat
  fstype : Option Nat
deriving DecidableEq

structure LookState where
  fcb : List PathFcb
  mtab : List Mount
  rootmounted : Bool
deriving DecidableEq

def rootFcb : Nat := 0
def devFcb : Nat := 1
def rootMtab : Nat := 0

/-- the task, the drivers and the devices -/
structure LookEnv where
  canon : CanonEnv
  pathmax : Nat
  /-- `fsdrv_detect(fd)` -/
  detect : Nat → Option Nat
  /-- `fsdrv[fs].locate!=NULL` -/
  hasLocate : Nat → Bool
  /-- `fsck.dev` -/
  fsckdev : Nat
  /-- behind the 0 of the path `/dev/` a slash comes before the next end of a path -/
  junk : Bool
  /-- what is read of a path that was freed -/
  freed : List UInt8 → List UInt8
  /-- the device can be resized: it is the initrd, the driver has `resizefs`, and `mmap` succeeds -/
  grow : Nat → Nat → Bool

/-! ## the cache of paths -/

/-- `fcb_get(abspath)` -/
def fcbGet (fcb : List PathFcb) (abspath : List UInt8) : Option Nat :=
  if abspath = [] then none
  else fcb.findIdx? fun f => f.abspath == some abspath ||
    (abspath.getLast? != some chSlash && f.abspath == some (abspath ++ [chSlash]))

def newFcb (old : PathFcb) (abspath : List UInt8) (type : FcbType) : PathFcb :=
  { old with
    abspath := some abspath
    type := type
    fs := if type = .pipe ∨ type = .socket then old.fs else none }

/-- the memory behind the table -/
def blankFcb : PathFcb := ⟨none, .regFile, 0, none, 0, 0, 0, 0⟩

/-- `fcb_add(abspath,type)` -/
def fcbAdd (fcb : List PathFcb) (abspath : List UInt8) (type : FcbType) : List PathFcb × Nat :=
  match fcb.findIdx? (fun f => f.abspath == some abspath) with
  | some i => (fcb, i)
  | none =>
    match fcb.findIdx? (fun f => f.abspath == none) with
    | some j => (fcb.modify j (newFcb · abspath type), j)
    | none => (fcb ++ [newFcb blankFcb abspath type], fcb.length)

/-! ## mounts -/

def mountPath (fcb : List PathFcb) (m : Mount) : List UInt8 := ((fcb[m.mountpoint]?).bind (·.abspath)).getD []

/-- `for(i=0;i<nmtab;i++)`: the index and the length of the longest match so far -/
def mountScan (fcb : List PathFcb) (abspath : List UInt8) : List Mount → Nat → Nat × Nat → Nat × Nat
  | [], _, kl => kl
  | m :: ms, i, (k, l) =>
    let j := mountPath fcb m
    mountScan fcb abspath ms (i + 1) (if l < j.length ∧ j.isPrefixOf abspath then (i, j.length) else (k, l))

/-- may a file system be on it -/
def isStorage (fcb : List PathFcb) (fd : Nat) : Bool :=
  match fcb[fd]? with
  | some f => f.type == .device || f.type == .regFile
  | none => false

section
variable (env : LookEnv)

/-- `mtab_add` without the mount of `/dev` that follows the first one of `/`; `none` is `exit(1)` -/
def mtabAddOne (st : LookState) (dev file : List UInt8) : Option (LookState × Option LookErr × Option Nat) :=
  if dev = [] ∨ file = [] then some (st, some .EINVAL, none)
  else match fcbGet st.fcb dev with
  | none => some (st, some .ENODEV, none)
  | some fd =>
    if fd ≠ devFcb ∧ isStorage st.fcb fd = false then some (st, some .ENODEV, none)
    else match fcbGet st.fcb file with
    | none => some (st, some .ENOTDIR, none)
    | some ff =>
      if (st.fcb[ff]?).map (·.type) ≠ some .regDir then some (st, some .ENOTDIR, none)
      else if (fd = ff ∧ st.rootmounted) ∨ (ff ≠ rootFcb ∧ st.mtab = []) then some (st, some .EINVAL, none)
      else match env.detect fd with
      | none => if st.rootmounted = false ∨ st.mtab = [] then none else some (st, some .ENOFS, none)
      | some fs =>
        let mode := ((st.fcb[fd]?).map (·.mode)).getD 0
        let mounted (fcb : List PathFcb) : List PathFcb :=
          (fcb.modify ff fun f => { f with
            fs := some fs
            mode := if ff = devFcb then 1 else mode
            storage := if ff = devFcb then f.storage else fd }).modify fd fun f => { f with nopen := f.nopen + 1 }
        match st.mtab.findIdx? (·.mountpoint = ff) with
        | some i =>
          let old := ((st.mtab[i]?).map (·.storage)).getD 0
          some ({ st with
            fcb := mounted (st.fcb.modify old fun f => { f with nopen := sub64 f.nopen 1 })
            mtab := st.mtab.set i ⟨ff, fd, some fs⟩ }, none, some ff)
        | none =>
          some ({ st with
            fcb := mounted (st.fcb.modify ff fun f => { f with nopen := f.nopen + 1 })
            mtab := st.mtab ++ [⟨ff, fd, some fs⟩] }, none, some ff)

/-- `mtab_add(dev,file,opts)`; the entry 0 of the cache is `/`, so the inner call does not mount the root -/
def mtabAdd (st : LookState) (dev file : List UInt8) : Option LookState :=
  match mtabAddOne env st dev file with
  | none => none
  | some (st, _, ff) =>
    if ff = some rootFcb ∧ st.rootmounted = false then
      (mtabAddOne env st devPath devPath).map fun r => { r.1 with rootmounted := true }
    else some st

/-! ## up to the driver -/

/-- what `lookup` does with a path: an entry of the cache, an error, or the call of `locate` of `fs` on
`fd` with the part of the path from `l` on; `k` is the mount -/
inductive Pass where
  | cached (f : Nat)
  | failed (err : LookErr)
  | call (f : Option Nat) (k fs fd : Nat) (abspath : List UInt8) (l : Nat)
deriving DecidableEq

/-- three dots that start before the last three bytes -/
def hasJoker (abspath : List UInt8) : Bool :=
  decide (4 < abspath.length) && (List.range (abspath.length - 3)).any fun i =>
    (abspath.drop i).take 3 == [chDot, chDot, chDot]

/-- `memcmp(abspath, DEVPATH, sizeof(DEVPATH))` with the 0 behind `DEVPATH` -/
def isDevPath (abspath : List UInt8) : Bool := abspath == devPath

/-- the mount was found: storage, file system and the rest of the path -/
def passDriver (st : LookState) (f : Option Nat) (k : Nat) (fd fs : Option Nat) (abspath : List UInt8) (l : Nat) :
    Pass × LookState :=
  match fd with
  | none => (.failed .ENODEV, st)
  | some fd =>
    if isStorage st.fcb fd = false then (.failed .ENODEV, st)
    else
      let fs' := if fs = none then env.detect fd else fs
      let st := if fs = none ∧ k ≠ rootMtab ∧ fs' ≠ none then
        { st with mtab := st.mtab.modify k fun m => { m with fstype := fs' } } else st
      match fs' with
      | none => (.failed .ENOFS, st)
      | some fs =>
        if env.hasLocate fs = false then (.failed .ENOFS, st)
        else if env.fsckdev = fd then (.failed .EAGAIN, st)
        else (.call f k fs fd abspath l, st)

/-- the path is not in the cache -/
def passMount (st : LookState) (f : Option Nat) (abspath : List UInt8) : Pass × LookState :=
  let kl := mountScan st.fcb abspath st.mtab 0 (0, 0)
  let m := st.mtab[kl.1]?
  if kl.1 = rootMtab ∧ isDevPath abspath ∧ env.junk then
    passDriver env st f kl.1 (fcbGet st.fcb abspath) none abspath (devPath.length + 2)
  else passDriver env st f kl.1 (m.map (·.storage)) (m.bind (·.fstype)) abspath kl.2

/-- `lookup(path,creat)` up to the call of the driver -/
def lookupPass (st : LookState) (path : List UInt8) (creat : Bool) : Pass × LookState :=
  if path = [] then (.failed .EINVAL, st)
  else match canonize env.canon path with
  | none => (.failed .ENOENT, st)
  | some abspath =>
    if creat ∧ hasJoker abspath then (.failed .ENOENT, st)
    else match fcbGet st.fcb abspath with
    | none => passMount env st none abspath
    | some f =>
      if f = rootFcb ∧ (st.fcb[f]?).map (·.inode) = some 0 then passMount env st (some f) abspath
      else (.cached f, st)

end

/-! ## behind the driver -/

/-- `fsdrv[fs].locate`: a limit, the driver, the device, whether it was resized, `creat`, the path, and
where the driver's part of it begins -/
def Locator : Type := Nat → Nat → Nat → Bool → Bool → List UInt8 → Nat → Option LocRes

/-- the state, `errno()`, `re!=0`, `path`, and whether it was freed -/
structure Look where
  st : LookState
  err : Option LookErr
  retried : Bool
  path : List UInt8
  stale : Bool

/-- the state and the result of `lookup` -/
def Found : Type := LookState × Except LookErr Nat

/-- `return f`, after the failsafe -/
def lookupEnd (st : LookState) (f : Option Nat) (err : Option LookErr) : Found :=
  (st, match f with
    | some f => .ok f
    | none => .error (err.getD .ENOENT))

/-- `case SUCCESS` -/
def foundFcb (st : LookState) (f : Option Nat) (fs fd : Nat) (abspath : List UInt8) (inode : Nat) (type : FcbType)
    (filesize : Nat) : Found :=
  let abspath := if type = .regDir ∧ abspath ≠ [] ∧ abspath.getLast? ≠ some chSlash then abspath ++ [chSlash]
    else abspath
  let (fcb, f) := match f with
    | some f => (st.fcb, f)
    | none => fcbAdd st.fcb abspath type
  let mode := ((fcb[fd]?).map (·.mode)).getD 0
  ({ st with fcb := fcb.modify f fun e => { e with
      fs := some fs
      mode := if type = .regFile ∨ type = .regDir ∨ type = .union then mode else e.mode
      storage := fd
      inode := inode
      filesize := filesize } }, .ok f)

/-- `while(c>abspath && c[-1]!='/') c--;` -/
def linkDir (abspath : Nat → UInt8) : Nat → Nat
  | 0 => 0
  | c+1 => if abspath c = chSlash then c + 1 else linkDir abspath c

/-- the bytes of a text in an inode that are looked at -/
def textMax : Nat := 4096

/-- the members of a union, `__PAGESIZE-1024` bytes at most -/
def unionMembers (blk : Sector) : Nat → Nat → List (List UInt8)
  | 0, _ => []
  | n+1, c =>
    if blk c = 0 ∨ 3072 ≤ c then []
    else cstr blk c textMax :: unionMembers blk n (c + (cstr blk c textMax).length + 1)

section
variable (env : LookEnv)

/-- `case SYMINPATH`: the link `target` in front of the rest of the path -/
def symlinkPath (abspath : Nat → UInt8) (path : Nat) (target : List UInt8) : Option (List UInt8) :=
  let tmp := if target.head? = some chSlash then canonize env.canon target
    else pathcat env.pathmax ((bytesAt abspath 0 (linkDir abspath (path - 1))).takeWhile (· != 0)) target
  tmp.bind fun tmp => pathcat env.pathmax tmp (cstr abspath path env.pathmax)

/-- `case UNIONINPATH`: the members are looked up until one is found; `creat` is not set -/
def unionLoop (rest : List UInt8) : List (List UInt8) → LookState → Option LookErr → Prog Look Found
  | [], st, err => .ret (lookupEnd st none err)
  | m :: ms, st, err =>
    if m.head? ≠ some chSlash then .ret (lookupEnd st none (some .EBADFS))
    else match (canonize env.canon m).bind fun tmp => pathcat env.pathmax tmp rest with
    | none => .ret (lookupEnd st none err)
    | some path => .call ⟨st, err, false, path, false⟩ fun r => match r.2 with
      | .ok _ => .ret r
      | .error err => unionLoop rest ms r.1 (some err)

variable (creat : Bool)

/-- `switch(status)`; the second search for a block comes to the same directory as the first one, so
`re==loc.inode` then -/
def afterDriver (x : Look) (st : LookState) (f : Option Nat) (fs fd : Nat) (r : LocRes) : Prog Look Found :=
  match r.status with
  | .success inode type filesize =>
    .ret (foundFcb st f fs fd (cstr r.st.buf 0 env.pathmax) inode type filesize)
  | .noblock | .updir | .fileinpath => .ret (lookupEnd st f x.err)
  | .notfound => .ret (lookupEnd st f (some .ENOENT))
  | .fserror => .ret (lookupEnd st f (some .EBADFS))
  | .syminpath =>
    match r.st.fileblk.bind fun blk => symlinkPath env r.st.buf r.path (cstr blk 0 textMax) with
    | none => .ret (lookupEnd st f x.err)
    | some path => .call { x with st := st, path := path, stale := true } .ret
  | .unioninpath =>
    let ms := match r.st.fileblk with
      | some blk => unionMembers blk 3072 0
      | none => []
    if f ≠ none ∨ ms = [] then .ret (lookupEnd st f x.err)
    else if creat then .ret (lookupEnd st f (some .EISUNI))
    else unionLoop env (cstr r.st.buf r.path env.pathmax) ms st x.err
  | .nospace =>
    if x.retried = false ∧ env.grow fs fd then
      .call { x with
        st := { st with fcb := st.fcb.modify fd fun e => { e with filesize := e.filesize + 4096 } }
        retried := true } .ret
    else .ret (lookupEnd st f (some .ENOSPC))

variable (drv : Locator)

/-- one pass of `lookup`, from the label `again` on -/
def lookupBody (n : Nat) (x : Look) : Option (Prog Look Found) :=
  match lookupPass env x.st (if x.stale then env.freed x.path else x.path) creat with
  | (.cached f, st) => some (.ret (st, .ok f))
  | (.failed err, st) => some (.ret (st, .error err))
  | (.call f _ fs fd abspath l, st) =>
    (drv n fs fd x.retried creat abspath l).map (afterDriver env creat x st f fs fd)

/-- `lookup(path,creat)` -/
def lookup : Nat → Look → Option Found := Prog.eval (lookupBody env creat drv)

end

end OsZ
