import OsZ.Base.Crc
import OsZ.Fsz.Read

/-!
# The superblock in the FS/Z driver (`drivers/fs/fsz/main.c`)

* `detectRet`         what `detect` answers for a superblock;
* `fszDetect`         `detect(fd,blk)`;
* `resizefs`          `resizefs(fd)`;
* `fszAllocateblock`  `allocateblock(fd)`, from the place that `allocSource` finds;
* `FszDev.readblock`, `FszDev.writeblock`  the functions of `fs/vfs.c` on a device.

`readblock` returns a pointer into a buffer, in which the driver changes the block (`FszDev.edit`).
On a memory device the buffers are the device (`ram`).  Otherwise they are blocks of the cache: what
is on the device when all of them are flushed is `kept`, and a change in a buffer gets there when the
block is marked dirty, by this or by an earlier `writeblock`.

A pointer is the function of the bytes behind it.  `none` is undefined: a NULL pointer that is used,
or a write behind a buffer.
-/

namespace OsZ
open Function (update update_idem update_self)

/-! ## `FSZ_SuperBlock` -/

/-- `FSZ_MAGIC` -/
def fszMagic : List UInt8 := [0x46, 0x53, 0x2F, 0x5A]

def sbLogsec (sb : Sector) : Nat := leBytes sb 520 2

def sbNumsec (sb : Sector) : Nat := le64 sb 528

def sbFreesec (sb : Sector) : Nat := le64 sb 544

def sbFreesecfid (sb : Sector) : Nat := le64 sb 576

def sbChecksum (sb : Sector) : Nat := leBytes sb 1020 4

/-- the variable `ret` of `detect` -/
def detectRet (sb : Sector) : Bool :=
  decide (bytesAt sb 512 4 = fszMagic) && decide (bytesAt sb 1016 4 = fszMagic) &&
    decide (sbChecksum sb = crc32Calc sb 512 508)

/-- `1<<(sb->logsec+11)`, where the processor takes the count modulo 32 -/
def sbBlksize (sb : Sector) : Nat := 2^((sbLogsec sb + 11) % 32)

/-! ## `FSZ_SectorList` -/

/-- the free sector list is inlined in its inode -/
def slSec (inode : Sector) (k : Nat) : Nat := le64 inode (inlinedata + 32 * k)

def slNumsec (inode : Sector) (k : Nat) : Nat := le64 inode (inlinedata + 32 * k + 16)

/-! ## devices -/

/-- a device with its file system: fields of `fcb[fd]`, the blocks and `lastsec` -/
structure FszDev where
  blksize : Nat
  filesize : Nat
  /-- `fcb[fd].mode & O_WRITE` -/
  mode : Bool
  ram : Bool
  /-- the buffers -/
  cur : Disk
  kept : Disk
  dirty : Nat → Bool
  lastsec : Nat

/-- what a call finds: the blocks that `readblock` has, whether `cache_setblock` gets memory, and where
the buffer of the free sector list is, with the memory around it -/
structure BlkEnv where
  ready : Nat → Bool
  stores : Bool
  addr : Nat
  mem : Nat → UInt8

namespace FszDev

def readblock (d : FszDev) (c : BlkEnv) (lsn : Nat) : Option Sector :=
  if lsn = minus1 ∨ d.blksize = 0 ∨ 2^31 ≤ d.blksize ∨ d.filesize < w64 (w64 (lsn + 1) * d.blksize) then none
  else if c.ready lsn = true then some (d.cur lsn) else none

def edit (d : FszDev) (lsn : Nat) (blk : Sector) : FszDev :=
  { d with
    cur := update d.cur lsn blk
    kept := if d.ram = true then update d.kept lsn blk
      else if d.dirty lsn = true then update d.kept lsn (store (d.kept lsn) 0 d.blksize blk)
      else d.kept }

/-- `writeblock` returns true -/
def CanWrite (d : FszDev) (c : BlkEnv) (lsn : Nat) : Prop :=
  lsn ≠ minus1 ∧ d.mode = true ∧ w64 (w64 (lsn + 1) * d.blksize) ≤ d.filesize ∧
    (d.ram = true ∨ (1 < d.blksize ∧ c.stores = true))

instance (d : FszDev) (c : BlkEnv) (lsn : Nat) : Decidable (d.CanWrite c lsn) :=
  inferInstanceAs (Decidable (_ ∧ _))

def writeblock (d : FszDev) (c : BlkEnv) (lsn : Nat) (blk : Sector) : FszDev :=
  if d.CanWrite c lsn then
    { d with
      cur := update d.cur lsn (store (d.cur lsn) 0 d.blksize blk)
      kept := update d.kept lsn (store (d.kept lsn) 0 d.blksize blk)
      dirty := if d.ram = true then d.dirty else update d.dirty lsn true }
  else d

end FszDev

/-! ## the driver -/

def resizefs (d : FszDev) (c : BlkEnv) : Option FszDev :=
  (d.readblock c 0).map (fun sb =>
    let sb := putLe sb 528 8 (d.filesize / d.blksize)
    (d.edit 0 sb).writeblock c 0 sb)

def fszDetect (d : FszDev) (c : BlkEnv) (blk : Sector) : Option (Bool × FszDev) :=
  if detectRet blk = true then
    let d := { d with blksize := sbBlksize blk }
    if d.filesize ≠ w64 (sbNumsec blk * d.blksize) then (resizefs d c).map (fun d => (true, d))
    else some (true, d)
  else some (false, d)

/-- `fsdrv_detect(dev)` with this driver only; false is -1 -/
def fsdrvDetect (d : FszDev) (c : BlkEnv) : Option (Bool × FszDev) :=
  match d.readblock c 0 with
  | none => some (false, d)
  | some blk => fszDetect d c blk

/-- rounds of the loop `for(ptr=sl;(int64_t)s>=0;s-=sizeof(FSZ_SectorList))` -/
def slRounds (bs : Nat) : Nat := if 1024 ≤ bs then (bs - 1024) / 32 + 1 else 0

/-- the first entry with sectors; `s>0` is tested before the loop -/
def slFind (bs : Nat) (inode : Sector) : Option Nat :=
  if bs = 1024 ∨ inSize inode = 0 then none
  else (List.range (slRounds bs)).find? (fun k => decide (0 < slNumsec inode k))

/-- where the sector is taken from -/
inductive AllocSource where
  | nowhere
  | entry (fid : Nat) (inode : Sector) (k : Nat)
  | tail (sb : Sector)

def tailSource (d : FszDev) (c : BlkEnv) (sb : Sector) : AllocSource :=
  if sbFreesec sb < sbNumsec sb then
    match d.readblock c (sbFreesec sb) with
    | none => .nowhere
    | some _ => .tail sb
  else .nowhere

/-- with the inode of the free sector list -/
def listSource (d : FszDev) (c : BlkEnv) (sb inode : Sector) : AllocSource :=
  match slFind d.blksize inode with
  | none => tailSource d c sb
  | some k =>
    match d.readblock c (slSec inode k) with
    | none => .nowhere
    | some _ => .entry (sbFreesecfid sb) inode k

def allocSource (d : FszDev) (c : BlkEnv) : AllocSource :=
  match d.readblock c 0 with
  | none => .nowhere
  | some sb =>
    if sbFreesecfid sb ≠ 0 then
      match d.readblock c (sbFreesecfid sb) with
      | none => .nowhere
      | some inode => if bytesAt inode 0 4 ≠ inMagic then .nowhere else listSource d c sb inode
    else tailSource d c sb

/-- the inode without the first sector of entry `k`; an entry that is used up is overwritten by those
behind it -/
def slTake (bs : Nat) (inode : Sector) (k : Nat) : Sector :=
  let f := putLe inode 464 8 (sub64 (inSize inode) bs)
  let f := putLe f (inlinedata + 32 * k) 8 (w64 (slSec inode k + 1))
  let f := putLe f (inlinedata + 32 * k + 16) 8 (slNumsec inode k - 1)
  if slNumsec inode k = 1 then
    store f (inlinedata + 32 * k) (bs - inlinedata - 32 * k - 32) (fun i => f (inlinedata + 32 * (k + 1) + i))
  else f

/-- the bytes at `(void*)sl-((uint64_t)sl%bs)` -/
def slBlock (c : BlkEnv) (bs : Nat) (inode : Sector) : Sector := fun i =>
  let p := c.addr + inlinedata - (c.addr + inlinedata) % bs + i
  if c.addr ≤ p ∧ p < c.addr + bs then inode (p - c.addr) else c.mem p

/-- the loop also looks at the entry behind the block: it is `none` to take a sector from there -/
def fszAllocateblock (d : FszDev) (c : BlkEnv) : Option (Nat × FszDev) :=
  match allocSource d c with
  | .nowhere => some (minus1, d)
  | .entry fid inode k =>
    if d.blksize < inlinedata + 32 * k + 32 then none
    else
      let inode' := slTake d.blksize inode k
      some (slSec inode k, (d.edit fid inode').writeblock c d.lastsec (slBlock c d.blksize inode'))
  | .tail sb =>
    let sb' := putLe sb 544 8 (w64 (sbFreesec sb + 1))
    some (sbFreesec sb, (d.edit 0 sb').writeblock c 0 sb')

/-- `read(fd,file,offs,&s)`, of which `lastsec` is kept -/
def FszDev.read (d : FszDev) (c : BlkEnv) (nfcb fd file offs s : Nat) : Option FszDev :=
  (fszRead ⟨nfcb, fd, d.blksize, d.readblock c⟩ d.lastsec file offs s).map
    (fun out => { d with lastsec := out.lastsec })

section
variable {d d' : FszDev} {c : BlkEnv} {l lsn i bs k fid : Nat} {blk sb inode : Sector}

theorem FszDev.readblock_eq (h : d.readblock c lsn = some blk) : blk = d.cur lsn := by
  unfold FszDev.readblock at h
  split at h
  · cases h
  · split at h
    · exact (Option.some.inj h).symm
    · cases h

/-! ## what reaches the device -/

/-- a change in a buffer that is followed by `writeblock` reaches the device -/
def FszDev.Persists (d : FszDev) (c : BlkEnv) (lsn : Nat) : Prop :=
  d.ram = true ∨ d.dirty lsn = true ∨ d.CanWrite c lsn

instance (d : FszDev) (c : BlkEnv) (lsn : Nat) : Decidable (d.Persists c lsn) :=
  inferInstanceAs (Decidable (_ ∨ _))

/-- the block on the device, after that -/
def FszDev.merged (d : FszDev) (lsn : Nat) (blk : Sector) : Sector :=
  if d.ram = true then blk else store (d.kept lsn) 0 d.blksize blk

theorem store_idem (f g : Sector) (o n : Nat) : store (store f o n g) o n g = store f o n g := by
  funext i
  unfold store
  split <;> rfl

theorem store_self (f : Sector) (n : Nat) : store f 0 n f = f := by
  funext i
  unfold store
  split
  · rfl
  · rfl

theorem FszDev.edit_canWrite : (d.edit l blk).CanWrite c lsn ↔ d.CanWrite c lsn := Iff.rfl

theorem FszDev.update_kept (d : FszDev) (c : BlkEnv) (lsn : Nat) (blk : Sector) :
    ((d.edit lsn blk).writeblock c lsn blk).kept
      = if d.Persists c lsn then update d.kept lsn (d.merged lsn blk) else d.kept := by
  unfold FszDev.writeblock
  simp only [FszDev.edit_canWrite]
  unfold FszDev.merged
  by_cases hram : d.ram = true
  · have hp : d.Persists c lsn := Or.inl hram
    rw [if_pos hp, if_pos hram]
    split
    · simp only [FszDev.edit, if_pos hram, update_self, update_idem, store_self]
    · simp only [FszDev.edit, if_pos hram]
  · rw [if_neg hram]
    by_cases hdirty : d.dirty lsn = true
    · have hp : d.Persists c lsn := Or.inr (Or.inl hdirty)
      rw [if_pos hp]
      split
      · simp only [FszDev.edit, if_neg hram, if_pos hdirty, update_self, update_idem,
          store_idem]
      · simp only [FszDev.edit, if_neg hram, if_pos hdirty]
    · by_cases hw : d.CanWrite c lsn
      · have hp : d.Persists c lsn := Or.inr (Or.inr hw)
        rw [if_pos hw, if_pos hp]
        simp only [FszDev.edit, if_neg hram, if_neg hdirty]
      · have hp : ¬ d.Persists c lsn := by
          rintro (h | h | h)
          · exact hram h
          · exact hdirty h
          · exact hw h
        rw [if_neg hw, if_neg hp]
        simp only [FszDev.edit, if_neg hram, if_neg hdirty]

theorem FszDev.update_cur (d : FszDev) (c : BlkEnv) (lsn : Nat) (blk : Sector) :
    ((d.edit lsn blk).writeblock c lsn blk).cur = update d.cur lsn blk := by
  unfold FszDev.writeblock
  split
  · simp only [FszDev.edit, update_self, update_idem, store_self]
  · rfl

end

end OsZ
