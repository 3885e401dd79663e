import OsZ.Base.Word
import OsZ.Base.Bytes

/-!
# Files on an FS/Z volume (`fsZ.h`)

A volume is a sequence of sectors, and a file is given by its inode sector.  The translation in the
flags of the inode says where the data is: in the inode itself, in one sector, or in sectors listed
by sector directories, up to seven levels of them.  An address 0 in place of a sector stands for
zeros.

* `Disk`                       the bytes of every sector; behind the last byte of a sector there is
                               whatever memory follows the block that holds it;
* `inSec`, `inSize`, ..        fields of an inode;
* `Translation`                the modes, with `code` for the flag byte and `capacity`;
* `dataSector`, `fileByte`     the sector of a block, and the contents of the file;
* `FszFile`                    a sector is the inode of such a file.
-/

namespace OsZ

/-- the bytes of a sector, or of the memory from a pointer on -/
abbrev Sector : Type := Nat → UInt8

abbrev Disk : Type := Nat → Sector

/-- `FSZ_IN_MAGIC` -/
def inMagic : List UInt8 := [0x46, 0x53, 0x49, 0x4E]

/-- `FSZ_FILETYPE_SYMLINK` -/
def typeSymlink : List UInt8 := [0x6C, 0x6E, 0x6B, 0x3A]

/-- `FSZ_FILETYPE_UNION` -/
def typeUnion : List UInt8 := [0x75, 0x6E, 0x69, 0x3A]

/-- `FSZ_FILETYPE_DIR` -/
def typeDir : List UInt8 := [0x64, 0x69, 0x72, 0x3A]

/-- `FSZ_FILETYPE_REG_APP` -/
def typeApp : List UInt8 := [0x61, 0x70, 0x70, 0x6C]

/-- `FSZ_DIR_MAGIC` -/
def dirMagic : List UInt8 := [0x46, 0x53, 0x44, 0x52]

/-! ## `FSZ_Inode` -/

def inFiletype (blk : Sector) : List UInt8 := bytesAt blk 8 4

def inSec (blk : Sector) : Nat := le64 blk 448

def inSize (blk : Sector) : Nat := le64 blk 464

/-- `FSZ_FLAG_TRANSLATION(in->flags)` -/
def inTranslation (blk : Sector) : Nat := (blk 492).toNat

/-- the offset of `inlinedata` -/
def inlinedata : Nat := 1024

/-- entry `i` of the sector directory at offset `o` -/
def sdEntry (blk : Sector) (o i : Nat) : Nat := le64 blk (o + 16 * i)

/-- `sb->rootdirfid` -/
def rootdirfid (sb : Sector) : Nat := le64 sb 560

/-! ## directories: a header, and entries of 128 bytes -/

def numentries (dir : Sector) : Nat := le64 dir 16

def entFid (dir : Sector) (k : Nat) : Nat := le64 dir (128 * (k + 1))

/-- the offset of `name` in entry `k` -/
def entName (k : Nat) : Nat := 128 * (k + 1) + 17

/-- a pointer `off` bytes into a block -/
def Sector.from (blk : Sector) (off : Nat) : Sector := fun i => blk (off + i)

/-! ## the specified layout -/

inductive Translation where
  | inline | direct | sdInline
  | sd (levels : Nat)
deriving DecidableEq

/-- `FSZ_IN_FLAG_*` -/
def Translation.code : Translation → Nat
  | .inline => 0xFF
  | .direct => 0
  | .sdInline => 0x7F
  | .sd l => l

/-- one to seven levels of sector directories -/
def Translation.Levels : Translation → Prop
  | .sd l => 1 ≤ l ∧ l ≤ 7
  | _ => True

/-- the data in an inode starts at 2048 if the superblock says `FSZ_SB_FLAG_BIGINODE` -/
def inlineAt (big : Bool) : Nat := if big then 2048 else 1024

def bigInode (D : Disk) : Bool := (D 0 518).toNat % 2 = 1

def Translation.capacity (bs : Nat) (big : Bool) : Translation → Nat
  | .inline => bs - inlineAt big
  | .direct => bs
  | .sdInline => (bs - inlineAt big) / 16 * bs
  | .sd l => (bs / 16)^l * bs

/-- the sector of block `b` below `l` levels of sector directories, the highest one in `lsn` -/
def sdLookup (D : Disk) (bs : Nat) : Nat → Nat → Nat → Nat
  | 0, lsn, _ => lsn
  | l+1, lsn, b =>
    if lsn = 0 then 0 else sdLookup D bs l (sdEntry (D lsn) 0 (b / (bs / 16)^l % (bs / 16))) b

def dataSector (D : Disk) (bs file : Nat) : Translation → Nat → Nat
  | .inline, _ => file
  | .direct, _ => inSec (D file)
  | .sdInline, b => sdEntry (D file) (inlineAt (bigInode D)) b
  | .sd l, b => sdLookup D bs l (inSec (D file)) b

/-- byte `p` of the file -/
def fileByte (D : Disk) (bs file : Nat) (t : Translation) (p : Nat) : UInt8 :=
  if t = .inline then D file (inlineAt (bigInode D) + p)
  else if dataSector D bs file t (p / bs) = 0 then 0
  else D (dataSector D bs file t (p / bs)) (p % bs)

/-- links and unions always have their data in the inode -/
structure FszFile (D : Disk) (bs file : Nat) (t : Translation) (size : Nat) : Prop where
  file_ne : file ≠ 0
  magic : bytesAt (D file) 0 4 = inMagic
  size_eq : inSize (D file) = size
  translation : inTranslation (D file) = t.code
  levels : t.Levels
  fits : size ≤ t.capacity bs (bigInode D)
  inlined : inFiletype (D file) = typeSymlink ∨ inFiletype (D file) = typeUnion → t = .inline

variable {D : Disk} {bs file l lsn b p : Nat}

@[simp] theorem sdLookup_zero (D : Disk) (bs l b : Nat) : sdLookup D bs l 0 b = 0 := by
  cases l <;> rfl

theorem fileByte_sd (D : Disk) (bs file l p : Nat) :
    fileByte D bs file (.sd l) p =
      if dataSector D bs file (.sd l) (p / bs) = 0 then 0
      else D (dataSector D bs file (.sd l) (p / bs)) (p % bs) := if_neg (by simp)

end OsZ
