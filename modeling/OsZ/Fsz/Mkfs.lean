import OsZ.Base.Store
import OsZ.Fsz.Tree

/-!
# Building an image (`tools/mkfs.c`)

`link_inode` puts a name into a directory of the image, which is the memory at `fs`.

* `linkScan`    the search for the name, or for the first free entry;
* `sortEntries` `qsort` of the entries;
* `linkInode`   `link_inode(inode,path,toinode)`, with `linkAt` for what it does in the last directory.

The content of a path is a list with zeros behind it.  A path behind its end is undefined: it is `none`.
-/

namespace OsZ

/-- the globals `secsize`, `ts` and `initrd`, and `crc32_calc(start,length)` over the memory -/
structure MkfsEnv where
  secsize : Nat
  ts : Nat
  initrd : Bool
  crc : (Nat → UInt8) → Nat → Nat → Nat

def asc (s : String) : List UInt8 := s.toUTF8.toList

def zeros : Nat → UInt8 := fun _ => 0

/-- the bytes of a list, with zeros behind it -/
def dataOf (l : List UInt8) : Nat → UInt8 := fun i => l.getD i 0

section
variable (e : MkfsEnv)

/-! ## directory entries -/

/-- the place of an entry, or the first free one -/
inductive LinkScan where
  | found (k : Nat)
  | free (k : Nat)

def linkScan (dir : Sector) (path : List UInt8) (ns : Nat) : Nat → Nat → LinkScan
  | 0, k => .free k
  | n+1, k =>
    if entFid dir k = 0 then .free k
    else if strnEq dir (entName k) (dataOf path) 0 (ns + 1) then .found k
    else linkScan dir path ns n (k + 1)

def lowerCase (a : UInt8) : UInt8 := if 0x41 ≤ a ∧ a ≤ 0x5A then a + 0x20 else a

/-- `strcasecmp(a,b)<=0` -/
def caseLe : List UInt8 → List UInt8 → Bool
  | [], _ => true
  | _ :: _, [] => false
  | a :: l, b :: m => if lowerCase a = lowerCase b then caseLe l m else decide (lowerCase a < lowerCase b)

/-- `direntcmp` -/
def direntLe (a b : List UInt8) : Bool :=
  caseLe ((a.drop 17).takeWhile (· ≠ 0)) ((b.drop 17).takeWhile (· ≠ 0))

/-- `qsort` of `n` entries at the address `o` -/
def sortEntries (f : Nat → UInt8) (o n : Nat) : Nat → UInt8 :=
  let recs := ((List.range n).map (fun j => bytesAt f (o + 128 * j) 128)).mergeSort direntLe
  store f o (128 * n) (fun i => (recs.getD (i / 128) []).getD (i % 128) 0)

/-- the rest of `link_inode`, with `ent` at entry `cnt` of the directory `par` -/
def linkAt (f : Nat → UInt8) (inode : Nat) (path : List UInt8) (par cnt : Nat) : Nat → UInt8 :=
  let dir := par * e.secsize
  let hdr := dir + 1024
  let ent := hdr + 128 * (cnt + 1)
  let new := inode * e.secsize
  let f := putLe f ent 8 inode
  let f := putList f (ent + 17) path
  let isdir := decide (bytesAt f (new + 8) 4 = typeDir)
  let f := if isdir then putList f (ent + 17 + path.length % 256) [chSlash] else f
  let f := putLe f (ent + 16) 1 (path.length + if isdir then 1 else 0)
  let n := le64 f (hdr + 16) + 1
  let f := putLe f (hdr + 16) 8 n
  let f := putLe f (dir + 480) 8 e.ts
  let f := putLe f (dir + 464) 8 (le64 f (dir + 464) + 128)
  let f := sortEntries f (hdr + 128) n
  let f := putLe f (hdr + 4) 4 (e.crc f (hdr + 128) (n * 128))
  let f := putLe f (dir + 4) 4 (e.crc f (dir + 8) 1016)
  let f := putLe f (new + 104) 8 (le64 f (new + 104) + 1)
  putLe f (new + 4) 4 (e.crc f (new + 8) 1016)

/-- how many entries a directory has room for -/
def maxEntries : Nat := (e.secsize - 1024) / 128 - 1

/-- the directory `toinode` names; 0 is the root -/
def dirOf (f : Nat → UInt8) (toinode : Nat) : Nat := if toinode = 0 then rootdirfid f else toinode

/-- `while(path[ns]!='/'&&path[ns]!=0) ns++;` -/
def firstName (path : List UInt8) : Nat := (path.takeWhile (· ≠ chSlash)).length

def linkInode (f : Nat → UInt8) (inode : Nat) : Nat → List UInt8 → Nat → Option (Nat → UInt8)
  | 0, _, _ => none
  | fuel+1, path, toinode =>
    let dir := Sector.from f (dirOf f toinode * e.secsize + 1024)
    match linkScan dir path (firstName path) (maxEntries e) 0 with
    | .found k =>
      if path.length ≤ firstName path then none
      else linkInode f inode fuel (path.drop (firstName path + 1)) (entFid dir k)
    | .free cnt => some (linkAt e f inode path (dirOf f toinode) cnt)

end

end OsZ
