import OsZ.Fs.Write
import OsZ.Fs.CacheRuns

/-!
# Blocks of devices (`fs/vfs.c`, `fs/devfs.c`)

`readblock` and `writeblock` on a device file go to the initrd, to one of the other memory devices or
to the block cache.  The block number comes from the disk, and every way tests
`(lsn+1)*bs>filesize` in 64 bits, but for the devices where "lsn does not matter".

* `devfsUsed`              `devfs_used(idx)`;
* `devReadblock`           `readblock(fd,lsn)` on a device file;
* `devWriteblock`          `writeblock(fd,lsn,blk,prio)` on a device file;
* `BlockFn.Accepts`        one of the functions serves the block, or asks the driver for it;
* `BlockFn.Exact`          when this is done for blocks of the device only;
* `accepts_inside_iff`     that it is.

Regular files are left out.
-/

namespace OsZ

/-! ## the functions -/

/-- "overflow protection, just to be bullet proof" -/
def Cache.aged (s : Cache) : Cache :=
  if 0xFFFFFFFFFFFFFFF < s.devRecent then
    { s with
      devRecent := s.devRecent / 2^48
      dev := fun i => if i < s.ndev ∧ (s.dev i).fid ≠ minus1 then
        { s.dev i with recent := (s.dev i).recent / 2^48 + 1 } else s.dev i }
  else s

def devfsUsed (s : Cache) (idx : Nat) : Cache :=
  if idx = minus1 ∨ s.ndev ≤ idx then s
  else
    let s := s.aged
    { s with
      devRecent := s.devRecent + 1
      dev := Function.update s.dev idx { s.dev idx with recent := s.devRecent + 1 } }

def memfsMajor : Nat := 0
def memfsZero : Nat := 0
def memfsRamdisk : Nat := 1
def memfsRandom : Nat := 2
def memfsNull : Nat := 3

/-- what `readblock` returns a pointer to -/
inductive DevBlk where
  /-- `zeroblk` -/
  | zero
  /-- `rndblk` -/
  | random
  /-- `_initrd_ptr+off` -/
  | initrd (off : Nat)
  | cached (blk : BlkData)

/-- the case of a device in `readblock`; `mem` is whether `realloc` has memory -/
def readDevice (fuel : Nat) (s : Cache) (fd lsn : Nat) (mem : Bool) : Option (Cache × Option DevBlk) :=
  let f := s.fcb fd
  if f.inode < s.ndev then
    let s := devfsUsed s f.inode
    let d := s.dev f.inode
    if i32 f.blksize < 1 then some (s.seterr .EINVAL, none)
    else if d.drivertask = memfsMajor then
      -- "lsn does not matter for these"
      if d.device = memfsNull then some (s, none)
      else if d.device = memfsZero then some (s, if mem then some .zero else none)
      else if d.device = memfsRandom then some (s, if mem then some .random else none)
      else if d.device = memfsRamdisk then
        if s.Outside fd lsn then some (s.seterr .EFAULT, none)
        else some (s, some (.initrd (w64 (lsn * f.blksize))))
      else some (s.seterr .ENODEV, none)
    else (cacheGetblock fuel s fd lsn).map (fun r => (r.1, r.2.map .cached))
  else some (s.seterr .ENODEV, none)

/-- `readblock(fd,lsn)` for a device with the access bits `mode` -/
def devReadblock (fuel mode : Nat) (s : Cache) (fd lsn : Nat) (mem : Bool) :
    Option (Cache × Option DevBlk) :=
  if fd = minus1 ∨ s.nfcb ≤ fd ∨ lsn = minus1 then some (s.seterr .EFAULT, none)
  else if oRead mode = false then some (s.seterr .EACCES, none)
  else readDevice fuel s fd lsn mem

/-- the case of a device in `writeblock`: the answer, and where in the initrd the block is put (or is
already) -/
def writeDevice (fuel : Nat) (s : Cache) (fd lsn : Nat) (blk : BlkData) (prio nc : Nat) (nb : Bool) :
    Option (Cache × Bool × Option Nat) :=
  let f := s.fcb fd
  if f.inode < s.ndev then
    let s := devfsUsed s f.inode
    let d := s.dev f.inode
    if d.drivertask = memfsMajor then
      if d.device = memfsNull then some (s, true, none)
      else if d.device = memfsRamdisk then
        if s.Outside fd lsn then some (s.seterr .EFAULT, false, none)
        else some (s, true, some (w64 (lsn * f.blksize)))
      else some (s.seterr .EACCES, false, none)
    else (cacheSetblock fuel s fd lsn blk prio nc nb).map (fun r => (r.1, r.2, none))
  else some (s.seterr .EPERM, false, none)

/-- `writeblock(fd,lsn,blk,prio)` for a device with the access bits `mode` -/
def devWriteblock (fuel mode : Nat) (s : Cache) (fd lsn : Nat) (blk : BlkData) (prio nc : Nat) (nb : Bool) :
    Option (Cache × Bool × Option Nat) :=
  if fd = minus1 ∨ s.nfcb ≤ fd ∨ lsn = minus1 then some (s.seterr .EFAULT, false, none)
  else if oWrite mode = false then some (s.seterr .EACCES, false, none)
  else writeDevice fuel s fd lsn blk prio nc nb

/-! ## accepted blocks -/

/-- the functions that take a block number -/
inductive BlockFn where
  | readblock | writeblock | getblock | setblock

namespace Cache

def Inside (s : Cache) (fd lsn : Nat) : Prop := (lsn + 1) * (s.fcb fd).blksize ≤ (s.fcb fd).filesize

/-- the product has 64 bits, or is too large without its upper bits as well -/
def GuardExact (s : Cache) (fd lsn : Nat) : Prop :=
  (lsn + 1) * (s.fcb fd).blksize < 2^64 ∨ s.Outside fd lsn

/-- the walk through the chain of `lsn` for a block `p` goes round forever -/
def Unending (s : Cache) (p : Nat → Bool) (lsn : Nat) : Prop :=
  ∀ fuel, SList.search s.next p fuel 0 (s.line (s.slot lsn)) = none

structure IsDevice (s : Cache) (fd : Nat) : Prop where
  ne : fd ≠ minus1
  lt : fd < s.nfcb
  type : (s.fcb fd).type = .device
  inode : (s.fcb fd).inode < s.ndev
  /-- `filesize` is a 64-bit field -/
  size : (s.fcb fd).filesize < 2^64

def GetExact (s : Cache) (fd lsn : Nat) : Prop :=
  lsn = minus1 ∨ s.line (s.slot lsn) = 0 ∨ s.Unending (s.isBlock fd lsn) lsn ∨ s.GuardExact fd lsn

def SetExact (s : Cache) (fd lsn : Nat) : Prop :=
  lsn = minus1 ∨ (s.fcb fd).blksize ≤ 1 ∨ s.Unending (s.isClean fd lsn) lsn ∨ s.GuardExact fd lsn

/-- `dev[fcb[fd].device.inode]` -/
def devOf (s : Cache) (fd : Nat) : Devfs := s.dev (s.fcb fd).inode

end Cache

namespace BlockFn

/-- a block is returned or stored, or the driver is asked for it -/
def Accepts (mode : Nat) (s : Cache) (fd lsn : Nat) : BlockFn → Prop
  | readblock => ∃ fuel mem s' r, devReadblock fuel mode s fd lsn mem = some (s', r) ∧
      (r ≠ none ∨ s'.sent ≠ s.sent)
  | writeblock => ∃ fuel blk prio nc nb s' u, devWriteblock fuel mode s fd lsn blk prio nc nb =
      some (s', true, u)
  | getblock => ∃ fuel s' r, cacheGetblock fuel s fd lsn = some (s', r) ∧ (r ≠ none ∨ s'.sent ≠ s.sent)
  | setblock => ∃ fuel blk prio nc nb s', cacheSetblock fuel s fd lsn blk prio nc nb = some (s', true)

/-- the block is at `off` in the initrd -/
def InRam (mode : Nat) (s : Cache) (fd lsn off : Nat) : BlockFn → Prop
  | readblock => ∃ fuel mem s', devReadblock fuel mode s fd lsn mem = some (s', some (.initrd off))
  | writeblock => ∃ fuel blk prio nc nb s', devWriteblock fuel mode s fd lsn blk prio nc nb =
      some (s', true, some off)
  | _ => False

/-- every block that is accepted, and its memory in the initrd, is inside the device -/
def Right (mode : Nat) (s : Cache) (fd lsn : Nat) (f : BlockFn) : Prop :=
  (f.Accepts mode s fd lsn → s.Inside fd lsn) ∧
    ∀ off, f.InRam mode s fd lsn off → off + (s.fcb fd).blksize ≤ (s.fcb fd).filesize

/-- when the tests are right -/
def Exact (mode : Nat) (s : Cache) (fd lsn : Nat) : BlockFn → Prop
  | readblock => lsn = minus1 ∨ oRead mode = false ∨ i32 (s.fcb fd).blksize < 1 ∨
      if (s.devOf fd).drivertask = memfsMajor then
        ((s.devOf fd).device = memfsRamdisk → s.GuardExact fd lsn) ∧
        ((s.devOf fd).device = memfsZero ∨ (s.devOf fd).device = memfsRandom → s.Inside fd lsn)
      else s.GetExact fd lsn
  | writeblock => lsn = minus1 ∨ oWrite mode = false ∨
      if (s.devOf fd).drivertask = memfsMajor then
        ((s.devOf fd).device = memfsRamdisk → s.GuardExact fd lsn) ∧
        ((s.devOf fd).device = memfsNull → s.Inside fd lsn)
      else s.SetExact fd lsn
  | getblock => s.GetExact fd lsn
  | setblock => s.SetExact fd lsn

end BlockFn

/-! ## the proof -/

section
variable {s : Cache} {fd lsn mode : Nat}

/-- only recency marks change -/
structure Marked (s s' : Cache) : Prop where
  fcb : s'.fcb = s.fcb
  nfcb : s'.nfcb = s.nfcb
  ndev : s'.ndev = s.ndev
  cachelines : s'.cachelines = s.cachelines
  node : s'.node = s.node
  line : s'.line = s.line
  sent : s'.sent = s.sent
  driver : ∀ i, (s'.dev i).fid = (s.dev i).fid ∧ (s'.dev i).drivertask = (s.dev i).drivertask ∧
    (s'.dev i).device = (s.dev i).device

theorem Cache.aged_marked (s : Cache) : Marked s s.aged := by
  unfold Cache.aged
  split
  · refine ⟨rfl, rfl, rfl, rfl, rfl, rfl, rfl, fun i => ?_⟩
    dsimp only
    split
    · exact ⟨rfl, rfl, rfl⟩
    · exact ⟨rfl, rfl, rfl⟩
  · exact ⟨rfl, rfl, rfl, rfl, rfl, rfl, rfl, fun _ => ⟨rfl, rfl, rfl⟩⟩

theorem devfsUsed_marked (s : Cache) (idx : Nat) : Marked s (devfsUsed s idx) := by
  have ha := s.aged_marked
  unfold devfsUsed
  split
  · exact ⟨rfl, rfl, rfl, rfl, rfl, rfl, rfl, fun _ => ⟨rfl, rfl, rfl⟩⟩
  · refine ⟨ha.fcb, ha.nfcb, ha.ndev, ha.cachelines, ha.node, ha.line, ha.sent, fun i => ?_⟩
    by_cases hi : i = idx
    · subst hi
      simp only [Function.update_self]
      exact ha.driver i
    · simp only [Function.update_of_ne hi]
      exact ha.driver i

namespace Marked
variable {s' : Cache}

theorem outside (h : Marked s s') : s'.Outside fd lsn ↔ s.Outside fd lsn := by
  unfold Cache.Outside
  rw [h.fcb]

theorem refused (h : Marked s s') : s'.Refused fd lsn ↔ s.Refused fd lsn := by
  unfold Cache.Refused
  rw [h.fcb, h.nfcb]

theorem unending (h : Marked s s') (p : Nat → Bool) : s'.Unending p lsn ↔ s.Unending p lsn := by
  unfold Cache.Unending Cache.slot Cache.next
  rw [h.node, h.line, h.cachelines]

theorem isBlock (h : Marked s s') : s'.isBlock fd lsn = s.isBlock fd lsn := by
  unfold Cache.isBlock
  rw [h.node]

theorem isClean (h : Marked s s') : s'.isClean fd lsn = s.isClean fd lsn := by
  unfold Cache.isClean
  rw [h.node]

end Marked

theorem guard_iff (hsize : (s.fcb fd).filesize < 2^64) :
    (¬ s.Outside fd lsn → s.Inside fd lsn) ↔ s.GuardExact fd lsn := by
  unfold Cache.Outside Cache.Inside Cache.GuardExact Cache.Outside w64
  constructor
  · intro h
    by_cases hx : (s.fcb fd).filesize < (lsn + 1) * (s.fcb fd).blksize % 2^64
    · exact Or.inr hx
    · exact Or.inl (lt_of_le_of_lt (h hx) hsize)
  · rintro (h | h) hx
    · rw [Nat.mod_eq_of_lt h] at hx
      exact Nat.le_of_not_lt hx
    · exact absurd h hx

theorem ram_inside (h : s.Inside fd lsn) :
    w64 (lsn * (s.fcb fd).blksize) + (s.fcb fd).blksize ≤ (s.fcb fd).filesize := by
  unfold Cache.Inside at h
  have h1 : w64 (lsn * (s.fcb fd).blksize) ≤ lsn * (s.fcb fd).blksize := Nat.mod_le _ _
  rw [Nat.add_mul, Nat.one_mul] at h
  omega

theorem getblock_accepts_iff : BlockFn.getblock.Accepts mode s fd lsn ↔
    ¬ s.Refused fd lsn ∧ s.line (s.slot lsn) ≠ 0 ∧ ¬ s.Outside fd lsn ∧ ¬ s.Unending (s.isBlock fd lsn) lsn := by
  constructor
  · rintro ⟨fuel, s', r, hg, hr⟩
    unfold cacheGetblock at hg
    by_cases h1 : s.Refused fd lsn ∨ s.line (s.slot lsn) = 0
    · rw [if_pos h1] at hg
      cases hg
      simp at hr
    · rw [if_neg h1] at hg
      by_cases h2 : s.Outside fd lsn
      · rw [if_pos h2] at hg
        cases hg
        simp [Cache.seterr] at hr
      · rw [if_neg h2] at hg
        refine ⟨fun h => h1 (Or.inl h), fun h => h1 (Or.inr h), h2, fun h => ?_⟩
        rw [h fuel] at hg
        cases hg
  · rintro ⟨h1, h0, h2, h3⟩
    obtain ⟨fuel, hf⟩ := not_forall.mp h3
    obtain ⟨o, ho⟩ := Option.ne_none_iff_exists'.mp hf
    refine ⟨fuel, ?_⟩
    unfold cacheGetblock
    rw [if_neg (not_or.mpr ⟨h1, h0⟩), if_neg h2, ho]
    cases o with
    | none => exact ⟨_, _, rfl, Or.inr (by simp)⟩
    | some x => exact ⟨_, _, rfl, Or.inl (by simp)⟩

theorem setblock_accepts_iff : BlockFn.setblock.Accepts mode s fd lsn ↔
    ¬ s.Refused fd lsn ∧ 1 < (s.fcb fd).blksize ∧ ¬ s.Outside fd lsn ∧ ¬ s.Unending (s.isClean fd lsn) lsn := by
  constructor
  · rintro ⟨fuel, blk, prio, nc, nb, s', hg⟩
    unfold cacheSetblock at hg
    by_cases h1 : s.Refused fd lsn
    · rw [if_pos h1] at hg
      cases hg
    rw [if_neg h1] at hg
    by_cases h2 : (s.fcb fd).blksize ≤ 1
    · rw [if_pos h2] at hg
      cases hg
    rw [if_neg h2] at hg
    by_cases h3 : s.Outside fd lsn
    · rw [if_pos h3] at hg
      cases hg
    rw [if_neg h3] at hg
    refine ⟨h1, Nat.lt_of_not_le h2, h3, fun h => ?_⟩
    rw [h fuel] at hg
    cases hg
  · rintro ⟨h1, h2, h3, h4⟩
    obtain ⟨fuel, hf⟩ := not_forall.mp h4
    obtain ⟨o, ho⟩ := Option.ne_none_iff_exists'.mp hf
    refine ⟨fuel, fun _ => 0, 0, 1, true, ?_⟩
    unfold cacheSetblock
    rw [if_neg h1, if_neg (Nat.not_le.mpr h2), if_neg h3, ho]
    cases o with
    | none => exact ⟨_, rfl⟩
    | some x => exact ⟨_, rfl⟩

theorem Cache.IsDevice.refused_iff (h : s.IsDevice fd) : s.Refused fd lsn ↔ lsn = minus1 := by
  constructor
  · rintro (h1 | h1 | h1 | h1)
    · exact absurd h1 h.ne
    · exact absurd h.lt (Nat.not_lt.mpr h1)
    · exact h1
    · exact absurd h.type h1
  · exact fun h1 => Or.inr (Or.inr (Or.inl h1))

theorem Marked.getblock_iff {s' : Cache} (h : Marked s s') :
    BlockFn.getblock.Accepts mode s' fd lsn ↔ BlockFn.getblock.Accepts mode s fd lsn := by
  rw [getblock_accepts_iff, getblock_accepts_iff, h.refused, h.outside, h.isBlock, h.unending, h.line]
  unfold Cache.slot
  rw [h.cachelines]

theorem Marked.setblock_iff {s' : Cache} (h : Marked s s') :
    BlockFn.setblock.Accepts mode s' fd lsn ↔ BlockFn.setblock.Accepts mode s fd lsn := by
  rw [setblock_accepts_iff, setblock_accepts_iff, h.refused, h.outside, h.isClean, h.unending, h.fcb]

theorem devReadblock_eq (h : s.IsDevice fd) (hl : lsn ≠ minus1) (hm : oRead mode = true) (fuel : Nat)
    (mem : Bool) : devReadblock fuel mode s fd lsn mem =
      let s1 := devfsUsed s (s.fcb fd).inode
      if i32 (s.fcb fd).blksize < 1 then some (s1.seterr .EINVAL, none)
      else if (s.devOf fd).drivertask = memfsMajor then
        if (s.devOf fd).device = memfsNull then some (s1, none)
        else if (s.devOf fd).device = memfsZero then some (s1, if mem then some .zero else none)
        else if (s.devOf fd).device = memfsRandom then some (s1, if mem then some .random else none)
        else if (s.devOf fd).device = memfsRamdisk then
          if s.Outside fd lsn then some (s1.seterr .EFAULT, none)
          else some (s1, some (.initrd (w64 (lsn * (s.fcb fd).blksize))))
        else some (s1.seterr .ENODEV, none)
      else (cacheGetblock fuel s1 fd lsn).map (fun r => (r.1, r.2.map .cached)) := by
  have hk := devfsUsed_marked s (s.fcb fd).inode
  have hd := hk.driver (s.fcb fd).inode
  have hc : ¬ (fd = minus1 ∨ s.nfcb ≤ fd ∨ lsn = minus1) :=
    not_or.mpr ⟨h.ne, not_or.mpr ⟨Nat.not_le.mpr h.lt, hl⟩⟩
  unfold devReadblock readDevice
  rw [if_neg hc, if_neg (by rw [hm]; decide), if_pos h.inode]
  dsimp only
  unfold Cache.devOf
  rw [hd.2.1, hd.2.2]
  simp only [hk.outside]

theorem devReadblock_refused (hx : lsn = minus1 ∨ oRead mode = false) (fuel : Nat) (mem : Bool) :
    ∃ e, devReadblock fuel mode s fd lsn mem = some (s.seterr e, none) := by
  unfold devReadblock
  split
  · exact ⟨_, rfl⟩
  · next hc =>
    rw [if_pos (hx.resolve_left (fun h => hc (Or.inr (Or.inr h))))]
    exact ⟨_, rfl⟩

theorem readblock_accepts_iff (h : s.IsDevice fd) : BlockFn.readblock.Accepts mode s fd lsn ↔
    lsn ≠ minus1 ∧ oRead mode = true ∧ ¬ i32 (s.fcb fd).blksize < 1 ∧
      if (s.devOf fd).drivertask = memfsMajor then
        ((s.devOf fd).device = memfsZero ∨ (s.devOf fd).device = memfsRandom) ∨
          ((s.devOf fd).device = memfsRamdisk ∧ ¬ s.Outside fd lsn)
      else BlockFn.getblock.Accepts mode s fd lsn := by
  have hk := devfsUsed_marked s (s.fcb fd).inode
  by_cases hx : lsn = minus1 ∨ oRead mode = false
  · constructor
    · rintro ⟨fuel, mem, s', r, hr, ha⟩
      obtain ⟨e, he⟩ := devReadblock_refused (s := s) hx fuel mem
      rw [he] at hr
      cases hr
      simp [Cache.seterr] at ha
    · rintro ⟨hl, hm, -⟩
      rcases hx with hx | hx
      · exact absurd hx hl
      · rw [hx] at hm
        cases hm
  obtain ⟨hl, hm⟩ := not_or.mp hx
  rw [Bool.not_eq_false] at hm
  show (∃ fuel mem s' r, devReadblock fuel mode s fd lsn mem = some (s', r) ∧
    (r ≠ none ∨ s'.sent ≠ s.sent)) ↔ _
  simp only [devReadblock_eq h hl hm]
  by_cases hb : i32 (s.fcb fd).blksize < 1
  · simp [hb, Cache.seterr, hk.sent]
  by_cases hd : (s.devOf fd).drivertask = memfsMajor
  · simp only [if_neg hb, if_pos hd]
    by_cases h3 : (s.devOf fd).device = memfsNull
    · simp [h3, hk.sent, memfsNull, memfsZero, memfsRandom, memfsRamdisk]
    by_cases h0 : (s.devOf fd).device = memfsZero
    · simp [h0, hk.sent, memfsNull, memfsZero, hl, hm, hb]
    by_cases h2 : (s.devOf fd).device = memfsRandom
    · simp [h2, hk.sent, memfsNull, memfsZero, memfsRandom, hl, hm, hb]
    by_cases h1 : (s.devOf fd).device = memfsRamdisk
    · by_cases ho : s.Outside fd lsn
      · simp [h1, ho, hk.sent, Cache.seterr, memfsNull, memfsZero, memfsRandom, memfsRamdisk]
      · simp [h1, ho, memfsNull, memfsZero, memfsRandom, memfsRamdisk, hl, hm, hb]
    · simp [h0, h1, h2, h3, hk.sent, Cache.seterr]
  · simp only [if_neg hb, if_neg hd]
    rw [← hk.getblock_iff]
    constructor
    · rintro ⟨fuel, -, s', r, hr, ha⟩
      obtain ⟨⟨t, q⟩, ht, he⟩ := Option.map_eq_some_iff.mp hr
      cases he
      refine ⟨hl, hm, hb, fuel, t, q, ht, ha.imp (fun h hq => h (by rw [hq]; rfl)) ?_⟩
      rw [hk.sent]
      exact id
    · rintro ⟨-, -, -, fuel, t, q, ht, ha⟩
      rw [hk.sent] at ha
      exact ⟨fuel, true, t, q.map .cached, by rw [ht]; rfl,
        ha.imp_left (fun h hq => h (Option.map_eq_none_iff.mp hq))⟩

theorem devWriteblock_eq (h : s.IsDevice fd) (hl : lsn ≠ minus1) (hm : oWrite mode = true) (fuel : Nat)
    (blk : BlkData) (prio nc : Nat) (nb : Bool) : devWriteblock fuel mode s fd lsn blk prio nc nb =
      let s1 := devfsUsed s (s.fcb fd).inode
      if (s.devOf fd).drivertask = memfsMajor then
        if (s.devOf fd).device = memfsNull then some (s1, true, none)
        else if (s.devOf fd).device = memfsRamdisk then
          if s.Outside fd lsn then some (s1.seterr .EFAULT, false, none)
          else some (s1, true, some (w64 (lsn * (s.fcb fd).blksize)))
        else some (s1.seterr .EACCES, false, none)
      else (cacheSetblock fuel s1 fd lsn blk prio nc nb).map (fun r => (r.1, r.2, none)) := by
  have hk := devfsUsed_marked s (s.fcb fd).inode
  have hd := hk.driver (s.fcb fd).inode
  have hc : ¬ (fd = minus1 ∨ s.nfcb ≤ fd ∨ lsn = minus1) :=
    not_or.mpr ⟨h.ne, not_or.mpr ⟨Nat.not_le.mpr h.lt, hl⟩⟩
  unfold devWriteblock writeDevice
  rw [if_neg hc, if_neg (by rw [hm]; decide), if_pos h.inode]
  dsimp only
  unfold Cache.devOf
  rw [hd.2.1, hd.2.2]
  simp only [hk.outside]

theorem devWriteblock_refused (hx : lsn = minus1 ∨ oWrite mode = false) (fuel : Nat) (blk : BlkData)
    (prio nc : Nat) (nb : Bool) :
    ∃ e, devWriteblock fuel mode s fd lsn blk prio nc nb = some (s.seterr e, false, none) := by
  unfold devWriteblock
  split
  · exact ⟨_, rfl⟩
  · next hc =>
    rw [if_pos (hx.resolve_left (fun h => hc (Or.inr (Or.inr h))))]
    exact ⟨_, rfl⟩

theorem writeblock_accepts_iff (h : s.IsDevice fd) : BlockFn.writeblock.Accepts mode s fd lsn ↔
    lsn ≠ minus1 ∧ oWrite mode = true ∧
      if (s.devOf fd).drivertask = memfsMajor then
        (s.devOf fd).device = memfsNull ∨ ((s.devOf fd).device = memfsRamdisk ∧ ¬ s.Outside fd lsn)
      else BlockFn.setblock.Accepts mode s fd lsn := by
  have hk := devfsUsed_marked s (s.fcb fd).inode
  by_cases hx : lsn = minus1 ∨ oWrite mode = false
  · constructor
    · rintro ⟨fuel, blk, prio, nc, nb, s', u, hr⟩
      obtain ⟨e, he⟩ := devWriteblock_refused (s := s) hx fuel blk prio nc nb
      rw [he] at hr
      cases hr
    · rintro ⟨hl, hm, -⟩
      rcases hx with hx | hx
      · exact absurd hx hl
      · rw [hx] at hm
        cases hm
  obtain ⟨hl, hm⟩ := not_or.mp hx
  rw [Bool.not_eq_false] at hm
  show (∃ fuel blk prio nc nb s' u, devWriteblock fuel mode s fd lsn blk prio nc nb = some (s', true, u)) ↔ _
  simp only [devWriteblock_eq h hl hm]
  by_cases hd : (s.devOf fd).drivertask = memfsMajor
  · simp only [if_pos hd]
    by_cases h3 : (s.devOf fd).device = memfsNull
    · simp [h3, hl, hm]
    by_cases h1 : (s.devOf fd).device = memfsRamdisk
    · by_cases ho : s.Outside fd lsn
      · simp [h1, ho, memfsNull, memfsRamdisk]
      · simp [h1, ho, memfsNull, memfsRamdisk, hl, hm]
    · simp [h1, h3]
  · simp only [if_neg hd]
    rw [← hk.setblock_iff]
    constructor
    · rintro ⟨fuel, blk, prio, nc, nb, s', u, hr⟩
      obtain ⟨⟨t, q⟩, ht, he⟩ := Option.map_eq_some_iff.mp hr
      cases he
      exact ⟨hl, hm, fuel, blk, prio, nc, nb, t, ht⟩
    · rintro ⟨-, -, fuel, blk, prio, nc, nb, t, ht⟩
      exact ⟨fuel, blk, prio, nc, nb, t, none, by rw [ht]; rfl⟩

theorem BlockFn.InRam.accepted {f : BlockFn} {off : Nat} (h : s.IsDevice fd)
    (hr : f.InRam mode s fd lsn off) :
    f.Accepts mode s fd lsn ∧ off = w64 (lsn * (s.fcb fd).blksize) := by
  cases f with
  | readblock =>
    obtain ⟨fuel, mem, s', hr⟩ := hr
    refine ⟨⟨fuel, mem, s', _, hr, Or.inl (by simp)⟩, ?_⟩
    by_cases hx : lsn = minus1 ∨ oRead mode = false
    · obtain ⟨e, he⟩ := devReadblock_refused (s := s) hx fuel mem
      rw [he] at hr
      cases hr
    obtain ⟨hl, hm⟩ := not_or.mp hx
    rw [devReadblock_eq h hl (by rwa [Bool.not_eq_false] at hm)] at hr
    dsimp only at hr
    split at hr
    · cases hr
    split at hr
    · split at hr
      · cases hr
      split at hr
      · split at hr <;> cases hr
      split at hr
      · split at hr <;> cases hr
      split at hr
      · split at hr
        · cases hr
        · cases hr
          rfl
      · cases hr
    · obtain ⟨⟨t, q⟩, -, he⟩ := Option.map_eq_some_iff.mp hr
      cases q <;> cases he
  | writeblock =>
    obtain ⟨fuel, blk, prio, nc, nb, s', hr⟩ := hr
    refine ⟨⟨fuel, blk, prio, nc, nb, s', _, hr⟩, ?_⟩
    by_cases hx : lsn = minus1 ∨ oWrite mode = false
    · obtain ⟨e, he⟩ := devWriteblock_refused (s := s) hx fuel blk prio nc nb
      rw [he] at hr
      cases hr
    obtain ⟨hl, hm⟩ := not_or.mp hx
    rw [devWriteblock_eq h hl (by rwa [Bool.not_eq_false] at hm)] at hr
    dsimp only at hr
    split at hr
    · split at hr
      · cases hr
      split at hr
      · split at hr
        · cases hr
        · cases hr
          rfl
      · cases hr
    · obtain ⟨⟨t, q⟩, -, he⟩ := Option.map_eq_some_iff.mp hr
      cases he
  | getblock => exact hr.elim
  | setblock => exact hr.elim

theorem guarded_iff {A N P Q R : Prop} (hn : ¬ A ↔ N) (h : (P → Q) ↔ R) : (A ∧ P → Q) ↔ N ∨ R := by
  rw [and_imp, imp_iff_not_or, hn, h]

theorem getExact_iff (mode : Nat) (h : s.IsDevice fd) :
    (BlockFn.getblock.Accepts mode s fd lsn → s.Inside fd lsn) ↔ s.GetExact fd lsn := by
  rw [getblock_accepts_iff, h.refused_iff]
  refine guarded_iff not_not (guarded_iff not_ne_iff ?_)
  rw [← guard_iff h.size]
  tauto

theorem setExact_iff (mode : Nat) (h : s.IsDevice fd) :
    (BlockFn.setblock.Accepts mode s fd lsn → s.Inside fd lsn) ↔ s.SetExact fd lsn := by
  rw [setblock_accepts_iff, h.refused_iff, ← Nat.not_le]
  refine guarded_iff not_not (guarded_iff not_not ?_)
  rw [← guard_iff h.size]
  tauto

theorem accepts_inside_iff (f : BlockFn) (mode : Nat) {s : Cache} {fd : Nat} (h : s.IsDevice fd) (lsn : Nat) :
    f.Right mode s fd lsn ↔ f.Exact mode s fd lsn := by
  have hr : f.Right mode s fd lsn ↔ (f.Accepts mode s fd lsn → s.Inside fd lsn) := by
    refine ⟨fun h => h.1, fun hi => ⟨hi, fun off ho => ?_⟩⟩
    obtain ⟨ha, rfl⟩ := ho.accepted h
    exact ram_inside (hi ha)
  rw [hr]
  cases f with
  | getblock => exact getExact_iff mode h
  | setblock => exact setExact_iff mode h
  | readblock =>
    rw [readblock_accepts_iff h]
    refine guarded_iff not_ne_iff (guarded_iff (Bool.not_eq_true _).to_iff (guarded_iff not_not ?_))
    by_cases hd : (s.devOf fd).drivertask = memfsMajor
    · simp only [if_pos hd]
      rw [← guard_iff h.size]
      tauto
    · simp only [if_neg hd]
      exact getExact_iff mode h
  | writeblock =>
    rw [writeblock_accepts_iff h]
    refine guarded_iff not_ne_iff (guarded_iff (Bool.not_eq_true _).to_iff ?_)
    by_cases hd : (s.devOf fd).drivertask = memfsMajor
    · simp only [if_pos hd]
      rw [← guard_iff h.size]
      tauto
    · simp only [if_neg hd]
      exact setExact_iff mode h

end

/-- the initrd and a disk, two blocks of 4096 bytes each; block 1 of the disk is cached -/
def twoDisks : Cache where
  fcb i := ⟨.device, i, 4096, 8192⟩
  nfcb := 2
  dev i := if i = 0 then ⟨0, memfsMajor, memfsRamdisk, 1, 0, 0⟩ else ⟨1, 7, 0, 2, 0, 0⟩
  ndev := 2
  devRecent := 2
  pid := 2
  cachelines := 1
  node _ := ⟨1, 1, fun _ => 0, 0⟩
  line _ := 1
  live := [1]
  inflush := 0
  ackdelayed := false
  errno := none
  sent := []

theorem twoDisks_device {fd : Nat} (h : fd < 2) : twoDisks.IsDevice fd :=
  ⟨fun e => by rw [e] at h; exact absurd h (by decide), h, rfl, h, (by decide : 8192 < 2^64)⟩

/-- the last block of the initrd -/
theorem accepts_inside_ram : twoDisks.IsDevice 0 ∧ BlockFn.readblock.Right 3 twoDisks 0 1 :=
  ⟨twoDisks_device (by decide), (accepts_inside_iff .readblock 3 (twoDisks_device (by decide)) 1).mpr
    (Or.inr (Or.inr (Or.inr ⟨fun _ => Or.inl (by decide), fun _ => (by decide : 2 * 4096 ≤ 8192)⟩)))⟩

/-- `(2^52-1+1)*4096` has the lower 64 bits zero: every function takes the block, and the one of the
initrd is in front of it -/
theorem accepts_outside :
    (∃ s, devReadblock 0 3 twoDisks 0 (2^52 - 1) true = some (s, some (.initrd (2^64 - 4096)))) ∧
    (¬ BlockFn.readblock.Right 3 twoDisks 0 (2^52 - 1) ∧ ¬ BlockFn.writeblock.Right 3 twoDisks 0 (2^52 - 1) ∧
      ¬ BlockFn.getblock.Right 3 twoDisks 1 (2^52 - 1) ∧ ¬ BlockFn.setblock.Right 3 twoDisks 1 (2^52 - 1)) := by
  have hram : twoDisks.IsDevice 0 := twoDisks_device (by decide)
  have hin : ∀ fd, ¬ twoDisks.Inside fd (2^52 - 1) :=
    fun fd h => absurd h (by decide : ¬ (2^52 - 1 + 1) * 4096 ≤ 8192)
  have hout : ∀ fd, ¬ twoDisks.Outside fd (2^52 - 1) :=
    fun fd h => absurd h (by decide : ¬ 8192 < w64 ((2^52 - 1 + 1) * 4096))
  have hend : ∀ p, ¬ twoDisks.Unending p (2^52 - 1) := fun p h => by
    have hs : SList twoDisks.next 1 [1] := ⟨rfl, by decide, rfl⟩
    obtain ⟨r, hr⟩ := hs.search_total (q := p) (n := 1) (k := 0) le_rfl
    exact absurd ((h 1).symm.trans hr) (by simp)
  have hread : devReadblock 0 3 twoDisks 0 (2^52 - 1) true =
      some (devfsUsed twoDisks 0, some (.initrd (2^64 - 4096))) := by
    rw [devReadblock_eq hram (by decide) (by decide)]
    dsimp only
    rw [if_neg (by decide), if_pos (show (twoDisks.devOf 0).drivertask = memfsMajor from rfl),
      if_neg (by decide), if_neg (by decide), if_neg (by decide),
      if_pos (show (twoDisks.devOf 0).device = memfsRamdisk from rfl), if_neg (hout 0)]
    rfl
  have hdisk : ¬ twoDisks.Refused 1 (2^52 - 1) := by decide
  refine ⟨⟨_, hread⟩, fun h => hin 0 (h.1 ?_), fun h => hin 0 (h.1 ?_), fun h => hin 1 (h.1 ?_),
    fun h => hin 1 (h.1 ?_)⟩
  · exact (readblock_accepts_iff hram).mpr ⟨by decide, by decide, by decide, Or.inr ⟨rfl, hout 0⟩⟩
  · exact (writeblock_accepts_iff hram).mpr ⟨by decide, by decide, Or.inr ⟨rfl, hout 0⟩⟩
  · exact getblock_accepts_iff.mpr ⟨hdisk, by decide, hout 1, hend _⟩
  · exact setblock_accepts_iff.mpr ⟨hdisk, by decide, hout 1, hend _⟩

end OsZ
