import OsZ.Fs.Cache
import OsZ.Fsz.Super

/-!
# The checksum of the superblock

`detect` and `resizefs` change the number of sectors and `allocateblock` the first free one, and none
of them makes a new checksum.

* `SbSafe`          a call after which the checksum is right nevertheless;
* `superblock_kept` after every run of such calls `detect` accepts what is on the device, and it accepts
                    it after one more call if and only if this is such a call too;
* `detect_spoils`   a device that has become larger.
-/

namespace OsZ
open Function (update update_of_ne update_self)

/-! ## statement -/

/-- a block is written out, dropped and read again; of the first one more is read -/
def FszDev.reload (d : FszDev) (lsn : Nat) (behind : Sector) : FszDev :=
  { d with
    cur := update d.cur lsn
      (store behind 0 (if lsn = 0 then max d.blksize bufsiz else d.blksize) (d.kept lsn))
    dirty := update d.dirty lsn false }

inductive SbOp where
  /-- the device has `size` bytes now -/
  | detect (size : Nat) (c : BlkEnv)
  | resizefs (c : BlkEnv)
  | allocateblock (c : BlkEnv)
  | reload (lsn : Nat) (behind : Sector)

inductive SbStep : FszDev → SbOp → FszDev → Prop where
  | detect {d d' : FszDev} {size : Nat} {c : BlkEnv} {ret : Bool}
      (h : fsdrvDetect { d with filesize := size } c = some (ret, d')) : SbStep d (.detect size c) d'
  | resizefs {d d' : FszDev} {c : BlkEnv} (h : OsZ.resizefs d c = some d') : SbStep d (.resizefs c) d'
  | allocateblock {d d' : FszDev} {c : BlkEnv} {i : Nat} (h : fszAllocateblock d c = some (i, d')) :
      SbStep d (.allocateblock c) d'
  | reload {d : FszDev} {lsn : Nat} {behind : Sector} (h : d.ram = false) :
      SbStep d (.reload lsn behind) (d.reload lsn behind)

/-- the superblock `sb` does not get to the device, or its checksum is the old one -/
def FszDev.KeepsSum (d : FszDev) (c : BlkEnv) (sb : Sector) : Prop :=
  d.Persists c 0 → crc32Calc (d.merged 0 sb) 512 508 = sbChecksum (d.kept 0)

/-- the new size in `detect`, if there is one -/
def DetectSafe (d : FszDev) (size : Nat) (c : BlkEnv) : Prop :=
  (FszDev.readblock { d with filesize := size } c 0).isSome → detectRet (d.cur 0) = true →
    size ≠ w64 (sbNumsec (d.cur 0) * sbBlksize (d.cur 0)) →
    FszDev.KeepsSum { d with filesize := size, blksize := sbBlksize (d.cur 0) } c
      (putLe (d.cur 0) 528 8 (size / sbBlksize (d.cur 0)))

/-- a sector from the free list must not be taken with `lastsec==0`: the block of the list is written
there -/
structure AllocSafe (d : FszDev) (c : BlkEnv) : Prop where
  tail : ∀ sb, allocSource d c = .tail sb → d.KeepsSum c (putLe sb 544 8 (w64 (sbFreesec sb + 1)))
  entry : ∀ fid inode k, allocSource d c = .entry fid inode k → d.lastsec = 0 → d.CanWrite c 0 →
    detectRet (store (d.kept 0) 0 d.blksize (slBlock c d.blksize (slTake d.blksize inode k))) = true

/-- changes of the superblock that have the checksum of the old one -/
def SbSafe (d : FszDev) : SbOp → Prop
  | .detect size c => DetectSafe d size c
  | .resizefs c => d.KeepsSum c (putLe (d.cur 0) 528 8 (d.filesize / d.blksize))
  | .allocateblock c => AllocSafe d c
  | .reload _ _ => True

/-! ## the fields -/

section
variable {d d' : FszDev} {c : BlkEnv} {l lsn i bs k fid v size : Nat} {blk sb inode : Sector} {f f' : Sector}

/-- the fields `numsec` and `freesec`, and the bytes behind the checksum -/
def SbField (i : Nat) : Prop := (528 ≤ i ∧ i < 536) ∨ (544 ≤ i ∧ i < 552) ∨ 1024 ≤ i

theorem detectRet_iff : detectRet f = true ↔
    bytesAt f 512 4 = fszMagic ∧ bytesAt f 1016 4 = fszMagic ∧ sbChecksum f = crc32Calc f 512 508 := by
  unfold detectRet
  rw [Bool.and_eq_true, Bool.and_eq_true, decide_eq_true_eq, decide_eq_true_eq, decide_eq_true_eq, and_assoc]

theorem detectRet_within (h : Within SbField f f') (hf : detectRet f = true) :
    detectRet f' = true ↔ crc32Calc f' 512 508 = sbChecksum f := by
  have h1 : bytesAt f' 512 4 = bytesAt f 512 4 := h.bytesAt (fun i hi => by unfold SbField; omega)
  have h2 : bytesAt f' 1016 4 = bytesAt f 1016 4 := h.bytesAt (fun i hi => by unfold SbField; omega)
  have h3 : sbChecksum f' = sbChecksum f := h.leBytes (fun i hi => by unfold SbField; omega)
  rw [detectRet_iff] at hf ⊢
  rw [h1, h2, h3]
  constructor
  · exact fun h => h.2.2.symm
  · exact fun h => ⟨hf.1, hf.2.1, h.symm⟩

theorem within_numsec (f : Sector) (v : Nat) : Within SbField f (putLe f 528 8 v) :=
  within_store (fun i hi => by unfold SbField; omega)

theorem within_freesec (f : Sector) (v : Nat) : Within SbField f (putLe f 544 8 v) :=
  within_store (fun i hi => by unfold SbField; omega)

/-! ## one call -/

/-- the buffer of the superblock and the device differ in these fields only -/
def FszDev.Alike (d : FszDev) : Prop := Within SbField (d.kept 0) (d.cur 0)

theorem FszDev.Alike.merged (h : d.Alike) (hf : Within SbField (d.cur 0) f) :
    Within SbField (d.kept 0) (d.merged 0 f) := by
  intro i hi
  have hi' : f i = d.kept 0 i := (hf i hi).trans (h i hi)
  unfold FszDev.merged
  split
  · exact hi'
  · unfold store
    split
    · exact hi'
    · rfl

theorem FszDev.Alike.update (h : d.Alike) (hv : detectRet (d.kept 0) = true)
    (hf : Within SbField (d.cur 0) f) :
    ((d.edit 0 f).writeblock c 0 f).Alike ∧
      (detectRet (((d.edit 0 f).writeblock c 0 f).kept 0) = true ↔ d.KeepsSum c f) := by
  unfold FszDev.Alike
  rw [FszDev.update_kept, FszDev.update_cur, update_self]
  unfold FszDev.KeepsSum
  by_cases hp : d.Persists c 0
  · rw [if_pos hp, update_self, detectRet_within (h.merged hf) hv]
    constructor
    · intro i hi
      have hi' : f i = d.kept 0 i := (hf i hi).trans (h i hi)
      rw [h.merged hf i hi, hi']
    · exact ⟨fun hk _ => hk, fun hk => hk hp⟩
  · rw [if_neg hp]
    refine ⟨fun i hi => (hf i hi).trans (h i hi), ?_⟩
    rw [hv]
    exact ⟨fun _ hp' => absurd hp' hp, fun _ => rfl⟩

theorem resizefs_step (h : d.Alike) (hv : detectRet (d.kept 0) = true) (hs : resizefs d c = some d') :
    d'.Alike ∧ (detectRet (d'.kept 0) = true ↔
      d.KeepsSum c (putLe (d.cur 0) 528 8 (d.filesize / d.blksize))) := by
  obtain ⟨sb, hsb, rfl⟩ := Option.map_eq_some_iff.mp hs
  rw [FszDev.readblock_eq hsb]
  exact h.update hv (within_numsec _ _)

theorem detect_step (h : d.Alike) (hv : detectRet (d.kept 0) = true) {ret : Bool}
    (hs : fsdrvDetect { d with filesize := size } c = some (ret, d')) :
    d'.Alike ∧ (detectRet (d'.kept 0) = true ↔ DetectSafe d size c) := by
  have hsame : detectRet (d.kept 0) = true ↔ True := iff_true_intro hv
  unfold fsdrvDetect at hs
  unfold DetectSafe
  cases hr : FszDev.readblock { d with filesize := size } c 0 with
  | none =>
    rw [hr] at hs
    obtain ⟨-, rfl⟩ := Prod.mk.inj (Option.some.inj hs)
    exact ⟨h, hsame.trans (iff_true_intro (fun hsome => absurd hsome (by decide))).symm⟩
  | some blk =>
    rw [hr] at hs
    dsimp only at hs
    rw [FszDev.readblock_eq hr] at hs
    dsimp only [fszDetect] at hs
    by_cases hret : detectRet (d.cur 0) = true
    · rw [if_pos hret] at hs
      by_cases hsize : size ≠ w64 (sbNumsec (d.cur 0) * sbBlksize (d.cur 0))
      · rw [if_pos hsize] at hs
        obtain ⟨e, he, hpair⟩ := Option.map_eq_some_iff.mp hs
        obtain ⟨-, rfl⟩ := Prod.mk.inj hpair
        have halike : FszDev.Alike { d with filesize := size, blksize := sbBlksize (d.cur 0) } := h
        obtain ⟨h1, h2⟩ := resizefs_step halike hv he
        refine ⟨h1, h2.trans ⟨fun hk _ _ _ => hk, fun hk => hk rfl hret hsize⟩⟩
      · rw [if_neg hsize] at hs
        obtain ⟨-, rfl⟩ := Prod.mk.inj (Option.some.inj hs)
        exact ⟨h, hsame.trans (iff_true_intro (fun _ _ hne => absurd hne hsize)).symm⟩
    · rw [if_neg hret] at hs
      obtain ⟨-, rfl⟩ := Prod.mk.inj (Option.some.inj hs)
      exact ⟨h, hsame.trans (iff_true_intro (fun _ hret' => absurd hret' hret)).symm⟩

/-- what is known of the place that `allocSource` finds -/
inductive SourceSpec (d : FszDev) : AllocSource → Prop where
  | nowhere : SourceSpec d .nowhere
  | tail (h : sbFreesec (d.cur 0) < sbNumsec (d.cur 0)) : SourceSpec d (.tail (d.cur 0))
  | entry {k : Nat} (hfid : sbFreesecfid (d.cur 0) ≠ 0)
      (h : slFind d.blksize (d.cur (sbFreesecfid (d.cur 0))) = some k) :
      SourceSpec d (.entry (sbFreesecfid (d.cur 0)) (d.cur (sbFreesecfid (d.cur 0))) k)

theorem tailSource_spec (d : FszDev) (c : BlkEnv) : SourceSpec d (tailSource d c (d.cur 0)) := by
  unfold tailSource
  split
  · next hlt =>
    split
    · exact .nowhere
    · exact .tail hlt
  · exact .nowhere

theorem listSource_spec (c : BlkEnv) (hfid : sbFreesecfid (d.cur 0) ≠ 0) :
    SourceSpec d (listSource d c (d.cur 0) (d.cur (sbFreesecfid (d.cur 0)))) := by
  unfold listSource
  split
  · exact tailSource_spec d c
  · next k hk =>
    split
    · exact .nowhere
    · exact .entry hfid hk

theorem allocSource_spec (d : FszDev) (c : BlkEnv) : SourceSpec d (allocSource d c) := by
  unfold allocSource
  split
  · exact .nowhere
  · next sb h0 =>
    rw [FszDev.readblock_eq h0]
    split
    · next hfid =>
      split
      · exact .nowhere
      · next inode h1 =>
        rw [FszDev.readblock_eq h1]
        split
        · exact .nowhere
        · exact listSource_spec c hfid
    · exact tailSource_spec d c

theorem FszDev.edit_kept_ne (h : l ≠ fid) : (d.edit fid blk).kept l = d.kept l := by
  unfold FszDev.edit
  dsimp only
  split
  · exact update_of_ne h _ _
  · split
    · exact update_of_ne h _ _
    · rfl

theorem FszDev.writeblock_ne (h : l ≠ lsn) :
    (d.writeblock c lsn blk).kept l = d.kept l ∧ (d.writeblock c lsn blk).cur l = d.cur l := by
  unfold FszDev.writeblock
  split
  · exact ⟨update_of_ne h _ _, update_of_ne h _ _⟩
  · exact ⟨rfl, rfl⟩

theorem alloc_step (h : d.Alike) (hv : detectRet (d.kept 0) = true)
    (hs : fszAllocateblock d c = some (i, d')) :
    d'.Alike ∧ (detectRet (d'.kept 0) = true ↔ AllocSafe d c) := by
  have hspec := allocSource_spec d c
  unfold fszAllocateblock at hs
  generalize hsrc : allocSource d c = src at hs hspec
  cases hspec with
  | nowhere =>
    obtain ⟨-, rfl⟩ := Prod.mk.inj (Option.some.inj hs)
    refine ⟨h, ⟨fun _ => ⟨fun sb hsb => ?_, fun fid inode k he => ?_⟩, fun _ => hv⟩⟩
    · rw [hsrc] at hsb
      cases hsb
    · rw [hsrc] at he
      cases he
  | tail hlt =>
    obtain ⟨-, rfl⟩ := Prod.mk.inj (Option.some.inj hs)
    obtain ⟨h1, h2⟩ := h.update (c := c) hv (within_freesec (d.cur 0) (w64 (sbFreesec (d.cur 0) + 1)))
    refine ⟨h1, h2.trans ⟨fun hk => ⟨fun sb hsb => ?_, fun fid inode k he => ?_⟩, fun hsafe => hsafe.tail _ hsrc⟩⟩
    · rw [hsrc] at hsb
      cases hsb
      exact hk
    · rw [hsrc] at he
      cases he
  | @entry k hfid hk =>
    dsimp only at hs
    split at hs
    · cases hs
    obtain ⟨-, rfl⟩ := Prod.mk.inj (Option.some.inj hs)
    obtain ⟨inode, hinode⟩ : ∃ inode, inode = slTake d.blksize (d.cur (sbFreesecfid (d.cur 0))) k := ⟨_, rfl⟩
    obtain ⟨fid, hf⟩ : ∃ fid, fid = sbFreesecfid (d.cur 0) := ⟨_, rfl⟩
    have hsafe : AllocSafe d c ↔ (d.lastsec = 0 → d.CanWrite c 0 →
        detectRet (store (d.kept 0) 0 d.blksize (slBlock c d.blksize inode)) = true) := by
      rw [hinode]
      refine ⟨fun hsafe => hsafe.entry _ _ _ hsrc, fun he => ⟨fun sb hsb => ?_, fun fid' inode' k' he' => ?_⟩⟩
      · rw [hsrc] at hsb
        cases hsb
      · rw [hsrc] at he'
        obtain ⟨-, rfl, rfl⟩ := AllocSource.entry.inj he'
        exact he
    rw [← hinode, ← hf]
    rw [← hf] at hfid
    have hkept : (d.edit fid inode).kept 0 = d.kept 0 := FszDev.edit_kept_ne hfid.symm
    have hcur : (d.edit fid inode).cur 0 = d.cur 0 := update_of_ne hfid.symm _ _
    rw [hsafe]
    unfold FszDev.Alike at h ⊢
    by_cases hlast : d.lastsec = 0
    · rw [hlast]
      unfold FszDev.writeblock
      by_cases hw : d.CanWrite c 0
      · rw [if_pos (FszDev.edit_canWrite.mpr hw)]
        dsimp only
        rw [update_self, update_self, hkept, hcur]
        refine ⟨fun i hi => ?_, ⟨fun hd _ _ => hd, fun hd => hd rfl hw⟩⟩
        unfold store
        split
        · rfl
        · exact h i hi
      · rw [if_neg (fun hw' => hw (FszDev.edit_canWrite.mp hw')), hkept, hcur]
        exact ⟨h, ⟨fun _ _ hw' => absurd hw' hw, fun _ => hv⟩⟩
    · obtain ⟨h1, h2⟩ := @FszDev.writeblock_ne (d.edit fid inode) c 0 d.lastsec
        (slBlock c d.blksize inode) (Ne.symm hlast)
      rw [h1, h2, hkept, hcur]
      exact ⟨h, ⟨fun _ hl => absurd hl hlast, fun _ => hv⟩⟩

theorem FszDev.Alike.reload (h : d.Alike) (lsn : Nat) (behind : Sector) : (d.reload lsn behind).Alike := by
  unfold FszDev.Alike FszDev.reload
  dsimp only
  by_cases hlsn : lsn = 0
  · rw [hlsn, update_self, if_pos rfl]
    intro i hi
    have hlt : i < 1024 := by
      unfold SbField at hi
      omega
    have hmax : bufsiz ≤ max d.blksize bufsiz := le_max_right _ _
    unfold bufsiz at hmax
    have hin : 0 ≤ i ∧ i < 0 + max d.blksize bufsiz := ⟨Nat.zero_le i, by unfold bufsiz; omega⟩
    unfold store
    rw [if_pos hin, Nat.sub_zero]
  · rw [update_of_ne (Ne.symm hlsn)]
    exact h

/-! ## runs -/

theorem SbStep.spec {op : SbOp} (hs : SbStep d op d') (h : d.Alike) (hv : detectRet (d.kept 0) = true) :
    d'.Alike ∧ (detectRet (d'.kept 0) = true ↔ SbSafe d op) := by
  cases hs with
  | detect hs => exact detect_step h hv hs
  | resizefs hs => exact resizefs_step h hv hs
  | allocateblock hs => exact alloc_step h hv hs
  | reload hs => exact ⟨h.reload _ _, iff_of_true hv trivial⟩

end

theorem superblock_kept {d₀ d : FszDev} (hsame : d₀.cur 0 = d₀.kept 0) (hv : detectRet (d₀.kept 0) = true)
    (h : Reach SbStep SbSafe d₀ d) :
    detectRet (d.kept 0) = true ∧
      ∀ op d', SbStep d op d' → (detectRet (d'.kept 0) = true ↔ SbSafe d op) := by
  have hinv : d.Alike ∧ detectRet (d.kept 0) = true := by
    refine h.keeps (I := fun d => d.Alike ∧ detectRet (d.kept 0) = true) ⟨?_, hv⟩ ?_
    · unfold FszDev.Alike
      rw [hsame]
      exact Within.refl _ _
    · intro u op u' hu hsafe hstep
      obtain ⟨h1, h2⟩ := hstep.spec hu.1 hu.2
      exact ⟨h1, h2.mpr hsafe⟩
  exact ⟨hinv.2, fun op d' hstep => (hstep.spec hinv.1 hinv.2).2⟩

/-- the superblock of 16 blocks of 4096 bytes, all of them in use -/
def plainSuper : Sector :=
  let f := putList (fun _ => 0) 512 fszMagic
  let f := putLe f 520 2 1
  let f := putLe f 528 8 16
  let f := putLe f 544 8 16
  let f := putList f 1016 fszMagic
  putLe f 1020 4 0x9FD1A8B1

/-- a memory disk with 16 blocks -/
def plainDev : FszDev :=
  ⟨4096, 65536, true, true, fun _ => plainSuper, fun _ => plainSuper, fun _ => false, 0⟩

def allReady : BlkEnv := ⟨fun _ => true, true, 0, fun _ => 0⟩

theorem plainSuper_fields : detectRet plainSuper = true ∧ sbNumsec plainSuper = 16 ∧
    sbBlksize plainSuper = 4096 := by
  decide +kernel

theorem superblock_kept_same : ∃ d', SbStep plainDev (.resizefs allReady) d' ∧ detectRet (d'.kept 0) = true := by
  have hstep : SbStep plainDev (.resizefs allReady)
      ((plainDev.edit 0 (putLe plainSuper 528 8 16)).writeblock allReady 0
        (putLe plainSuper 528 8 16)) := SbStep.resizefs rfl
  have hsafe : SbSafe plainDev (.resizefs allReady) := by
    intro _
    decide +kernel
  have hsame : plainDev.cur 0 = plainDev.kept 0 := rfl
  have hv : detectRet (plainDev.kept 0) = true := plainSuper_fields.1
  exact ⟨_, hstep, (superblock_kept hsame hv (Reach.refl.tail hsafe hstep)).1⟩

/-- the disk has 32 blocks now -/
theorem detect_spoils : detectRet (plainDev.kept 0) = true ∧
    ∃ d', SbStep plainDev (.detect 131072 allReady) d' ∧ detectRet (d'.kept 0) = false := by
  obtain ⟨hret, hnum, hbs⟩ := plainSuper_fields
  have hread : FszDev.readblock { plainDev with filesize := 131072 } allReady 0 = some plainSuper := rfl
  have hsize : 131072 ≠ w64 (sbNumsec plainSuper * 4096) := by
    rw [hnum]
    decide
  have hdetect : fsdrvDetect { plainDev with filesize := 131072 } allReady
      = (resizefs { plainDev with filesize := 131072 } allReady).map (fun d => (true, d)) := by
    unfold fsdrvDetect
    rw [hread]
    dsimp only [fszDetect]
    rw [if_pos hret, hbs, if_pos hsize]
    rfl
  have hresize : (resizefs { plainDev with filesize := 131072 } allReady).map (fun d => (true, d))
      = some (true, (FszDev.edit { plainDev with filesize := 131072 } 0
          (putLe plainSuper 528 8 32)).writeblock allReady 0 (putLe plainSuper 528 8 32)) := by
    unfold resizefs
    rw [hread]
    rfl
  refine ⟨hret, (FszDev.edit { plainDev with filesize := 131072 } 0 (putLe plainSuper 528 8 32)).writeblock
    allReady 0 (putLe plainSuper 528 8 32), SbStep.detect (hdetect.trans hresize), ?_⟩
  decide +kernel

end OsZ
