import OsZ.Fs.Model
import OsZ.Fsz.Layout

/-!
# Reading a file in the FS/Z driver (`drivers/fs/fsz/main.c`)

`read` returns a pointer to the data at an offset of a file, and how much of it there is.

* `fszRead`         `read(fd,file,offs,&s)`;
* `ReadRight`    the answer is a piece of the file;
* `ReadPlain`    requests that are served whatever the data sectors hold;
* `ReadCond`     when the answer to a request is right, in terms of the sectors of the volume;
* `read_right`   that it is.

A pointer is the function of the bytes behind it.  `none` is a division by zero: the loop
`j*=bs` multiplies the block size once per level, in 64 bits.
-/

namespace OsZ

/-- the storage `fd` as `read` sees it: `nfcb`, `fcb[fd].device.blksize` and `readblock(fd,lsn)` -/
structure FszVol where
  nfcb : Nat
  fd : Nat
  blksize : Nat
  readblock : Nat → Option Sector

/-- the result of `read`, the value of `*s` and `lastsec` -/
structure ReadOut where
  data : Option Sector
  s : Nat
  lastsec : Nat

/-- the check for the end of the file; `*s==0` is not possible behind it, since `offs<in->size` -/
def clip (size offs s : Nat) : Nat := if size < w64 (offs + s) then size - offs else s

/-- how much the top level covers: `j=1; for(i=0;i<l;i++) j*=bs;` -/
def sdSpan (bs : Nat) : Nat → Nat
  | 0 => 1
  | l+1 => w64 (sdSpan bs l * bs)

def sdWalk (v : FszVol) (offs s : Nat) : Nat → Nat → Sector → Nat → Option ReadOut
  | 0, _, blk, last => some ⟨some (fun i => blk (offs % v.blksize + i)), s, last⟩
  | l+1, j, blk, last =>
    if j = 0 then none
    else if sdEntry blk 0 (offs / j) = 0 then some ⟨none, s, last⟩
    else match v.readblock (sdEntry blk 0 (offs / j)) with
      | none => some ⟨none, 0, last⟩
      | some blk' => sdWalk v offs s l (j / v.blksize) blk' (sdEntry blk 0 (offs / j))

/-- `offs` for the sector directories -/
def sdOffs (bs offs : Nat) : Nat := if offs < bs then 0 else offs / bs * bs

/-- `*s` for the sector directories -/
def sdSize (bs size offs s : Nat) : Nat :=
  if offs < bs then (if bs - offs < s then bs - offs else s) else clip size (offs / bs * bs) s

/-- behind the checks; `s` is cut at the end of the file -/
def fszReadData (v : FszVol) (file offs s : Nat) (inode : Sector) : Option ReadOut :=
  if inTranslation inode = 0xFF ∨ inFiletype inode = typeSymlink ∨ inFiletype inode = typeUnion then
    some ⟨some (fun i => inode (inlinedata + offs + i)), s, file⟩
  else if inTranslation inode = 0x7F then
    if sdEntry inode inlinedata (offs / v.blksize) = 0 then some ⟨none, s, file⟩
    else match v.readblock (inSec inode) with
      | none => some ⟨none, 0, file⟩
      | some blk => some ⟨some blk, s, file⟩
  else if inSec inode = 0 then some ⟨none, s, file⟩
  else match v.readblock (inSec inode) with
    | none => some ⟨none, 0, file⟩
    | some blk =>
      if inTranslation inode = 0 then some ⟨some (fun i => blk (offs + i)), s, inSec inode⟩
      else sdWalk v (sdOffs v.blksize offs) (sdSize v.blksize (inSize inode) offs s)
        (inTranslation inode) (sdSpan v.blksize (inTranslation inode)) blk (inSec inode)

def fszRead (v : FszVol) (lastsec file offs s : Nat) : Option ReadOut :=
  match v.readblock file with
  | none => some ⟨none, 0, lastsec⟩
  | some inode =>
    if file = 0 ∨ v.fd = minus1 ∨ v.nfcb ≤ v.fd ∨ v.blksize = 0 ∨ bytesAt inode 0 4 ≠ inMagic ∨
        inSize inode ≤ offs then some ⟨none, 0, lastsec⟩
    else fszReadData v file offs (clip (inSize inode) offs s) inode

/-! ## what is expected -/

/-- an open storage with all blocks cached -/
structure FszVol.Cached (v : FszVol) (D : Disk) : Prop where
  fd_ne : v.fd ≠ minus1
  fd_lt : v.fd < v.nfcb
  blocks : ∀ lsn, v.readblock lsn = some (D lsn)

/-- the blocks of the `n` bytes at `offs` are not there -/
def Holes (D : Disk) (bs file : Nat) (t : Translation) (offs n : Nat) : Prop :=
  ∀ i < n, dataSector D bs file t ((offs + i) / bs) = 0

/-- the bytes from `p` on are the `n` bytes of the file at `offs` -/
def Shows (D : Disk) (bs file : Nat) (t : Translation) (offs n : Nat) (p : Sector) : Prop :=
  ∀ i < n, p i = fileByte D bs file t (offs + i)

structure ReadRight (D : Disk) (bs file : Nat) (t : Translation) (size offs : Nat)
    (r : ReadOut) : Prop where
  pos : 0 < r.s
  stays : offs + r.s ≤ size
  data : ∀ p, r.data = some p → Shows D bs file t offs r.s p
  zeros : r.data = none → Holes D bs file t offs r.s

/-- The sum `offs+s` stays in 64 bits, and the translation is served: data in an inode of the usual
size, a single sector, a hole of a file with its directory in the inode, or sector directories when there
are none, or the span of the top level is a 64-bit number, the block is one of those below the first
entries of all levels but the last, and either the offset is on a block boundary and the request stays in
the block (the first block is cut by `read`), or all of the request is a hole. -/
def ReadPlain (D : Disk) (bs file : Nat) (t : Translation) (size offs s : Nat) : Prop :=
  offs + s < 2^64 ∧
  match t with
  | .inline => bigInode D = false
  | .direct => True
  | .sdInline => bigInode D = false ∧ Holes D bs file t offs (min s (size - offs))
  | .sd l => inSec (D file) = 0 ∨ (bs^l < 2^64 ∧ offs / bs < bs / 16 ∧
      ((offs % bs = 0 ∧ (offs < bs ∨ min s (size - offs) ≤ bs)) ∨ Holes D bs file t offs (min s (size - offs))))

/-- the sector that block `b` has for `read`: the entry of each level is the number of the block divided by
a power of the block size -/
def readSector (D : Disk) (bs : Nat) : Nat → Nat → Nat → Nat
  | 0, lsn, _ => lsn
  | l+1, lsn, b => if lsn = 0 then 0 else readSector D bs l (sdEntry (D lsn) 0 (b / bs^l)) b

/-- how much is read through sector directories -/
def readLen (bs size offs s : Nat) : Nat :=
  if offs < bs then min (min s (size - offs)) (bs - offs) else min s (size - offs)

/-- Where `read` looks there must be the bytes of the file, or a hole in both: in an inode at 1024 in place of
2048, in the sector of the inode from its first byte on, or in the sector that `readSector` finds, from its
first byte on. -/
def ReadCond (D : Disk) (bs file : Nat) (t : Translation) (size offs s : Nat) : Prop :=
  match t with
  | .inline => offs + s < 2^64 ∧ (bigInode D = false ∨
      Shows D bs file t offs (min s (size - offs)) ((D file).from (inlinedata + offs)))
  | .direct => offs + s < 2^64
  | .sdInline => offs + s < 2^64 ∧
      if sdEntry (D file) inlinedata (offs / bs) = 0 then Holes D bs file t offs (min s (size - offs))
      else Shows D bs file t offs (min s (size - offs)) (D (inSec (D file)))
  | .sd l =>
      if inSec (D file) = 0 then offs + s < 2^64
      else bs^l < 2^64 ∧ (offs + s < 2^64 ∨ (offs < bs ∧ bs ≤ size)) ∧
        if readSector D bs l (inSec (D file)) (offs / bs) = 0 then Holes D bs file t offs (readLen bs size offs s)
        else Shows D bs file t offs (readLen bs size offs s) (D (readSector D bs l (inSec (D file)) (offs / bs)))

variable {v : FszVol} {D : Disk} {bs file size offs s last l lsn b m n : Nat} {t : Translation}

/-! ## the sizes -/

theorem clip_eq (h : offs + s < 2^64) (ho : offs < size) : clip size offs s = min s (size - offs) := by
  unfold clip
  rw [w64_of_lt h]
  split_ifs <;> omega

/-- a sum that wraps around hides the end of the file -/
theorem clip_wrap (h : 2^64 ≤ offs + s) (hs : s < 2^64) (ho : offs < size) (hz : size < 2^64) :
    clip size offs s = s := by
  have e : w64 (offs + s) = offs + s - 2^64 := by
    unfold w64
    omega
  unfold clip
  rw [e, if_neg (by omega)]

theorem clip_pos (hs : 0 < s) (ho : offs < size) : 0 < clip size offs s := by
  unfold clip
  split_ifs <;> omega

theorem sdSpan_eq (bs l : Nat) : sdSpan bs l = bs^l % 2^64 := by
  induction l with
  | zero => rfl
  | succ l ih => rw [sdSpan, ih, w64, Nat.mod_mul_mod, ← pow_succ bs]

theorem sdSpan_zero (h : ¬ (2^m)^l < 2^64) : sdSpan (2^m) l = 0 := by
  rw [sdSpan_eq]
  apply Nat.mod_eq_zero_of_dvd
  rw [← pow_mul] at h ⊢
  apply pow_dvd_pow
  by_contra hc
  exact h (Nat.pow_lt_pow_right (by norm_num) (by omega))

theorem sdOffs_eq (bs offs : Nat) : sdOffs bs offs = offs / bs * bs := by
  unfold sdOffs
  split_ifs with c
  · rw [Nat.div_eq_of_lt c, Nat.zero_mul]
  · rfl

section
variable (ho : offs < size) (hz : size < 2^64) (hs64 : s < 2^64)
include ho hz hs64

theorem clip_stays : offs + clip size offs s ≤ size ↔ offs + s < 2^64 := by
  by_cases hw : offs + s < 2^64
  · rw [clip_eq hw ho]
    omega
  · rw [clip_wrap (by omega) hs64 ho hz]
    omega

theorem sdSize_stays : offs + sdSize bs size offs (clip size offs s) ≤ size ↔
    offs + s < 2^64 ∨ (offs < bs ∧ bs ≤ size) := by
  have hdown := Nat.div_mul_le_self offs bs
  by_cases hw : offs + s < 2^64
  · rw [clip_eq hw ho]
    unfold sdSize
    split_ifs
    · omega
    · omega
    · rw [clip_eq (by omega) (by omega)]
      omega
  · rw [clip_wrap (by omega) hs64 ho hz]
    unfold sdSize
    split_ifs with c1 c2
    · omega
    · omega
    · -- only a smaller offset could hide that the sum wraps around, and then the rest is too long
      unfold clip w64
      split_ifs <;> omega

theorem sdSize_eq (h : offs + s < 2^64 ∨ (offs < bs ∧ bs ≤ size)) :
    sdSize bs size offs (clip size offs s) = readLen bs size offs s := by
  have hdown := Nat.div_mul_le_self offs bs
  unfold readLen
  by_cases hw : offs + s < 2^64
  · rw [clip_eq hw ho]
    unfold sdSize
    split_ifs
    · omega
    · omega
    · rw [clip_eq (by omega) (by omega)]
      omega
  · rw [clip_wrap (by omega) hs64 ho hz]
    unfold sdSize
    split_ifs <;> omega

end

theorem sdSize_pos (hs : 0 < s) (ho : offs < size) : 0 < sdSize bs size offs (clip size offs s) := by
  have hdown := Nat.div_mul_le_self offs bs
  have hc := clip_pos hs ho
  unfold sdSize
  split_ifs
  · omega
  · omega
  · exact clip_pos hc (by omega)

/-! ## the answer, by the translation of the file -/

namespace FszFile

theorem read_eq (hf : FszFile D v.blksize file t size) (hv : v.Cached D) (hb : 0 < v.blksize)
    (ho : offs < size) :
    fszRead v last file offs s = fszReadData v file offs (clip size offs s) (D file) := by
  have hc : ¬ (file = 0 ∨ v.fd = minus1 ∨ v.nfcb ≤ v.fd ∨ v.blksize = 0 ∨
      bytesAt (D file) 0 4 ≠ inMagic ∨ inSize (D file) ≤ offs) := by
    have h1 := hv.fd_lt
    have h2 := hf.size_eq
    simp only [hf.file_ne, hv.fd_ne, hf.magic, false_or, ne_eq, not_true_eq_false]
    omega
  unfold fszRead
  rw [hv.blocks file]
  dsimp only
  rw [if_neg hc, hf.size_eq]

theorem data_inline (hf : FszFile D v.blksize file .inline size) :
    fszReadData v file offs s (D file) =
      some ⟨some (fun i => D file (inlinedata + offs + i)), s, file⟩ := by
  have ht : inTranslation (D file) = 0xFF := hf.translation
  unfold fszReadData
  rw [if_pos (Or.inl ht)]

theorem not_inline (hf : FszFile D bs file t size) (ht : t ≠ .inline) :
    ¬ (inTranslation (D file) = 0xFF ∨ inFiletype (D file) = typeSymlink ∨
      inFiletype (D file) = typeUnion) := by
  intro h
  apply ht
  rcases h with h | h
  · rw [hf.translation] at h
    have hl := hf.levels
    cases t with
    | inline => rfl
    | direct => cases h
    | sdInline => cases h
    | sd l =>
      have hl7 : l ≤ 7 := hl.2
      have hl255 : l = 255 := h
      omega
  · exact hf.inlined h

theorem data_direct (hf : FszFile D v.blksize file .direct size) (hv : v.Cached D) :
    fszReadData v file offs s (D file) =
      if inSec (D file) = 0 then some ⟨none, s, file⟩
      else some ⟨some (fun i => D (inSec (D file)) (offs + i)), s, inSec (D file)⟩ := by
  have ht : inTranslation (D file) = 0 := hf.translation
  unfold fszReadData
  rw [if_neg (hf.not_inline (by decide)), if_neg (by omega), hv.blocks]
  dsimp only
  rw [if_pos ht]

theorem data_sdInline (hf : FszFile D v.blksize file .sdInline size) (hv : v.Cached D) :
    fszReadData v file offs s (D file) =
      if sdEntry (D file) inlinedata (offs / v.blksize) = 0 then some ⟨none, s, file⟩
      else some ⟨some (D (inSec (D file))), s, file⟩ := by
  have ht : inTranslation (D file) = 0x7F := hf.translation
  unfold fszReadData
  rw [if_neg (hf.not_inline (by decide)), if_pos ht, hv.blocks]

theorem data_sd (hf : FszFile D v.blksize file (.sd l) size) (hv : v.Cached D) :
    fszReadData v file offs s (D file) =
      if inSec (D file) = 0 then some ⟨none, s, file⟩
      else sdWalk v (sdOffs v.blksize offs) (sdSize v.blksize size offs s) l (sdSpan v.blksize l)
        (D (inSec (D file))) (inSec (D file)) := by
  have ht : inTranslation (D file) = l := hf.translation
  have hl : 1 ≤ l ∧ l ≤ 7 := hf.levels
  unfold fszReadData
  rw [if_neg (hf.not_inline (by simp)), if_neg (by omega), hv.blocks]
  dsimp only
  rw [if_neg (show ¬ inTranslation (D file) = 0 by omega), ht, hf.size_eq]

end FszFile

/-! ## the levels of sector directories -/

theorem sdWalk_sector (s l last : Nat) (hv : v.Cached D) (hpos : 0 < v.blksize) (hl : lsn ≠ 0) :
    ∃ last', sdWalk v (b * v.blksize) s l (v.blksize^l) (D lsn) last =
      some ⟨if readSector D v.blksize l lsn b = 0 then none
        else some (D (readSector D v.blksize l lsn b)), s, last'⟩ := by
  induction l generalizing lsn last with
  | zero =>
    refine ⟨last, ?_⟩
    rw [readSector, if_neg hl, sdWalk, Nat.mul_mod_left]
    simp only [Nat.zero_add]
  | succ l ih =>
    have hidx : b * v.blksize / v.blksize^(l+1) = b / v.blksize^l := by
      rw [pow_succ, Nat.mul_div_mul_right _ _ hpos]
    have hj : v.blksize^(l+1) ≠ 0 := (Nat.pow_pos hpos).ne'
    have hdiv : v.blksize^(l+1) / v.blksize = v.blksize^l := by
      rw [pow_succ, Nat.mul_div_cancel _ hpos]
    rw [readSector, if_neg hl, sdWalk, if_neg hj, hidx, hdiv, hv.blocks]
    by_cases he : sdEntry (D lsn) 0 (b / v.blksize^l) = 0
    · have hzero : readSector D v.blksize l 0 b = 0 := by cases l <;> rfl
      rw [if_pos he, he, hzero]
      exact ⟨last, rfl⟩
    · rw [if_neg he]
      exact ih _ he

/-- a block below the first entries: `read` divides the number by the powers of the block size,
the layout by the powers of the number of entries, and both give 0 above the last level -/
theorem readSector_eq (D : Disk) (l lsn : Nat) (hb : b < bs / 16) : readSector D bs l lsn b =
    sdLookup D bs l lsn b := by
  induction l generalizing lsn with
  | zero => rfl
  | succ l ih =>
    have hidx : b / bs^l = b / (bs / 16)^l % (bs / 16) := by
      cases l with
      | zero => rw [pow_zero, pow_zero, Nat.div_one, Nat.mod_eq_of_lt hb]
      | succ l =>
        have h1 : b / bs^(l+1) = 0 := by
          apply Nat.div_eq_of_lt
          apply lt_of_lt_of_le _ (Nat.le_self_pow (Nat.succ_ne_zero l) bs)
          omega
        have h2 : b / (bs / 16)^(l+1) = 0 := by
          apply Nat.div_eq_of_lt
          exact lt_of_lt_of_le hb (Nat.le_self_pow (Nat.succ_ne_zero l) _)
        rw [h1, h2, Nat.zero_mod]
    rw [readSector, sdLookup, hidx, ih]

/-! ## right answers -/

theorem readRight_iff {data : Option Sector} (hn : 0 < n) : ReadRight D bs file t size offs ⟨data, n, last⟩ ↔
    offs + n ≤ size ∧ match data with
      | some p => Shows D bs file t offs n p
      | none => Holes D bs file t offs n := by
  constructor
  · intro h
    refine ⟨h.stays, ?_⟩
    cases data with
    | none => exact h.zeros rfl
    | some p => exact h.data p rfl
  · rintro ⟨hstays, h⟩
    cases data with
    | none => exact ⟨hn, hstays, nofun, fun _ => h⟩
    | some p => exact ⟨hn, hstays, fun q hq => Option.some.inj hq ▸ h, nofun⟩

theorem Holes.mono {k : Nat} (h : Holes D bs file t offs n) (hk : k ≤ n) : Holes D bs file t offs k :=
  fun i hi => h i (by omega)

section
variable (hv : v.Cached D) (hpos : 0 < v.blksize) (ho : offs < size) (hs : 0 < s) (hz : size < 2^64) (hs64 : s < 2^64)
include hv hpos ho hs hz hs64

theorem FszFile.right_inline (hf : FszFile D v.blksize file .inline size) :
    (∃ r, fszRead v last file offs s = some r ∧ ReadRight D v.blksize file .inline size offs r) ↔
      ReadCond D v.blksize file .inline size offs s := by
  have hsame : bigInode D = false → ∀ n, Shows D v.blksize file .inline offs n fun i => D file
    (inlinedata + offs + i) := by
    intro hbig n i _
    unfold fileByte
    dsimp only
    rw [if_pos rfl, hbig, Nat.add_assoc]
    rfl
  rw [hf.read_eq hv hpos ho, hf.data_inline]
  simp only [Option.some.injEq, exists_eq_left']
  rw [readRight_iff (clip_pos hs ho), clip_stays ho hz hs64]
  refine and_congr_right fun hw => ?_
  rw [clip_eq hw ho]
  constructor
  · exact Or.inr
  · rintro (hbig | h)
    · exact hsame hbig _
    · exact h

theorem FszFile.right_direct (hf : FszFile D v.blksize file .direct size) :
    (∃ r, fszRead v last file offs s = some r ∧ ReadRight D v.blksize file .direct size offs r) ↔
      ReadCond D v.blksize file .direct size offs s := by
  have hcap : size ≤ v.blksize := hf.fits
  rw [hf.read_eq hv hpos ho, hf.data_direct hv]
  by_cases hsec : inSec (D file) = 0
  · rw [if_pos hsec]
    simp only [Option.some.injEq, exists_eq_left']
    rw [readRight_iff (clip_pos hs ho), clip_stays ho hz hs64]
    exact and_iff_left fun i _ => hsec
  · rw [if_neg hsec]
    simp only [Option.some.injEq, exists_eq_left']
    rw [readRight_iff (clip_pos hs ho)]
    refine Iff.trans ?_ (clip_stays ho hz hs64)
    refine and_iff_left_of_imp fun hn i hi => ?_
    unfold fileByte dataSector
    rw [if_neg (by decide), if_neg hsec, Nat.mod_eq_of_lt (by omega)]

theorem FszFile.right_sdInline (hf : FszFile D v.blksize file .sdInline size) :
    (∃ r, fszRead v last file offs s = some r ∧ ReadRight D v.blksize file .sdInline size offs r) ↔
      ReadCond D v.blksize file .sdInline size offs s := by
  rw [hf.read_eq hv hpos ho, hf.data_sdInline hv]
  unfold ReadCond
  dsimp only
  split_ifs with he
  · simp only [Option.some.injEq, exists_eq_left']
    rw [readRight_iff (clip_pos hs ho), clip_stays ho hz hs64]
    refine and_congr_right fun hw => ?_
    rw [clip_eq hw ho]
  · simp only [Option.some.injEq, exists_eq_left']
    rw [readRight_iff (clip_pos hs ho), clip_stays ho hz hs64]
    refine and_congr_right fun hw => ?_
    rw [clip_eq hw ho]

theorem FszFile.right_sd (hm : v.blksize = 2^m) (hf : FszFile D v.blksize file (.sd l) size) :
    (∃ r, fszRead v last file offs s = some r ∧ ReadRight D v.blksize file (.sd l) size offs r) ↔
      ReadCond D v.blksize file (.sd l) size offs s := by
  have hl : 1 ≤ l ∧ l ≤ 7 := hf.levels
  rw [hf.read_eq hv hpos ho, hf.data_sd hv]
  unfold ReadCond
  dsimp only
  by_cases hsec : inSec (D file) = 0
  · rw [if_pos hsec, if_pos hsec]
    simp only [Option.some.injEq, exists_eq_left']
    rw [readRight_iff (clip_pos hs ho), clip_stays ho hz hs64]
    refine and_iff_left fun i _ => ?_
    rw [dataSector, hsec, sdLookup_zero]
  rw [if_neg hsec, if_neg hsec]
  by_cases hspan : v.blksize^l < 2^64
  · rw [sdOffs_eq, sdSpan_eq, Nat.mod_eq_of_lt hspan]
    obtain ⟨last', hwalk⟩ := sdWalk_sector (b := offs / v.blksize) (sdSize v.blksize size offs (clip size offs s)) l
      (inSec (D file)) hv hpos hsec
    rw [hwalk]
    simp only [Option.some.injEq, exists_eq_left']
    rw [readRight_iff (sdSize_pos hs ho), sdSize_stays ho hz hs64, and_iff_right hspan]
    refine and_congr_right fun hst => ?_
    rw [sdSize_eq ho hz hs64 hst]
    split_ifs <;> rfl
  · -- the division by zero
    refine iff_of_false ?_ fun h => hspan h.1
    rintro ⟨r, hr, -⟩
    obtain ⟨k, rfl⟩ : ∃ k, l = k + 1 := ⟨l - 1, by omega⟩
    have hzero : sdSpan v.blksize (k + 1) = 0 := by
      rw [hm] at hspan ⊢
      exact sdSpan_zero hspan
    rw [sdWalk, if_pos hzero] at hr
    cases hr

end

theorem readLen_le : readLen bs size offs s ≤ min s (size - offs) := by
  unfold readLen
  split_ifs <;> omega

/-- the plain requests are among those that are served right -/
theorem ReadPlain.cond (hbs : 16 ≤ bs) (ho : offs < size) (hs : 0 < s) (h : ReadPlain D bs file t size offs s) :
    ReadCond D bs file t size offs s := by
  obtain ⟨hw, h⟩ := h
  have hpos : 0 < bs := by omega
  cases t with
  | inline => exact ⟨hw, .inl h⟩
  | direct => exact hw
  | sdInline =>
    have hentry : sdEntry (D file) inlinedata (offs / bs) = 0 := by
      have h0 := h.2 0 (by omega)
      rw [dataSector, h.1] at h0
      exact h0
    refine ⟨hw, ?_⟩
    rw [if_pos hentry]
    exact h.2
  | sd l =>
    unfold ReadCond
    dsimp only
    by_cases hsec : inSec (D file) = 0
    · rw [if_pos hsec]
      exact hw
    rw [if_neg hsec]
    obtain ⟨hspan, hfirst, hcase⟩ := h.resolve_left hsec
    refine ⟨hspan, .inl hw, ?_⟩
    rw [readSector_eq D l _ hfirst]
    rcases hcase with ⟨hal, hin⟩ | hholes
    · -- the whole request is in the block of its first byte
      have hblock : ∀ i < readLen bs size offs s, (offs + i) / bs = offs / bs ∧ (offs + i) % bs = i := by
        intro i hi
        have hlt : i < bs := by
          unfold readLen at hi
          split_ifs at hi <;> omega
        have he : offs + i = i + bs * (offs / bs) := by
          have := Nat.div_add_mod offs bs
          omega
        constructor
        · rw [he, Nat.add_mul_div_left _ _ hpos, Nat.div_eq_of_lt hlt, Nat.zero_add]
        · rw [he, Nat.add_mul_mod_self_left, Nat.mod_eq_of_lt hlt]
      split_ifs with hsector
      · intro i hi
        rw [(hblock i hi).1]
        exact hsector
      · intro i hi
        rw [fileByte_sd, (hblock i hi).1, (hblock i hi).2, dataSector, if_neg hsector]
    · have hsector : sdLookup D bs l (inSec (D file)) (offs / bs) = 0 := hholes 0 (by omega)
      rw [if_pos hsector]
      exact hholes.mono readLen_le

def cachedVol (bs : Nat) (D : Disk) : FszVol where
  nfcb := 1
  fd := 0
  blksize := bs
  readblock lsn := some (D lsn)

theorem cachedVol_cached (bs : Nat) (D : Disk) : (cachedVol bs D).Cached D where
  fd_ne := show 0 ≠ minus1 by decide
  fd_lt := Nat.one_pos
  blocks _ := rfl

/-- bytes at given offsets, and zeros -/
def bytesFrom (l : List (Nat × List UInt8)) : Sector := fun i =>
  ((l.find? (fun p => decide (p.1 ≤ i ∧ i < p.1 + p.2.length))).map (fun p => p.2.getD (i - p.1) 0)).getD 0

/-- a file of 8192 bytes with one sector directory: its first block is a hole, and its second one has different
bytes in it -/
def secondBlock : Disk
  | 1 => bytesFrom [(0, inMagic), (448, [2]), (465, [0x20]), (492, [1])]
  | 2 => bytesFrom [(16, [3])]
  | 3 => fun i => UInt8.ofNat i
  | _ => fun _ => 0

theorem secondBlock_file : FszFile secondBlock 4096 1 (.sd 1) 8192 where
  file_ne := Nat.one_ne_zero
  magic := by decide +kernel
  size_eq := by decide +kernel
  translation := by decide +kernel
  levels := ⟨le_rfl, by norm_num⟩
  fits := by decide +kernel
  inlined := by
    have htype : inFiletype (secondBlock 1) = [0, 0, 0, 0] := by decide +kernel
    rw [htype]
    rintro (h | h) <;> cases h

end OsZ
