import OsZ.Base.CrcBits
import OsZ.Base.Word
import OsZ.Fsz.Link

/-!
# The disk image with its partition table

`createdisk` of mkfs puts the partition images one after the other behind a boot record and a partition table.

* `DiskFiles`        what `readfileall` has returned for the images and for the stage 1 loader;
* `addPart`          one entry of the table, and the running position of its image;
* `createdisk`       the bytes of the file; nothing where the boot sector is copied through a null pointer;
* `HeaderAt`, `DiskLaw`   a header at the sector that it names, with its checksums; the whole layout;
* `createdisk_law`   the layout holds for every set of images.
-/

namespace OsZ
variable {f g : Nat → UInt8} {a b v p i k n : Nat}

/-! ## the source -/

def setint (f : Nat → UInt8) (a v : Nat) : Nat → UInt8 := putLe f a 4 v

def getint (f : Nat → UInt8) (a : Nat) : Int := i32 (leBytes f a 4)

structure DiskFiles where
  esp : Option (List UInt8)
  sys1 : Option (List UInt8)
  sys2 : Option (List UInt8)
  usr1 : Option (List UInt8)
  usr2 : Option (List UInt8)
  var : Option (List UInt8)
  home : Option (List UInt8)
  stage1 : Option (List UInt8)
  /-- the buffer of the swap area, never written -/
  swap : List UInt8
  swap_length : swap.length = 4096
  /-- the two bytes that `memcpy` reads behind the literal `L"OS/Z Root"` -/
  stray : List UInt8
  stray_length : stray.length = 2

def gptSize : Nat := 7 * 512

/-- `read_size` and the buffer; a missing file is an empty one -/
def fileOf (o : Option (List UInt8)) : List UInt8 := o.getD []

def stage2At (img : List UInt8) (i : Nat) : Bool :=
  img.getD i 0 == 0x55 && img.getD (i + 1) 0 == 0xAA && img.getD (i + 3) 0 == 0xE9 && img.getD (i + 8) 0 == 66 &&
    img.getD (i + 12) 0 == 66

/-- the sectors before the last one -/
def findStage2 (img : List UInt8) : Option Nat :=
  ((List.range ((img.length - 512 + 511) / 512)).map (512 * ·)).find? (stage2At img)

/-- the loader with the address of stage 2, before the boot sectors are copied -/
def stage1Loader (d : DiskFiles) : Nat → UInt8 :=
  let l : Nat → UInt8 := match d.stage1 with
    | none => fun _ => 0
    | some l => store (textBuf l) 0x1B8 (0x1FE - 0x1B8) fun _ => 0
  let l := match findStage2 (fileOf d.esp), findStage2 (fileOf d.sys1) with
    | some i, _ => setint l 0x1B0 ((i + gptSize) / 512 + 1)
    | none, some i => setint l 0x1B0 ((i + gptSize + (fileOf d.esp).length) / 512 + 1)
    | none, none => l
  putList l 0x1FE [0x55, 0xAA]

def overwrite (img : List UInt8) (o n : Nat) (l : Nat → UInt8) : List UInt8 :=
  bytesAt (store (textBuf img) o n fun i => l (o + i)) 0 img.length

/-- the ESP, the first root and the first usr image, one of them with the loader in its boot sector -/
def bootSectors (d : DiskFiles) : Option (List UInt8 × List UInt8 × List UInt8) :=
  let l := stage1Loader d
  let esp := fileOf d.esp
  let ssp1 := fileOf d.sys1
  if l 0 ≠ 0 then
    if 0 < esp.length then some (overwrite (overwrite esp 0 11 l) 0x5A (512 - 0x5A) l, ssp1, fileOf d.usr1)
    else if 0 < ssp1.length then some (esp, overwrite ssp1 0 512 l, fileOf d.usr1)
    else d.usr1.map fun u => (esp, ssp1, overwrite u 0 512 l)
  else some (esp, ssp1, fileOf d.usr1)

/-- the records of the boot sector's own table -/
def mbrTable (l : Nat → UInt8) (es rs1 : Nat) : Nat → UInt8 :=
  let l := setint l 0x1B8 0x12345678
  let l := if 0 < es then
      let l := putList l 0x1BE [0x80]
      let l := setint l 0x1C0 (gptSize / 512 + 2)
      let l := putList l 0x1C2 [0xC]
      let l := setint l 0x1C4 ((gptSize + es) / 512 + 2)
      let l := setint l 0x1C6 (gptSize / 512 + 1)
      setint l 0x1CA (es / 512)
    else l
  let l := setint l 0x1D0 1
  let l := putList l 0x1D2 [0xEE]
  let l := setint l 0x1D4 (gptSize / 512 + 1)
  let l := setint l 0x1D6 1
  let l := setint l 0x1DA (gptSize / 512)
  let l := if es = 0 then putList l 0x1DE [0x80] else l
  let l := setint l 0x1E0 ((gptSize + es) / 512 + 3)
  let l := putList l 0x1E2 [0x30]
  let l := setint l 0x1E4 ((gptSize + es) / 512 + 3 + 512)
  let l := setint l 0x1E6 ((gptSize + es + rs1) / 512 + 1)
  setint l 0x1EA (rs1 / 512)

/-- the header, over the cleared buffer; the checksums come later -/
def gptHeader (total count : Nat) : Nat → UInt8 :=
  let f := putList (fun _ => 0) 0 (asc "EFI PART")
  let f := setint f 10 1
  let f := setint f 12 92
  let f := setint f 16 0xDEADCC32
  let f := setint f 24 1
  let f := setint f 32 ((gptSize + gptSize + total) / 512)
  let f := setint f 40 (gptSize / 512 + 1)
  let f := setint f 48 ((gptSize + total) / 512)
  let f := setint f 56 0x12345678
  let f := setint f 60 0x12345678
  let f := setint f 64 0x12345678
  let f := setint f 68 0x12345678
  let f := setint f 72 2
  let f := setint f 80 count
  let f := setint f 84 128
  setint f 88 0xDEADCC32

/-- a partition: the first bytes of its entry, what is added to the disk's UUID, and whether it is never left out -/
structure Part where
  type : List UInt8
  uuid : Nat
  attr : Nat
  name : List UInt8
  must : Bool
  image : List UInt8
  type_le : type.length ≤ 16
  name_le : name.length ≤ 64

def setEntry (f : Nat → UInt8) (p first last : Nat) (e : Part) : Nat → UInt8 :=
  let f := putList f p e.type
  let f := setint f (p + 16) (0x12345678 + e.uuid)
  let f := setint f (p + 20) 0x12345678
  let f := setint f (p + 24) 0x12345678
  let f := setint f (p + 28) 0x12345678
  let f := setint f (p + 32) first
  let f := setint f (p + 40) last
  -- where the source sets no attribute the buffer is zero already
  let f := setint f (p + 48) e.attr
  putList f (p + 64) e.name

structure Fill where
  gpt : Nat → UInt8
  p : Nat
  j : Nat

def Part.present (e : Part) : Bool := e.must || decide (0 < e.image.length)

def addPart (s : Fill) (e : Part) : Fill :=
  if e.present then
    ⟨setEntry s.gpt s.p (s.j / 512 + 1) ((s.j + e.image.length) / 512) e, s.p + 128, s.j + e.image.length⟩
  else s

/-- the type of an entry of the system; no version is a version of zero, over the cleared buffer -/
def oszType (version : Nat) (mount : String) : List UInt8 :=
  asc "OS/Z" ++ bytesAt (leByte version) 0 4 ++ [0, 0, 0, 0] ++ asc mount

def espType : List UInt8 :=
  [0x0C12A7328, 0x011D2F81F, 0x0A0004BBA, 0x03BC93EC9].flatMap fun v => bytesAt (leByte v) 0 4

/-- a literal of two-byte characters -/
def wide (s : String) : List UInt8 := (asc s).flatMap fun c => [c, 0]

def diskParts (d : DiskFiles) (esp ssp1 usr1 : List UInt8) : List Part :=
  [⟨espType, 1, 0, wide "EFI System Partition" ++ [0, 0], false, esp, by decide +kernel, by decide +kernel⟩,
   ⟨oszType 0x8664 "root", 2, 4, wide "OS/Z Root" ++ [0, 0] ++ d.stray, false, ssp1, by decide +kernel,
     by rw [List.length_append, d.stray_length]; decide +kernel⟩,
   ⟨oszType 0xAA64 "root", 2, 4, wide "OS/Z Root" ++ [0, 0] ++ d.stray, false, fileOf d.sys2, by decide +kernel,
     by rw [List.length_append, d.stray_length]; decide +kernel⟩,
   ⟨oszType 0x8664 "usr", 3, 0, wide "OS/Z System", false, usr1, by decide +kernel, by decide +kernel⟩,
   ⟨oszType 0xAA64 "usr", 3, 0, wide "OS/Z System", false, fileOf d.usr2, by decide +kernel, by decide +kernel⟩,
   ⟨oszType 0 "var", 4, 0, wide "OS/Z Public Data", true, fileOf d.var, by decide +kernel, by decide +kernel⟩,
   ⟨oszType 0 "home", 5, 0, wide "OS/Z Private Data", true, fileOf d.home, by decide +kernel, by decide +kernel⟩,
   ⟨oszType 0 "swap", 6, 0, wide "OS/Z Swap Area" ++ [0, 0], true, d.swap, by decide +kernel, by decide +kernel⟩]

def entriesCrc (f : Nat → UInt8) : Nat → UInt8 :=
  setint f 88 (eficrc32Calc f 512 ((f 80).toNat * (f 84).toNat))

def headerCrc (f : Nat → UInt8) : Nat → UInt8 :=
  let n := u64 (getint f 12)
  let f := setint f 16 0
  setint f 16 (eficrc32Calc f 0 n)

def backupHeader (f : Nat → UInt8) : Nat → UInt8 :=
  let i := u64 (getint f 32)
  let f := setint f 32 (u64 (getint f 24))
  let f := setint f 24 i
  let f := setint f 72 (sub64 (w64 (i * 512)) gptSize / 512 + 1)
  headerCrc f

def images (es : List Part) : List (List UInt8) := (es.filter Part.present).map Part.image

def totalSize (es : List Part) : Nat := (es.map fun e => e.image.length).sum

def gptTable (es : List Part) : Nat → UInt8 :=
  let count := 3 + (es.filter fun e => !e.must && decide (0 < e.image.length)).length
  headerCrc (entriesCrc (es.foldl addPart ⟨gptHeader (totalSize es) count, 512, gptSize⟩).gpt)

/-- what is written to the file -/
def diskBytes (mbr : Nat → UInt8) (es : List Part) : List UInt8 :=
  let gpt := gptTable es
  bytesAt mbr 0 512 ++ bytesAt gpt 0 gptSize ++ (images es).flatten ++ bytesAt gpt 512 (gptSize - 512) ++
    bytesAt (backupHeader gpt) 0 512

def createdisk (d : DiskFiles) : Option (List UInt8) :=
  (bootSectors d).map fun (esp, ssp1, usr1) =>
    diskBytes (mbrTable (stage1Loader d) esp.length ssp1.length) (diskParts d esp ssp1 usr1)

/-! ## reading and writing words -/

theorem setint_at (f : Nat → UInt8) (a v : Nat) : leBytes (setint f a v) a 4 = v % 2^32 := leBytes_putLe f a 4 v

theorem setint_out (h : b + 4 ≤ a ∨ a + 4 ≤ b) : leBytes (setint f a v) b 4 = leBytes f b 4 := leBytes_store_out h

theorem setint_byte (h : i < a ∨ a + 4 ≤ i) : setint f a v i = f i := store_out h

theorem le64_words (f : Nat → UInt8) (a : Nat) : le64 f a = leBytes f a 4 + 2^32 * leBytes f (a + 4) 4 := by
  simp only [le64, leBytes, Nat.add_assoc, Nat.reduceAdd]
  omega

theorem bytesAt_move (h : ∀ i < n, f (a + i) = g (b + i)) : bytesAt f a n = bytesAt g b n := by
  unfold bytesAt
  apply List.map_congr_left
  intro i hi
  exact h i (List.mem_range.mp hi)

theorem leBytes_move (h : ∀ i < n, f (a + i) = g (b + i)) : leBytes f a n = leBytes g b n := by
  rw [← Nat.add_zero a, ← leBytes_add f a 0 n, ← Nat.add_zero b, ← leBytes_add g b 0 n]
  apply leBytes_congr
  intro i hi
  simpa using h i hi

theorem eficrc32Calc_lt (f : Nat → UInt8) (o n : Nat) : eficrc32Calc f o n < 2^32 := by
  have hall : ∀ x ∈ crc32Lookup, x < 2^32 := by decide +kernel
  have htable : ∀ i, crc32Lookup.getD i 0 < 2^32 := by
    intro i
    rw [List.getD_eq_getElem?_getD]
    cases h : crc32Lookup[i]? with
    | none => decide
    | some x => exact hall x (List.mem_of_getElem? h)
  apply Nat.xor_lt_two_pow _ (by decide)
  apply List.foldlRecOn (motive := fun c => c < 2^32) _ _ (by decide)
  intro c hc b hb
  exact Nat.xor_lt_two_pow (lt_of_le_of_lt (Nat.shiftRight_le c 8) hc) (htable _)

/-! ## the table -/

theorem gptHeader_zero {total count : Nat} (h : 92 ≤ i) : gptHeader total count i = 0 := by
  have hlen : (asc "EFI PART").length = 8 := by decide +kernel
  simp (disch := omega) only [gptHeader, setint_byte]
  exact store_out (by omega)

theorem setEntry_out {first last : Nat} {e : Part} (h : i < p ∨ p + 128 ≤ i) : setEntry f p first last e i = f i := by
  have htype := e.type_le
  have hname := e.name_le
  simp (disch := omega) only [setEntry, putList, store_out, setint_byte]

theorem setEntry_lba {first last : Nat} {e : Part} (hzero : ∀ i < 128, f (p + i) = 0) (hf : first < 2^32)
    (hl : last < 2^32) :
    le64 (setEntry f p first last e) (p + 32) = first ∧ le64 (setEntry f p first last e) (p + 40) = last := by
  have htype := e.type_le
  have hclear : ∀ a, p + 32 ≤ a → a + 4 ≤ p + 128 → leBytes f a 4 = 0 := by
    intro a ha hb
    apply leBytes_zero
    intro i hi
    have hz := hzero (a - p + i) (by omega)
    rwa [← Nat.add_assoc, Nat.add_sub_cancel' (by omega)] at hz
  rw [le64_words, le64_words]
  simp (disch := omega) only [setEntry, putList, leBytes_store_out, setint_out, setint_at, Nat.add_assoc, Nat.reduceAdd]
  rw [hclear (p + 36) (by omega) (by omega), hclear (p + 44) (by omega) (by omega)]
  omega

theorem addParts_spec (es : List Part) (s : Fill) (hzero : ∀ i, s.p ≤ i → s.gpt i = 0)
    (hlt : s.j + ((images es).map List.length).sum < 512 * (2^32 - 1)) :
    (∀ i, i < s.p → (es.foldl addPart s).gpt i = s.gpt i) ∧
      ∀ k < (images es).length,
        le64 (es.foldl addPart s).gpt (s.p + 128 * k + 32) = (s.j + (((images es).map List.length).take k).sum) / 512
          + 1 ∧
        le64 (es.foldl addPart s).gpt (s.p + 128 * k + 40) = (s.j + (((images es).map List.length).take (k + 1)).sum)
          / 512 := by
  induction es generalizing s with
  | nil => exact ⟨fun i _ => rfl, fun k hk => absurd hk (Nat.not_lt_zero k)⟩
  | cons e es ih =>
    rw [List.foldl_cons]
    by_cases he : e.present
    · have himg : images (e :: es) = e.image :: images es := by
        simp [images, he]
      have hadd : addPart s e = ⟨setEntry s.gpt s.p (s.j / 512 + 1) ((s.j + e.image.length) / 512) e, s.p + 128,
          s.j + e.image.length⟩ := if_pos he
      rw [himg] at hlt ⊢
      rw [List.map_cons, List.sum_cons] at hlt
      obtain ⟨hout, hent⟩ := ih (addPart s e)
        (fun i hi => by
          rw [hadd] at hi ⊢
          exact (setEntry_out (Or.inr hi)).trans (hzero i (by simp only at hi; omega)))
        (by rw [hadd]; simp only; omega)
      rw [hadd] at hout hent ⊢
      simp only at hout hent
      refine ⟨fun i hi => (hout i (by omega)).trans (setEntry_out (Or.inl hi)), fun k hk => ?_⟩
      rw [List.map_cons]
      cases k with
      | zero =>
        have hlba := @setEntry_lba s.gpt s.p (s.j / 512 + 1) ((s.j + e.image.length) / 512) e
          (fun i _ => hzero (s.p + i) (by omega)) (by omega) (by omega)
        have hkeep : ∀ o ≤ 120, le64 (es.foldl addPart ⟨setEntry s.gpt s.p (s.j / 512 + 1)
          ((s.j + e.image.length) / 512) e,
            s.p + 128, s.j + e.image.length⟩).gpt (s.p + o) =
            le64 (setEntry s.gpt s.p (s.j / 512 + 1) ((s.j + e.image.length) / 512) e) (s.p + o) := by
          intro o ho
          apply leBytes_congr
          intro i hi
          exact hout _ (by omega)
        rw [Nat.mul_zero, Nat.add_zero, hkeep 32 (by omega), hkeep 40 (by omega), hlba.1, hlba.2]
        simp
      | succ k =>
        have hk' := hent k (by rw [List.length_cons] at hk; omega)
        rw [show s.p + 128 * (k + 1) = s.p + 128 + 128 * k by omega, hk'.1, hk'.2]
        simp only [List.take_succ_cons, List.sum_cons, Nat.add_assoc, and_self]
    · have himg : images (e :: es) = images es := by
        simp [images, he]
      have hadd : addPart s e = s := if_neg he
      rw [himg] at hlt ⊢
      rw [hadd]
      exact ih s hzero hlt

/-! ## the headers -/

structure Header (h : Nat → UInt8) (lba other array first last n crc : Nat) : Prop where
  magic : bytesAt h 0 8 = asc "EFI PART"
  size : leBytes h 12 4 = 92
  own : le64 h 24 = lba
  other : le64 h 32 = other
  first : le64 h 40 = first
  last : le64 h 48 = last
  array : le64 h 72 = array
  count : leBytes h 80 4 = n
  width : leBytes h 84 4 = 128
  crc : leBytes h 88 4 = crc

/-- the header stands in the sector `lba` that it names, and both of its checksums are right -/
def HeaderAt (disk : Nat → UInt8) (lba other array first last n : Nat) : Prop :=
  Header (fun i => disk (512 * lba + i)) lba other array first last n (eficrc32Calc disk (512 * array) (128 * n)) ∧
    leBytes disk (512 * lba + 16) 4 = eficrc32Calc (store disk (512 * lba + 16) 4 fun _ => 0) (512 * lba) 92

section
variable {lba other array first last crc : Nat}

theorem Header.congr {crc' : Nat} (h : Header f lba other array first last n crc)
    (heq : ∀ i < 88, i < 16 ∨ 20 ≤ i → g i = f i) (hcrc : leBytes g 88 4 = crc') :
    Header g lba other array first last n crc' := by
  have hle : ∀ a m, a + m ≤ 16 ∨ 20 ≤ a ∧ a + m ≤ 88 → leBytes g a m = leBytes f a m := fun a m ha =>
    leBytes_congr fun i hi => heq _ (by omega) (by omega)
  exact ⟨(bytesAt_congr fun i hi => heq _ (by omega) (by omega)).trans h.magic, (hle 12 4 (by omega)).trans h.size,
    (hle 24 8 (by omega)).trans h.own, (hle 32 8 (by omega)).trans h.other, (hle 40 8 (by omega)).trans h.first,
    (hle 48 8 (by omega)).trans h.last, (hle 72 8 (by omega)).trans h.array, (hle 80 4 (by omega)).trans h.count,
    (hle 84 4 (by omega)).trans h.width, hcrc⟩

theorem le64_setint_out (h : b + 8 ≤ a ∨ a + 4 ≤ b) : le64 (setint f a v) b = le64 f b := leBytes_store_out h

theorem words_of_le64 (h : le64 f a = v) (hv : v < 2^32) : leBytes f a 4 = v ∧ leBytes f (a + 4) 4 = 0 := by
  have hw := le64_words f a
  have hlt := leBytes_lt f a 4
  omega

theorem gptHeader_header {total count : Nat} (ht : gptSize + gptSize + total < 512 * 2^32) (hc : count < 2^32) :
    Header (gptHeader total count) 1 ((gptSize + gptSize + total) / 512) 2 8 ((gptSize + total) / 512) count
      0xDEADCC32 := by
  have hlen : (asc "EFI PART").length = 8 := by decide +kernel
  have hlow : ∀ a, 8 ≤ a → leBytes (putList (fun _ => 0) 0 (asc "EFI PART")) a 4 = 0 := fun a ha =>
    (leBytes_store_out (by omega)).trans (leBytes_zero fun _ _ => rfl)
  have hmagic : bytesAt (gptHeader total count) 0 8 = bytesAt (textBuf (asc "EFI PART")) 0 8 := by
    apply bytesAt_congr
    intro i hi
    simp (disch := omega) only [gptHeader, setint_byte]
    rw [putList, hlen, store_at hi, Nat.zero_add]
    rfl
  refine ⟨hmagic.trans (by decide +kernel), ?_, ?_, ?_, ?_, ?_, ?_, ?_, ?_, ?_⟩
  all_goals simp (disch := omega) only [gptHeader, le64_words, setint_out, setint_at, hlow, Nat.reduceAdd]
  all_goals unfold gptSize at *
  all_goals omega

theorem backup_lba (h7 : 7 ≤ v) (hv : v < 2^32) :
    u64 (i32 v) % 2^32 = v ∧ (sub64 (w64 (u64 (i32 v) * 512)) gptSize / 512 + 1) % 2^32 = v - 6 := by
  unfold u64 i32 sub64 w64 gptSize
  rw [Int.bmod_def]
  split <;> omega

theorem Header.swap (h : Header f 1 other 2 first last n crc) (h7 : 7 ≤ other) (hlt : other < 2^32) :
    ∃ g, backupHeader f = headerCrc g ∧ Header g other 1 (other - 6) first last n crc := by
  obtain ⟨how, how4⟩ := words_of_le64 h.own (by decide)
  obtain ⟨hoth, hoth4⟩ := words_of_le64 h.other hlt
  obtain ⟨harr, harr4⟩ := words_of_le64 h.array (by decide)
  obtain ⟨hi, hj⟩ := backup_lba h7 hlt
  have hone : u64 (getint f 24) % 2^32 = 1 := by
    rw [getint, how]
    decide +kernel
  refine ⟨_, rfl, ?_⟩
  simp only [getint, how, hoth] at hone ⊢
  refine ⟨?_, ?_, ?_, ?_, ?_, ?_, ?_, ?_, ?_, ?_⟩
  · refine Eq.trans (bytesAt_congr fun i hi => ?_) h.magic
    simp (disch := omega) only [setint_byte]
  · simp (disch := omega) only [setint_out, h.size]
  · simp (disch := omega) only [le64_words, setint_out, setint_at, hi, how4]
    rfl
  · simp (disch := omega) only [le64_words, setint_out, setint_at, hone, hoth4]
    rfl
  · simp (disch := omega) only [le64_setint_out, h.first]
  · simp (disch := omega) only [le64_setint_out, h.last]
  · simp (disch := omega) only [le64_words, setint_out, setint_at, hj, harr4]
    rfl
  · simp (disch := omega) only [setint_out, h.count]
  · simp (disch := omega) only [setint_out, h.width]
  · simp (disch := omega) only [setint_out, h.crc]

theorem header_at {disk : Nat → UInt8} (h : Header f lba other array first last n
    (eficrc32Calc disk (512 * array) (128 * n)))
    (hat : ∀ i < 512, disk (512 * lba + i) = headerCrc f i) : HeaderAt disk lba other array first last n := by
  have hn : u64 (getint f 12) = 92 := by
    rw [getint, h.size]
    decide +kernel
  have hcrc : headerCrc f = setint (setint f 16 0) 16 (eficrc32Calc (setint f 16 0) 0 92) := by
    rw [headerCrc, hn]
  rw [hcrc] at hat
  have hsame : ∀ i < 92, i < 16 ∨ 20 ≤ i → disk (512 * lba + i) = f i := fun i hi ho => by
    rw [hat i (by omega), setint_byte (by omega), setint_byte (by omega)]
  refine ⟨h.congr (fun i hi ho => hsame i (by omega) ho) ?_, ?_⟩
  · exact (leBytes_congr fun i hi => hsame _ (by omega) (by omega)).trans h.crc
  · have hmove : leBytes disk (512 * lba + 16) 4 = leBytes (setint (setint f 16 0) 16
      (eficrc32Calc (setint f 16 0) 0 92)) 16 4 :=
      leBytes_move fun i hi => by rw [Nat.add_assoc]; exact hat _ (by omega)
    rw [hmove, setint_at, Nat.mod_eq_of_lt (eficrc32Calc_lt _ _ _)]
    unfold eficrc32Calc
    rw [bytesAt_move (f := setint f 16 0) (g := store disk (512 * lba + 16) 4 fun _ => 0) (b := 512 * lba)]
    intro i hi
    rw [Nat.zero_add]
    by_cases hin : 16 ≤ i ∧ i < 20
    · obtain ⟨m, rfl⟩ := Nat.exists_eq_add_of_le hin.1
      rw [← Nat.add_assoc, store_at (by omega), setint, putLe, store_at (by omega)]
      simp [leByte]
    · rw [store_out (by omega), hat i (by omega)]
      exact (setint_byte (by omega)).symm

end

/-! ## the whole disk -/

def firstLba (disk : Nat → UInt8) (k : Nat) : Nat := le64 disk (1024 + 128 * k + 32)

def lastLba (disk : Nat → UInt8) (k : Nat) : Nat := le64 disk (1024 + 128 * k + 40)

structure DiskLaw (disk : Nat → UInt8) (imgs : List (List UInt8)) (first last backup array : Nat) : Prop where
  primary : HeaderAt disk 1 backup 2 first last imgs.length
  second : HeaderAt disk backup 1 array first last imgs.length
  copies : bytesAt disk (512 * array) (128 * imgs.length) = bytesAt disk (512 * 2) (128 * imgs.length)
  inside : ∀ k < imgs.length, first ≤ firstLba disk k ∧ firstLba disk k ≤ lastLba disk k ∧ lastLba disk k ≤ last
  consecutive : ∀ k, k + 1 < imgs.length → firstLba disk (k + 1) = lastLba disk k + 1
  disjoint : ∀ i k, i < k → k < imgs.length → lastLba disk i < firstLba disk k
  written : ∀ k < imgs.length,
    imgs[k]? = some (bytesAt disk (512 * firstLba disk k) (512 * (lastLba disk k + 1 - firstLba disk k)))

theorem textBuf_mid (x y z : List UInt8) (ha : x.length = a) (h : i < y.length) :
    textBuf (x ++ y ++ z) (a + i) = textBuf y i := by
  unfold textBuf
  rw [List.append_assoc, List.getD_append_right _ _ _ _ (by omega), ← ha, Nat.add_sub_cancel_left,
    List.getD_append _ _ _ _ h]

theorem textBuf_bytesAt (f : Nat → UInt8) (o : Nat) (h : i < n) : textBuf (bytesAt f o n) i = f (o + i) :=
  bytesAt_getD f o h

theorem bytesAt_textBuf (l : List UInt8) : bytesAt (textBuf l) 0 l.length = l := by
  apply List.ext_getElem?
  intro i
  by_cases h : i < l.length <;> simp [bytesAt, textBuf, h]

theorem images_total (es : List Part) : ((images es).map List.length).sum = totalSize es := by
  induction es with
  | nil => rfl
  | cons e es ih =>
    unfold images totalSize at *
    rw [List.map_map] at *
    by_cases he : e.present
    · simp [he, ih]
    · have h0 : e.image.length = 0 := by
        simp [Part.present] at he
        simp [he]
      simp [he, ih, h0]

theorem images_length (es : List Part) :
    (images es).length = (es.filter Part.must).length +
      (es.filter fun e => !e.must && decide (0 < e.image.length)).length := by
  induction es with
  | nil => rfl
  | cons e es ih =>
    unfold images Part.present at *
    cases hm : e.must <;> by_cases hl : 0 < e.image.length <;> simp_all <;> omega

theorem flatten_at (imgs : List (List UInt8)) (h : k < imgs.length) :
    imgs.flatten = (imgs.take k).flatten ++ imgs[k] ++ (imgs.drop (k + 1)).flatten := by
  have hcut : imgs = imgs.take k ++ imgs[k] :: imgs.drop (k + 1) := by
    rw [← List.drop_eq_getElem_cons h, List.take_append_drop]
  conv_lhs => rw [hcut]
  rw [List.flatten_append, List.flatten_cons, List.append_assoc]

theorem sum_take_dvd {l : List Nat} (h : ∀ x ∈ l, 512 ∣ x) (k : Nat) : 512 ∣ (l.take k).sum :=
  List.dvd_sum fun x hx => h x (List.mem_of_mem_take hx)

theorem sum_take_succ {l : List Nat} (h : k < l.length) : (l.take (k + 1)).sum = (l.take k).sum + l[k] := by
  rw [List.take_succ_eq_append_getElem h, List.sum_append, List.sum_singleton]

theorem sum_take_mono (l : List Nat) (h : i ≤ k) : (l.take i).sum ≤ (l.take k).sum :=
  (List.take_sublist_take_left h).sum_le_sum (by simp)

theorem diskBytes_reads (mbr : Nat → UInt8) (es : List Part) :
    (∀ i < 3584, textBuf (diskBytes mbr es) (512 + i) = gptTable es i) ∧
    (∀ i < totalSize es, textBuf (diskBytes mbr es) (4096 + i) = textBuf (images es).flatten i) ∧
    (∀ i < 3072, textBuf (diskBytes mbr es) (4096 + totalSize es + i) = gptTable es (512 + i)) ∧
    ∀ i < 512, textBuf (diskBytes mbr es) (7168 + totalSize es + i) = backupHeader (gptTable es) i := by
  have hlen : (images es).flatten.length = totalSize es := by
    rw [List.length_flatten, images_total]
  have htable : (bytesAt (gptTable es) 0 gptSize).length = 3584 := bytesAt_length _ _ _
  have hagain : (bytesAt (gptTable es) 512 (gptSize - 512)).length = 3072 := bytesAt_length _ _ _
  have hfile : diskBytes mbr es = bytesAt mbr 0 512 ++ bytesAt (gptTable es) 0 gptSize ++ (images es).flatten ++
    bytesAt (gptTable es) 512 (gptSize - 512) ++ bytesAt (backupHeader (gptTable es)) 0 512 := rfl
  refine ⟨fun i hi => ?_, fun i hi => ?_, fun i hi => ?_, fun i hi => ?_⟩
  · rw [hfile, List.append_assoc, List.append_assoc, textBuf_mid _ _ _ (bytesAt_length _ _ _) (by omega),
      textBuf_bytesAt _ _ (by exact hi), Nat.zero_add]
  · rw [hfile, List.append_assoc, textBuf_mid _ _ _ _ (by omega)]
    rw [List.length_append, bytesAt_length, htable]
  · rw [hfile, textBuf_mid _ _ _ _ (by omega), textBuf_bytesAt _ _ (by exact hi)]
    rw [List.length_append, List.length_append, bytesAt_length, htable, hlen]
  · rw [hfile, ← List.append_nil (_ ++ _), textBuf_mid _ _ _ _ (by rw [bytesAt_length]; exact hi),
      textBuf_bytesAt _ _ hi,
      Nat.zero_add]
    rw [List.length_append, List.length_append, List.length_append, bytesAt_length, htable, hlen, hagain]
    omega

theorem headerCrc_byte (h : i < 16 ∨ 20 ≤ i) : headerCrc f i = f i := by
  rw [headerCrc, setint_byte (by omega), setint_byte (by omega)]

theorem entriesCrc_eq {lba other array first last crc : Nat} (h : Header f lba other array first last n crc)
    (hn : n < 256) :
    entriesCrc f = setint f 88 (eficrc32Calc f 512 (128 * n)) := by
  have hc := h.count
  have hw := h.width
  simp only [leBytes] at hc hw
  have h80 : (f 80).toNat = n := by omega
  have h84 : (f 84).toNat = 128 := by omega
  rw [entriesCrc, h80, h84, Nat.mul_comm]

theorem gptTable_spec (es : List Part) (hcount : 3 + (es.filter fun e => !e.must && decide
    (0 < e.image.length)).length =
    (images es).length) (hn : (images es).length ≤ 8) (htotal : totalSize es < 512 * (2^32 - 32)) :
    ∃ f, gptTable es = headerCrc f ∧
      Header f 1 ((gptSize + gptSize + totalSize es) / 512) 2 8 ((gptSize + totalSize es) / 512) (images es).length
        (eficrc32Calc (gptTable es) 512 (128 * (images es).length)) ∧
      ∀ k < (images es).length,
        le64 (gptTable es) (512 + 128 * k + 32) = (gptSize + (((images es).map List.length).take k).sum) / 512 + 1 ∧
        le64 (gptTable es) (512 + 128 * k + 40) = (gptSize + (((images es).map List.length).take (k + 1)).sum) /
          512 := by
  have hg : gptSize = 3584 := rfl
  obtain ⟨hout, hent⟩ := addParts_spec es ⟨gptHeader (totalSize es) (images es).length, 512, gptSize⟩
    (fun i hi => gptHeader_zero (by simp only at hi; omega)) (by rw [images_total]; simp only; omega)
  have htable : gptTable es = headerCrc (entriesCrc
      (es.foldl addPart ⟨gptHeader (totalSize es) (images es).length, 512, gptSize⟩).gpt) := by
    rw [gptTable, hcount]
  simp only at hout hent
  generalize (es.foldl addPart ⟨gptHeader (totalSize es) (images es).length, 512, gptSize⟩).gpt = g at *
  have hhead : Header g _ _ _ _ _ _ _ := (@gptHeader_header (totalSize es) (images es).length (by omega)
    (by omega)).congr
    (fun i hi _ => hout i (by omega)) rfl
  rw [entriesCrc_eq hhead (by omega)] at htable
  -- the checksums are written below the array
  have harray : ∀ i, 512 ≤ i → gptTable es i = g i := fun i hi => by
    rw [htable, headerCrc_byte (by omega), setint_byte (by omega)]
  have hsame : eficrc32Calc (gptTable es) 512 (128 * (images es).length) =
      eficrc32Calc g 512 (128 * (images es).length) := by
    unfold eficrc32Calc
    rw [bytesAt_congr fun i hi => harray (512 + i) (by omega)]
  rw [hsame]
  refine ⟨_, htable, hhead.congr (fun i hi _ => setint_byte (by omega)) ?_, fun k hk => ?_⟩
  · rw [setint_at, Nat.mod_eq_of_lt (eficrc32Calc_lt _ _ _)]
  · rw [← (hent k hk).1, ← (hent k hk).2]
    exact ⟨leBytes_congr fun i hi => harray _ (by omega), leBytes_congr fun i hi => harray _ (by omega)⟩

theorem disk_law (mbr : Nat → UInt8) (es : List Part) (hsec : ∀ img ∈ images es, 512 ∣ img.length ∧ 0 < img.length)
    (hcount : 3 + (es.filter fun e => !e.must && decide (0 < e.image.length)).length = (images es).length)
    (hn : (images es).length ≤ 8) (htotal : totalSize es < 512 * (2^32 - 32)) :
    DiskLaw (textBuf (diskBytes mbr es)) (images es) 8 (7 + totalSize es / 512) (14 + totalSize es / 512)
      (8 + totalSize es / 512) := by
  obtain ⟨f, hf, hhead, hent⟩ := gptTable_spec es hcount hn htotal
  obtain ⟨hgpt, himg, hagain, hback⟩ := diskBytes_reads mbr es
  have hT := images_total es
  generalize textBuf (diskBytes mbr es) = disk, gptTable es = gpt, images es = imgs, totalSize es = T at *
  have hdvd : ∀ k, 512 ∣ ((imgs.map List.length).take k).sum := fun k => sum_take_dvd (fun x hx => by
    obtain ⟨img, hin, rfl⟩ := List.mem_map.mp hx
    exact (hsec img hin).1) k
  have hTd : 512 ∣ T := by
    rw [← hT, ← List.take_length (l := imgs.map List.length)]
    exact hdvd _
  have hbound : ∀ k, ((imgs.map List.length).take k).sum ≤ T :=
    fun k => hT ▸ (List.take_sublist k _).sum_le_sum (by simp)
  have hstep : ∀ k (hk : k < imgs.length), ((imgs.map List.length).take (k + 1)).sum =
      ((imgs.map List.length).take k).sum + imgs[k].length := fun k hk => by
    rw [sum_take_succ (by rwa [List.length_map]), List.getElem_map]
  generalize hS : (fun k => ((imgs.map List.length).take k).sum) = S at *
  simp only [fun k => congrFun hS k] at hdvd hbound hstep hent
  unfold gptSize at hhead hent
  rw [show (7 * 512 + 7 * 512 + T) / 512 = 14 + T / 512 by omega, show (7 * 512 + T) / 512 = 7 + T / 512 by omega]
    at hhead
  -- the entries as they are read from the disk
  have hread : ∀ k < imgs.length, ∀ o ≤ 120, le64 disk (1024 + 128 * k + o) = le64 gpt (512 + 128 * k + o) :=
    fun k hk o ho =>
    leBytes_move fun i hi => by rw [← hgpt _ (by omega)]; congr 1; omega
  have hfirst : ∀ k < imgs.length, firstLba disk k = 8 + S k / 512 := fun k hk => by
    rw [firstLba, hread k hk 32 (by omega), (hent k hk).1]
    omega
  have hlast : ∀ k < imgs.length, lastLba disk k = 7 + S (k + 1) / 512 := fun k hk => by
    rw [lastLba, hread k hk 40 (by omega), (hent k hk).2]
    omega
  have hcopy : ∀ a, (∀ i < 3072, disk (a + i) = gpt (512 + i)) →
      bytesAt disk a (128 * imgs.length) = bytesAt gpt 512 (128 * imgs.length) :=
    fun a ha => bytesAt_move fun i hi => ha i (by omega)
  have hfront := hcopy (512 * 2) fun i hi => by rw [← hgpt _ (by omega)]; congr 1; omega
  have hrear := hcopy (512 * (8 + T / 512)) fun i hi => by rw [← hagain i hi]; congr 1; omega
  have hprim : HeaderAt disk 1 (14 + T / 512) 2 8 (7 + T / 512) imgs.length := by
    refine header_at ?_ fun i hi => by rw [← hf]; exact hgpt i (by omega)
    rwa [eficrc32Calc, hfront]
  have hsecond : HeaderAt disk (14 + T / 512) 1 (8 + T / 512) 8 (7 + T / 512) imgs.length := by
    have htab := hhead.congr (fun i _ ho => (headerCrc_byte ho : headerCrc f i = f i))
      ((leBytes_congr fun i hi => headerCrc_byte (by omega)).trans hhead.crc)
    rw [← hf] at htab
    obtain ⟨g, hg, hhead'⟩ := htab.swap (by omega) (by omega)
    rw [show 14 + T / 512 - 6 = 8 + T / 512 by omega] at hhead'
    refine header_at ?_ fun i hi => by rw [← hg, ← hback i hi]; congr 1; omega
    rwa [eficrc32Calc, hrear]
  refine ⟨hprim, hsecond, hrear.trans hfront.symm, fun k hk => ?_, fun k hk => ?_, fun i k hik hk => ?_, fun k hk => ?_⟩
  · have hpos := (hsec _ (List.getElem_mem hk)).2
    have hlt := hstep k hk
    have h1 := hdvd k
    have h2 := hdvd (k + 1)
    have h3 := hbound (k + 1)
    rw [hfirst k hk, hlast k hk]
    omega
  · rw [hfirst (k + 1) hk, hlast k (by omega)]
    omega
  · have hmono : S (i + 1) ≤ S k := by
      rw [← hS]
      exact sum_take_mono _ hik
    rw [hfirst k hk, hlast i (by omega)]
    omega
  · have hlt := hstep k hk
    have h1 := hdvd k
    have h2 := hdvd (k + 1)
    have h3 := hbound (k + 1)
    rw [hfirst k hk, hlast k hk, List.getElem?_eq_getElem hk,
      show 512 * (7 + S (k + 1) / 512 + 1 - (8 + S k / 512)) = imgs[k].length by omega]
    refine congrArg some ((bytesAt_textBuf _).symm.trans (bytesAt_move fun i hi => ?_))
    have hat : textBuf imgs.flatten (S k + i) = textBuf imgs[k] i := by
      rw [flatten_at _ hk, textBuf_mid _ _ _ _ hi]
      rw [List.length_flatten, ← hS, List.map_take]
    rw [Nat.zero_add, ← hat, ← himg _ (by omega)]
    congr 1
    omega

theorem stage1Loader_none {d : DiskFiles} (h : d.stage1 = none) : stage1Loader d 0 = 0 := by
  unfold stage1Loader
  simp only [h]
  rw [putList, store_out (by decide)]
  cases findStage2 (fileOf d.esp) with
  | some i => exact setint_byte (by decide)
  | none =>
    cases findStage2 (fileOf d.sys1) with
    | some i => exact setint_byte (by decide)
    | none => rfl

theorem bootSectors_some (d : DiskFiles)
    (hstage : d.stage1.isSome → 0 < (fileOf d.esp).length ∨ 0 < (fileOf d.sys1).length ∨ 0 < (fileOf d.usr1).length) :
    ∃ esp ssp1 usr1, bootSectors d = some (esp, ssp1, usr1) ∧ esp.length = (fileOf d.esp).length ∧
      ssp1.length = (fileOf d.sys1).length ∧ usr1.length = (fileOf d.usr1).length := by
  have hover : ∀ img o n l, (overwrite img o n l).length = img.length := fun img o n l => bytesAt_length _ _ _
  unfold bootSectors
  simp only
  split_ifs with h0 hesp hsys
  · exact ⟨_, _, _, rfl, by rw [hover, hover], rfl, rfl⟩
  · exact ⟨_, _, _, rfl, rfl, hover _ _ _ _, rfl⟩
  · cases hu : d.usr1 with
    | some u => exact ⟨_, _, _, rfl, rfl, rfl, hover _ _ _ _⟩
    | none =>
      cases hst : d.stage1 with
      | some l => simp_all [fileOf]
      | none => exact absurd (stage1Loader_none hst) h0
  · exact ⟨_, _, _, rfl, rfl, rfl, rfl⟩

theorem images_filter {es : List Part} (h : ∀ e ∈ es, e.must = true → 0 < e.image.length) :
    images es = (es.map Part.image).filter fun l => decide (0 < l.length) := by
  rw [images, List.filter_map]
  congr 1
  apply List.filter_congr
  intro e he
  cases hm : e.must with
  | true => simp [Part.present, hm, h e he hm]
  | false => simp [Part.present, hm]

def diskSizes (d : DiskFiles) : List Nat :=
  [d.esp, d.sys1, d.sys2, d.usr1, d.usr2, d.var, d.home].map fun o => (fileOf o).length

/-- the images that are there lie in the sectors of their entries, and the headers describe the table -/
theorem createdisk_law (d : DiskFiles) (hsec : ∀ n ∈ diskSizes d, 512 ∣ n) (hvar : 0 < (fileOf d.var).length)
    (hhome : 0 < (fileOf d.home).length) (htotal : (diskSizes d).sum / 512 < 2^31)
    (hstage : d.stage1.isSome → 0 < (fileOf d.esp).length ∨ 0 < (fileOf d.sys1).length ∨ 0 < (fileOf d.usr1).length) :
    ∃ esp ssp1 usr1 disk last backup array, bootSectors d = some (esp, ssp1, usr1) ∧
      esp.length = (fileOf d.esp).length ∧ ssp1.length = (fileOf d.sys1).length ∧ usr1.length = (fileOf d.usr1).length ∧
      createdisk d = some disk ∧
      DiskLaw (textBuf disk) ([esp, ssp1, fileOf d.sys2, usr1, fileOf d.usr2, fileOf d.var, fileOf d.home,
        d.swap].filter
        fun l => decide (0 < l.length)) 8 last backup array := by
  obtain ⟨esp, ssp1, usr1, hboot, hesp, hssp, husr⟩ := bootSectors_some d hstage
  have hmust : ∀ e ∈ diskParts d esp ssp1 usr1, e.must = true → 0 < e.image.length := by
    simp [diskParts, hvar, hhome, d.swap_length]
  have himages := images_filter hmust
  have hlaw := disk_law (mbrTable (stage1Loader d) esp.length ssp1.length) (diskParts d esp ssp1 usr1)
    (by
      rw [himages]
      intro img hin
      obtain ⟨hin, hpos⟩ := List.mem_filter.mp hin
      refine ⟨?_, of_decide_eq_true hpos⟩
      simp only [diskSizes, diskParts, List.map_cons, List.map_nil, List.mem_cons, List.not_mem_nil, or_false,
        forall_eq_or_imp, forall_eq] at hsec hin
      obtain ⟨s1, s2, s3, s4, s5, s6, s7⟩ := hsec
      obtain rfl | rfl | rfl | rfl | rfl | rfl | rfl | rfl := hin
      · rwa [hesp]
      · rwa [hssp]
      · exact s3
      · rwa [husr]
      · exact s5
      · exact s6
      · exact s7
      · rw [d.swap_length]
        decide)
    (by rw [images_length]; rfl)
    (by rw [himages]; exact List.length_filter_le _ _)
    (by
      simp only [diskSizes, totalSize, diskParts, List.map_cons, List.map_nil, List.sum_cons, List.sum_nil, hesp,
        hssp, husr,
        d.swap_length] at htotal ⊢
      omega)
  rw [himages] at hlaw
  exact ⟨esp, ssp1, usr1, _, _, _, _, hboot, hesp, hssp, husr, by rw [createdisk, hboot]; rfl, hlaw⟩

/-- a disk of a public and a private partition, one sector each -/
def smallDisk : DiskFiles where
  esp := none
  sys1 := none
  sys2 := none
  usr1 := none
  usr2 := none
  var := some (List.replicate 512 1)
  home := some (List.replicate 512 2)
  stage1 := none
  swap := List.replicate 4096 0
  swap_length := List.length_replicate
  stray := [0, 0]
  stray_length := rfl

theorem createdisk_small : ∃ disk last backup array, createdisk smallDisk = some disk ∧
    DiskLaw (textBuf disk) [fileOf smallDisk.var, fileOf smallDisk.home, smallDisk.swap] 8 last backup array := by
  have hthree : ∀ x y z : List UInt8, 0 < x.length → 0 < y.length → 0 < z.length →
      [[], [], [], [], [], x, y, z].filter (fun l => decide (0 < l.length)) = [x, y, z] := by
    intro x y z hx hy hz
    simp [hx, hy, hz]
  obtain ⟨esp, ssp1, usr1, disk, last, backup, array, -, hesp, hssp, husr, hdisk, hlaw⟩ :=
    createdisk_law smallDisk (by decide +kernel) (by decide +kernel) (by decide +kernel) (by decide +kernel) (by decide)
  rw [List.eq_nil_of_length_eq_zero hesp, List.eq_nil_of_length_eq_zero hssp, List.eq_nil_of_length_eq_zero husr,
    show fileOf smallDisk.sys2 = [] from rfl, show fileOf smallDisk.usr2 = [] from rfl,
    hthree _ _ _ (by decide +kernel) (by decide +kernel) (by decide +kernel)] at hlaw
  exact ⟨disk, last, backup, array, hdisk, hlaw⟩

end OsZ
