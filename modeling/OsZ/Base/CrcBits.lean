import Mathlib.Data.Nat.Bitwise
import OsZ.Base.Crc

/-!
# Checksums bit by bit

A reflected CRC shifts the message in from the low end.  One bit step is linear over `xor`, so the whole
checksum is that step iterated on the message as one number (`crcBits_eq`), and the table is eight steps of an
index.  A difference that is at most as long as the polynomial is shifted out of no state.

* `bitStep`, `crcBits`  one bit, and all bits of a message;
* `Burst`               two messages differ in a run of at most 32 bits;
* `burst_ne`            then their checksums differ;
* `eficrc32Calc`        the checksum with the polynomial of EFI;
* `crc_law`             both functions of `crc32.h` compute the checksum of their polynomial.
-/

namespace OsZ

/-! ## bits -/

def bitStep (poly x : Nat) : Nat := (x >>> 1) ^^^ (if x % 2 = 1 then poly else 0)

/-- every bit goes into the low end -/
def crcBits (poly init : Nat) (bits : List Bool) : Nat := bits.foldl (fun x b => bitStep poly (x ^^^ b.toNat)) init

/-- the least significant bit of each byte first -/
def bitsOf (bytes : List UInt8) : List Bool := bytes.flatMap fun b => (List.range 8).map b.toNat.testBit

def ofBits (bits : List Bool) : Nat := bits.foldr (fun b w => b.toNat + 2 * w) 0

def Burst (a b : List UInt8) : Prop :=
  a ≠ b ∧ ∃ k, ∀ i, (bitsOf a)[i]? ≠ (bitsOf b)[i]? → k ≤ i ∧ i < k + 32

section
variable {poly x y : Nat}

theorem bitStep_xor (poly x y : Nat) : bitStep poly (x ^^^ y) = bitStep poly x ^^^ bitStep poly y := by
  have hpar : (x ^^^ y) % 2 = (x + y) % 2 := Nat.xor_mod_two_eq
  unfold bitStep
  rw [Nat.shiftRight_xor_distrib, hpar]
  rcases Nat.mod_two_eq_zero_or_one x with hx | hx <;> rcases Nat.mod_two_eq_zero_or_one y with hy | hy
  all_goals simp [Nat.add_mod x y, hx, hy, Nat.xor_comm, Nat.xor_left_comm]

theorem bitStep_double (poly w : Nat) : bitStep poly (2 * w) = w := by
  unfold bitStep
  rw [Nat.shiftRight_one, if_neg (by omega), Nat.xor_zero]
  omega

theorem steps_xor (poly n x y : Nat) : (bitStep poly)^[n] (x ^^^ y) =
    (bitStep poly)^[n] x ^^^ (bitStep poly)^[n] y := by
  induction n generalizing x y with
  | zero => rfl
  | succ n ih => rw [Function.iterate_succ_apply, bitStep_xor, ih]; rfl

theorem steps_shift (poly n w : Nat) : (bitStep poly)^[n] (w * 2 ^ n) = w := by
  induction n generalizing w with
  | zero => simp
  | succ n ih => rw [Function.iterate_succ_apply, show w * 2 ^ (n + 1) = 2 * (w * 2 ^ n) by ring, bitStep_double, ih]

theorem bit_xor_double (b : Bool) (w : Nat) : b.toNat ^^^ 2 * w = b.toNat + 2 * w := by
  cases b with
  | false => simp
  | true =>
    rw [Bool.toNat_true, Nat.xor_comm, Nat.add_comm]
    exact Nat.xor_one_of_even (even_two_mul w)

theorem crcBits_eq (poly init : Nat) (bits : List Bool) :
    crcBits poly init bits = (bitStep poly)^[bits.length] (init ^^^ ofBits bits) := by
  induction bits generalizing init with
  | nil => simp [crcBits, ofBits]
  | cons b bits ih =>
    have hsplit : init ^^^ ofBits (b :: bits) = (init ^^^ b.toNat) ^^^ 2 * ofBits bits := by
      rw [Nat.xor_assoc, bit_xor_double]
      rfl
    rw [List.length_cons, Function.iterate_succ_apply, hsplit, bitStep_xor, bitStep_double, ← ih]
    rfl

/-! ## bursts -/

theorem bitStep_lt (hpoly : poly < 2^32) (hx : x < 2^32) : bitStep poly x < 2^32 := by
  apply Nat.xor_lt_two_pow
  · exact lt_of_le_of_lt (Nat.shiftRight_le x 1) hx
  · split_ifs
    · exact hpoly
    · decide

/-- the polynomial has its top bit, so that no step clears the state -/
theorem bitStep_ne (hpoly : poly.testBit 31 = true) (hx : x < 2^32) (h0 : x ≠ 0) : bitStep poly x ≠ 0 := by
  intro h
  unfold bitStep at h
  split_ifs at h with hodd
  · have htop := congrArg (fun z => z.testBit 31) h
    have hx31 : (x >>> 1).testBit 31 = false := by
      rw [Nat.testBit_shiftRight]
      exact Nat.testBit_lt_two_pow hx
    simp [hx31, hpoly] at htop
  · rw [Nat.xor_zero, Nat.shiftRight_one] at h
    omega

theorem steps_ne (hpoly : poly.testBit 31 = true) (hlt : poly < 2^32) (n : Nat) (hx : x < 2^32) (h0 : x ≠ 0) :
    (bitStep poly)^[n] x ≠ 0 := by
  induction n generalizing x with
  | zero => exact h0
  | succ n ih => exact ih (bitStep_lt hlt hx) (bitStep_ne hpoly hx h0)

theorem ofBits_testBit (bits : List Bool) (i : Nat) : (ofBits bits).testBit i = bits[i]?.getD false := by
  induction bits generalizing i with
  | nil => simp [ofBits]
  | cons b bits ih =>
    show (b.toNat + 2 * ofBits bits).testBit i = _
    cases i with
    | zero => cases b <;> simp [Nat.testBit_zero, Nat.add_mod]
    | succ i =>
      have hhalf : (b.toNat + 2 * ofBits bits) / 2 = ofBits bits := by
        have := b.toNat_lt
        omega
      rw [Nat.testBit_succ, hhalf, ih, List.getElem?_cons_succ]

theorem ofBits_append (a b : List Bool) : ofBits (a ++ b) = ofBits a + 2 ^ a.length * ofBits b := by
  induction a with
  | nil => simp [ofBits]
  | cons c a ih =>
    show c.toNat + 2 * ofBits (a ++ b) = c.toNat + 2 * ofBits a + _
    rw [ih, List.length_cons, pow_succ]
    ring

theorem ofBits_byte (b : UInt8) : ofBits ((List.range 8).map b.toNat.testBit) = b.toNat := by
  have hall : ∀ n < 256, ofBits ((List.range 8).map (Nat.testBit n)) = n := by decide +kernel
  exact hall b.toNat b.toNat_lt

theorem ofBits_cons (b : UInt8) (bytes : List UInt8) :
    ofBits (bitsOf (b :: bytes)) = b.toNat + 256 * ofBits (bitsOf bytes) := by
  unfold bitsOf
  rw [List.flatMap_cons, ofBits_append, ofBits_byte]
  simp

theorem bitsOf_length (bytes : List UInt8) : (bitsOf bytes).length = 8 * bytes.length := by
  unfold bitsOf
  rw [List.length_flatMap]
  simp [Nat.mul_comm]

theorem ofBits_inj {a b : List UInt8} (hlen : a.length = b.length) (h : ofBits (bitsOf a) = ofBits (bitsOf b)) : a =
    b := by
  induction a generalizing b with
  | nil => exact (List.length_eq_zero_iff.mp hlen.symm).symm
  | cons x a ih =>
    cases b with
    | nil => exact absurd hlen (by simp)
    | cons y b =>
      rw [ofBits_cons, ofBits_cons] at h
      have hx := x.toNat_lt
      have hy := y.toNat_lt
      rw [UInt8.toNat_inj.mp (show x.toNat = y.toNat by omega), ih (Nat.succ.inj hlen) (by omega)]

/-- the difference of two checksums is that of the messages, shifted -/
theorem burst_ne {a b : List UInt8} (hpoly : poly.testBit 31 = true) (hlt : poly < 2^32) (hlen : a.length = b.length)
    (hab : Burst a b) (init : Nat) : crcBits poly init (bitsOf a) ≠ crcBits poly init (bitsOf b) := by
  obtain ⟨hne, k, hk⟩ := hab
  obtain ⟨d, hd⟩ : ∃ d, d = ofBits (bitsOf a) ^^^ ofBits (bitsOf b) := ⟨_, rfl⟩
  have hbits : ∀ i, d.testBit i = true → k ≤ i ∧ i < k + 32 := by
    intro i hi
    refine hk i fun he => ?_
    rw [hd, Nat.testBit_xor, ofBits_testBit, ofBits_testBit, he, Bool.xor_self] at hi
    exact Bool.false_ne_true hi
  have hshift : d = d / 2 ^ k * 2 ^ k := by
    refine Nat.eq_of_testBit_eq fun i => ?_
    rw [Nat.testBit_mul_two_pow, Nat.testBit_div_two_pow]
    by_cases hki : k ≤ i
    · simp [hki]
    · simp only [hki, decide_false, Bool.false_and]
      exact Bool.eq_false_iff.mpr fun h => hki (hbits i h).1
  have hw : d / 2 ^ k < 2^32 := by
    refine Nat.lt_pow_two_of_testBit _ fun i hi => ?_
    rw [Nat.testBit_div_two_pow]
    exact Bool.eq_false_iff.mpr fun h => by have := hbits _ h; omega
  have h0 : d / 2 ^ k ≠ 0 := by
    intro h
    rw [h, Nat.zero_mul, hd] at hshift
    exact hne (ofBits_inj hlen (Nat.eq_of_xor_eq_zero hshift))
  intro he
  have hzero : (bitStep poly)^[(bitsOf a).length] d = 0 := by
    rw [crcBits_eq, crcBits_eq, bitsOf_length b, ← hlen, ← bitsOf_length a, steps_xor, steps_xor,
      Nat.xor_right_inj] at he
    rw [hd, steps_xor, he, Nat.xor_self]
  generalize d / 2 ^ k = w at hshift hw h0
  rcases Nat.le_total k (bitsOf a).length with hkn | hkn
  · rw [hshift, ← Nat.sub_add_cancel hkn, Function.iterate_add_apply, steps_shift] at hzero
    exact steps_ne hpoly hlt _ hw h0 hzero
  · rw [hshift, ← Nat.sub_add_cancel hkn, pow_add, ← Nat.mul_assoc, steps_shift] at hzero
    exact Nat.mul_ne_zero h0 (Nat.two_pow_pos _).ne' hzero

end

/-! ## the tables -/

/-- `crc32_lookup` -/
def crc32Lookup : List Nat :=
  [0x00000000, 0x77073096, 0xee0e612c, 0x990951ba, 0x076dc419, 0x706af48f, 0xe963a535, 0x9e6495a3, 0x0edb8832,
   0x79dcb8a4, 0xe0d5e91e, 0x97d2d988, 0x09b64c2b, 0x7eb17cbd, 0xe7b82d07, 0x90bf1d91, 0x1db71064, 0x6ab020f2,
   0xf3b97148, 0x84be41de, 0x1adad47d, 0x6ddde4eb, 0xf4d4b551, 0x83d385c7, 0x136c9856, 0x646ba8c0, 0xfd62f97a,
   0x8a65c9ec, 0x14015c4f, 0x63066cd9, 0xfa0f3d63, 0x8d080df5, 0x3b6e20c8, 0x4c69105e, 0xd56041e4, 0xa2677172,
   0x3c03e4d1, 0x4b04d447, 0xd20d85fd, 0xa50ab56b, 0x35b5a8fa, 0x42b2986c, 0xdbbbc9d6, 0xacbcf940, 0x32d86ce3,
   0x45df5c75, 0xdcd60dcf, 0xabd13d59, 0x26d930ac, 0x51de003a, 0xc8d75180, 0xbfd06116, 0x21b4f4b5, 0x56b3c423,
   0xcfba9599, 0xb8bda50f, 0x2802b89e, 0x5f058808, 0xc60cd9b2, 0xb10be924, 0x2f6f7c87, 0x58684c11, 0xc1611dab,
   0xb6662d3d, 0x76dc4190, 0x01db7106, 0x98d220bc, 0xefd5102a, 0x71b18589, 0x06b6b51f, 0x9fbfe4a5, 0xe8b8d433,
   0x7807c9a2, 0x0f00f934, 0x9609a88e, 0xe10e9818, 0x7f6a0dbb, 0x086d3d2d, 0x91646c97, 0xe6635c01, 0x6b6b51f4,
   0x1c6c6162, 0x856530d8, 0xf262004e, 0x6c0695ed, 0x1b01a57b, 0x8208f4c1, 0xf50fc457, 0x65b0d9c6, 0x12b7e950,
   0x8bbeb8ea, 0xfcb9887c, 0x62dd1ddf, 0x15da2d49, 0x8cd37cf3, 0xfbd44c65, 0x4db26158, 0x3ab551ce, 0xa3bc0074,
   0xd4bb30e2, 0x4adfa541, 0x3dd895d7, 0xa4d1c46d, 0xd3d6f4fb, 0x4369e96a, 0x346ed9fc, 0xad678846, 0xda60b8d0,
   0x44042d73, 0x33031de5, 0xaa0a4c5f, 0xdd0d7cc9, 0x5005713c, 0x270241aa, 0xbe0b1010, 0xc90c2086, 0x5768b525,
   0x206f85b3, 0xb966d409, 0xce61e49f, 0x5edef90e, 0x29d9c998, 0xb0d09822, 0xc7d7a8b4, 0x59b33d17, 0x2eb40d81,
   0xb7bd5c3b, 0xc0ba6cad, 0xedb88320, 0x9abfb3b6, 0x03b6e20c, 0x74b1d29a, 0xead54739, 0x9dd277af, 0x04db2615,
   0x73dc1683, 0xe3630b12, 0x94643b84, 0x0d6d6a3e, 0x7a6a5aa8, 0xe40ecf0b, 0x9309ff9d, 0x0a00ae27, 0x7d079eb1,
   0xf00f9344, 0x8708a3d2, 0x1e01f268, 0x6906c2fe, 0xf762575d, 0x806567cb, 0x196c3671, 0x6e6b06e7, 0xfed41b76,
   0x89d32be0, 0x10da7a5a, 0x67dd4acc, 0xf9b9df6f, 0x8ebeeff9, 0x17b7be43, 0x60b08ed5, 0xd6d6a3e8, 0xa1d1937e,
   0x38d8c2c4, 0x4fdff252, 0xd1bb67f1, 0xa6bc5767, 0x3fb506dd, 0x48b2364b, 0xd80d2bda, 0xaf0a1b4c, 0x36034af6,
   0x41047a60, 0xdf60efc3, 0xa867df55, 0x316e8eef, 0x4669be79, 0xcb61b38c, 0xbc66831a, 0x256fd2a0, 0x5268e236,
   0xcc0c7795, 0xbb0b4703, 0x220216b9, 0x5505262f, 0xc5ba3bbe, 0xb2bd0b28, 0x2bb45a92, 0x5cb36a04, 0xc2d7ffa7,
   0xb5d0cf31, 0x2cd99e8b, 0x5bdeae1d, 0x9b64c2b0, 0xec63f226, 0x756aa39c, 0x026d930a, 0x9c0906a9, 0xeb0e363f,
   0x72076785, 0x05005713, 0x95bf4a82, 0xe2b87a14, 0x7bb12bae, 0x0cb61b38, 0x92d28e9b, 0xe5d5be0d, 0x7cdcefb7,
   0x0bdbdf21, 0x86d3d2d4, 0xf1d4e242, 0x68ddb3f8, 0x1fda836e, 0x81be16cd, 0xf6b9265b, 0x6fb077e1, 0x18b74777,
   0x88085ae6, 0xff0f6a70, 0x66063bca, 0x11010b5c, 0x8f659eff, 0xf862ae69, 0x616bffd3, 0x166ccf45, 0xa00ae278,
   0xd70dd2ee, 0x4e048354, 0x3903b3c2, 0xa7672661, 0xd06016f7, 0x4969474d, 0x3e6e77db, 0xaed16a4a, 0xd9d65adc,
   0x40df0b66, 0x37d83bf0, 0xa9bcae53, 0xdebb9ec5, 0x47b2cf7f, 0x30b5ffe9, 0xbdbdf21c, 0xcabac28a, 0x53b39330,
   0x24b4a3a6, 0xbad03605, 0xcdd70693, 0x54de5729, 0x23d967bf, 0xb3667a2e, 0xc4614ab8, 0x5d681b02, 0x2a6f2b94,
   0xb40bbe37, 0xc30c8ea1, 0x5a05df1b, 0x2d02ef8d]

def eficrc32Calc (f : Nat → UInt8) (start length : Nat) : Nat :=
  (bytesAt f start length).foldl (fun c b => (c >>> 8) ^^^ crc32Lookup.getD ((c &&& 0xff) ^^^ b.toNat) 0) 0xffffffff ^^^
    0xffffffff

theorem steps_byte (poly x : Nat) : (bitStep poly)^[8] x = (x >>> 8) ^^^ (bitStep poly)^[8] (x &&& 0xff) := by
  have hx : x = (x >>> 8) * 2 ^ 8 ^^^ (x &&& 0xff) := by
    refine Nat.eq_of_testBit_eq fun i => ?_
    rw [Nat.testBit_xor, Nat.testBit_mul_two_pow, Nat.testBit_shiftRight, Nat.testBit_and,
      show (0xff : Nat) = 2 ^ 8 - 1 from rfl, Nat.testBit_two_pow_sub_one]
    by_cases hi : 8 ≤ i
    · simp [hi, Nat.not_lt.mpr hi]
    · simp [hi, Nat.not_le.mp hi]
  conv_lhs => rw [hx]
  rw [steps_xor, steps_shift]

theorem crcBits_table {poly : Nat} {table : List Nat} (htable : ∀ i < 256, table.getD i 0 = (bitStep poly)^[8] i)
    (init : Nat) (bytes : List UInt8) :
    bytes.foldl (fun c b => (c >>> 8) ^^^ table.getD ((c &&& 0xff) ^^^ b.toNat) 0) init =
      crcBits poly init (bitsOf bytes) := by
  induction bytes generalizing init with
  | nil => rfl
  | cons b bytes ih =>
    have hb := b.toNat_lt
    have hbyte : (init >>> 8) ^^^ table.getD ((init &&& 0xff) ^^^ b.toNat) 0 =
        crcBits poly init ((List.range 8).map b.toNat.testBit) := by
      have hlow : (init ^^^ b.toNat) &&& 0xff = (init &&& 0xff) ^^^ b.toNat := by
        rw [Nat.and_xor_distrib_right, show b.toNat &&& 0xff = b.toNat from
          (Nat.and_two_pow_sub_one_eq_mod b.toNat 8).trans (Nat.mod_eq_of_lt hb)]
      have hhigh : (init ^^^ b.toNat) >>> 8 = init >>> 8 := by
        rw [Nat.shiftRight_xor_distrib, show b.toNat >>> 8 = 0 from
          (Nat.shiftRight_eq_div_pow _ _).trans (Nat.div_eq_of_lt hb), Nat.xor_zero]
      have hidx : (init &&& 0xff) ^^^ b.toNat < 256 :=
        Nat.xor_lt_two_pow (n := 8) (lt_of_le_of_lt Nat.and_le_right (by decide)) hb
      rw [crcBits_eq, ofBits_byte, List.length_map, List.length_range, steps_byte, hlow, hhigh, htable _ hidx]
    rw [List.foldl_cons, ih, hbyte]
    unfold bitsOf crcBits
    rw [List.flatMap_cons, List.foldl_append]

theorem crc32cLookup_steps : ∀ i < 256, crc32cLookup.getD i 0 = (bitStep 0x82F63B78)^[8] i := by decide +kernel

theorem crc32Lookup_steps : ∀ i < 256, crc32Lookup.getD i 0 = (bitStep 0xEDB88320)^[8] i := by decide +kernel

/-- **The checksums.**  Both functions compute the checksum of their polynomial bit by bit, and both find
every burst of at most 32 bits. -/
theorem crc_law (f : Nat → UInt8) (start length : Nat) :
    crc32Calc f start length = crcBits 0x82F63B78 0 (bitsOf (bytesAt f start length)) ∧
    eficrc32Calc f start length = crcBits 0xEDB88320 0xffffffff (bitsOf (bytesAt f start length)) ^^^ 0xffffffff ∧
    ∀ (g : Nat → UInt8) (start' : Nat), Burst (bytesAt f start length) (bytesAt g start' length) →
      crc32Calc f start length ≠ crc32Calc g start' length ∧
      eficrc32Calc f start length ≠ eficrc32Calc g start' length := by
  have hc : ∀ f start, crc32Calc f start length = crcBits 0x82F63B78 0 (bitsOf (bytesAt f start length)) :=
    fun f start => crcBits_table crc32cLookup_steps 0 (bytesAt f start length)
  have he : ∀ f start, eficrc32Calc f start length =
      crcBits 0xEDB88320 0xffffffff (bitsOf (bytesAt f start length)) ^^^ 0xffffffff :=
    fun f start => congrArg (· ^^^ 0xffffffff) (crcBits_table crc32Lookup_steps 0xffffffff (bytesAt f start length))
  refine ⟨hc f start, he f start, fun g start' hb => ?_⟩
  have hlen : (bytesAt f start length).length = (bytesAt g start' length).length := by simp [bytesAt]
  constructor
  · rw [hc, hc]
    exact burst_ne (by decide +kernel) (by decide) hlen hb 0
  · rw [he, he]
    exact fun h => burst_ne (by decide +kernel) (by decide) hlen hb 0xffffffff (Nat.xor_left_inj.mp h)

theorem crc_law_byte : crc32Calc (fun _ => 0) 0 1 ≠ crc32Calc (fun _ => 1) 0 1 :=
  ((crc_law (fun _ => 0) 0 1).2.2 (fun _ => 1) 0 ⟨by decide, 0, fun i hi => by
    have hlen : i < 8 := by
      by_contra h
      exact hi (by simp [bitsOf, bytesAt, Nat.not_lt.mp h])
    omega⟩).1

end OsZ
