import OsZ.Base.Word

/-!
# The number printers of the core (`core/kprintf.c`, `core/syslog.c`)

`%d` and `%x` write the digits into `tmpstr` from the back, then the sign and the padding, and print from the
last byte written.

* `putdec`, `puthex`  the lowest index written and the text from there on;
* `numeralText`       a number in a base;
* `print_law_iff`     the texts are right, and inside of the buffer, but for the least number.
-/

namespace OsZ

/-- `do { tmpstr[--i]=dig(c); c=next(c); } while(c!=0&&i>0);` -/
def digitLoop (dig : Int → UInt8) (next : Int → Int) : Nat → Int → List UInt8 → Nat × List UInt8
  | 0, _, t => (0, t)
  | i+1, c, t => if next c ≠ 0 ∧ 0 < i then digitLoop dig next i (next c) (dig c :: t) else (i, dig c :: t)

/-- `while(i>lo) tmpstr[--i]=x;` -/
def padTo (x : UInt8) (lo i : Int) (t : List UInt8) : Int × List UInt8 :=
  if lo < i then padTo x lo (i - 1) (x :: t) else (i, t)
termination_by (i - lo).toNat

/-- `'0'+(c%10)` -/
def decChar (c : Int) : UInt8 := (48 + c.tmod 10).toNat.toUInt8

def hexChar (c : Int) : UInt8 := if c % 16 < 10 then (48 + c % 16).toNat.toUInt8 else (65 + c % 16 - 10).toNat.toUInt8

/-- `c*=-1` wraps around; `tmpstr[18]` is the closing 0 -/
def putdec (cnt : Nat) (c : Int) : Int × List UInt8 :=
  let c' := if c < 0 then Int.bmod (-c) (2^64) else c
  let d := digitLoop decChar (fun c => c.tdiv 10) 18 (if 99999999999999999 < c' then 99999999999999999 else c') []
  let r : Int × List UInt8 := if c < 0 then (d.1 - 1, 45 :: d.2) else (d.1, d.2)
  if 0 < cnt ∧ cnt < 18 then padTo 32 (18 - cnt) r.1 r.2 else r

def puthex (cnt : Nat) (c : Int) : Int × List UInt8 :=
  let d := digitLoop hexChar (fun c => c / 16) 16 c []
  if 0 < cnt ∧ cnt ≤ 8 then padTo 48 (16 - cnt * 2) d.1 d.2 else (d.1, d.2)

def kprintfPutdec : Nat → Int → Int × List UInt8 := putdec

def sprintfPutdec : Nat → Int → Int × List UInt8 := putdec

def kprintfPuthex : Nat → Int → Int × List UInt8 := puthex

def sprintfPuthex : Nat → Int → Int × List UInt8 := puthex

/-! ## the texts -/

def digitByte (d : Nat) : UInt8 := (if d < 10 then 48 + d else 55 + d).toUInt8

/-- without leading zeros -/
def numeralText (base n : Nat) : List UInt8 := if n = 0 then [48] else (Nat.digits base n).reverse.map digitByte

/-- blanks up to the width, when there is one, in front of the sign -/
def DecLaw (put : Nat → Int → Int × List UInt8) (cnt : Nat) (c : Int) : Prop :=
  let text := (if c < 0 then [45] else []) ++ numeralText 10 (min c.natAbs 99999999999999999)
  0 ≤ (put cnt c).1 ∧ (put cnt c).2 = List.replicate ((if cnt < 18 then cnt else 0) - text.length) 32 ++ text

/-- zeros up to twice the width -/
def HexLaw (put : Nat → Int → Int × List UInt8) (cnt : Nat) (c : Int) : Prop :=
  let text := numeralText 16 (u64 c)
  0 ≤ (put cnt c).1 ∧ (put cnt c).2 = List.replicate ((if cnt ≤ 8 then 2 * cnt else 0) - text.length) 48 ++ text

theorem padTo_eq (x : UInt8) (lo i : Int) (t : List UInt8) :
    padTo x lo i t = (i - (i - lo).toNat, List.replicate (i - lo).toNat x ++ t) := by
  induction hn : (i - lo).toNat generalizing i t with
  | zero =>
    rw [padTo, if_neg (by omega)]
    exact Prod.ext (by dsimp only; omega) rfl
  | succ n ih =>
    rw [padTo, if_pos (by omega), ih (i - 1) (x :: t) (by omega), List.replicate_succ', List.append_assoc]
    exact Prod.ext (by dsimp only; omega) rfl

theorem padTo_width {total w : Nat} {i : Int} {text : List UInt8} (x : UInt8) (hi : i + text.length = total)
    (h0 : 0 ≤ i) (hw : w ≤ total) : 0 ≤ (padTo x (total - w) i text).1 ∧
      (padTo x (total - w) i text).2 = List.replicate (w - text.length) x ++ text := by
  have he : (i - (total - w)).toNat = w - text.length := by omega
  rw [padTo_eq, he]
  exact ⟨by dsimp only; omega, rfl⟩

theorem numeralText_digit {base n : Nat} (h : n < base) : numeralText base n = [digitByte n] := by
  unfold numeralText
  split_ifs with h0
  · rw [h0]; rfl
  · rw [Nat.digits_of_lt base n h0 h]; rfl

theorem numeralText_step {base n : Nat} (hb : 1 < base) (h : base ≤ n) :
    numeralText base n = numeralText base (n / base) ++ [digitByte (n % base)] := by
  have h0 : n / base ≠ 0 := (Nat.div_pos h (by omega)).ne'
  unfold numeralText
  rw [if_neg (by omega), if_neg h0, Nat.digits_def' hb (by omega), List.reverse_cons, List.map_append]
  rfl

theorem digitLoop_nat {dig : Int → UInt8} {next : Int → Int} {base : Nat} (hb : 1 < base)
    (hdig : ∀ n : Nat, dig n = digitByte (n % base)) (hnext : ∀ n : Nat, next n = (n / base : Nat))
    (i n : Nat) (hi : 0 < i) (hn : n < base ^ i) (t : List UInt8) :
    (digitLoop dig next i n t).1 + (numeralText base n).length = i ∧
      (digitLoop dig next i n t).2 = numeralText base n ++ t := by
  induction i generalizing n t with
  | zero => omega
  | succ i ih =>
    rw [digitLoop, hdig, hnext]
    rcases Nat.lt_or_ge n base with h | h
    · rw [Nat.div_eq_of_lt h, Nat.mod_eq_of_lt h, numeralText_digit h, if_neg (by simp)]
      exact ⟨rfl, rfl⟩
    · have hdiv : n / base < base ^ i := Nat.div_lt_of_lt_mul (by rwa [pow_succ, Nat.mul_comm] at hn)
      have hpos : 0 < n / base := Nat.div_pos h (by omega)
      have hi' : 0 < i := by
        rcases Nat.eq_zero_or_pos i with rfl | hi'
        · rw [pow_zero] at hdiv; omega
        · exact hi'
      have := ih (n / base) hi' hdiv (digitByte (n % base) :: t)
      rw [if_pos ⟨by omega, hi'⟩, numeralText_step hb h, List.length_append, this.2, List.append_assoc]
      exact ⟨by simp only [List.length_singleton]; omega, rfl⟩

theorem hexChar_eq (c : Int) : hexChar c = digitByte (c % 16).toNat := by
  unfold hexChar digitByte
  split_ifs <;> first | omega | exact congrArg Nat.toUInt8 (by omega)

/-- a negative number shifts down to -1, and fills the digits that there are -/
theorem digitLoop_neg (i : Nat) (c : Int) (n : Nat) (hc : c < 0) (hlow : 8 * 16 ^ i ≤ n)
    (hn : (n : Int) = c + 16 ^ (i + 1))
    (t : List UInt8) : (digitLoop hexChar (fun c => c / 16) (i + 1) c t).1 + (numeralText 16 n).length = i + 1 ∧
      (digitLoop hexChar (fun c => c / 16) (i + 1) c t).2 = numeralText 16 n ++ t := by
  induction i generalizing c n t with
  | zero =>
    rw [digitLoop, if_neg (by simp), numeralText_digit (by omega), hexChar_eq, show (c % 16).toNat = n by omega]
    exact ⟨rfl, rfl⟩
  | succ i ih =>
    have hpos : 0 < (16 : Nat) ^ i := by positivity
    have := ih (c / 16) (n / 16) (by omega) (by omega) (by omega) (digitByte (n % 16) :: t)
    rw [digitLoop, if_pos ⟨by omega, Nat.succ_pos i⟩, hexChar_eq, show (c % 16).toNat = n % 16 by omega,
      numeralText_step (by decide) (by omega), List.length_append, this.2, List.append_assoc]
    exact ⟨by simp only [List.length_singleton]; omega, rfl⟩

/-! ## the printers -/

theorem puthex_law (cnt : Nat) (c : Int) (h : -2^63 ≤ c) (h' : c < 2^63) : HexLaw puthex cnt c := by
  have hd : (digitLoop hexChar (fun c => c / 16) 16 c []).1 + (numeralText 16 (u64 c)).length = 16 ∧
      (digitLoop hexChar (fun c => c / 16) 16 c []).2 = numeralText 16 (u64 c) ++ [] := by
    rcases lt_or_ge c 0 with hc | hc
    · refine digitLoop_neg 15 c (u64 c) hc ?_ ?_ [] <;> unfold u64 <;> omega
    · obtain ⟨n, rfl⟩ := Int.eq_ofNat_of_zero_le hc
      rw [u64_natCast (by omega)]
      exact digitLoop_nat (by decide) (fun n => hexChar_eq n) (fun n => rfl) 16 n (by decide) (by norm_num; omega) []
  rw [List.append_nil] at hd
  unfold HexLaw puthex
  dsimp only
  by_cases hcnt : 0 < cnt ∧ cnt ≤ 8
  · rw [if_pos hcnt, if_pos hcnt.2, hd.2, show (16 - cnt * 2 : Int) = (16 : Nat) - (2 * cnt : Nat) by push_cast; ring]
    exact padTo_width 48 (by omega) (by omega) (by omega)
  · have hw : (if cnt ≤ 8 then 2 * cnt else 0) = 0 := by split_ifs <;> omega
    rw [if_neg hcnt, hw, hd.2, Nat.zero_sub]
    exact ⟨by dsimp only; omega, rfl⟩

theorem decChar_eq (n : Nat) : decChar n = digitByte (n % 10) := by
  unfold decChar digitByte
  rw [if_pos (Nat.mod_lt n (by decide)), show (n : Int).tmod 10 = (n % 10 : Nat) from rfl]
  exact congrArg Nat.toUInt8 (by omega)

theorem putdec_law (cnt : Nat) (c : Int) (h : -2^63 < c) (h' : c < 2^63) : DecLaw putdec cnt c := by
  obtain ⟨n, hn⟩ : ∃ n, n = min c.natAbs 99999999999999999 := ⟨_, rfl⟩
  have hc : (if 99999999999999999 < (if c < 0 then Int.bmod (-c) (2^64) else c) then 99999999999999999
      else (if c < 0 then Int.bmod (-c) (2^64) else c)) = (n : Int) := by
    have hneg : c < 0 → Int.bmod (-c) (2^64) = -c := fun h0 => Int.bmod_eq_of_le (by omega) (by omega)
    split_ifs <;> omega
  have hloop : ∀ i, 0 < i → n < 10 ^ i →
      (digitLoop decChar (fun c => c.tdiv 10) i n []).1 + (numeralText 10 n).length = i ∧
        (digitLoop decChar (fun c => c.tdiv 10) i n []).2 = numeralText 10 n ++ [] :=
    fun i hi hlt => digitLoop_nat (by decide) decChar_eq (fun _ => rfl) i n hi hlt []
  -- 17 digits at most, so there is room for the sign
  have hshort := (hloop 17 (by decide) (by omega)).1
  obtain ⟨hd, ht⟩ := hloop 18 (by decide) (by omega)
  obtain ⟨text, htext⟩ : ∃ text, text = (if c < 0 then [45] else []) ++ numeralText 10 n := ⟨_, rfl⟩
  obtain ⟨r, hr⟩ : ∃ r : Int × List UInt8, r = if c < 0 then
    (((digitLoop decChar (fun c => c.tdiv 10) 18 n []).1 : Int) - 1,
      45 :: numeralText 10 n) else ((digitLoop decChar (fun c => c.tdiv 10) 18 n []).1, numeralText 10 n) := ⟨_, rfl⟩
  have hri : r.1 + text.length = (18 : Nat) ∧ 0 ≤ r.1 ∧ r.2 = text := by
    rw [hr, htext]
    split_ifs
    · exact ⟨by rw [List.length_append, List.length_singleton]; dsimp only; omega, by dsimp only; omega, rfl⟩
    · exact ⟨by rw [List.nil_append]; dsimp only; omega, by dsimp only; omega, rfl⟩
  unfold DecLaw putdec
  dsimp only
  rw [hc, ht, List.append_nil, ← hr, ← hn, ← htext, hri.2.2]
  by_cases hcnt : 0 < cnt ∧ cnt < 18
  · rw [if_pos hcnt, if_pos hcnt.2]
    exact padTo_width 32 hri.1 hri.2.1 hcnt.2.le
  · have hw : (if cnt < 18 then cnt else 0) = 0 := by split_ifs <;> omega
    rw [if_neg hcnt, hw, Nat.zero_sub]
    exact hri.2

/-- the digits of the least number reach the start of the buffer, and its sign is in front of it -/
theorem putdec_least (cnt : Nat) : (putdec cnt (-2^63)).1 = -1 := by
  have hd : (digitLoop decChar (fun c => c.tdiv 10) 18 (-2^63) []).1 = 0 := by decide +kernel
  have hneg : (-2^63 : Int) < 0 := by norm_num
  have hle : ¬ (99999999999999999 : Int) < -2^63 := by norm_num
  have hwrap : Int.bmod (- -2^63) (2^64) = -2^63 := by decide +kernel
  unfold putdec
  simp only [if_pos hneg, hwrap, if_neg hle, hd]
  by_cases hcnt : 0 < cnt ∧ cnt < 18
  · rw [if_pos hcnt, padTo_eq]
    dsimp only
    omega
  · rw [if_neg hcnt]
    rfl

/-- **The printers.**  For every number and width the texts are those of the number and are inside of the
buffer, but for `%d` of the least number. -/
theorem print_law_iff (cnt : UInt8) (c : BitVec 64) :
    (DecLaw kprintfPutdec cnt.toNat c.toInt ∧ DecLaw sprintfPutdec cnt.toNat c.toInt ∧
      HexLaw kprintfPuthex cnt.toNat c.toInt ∧ HexLaw sprintfPuthex cnt.toNat c.toInt) ↔ c.toInt ≠ -2^63 := by
  have h := c.le_toInt
  have h' := c.toInt_lt
  have hhex := puthex_law cnt.toNat c.toInt (by omega) (by omega)
  refine ⟨fun hl he => ?_, fun hne => ?_⟩
  · have hlow := hl.1.1
    rw [he] at hlow
    exact absurd hlow (by rw [kprintfPutdec, putdec_least]; decide)
  · have hdec := putdec_law cnt.toNat c.toInt (by omega) (by omega)
    exact ⟨hdec, hdec, hhex, hhex⟩

/-- it is printed from the byte before the buffer on, as `-..--).0-*(+,))+(0(` -/
theorem putdec_leaves : kprintfPutdec 0 (-2^63) =
    (-1, [45, 46, 46, 45, 45, 41, 46, 48, 45, 42, 40, 43, 44, 41, 41, 43, 40, 48, 40]) := by
  decide +kernel

end OsZ
