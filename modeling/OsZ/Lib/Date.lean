import OsZ.Base.Word

/-!
# The time stamp of a BCD date (`env_getts` in `core/env.c`)

The date comes from the loader or from the clock as seven bytes.  `p` is a `char *`, so a byte from 0x80 on
is negative, and the days are counted from 2016 on.

* `envGetts`        the function;
* `Date`, `seconds` a date of the Gregorian calendar and its distance from the epoch;
* `envGetts_date`   what the function returns for every date;
* `envGetts_iff`    when this is the distance, corrected by the time zone.
-/

namespace OsZ

/-- `for(;j<n;j++) r += f(j)` -/
def addUp (f : Nat → Nat) (n j r : Nat) : Nat := if j < n then addUp f n (j + 1) (r + f j) else r
termination_by n - j

/-- the length of a year in the loop -/
def yearLoop (j : Nat) : Nat := if j &&& 3 ≠ 0 then 365 else if j % 100 = 0 ∧ j % 400 ≠ 0 then 365 else 366

/-- the table of months, February tweaked -/
def mdays (y : Nat) : List Nat :=
  [31, if y &&& 3 ≠ 0 then 28 else if y % 100 = 0 ∧ y % 400 ≠ 0 then 28 else 29, 31, 30, 31, 30, 31, 31, 30, 31, 30, 31]

/-- `((c>>4)*10)+(c&0x0F)` -/
def unbcd (c : Int) : Int := c / 16 * 10 + c % 16

/-- the sums and products are in `uint64_t`, so that it is enough to reduce the last one; `md[j-1]` with
`j>12` is not modelled (it is 0 here), no BCD date gets there -/
def envGetts (p : Nat → UInt8) (timezone : Int) : Nat :=
  let c := fun i => Int.bmod (p i).toNat 256
  let bcd := 0x20 ≤ c 0 ∧ c 0 ≤ 0x30 ∧ c 1 ≤ 0x99 ∧ 1 ≤ c 2 ∧ c 2 ≤ 0x12 ∧ 1 ≤ c 3 ∧ c 3 ≤ 0x31 ∧
    c 4 ≤ 0x23 ∧ c 5 ≤ 0x59 ∧ c 6 ≤ 0x60
  let get := fun i => if bcd then unbcd (c i) else c i
  let y := u64 (if bcd then c 0 / 16 * 1000 + c 0 % 16 * 100 + unbcd (c 1) else c 1 * 256 + c 0)
  let r := addUp yearLoop y 2016 16801
  let r := addUp (fun j => (mdays y).getD (j - 1) 0) (u64 (get 2)) 1 r
  u64 ((r + (get 3 - 1)) * (24 * 60 * 60) + get 4 * 60 * 60 + (timezone + get 5) * 60 + get 6)

/-! ## the calendar -/

def IsLeap (y : Nat) : Prop := 4 ∣ y ∧ (100 ∣ y → 400 ∣ y)

instance (y : Nat) : Decidable (IsLeap y) := by unfold IsLeap; infer_instance

def yearDays (y : Nat) : Nat := if IsLeap y then 366 else 365

def monthDays (y m : Nat) : Nat :=
  if m = 2 then (if IsLeap y then 29 else 28) else if m = 4 ∨ m = 6 ∨ m = 9 ∨ m = 11 then 30 else 31

structure Date where
  year : Nat
  month : Nat
  day : Nat
  hour : Nat
  minute : Nat
  second : Nat
  year_range : 2000 ≤ year ∧ year ≤ 3099
  month_range : 1 ≤ month ∧ month ≤ 12
  day_range : 1 ≤ day ∧ day ≤ monthDays year month
  hour_lt : hour < 24
  minute_lt : minute < 60
  second_lt : second < 60

namespace Date

def secondOfDay (t : Date) : Nat := t.hour * 3600 + t.minute * 60 + t.second

def dayOfYear (t : Date) : Nat := (∑ m ∈ Finset.Ico 1 t.month, monthDays t.year m) + (t.day - 1)

def seconds (t : Date) : Nat :=
  ((∑ y ∈ Finset.Ico 1970 t.year, yearDays y) + t.dayOfYear) * 86400 + t.secondOfDay

def bcd (n : Nat) : UInt8 := (n / 10 * 16 + n % 10).toUInt8

def bytes (t : Date) (i : Nat) : UInt8 :=
  [bcd (t.year / 100), bcd (t.year % 100), bcd t.month, bcd t.day, bcd t.hour, bcd t.minute, bcd t.second].getD i 0

/-- the year that the function takes the bytes for -/
def yearRead (t : Date) : Nat := if t.year % 100 < 80 then t.year else t.year - 160

end Date

/-! ## the loops -/

theorem addUp_eq (f : Nat → Nat) (n j r : Nat) : addUp f n j r = r + ∑ k ∈ Finset.Ico j n, f k := by
  induction hd : n - j generalizing j r with
  | zero =>
    rw [addUp, if_neg (by omega), Finset.Ico_eq_empty (by omega), Finset.sum_empty, Nat.add_zero]
  | succ d ih =>
    have h : j < n := by omega
    rw [addUp, if_pos h, ih (j + 1) (r + f j) (by omega), Finset.sum_eq_sum_Ico_succ_bot h, Nat.add_assoc]

theorem and_three (y : Nat) : y &&& 3 = y % 4 := Nat.and_two_pow_sub_one_eq_mod y 2

theorem leap_test (y a b : Nat) :
    (if y &&& 3 ≠ 0 then a else if y % 100 = 0 ∧ y % 400 ≠ 0 then a else b) = if IsLeap y then b else a := by
  rw [and_three]
  by_cases h : IsLeap y
  · have h' := h
    unfold IsLeap at h'
    rw [if_pos h, if_neg (by omega), if_neg (by omega)]
  · have h' := h
    unfold IsLeap at h'
    rw [if_neg h]
    by_cases h4 : y % 4 = 0
    · rw [if_neg (by omega), if_pos (by omega)]
    · rw [if_pos h4]

theorem yearLoop_eq (y : Nat) : yearLoop y = yearDays y := leap_test y 365 366

theorem mdays_get {m : Nat} (y : Nat) (h : 1 ≤ m ∧ m ≤ 12) : (mdays y).getD (m - 1) 0 = monthDays y m := by
  obtain ⟨h1, h2⟩ := h
  unfold mdays
  rw [leap_test]
  interval_cases m <;> rfl

theorem yearDays_sum {a b : Nat} (h : a ≤ b) :
    (∑ y ∈ Finset.Ico 1970 a, yearDays y) + 365 * (b - a) ≤ ∑ y ∈ Finset.Ico 1970 b, yearDays y ∨ a < 1970 := by
  rcases Nat.lt_or_ge a 1970 with ha | ha
  · exact Or.inr ha
  rw [← Finset.sum_Ico_consecutive _ ha h]
  have : (Finset.Ico a b).card • 365 ≤ ∑ y ∈ Finset.Ico a b, yearDays y := by
    refine Finset.card_nsmul_le_sum _ _ _ fun y _ => ?_
    unfold yearDays
    split_ifs <;> omega
  rw [Nat.card_Ico, smul_eq_mul] at this
  omega

theorem yearDays_le (a b : Nat) : ∑ y ∈ Finset.Ico a b, yearDays y ≤ 366 * (b - a) := by
  have : ∑ y ∈ Finset.Ico a b, yearDays y ≤ (Finset.Ico a b).card • 366 := by
    refine Finset.sum_le_card_nsmul _ _ _ fun y _ => ?_
    unfold yearDays
    split_ifs <;> omega
  rw [Nat.card_Ico, smul_eq_mul] at this
  omega

theorem days_2016 : ∑ y ∈ Finset.Ico 1970 2016, yearDays y = 16801 := by decide +kernel

theorem monthDays_sum (y : Nat) {m : Nat} (h : m ≤ 12) : ∑ k ∈ Finset.Ico 1 m, monthDays y k ≤ 31 * 12 := by
  have : ∑ k ∈ Finset.Ico 1 m, monthDays y k ≤ (Finset.Ico 1 m).card • 31 := by
    refine Finset.sum_le_card_nsmul _ _ _ fun k _ => ?_
    unfold monthDays
    split_ifs <;> omega
  rw [Nat.card_Ico, smul_eq_mul] at this
  omega

/-! ## the bytes -/

theorem bcd_char {n : Nat} (h : n < 100) :
    Int.bmod (Date.bcd n).toNat 256 = (n / 10 * 16 + n % 10 : Nat) - if n < 80 then 0 else 256 := by
  have hb : (Date.bcd n).toNat = n / 10 * 16 + n % 10 := by
    unfold Date.bcd
    rw [Nat.toUInt8_eq, UInt8.toNat_ofNat']
    omega
  rw [hb, Int.bmod_def]
  split_ifs <;> omega

theorem unbcd_char {n : Nat} (h : n < 100) :
    unbcd (Int.bmod (Date.bcd n).toNat 256) = n - if n < 80 then 0 else 160 := by
  rw [bcd_char h]
  unfold unbcd
  split_ifs <;> omega

theorem century_char {n : Nat} (h : n < 80) :
    Int.bmod (Date.bcd n).toNat 256 / 16 * 1000 + Int.bmod (Date.bcd n).toNat 256 % 16 * 100 = 100 * n := by
  rw [bcd_char (by omega), if_pos h]
  omega

/-- the days as the function counts them -/
def Date.daysRead (t : Date) : Nat := 16801 + (∑ y ∈ Finset.Ico 2016 t.yearRead, yearDays y) +
  (∑ m ∈ Finset.Ico 1 t.month, monthDays t.yearRead m) + (t.day - 1)

theorem envGetts_date (t : Date) (timezone : Int) :
    envGetts t.bytes timezone = u64 (t.daysRead * 86400 + t.secondOfDay + 60 * timezone) := by
  have hy := t.year_range
  have hm := t.month_range
  have hd := t.day_range
  have hd31 : monthDays t.year t.month ≤ 31 := by
    unfold monthDays
    split_ifs <;> omega
  have hh := t.hour_lt
  have hi := t.minute_lt
  have hs := t.second_lt
  have c0 := bcd_char (n := t.year / 100) (by omega)
  have c1 := bcd_char (n := t.year % 100) (by omega)
  have c2 := bcd_char (n := t.month) (by omega)
  have c3 := bcd_char (n := t.day) (by omega)
  have c4 := bcd_char (n := t.hour) (by omega)
  have c5 := bcd_char (n := t.minute) (by omega)
  have c6 := bcd_char (n := t.second) (by omega)
  have u1 := unbcd_char (n := t.year % 100) (by omega)
  have u2 := unbcd_char (n := t.month) (by omega)
  have u3 := unbcd_char (n := t.day) (by omega)
  have u4 := unbcd_char (n := t.hour) (by omega)
  have u5 := unbcd_char (n := t.minute) (by omega)
  have u6 := unbcd_char (n := t.second) (by omega)
  rw [if_pos (by omega)] at c0 c2 c3 c4 c5 c6 u2 u3 u4 u5 u6
  unfold envGetts
  simp only [Date.bytes, List.getD_cons_zero, List.getD_cons_succ]
  split_ifs with hbcd
  · have hyear : u64 (Int.bmod (Date.bcd (t.year / 100)).toNat 256 / 16 * 1000 +
        Int.bmod (Date.bcd (t.year / 100)).toNat 256 % 16 * 100 +
        unbcd (Int.bmod (Date.bcd (t.year % 100)).toNat 256)) = t.yearRead := by
      rw [u1, century_char (by omega)]
      unfold Date.yearRead u64
      split_ifs <;> omega
    rw [hyear, u2, u3, u4, u5, u6, addUp_eq, addUp_eq, sub_zero, u64_natCast (by omega)]
    have hmonths : ∑ m ∈ Finset.Ico 1 t.month, (mdays t.yearRead).getD (m - 1) 0 =
        ∑ m ∈ Finset.Ico 1 t.month, monthDays t.yearRead m := by
      refine Finset.sum_congr rfl fun m hmem => mdays_get _ ?_
      have := Finset.mem_Ico.mp hmem
      omega
    rw [hmonths, Finset.sum_congr rfl fun y _ => yearLoop_eq y]
    unfold Date.daysRead Date.secondOfDay
    refine congrArg u64 ?_
    push_cast [hd.1]
    ring
  · exfalso
    omega

/-- **The time stamp.**  For a date of the years 2000 to 3099 it is the distance from the epoch, corrected by
the time zone, if and only if the year is not before 2016 and its last two digits are below 80. -/
theorem envGetts_iff (t : Date) (timezone : BitVec 16) :
    (envGetts t.bytes timezone.toInt : Int) = t.seconds + 60 * timezone.toInt ↔
      2016 ≤ t.year ∧ t.year % 100 < 80 := by
  have hy := t.year_range
  have hd := t.day_range
  have htz := timezone.toInt_lt
  have htz' := timezone.le_toInt
  have hsec : t.secondOfDay < 86400 := by
    have := t.hour_lt
    have := t.minute_lt
    have := t.second_lt
    unfold Date.secondOfDay
    omega
  have hday : t.day ≤ 31 := by
    have h31 : monthDays t.year t.month ≤ 31 := by
      unfold monthDays
      split_ifs <;> omega
    omega
  have hdoy := monthDays_sum t.yearRead t.month_range.2
  have hyears := yearDays_le 2016 t.yearRead
  have hread : t.yearRead ≤ 3099 := by
    unfold Date.yearRead
    split_ifs <;> omega
  have hu : (u64 (t.daysRead * 86400 + t.secondOfDay + 60 * timezone.toInt) : Int) =
      t.daysRead * 86400 + t.secondOfDay + 60 * timezone.toInt := by
    have hlow : 16801 ≤ t.daysRead := by
      unfold Date.daysRead
      omega
    have hhigh : t.daysRead < 2^40 := by
      unfold Date.daysRead
      omega
    unfold u64
    omega
  rw [envGetts_date, hu]
  -- the seconds are the same if the days are
  have hdays : ((t.daysRead * 86400 + t.secondOfDay + 60 * timezone.toInt : Int) = t.seconds + 60 * timezone.toInt) ↔
      t.daysRead = (∑ y ∈ Finset.Ico 1970 t.year, yearDays y) + t.dayOfYear := by
    unfold Date.seconds
    omega
  rw [hdays]
  unfold Date.daysRead Date.dayOfYear
  rcases Nat.lt_or_ge (t.year % 100) 80 with h80 | h80
  · have hr : t.yearRead = t.year := if_pos h80
    rw [hr]
    rcases Nat.lt_or_ge t.year 2016 with h16 | h16
    · -- the loop is not entered, and the year before 2016 has days
      have hgap := yearDays_sum h16.le
      rw [days_2016] at hgap
      rw [Finset.Ico_eq_empty (by omega), Finset.sum_empty]
      omega
    · rw [← Finset.sum_Ico_consecutive _ (show 1970 ≤ 2016 by decide) h16, days_2016]
      omega
  · -- 160 years are missing, or all those from 2016 on
    refine iff_of_false (fun he => ?_) (by omega)
    have hr : t.yearRead = t.year - 160 := if_neg (by omega)
    have hlong := yearDays_sum (a := max 2016 t.yearRead) (b := t.year) (by omega)
    rw [← Finset.sum_Ico_consecutive _ (show 1970 ≤ 2016 by decide) (le_max_left _ _), days_2016] at hlong
    have hmax : ∑ y ∈ Finset.Ico 2016 (max 2016 t.yearRead), yearDays y = ∑ y ∈ Finset.Ico 2016 t.yearRead,
      yearDays y := by
      rcases le_total t.yearRead 2016 with h | h
      · rw [max_eq_left h, Finset.Ico_self, Finset.Ico_eq_empty (by omega)]
      · rw [max_eq_right h]
    rw [hmax] at hlong
    omega

/-- midnight of the first of January 2000 is stamped with that of 2016 -/
theorem envGetts_2000 : ∃ t : Date, t.year = 2000 ∧ t.seconds = 946684800 ∧ envGetts t.bytes 0 = 1451606400 := by
  refine ⟨⟨2000, 1, 1, 0, 0, 0, by decide, by decide, by decide, by decide, by decide, by decide⟩, rfl, ?_, ?_⟩
  · unfold Date.seconds Date.dayOfYear
    decide +kernel
  · rw [envGetts_date]
    decide +kernel

end OsZ
