import Mathlib

/-!
# Machine words

The C sources compute in `uint64_t`, `int` and pointers.  Values are `Nat` (or `Int`) here and
the wrap-around is written out:

* `w64`, `sub64`  reduction of a sum and of a difference to 64 bits;
* `i32`, `u64`    the value of an `int` expression, and its conversion to `uint64_t`;
* `roundUp`       rounding up to a multiple, as `((n+a-1)/a)*a` in 64 bits.
-/

namespace OsZ

def w64 (n : Nat) : Nat := n % 2^64

def sub64 (a b : Nat) : Nat := (a + (2^64 - b % 2^64)) % 2^64

/-- an `int` result: 32 bits, two's complement -/
def i32 (z : Int) : Int := Int.bmod z (2^32)

/-- conversion of a signed value to `uint64_t` -/
def u64 (z : Int) : Nat := (z % 2^64).toNat

def roundUp (a n : Nat) : Nat := w64 (w64 (n + (a - 1)) / a * a)

theorem w64_of_lt {n : Nat} (h : n < 2^64) : w64 n = n := Nat.mod_eq_of_lt h

theorem w64_lt (n : Nat) : w64 n < 2^64 := Nat.mod_lt _ (by norm_num)

theorem sub64_of_le {a b : Nat} (h : b ≤ a) (ha : a < 2^64) : sub64 a b = a - b := by
  unfold sub64
  rw [Nat.mod_eq_of_lt (lt_of_le_of_lt h ha)]
  have e : a + (2^64 - b) = (a - b) + 2^64 := by omega
  rw [e, Nat.add_mod_right, Nat.mod_eq_of_lt (by omega)]

theorem u64_natCast {n : Nat} (h : n < 2^64) : u64 (n : Int) = n := by
  unfold u64
  omega

theorem u64_i32 {z : Int} (h0 : 0 ≤ z) (h : z < 2^31) : u64 (i32 z) = z.toNat := by
  unfold u64 i32
  rw [Int.bmod_eq_of_le (by omega) (by omega)]
  omega

theorem roundUp_eq {a n : Nat} (h : n + a ≤ 2^64) (ha : 0 < a) :
    roundUp a n = (n + (a - 1)) / a * a := by
  have h1 : n + (a - 1) < 2^64 := by omega
  have h2 : (n + (a - 1)) / a * a ≤ n + (a - 1) := Nat.div_mul_le_self _ _
  unfold roundUp
  rw [w64_of_lt h1, w64_of_lt (lt_of_le_of_lt h2 h1)]

theorem dvd_roundUp {a n : Nat} (h : n + a ≤ 2^64) (ha : 0 < a) : a ∣ roundUp a n := by
  rw [roundUp_eq h ha]
  exact Nat.dvd_mul_left _ _

theorem le_roundUp {a n : Nat} (h : n + a ≤ 2^64) (ha : 0 < a) : n ≤ roundUp a n := by
  rw [roundUp_eq h ha]
  have h1 := Nat.div_add_mod (n + (a - 1)) a
  have h2 := Nat.mod_lt (n + (a - 1)) ha
  rw [Nat.mul_comm] at h1
  omega

theorem roundUp_lt {a n : Nat} (h : n + a ≤ 2^64) (ha : 0 < a) : roundUp a n < n + a := by
  rw [roundUp_eq h ha]
  have h2 : (n + (a - 1)) / a * a ≤ n + (a - 1) := Nat.div_mul_le_self _ _
  omega

theorem roundUp_of_dvd {a n : Nat} (h : n + a ≤ 2^64) (ha : 0 < a) (hd : a ∣ n) :
    roundUp a n = n := by
  obtain ⟨k, rfl⟩ := hd
  rw [roundUp_eq h ha, Nat.mul_add_div ha, Nat.div_eq_of_lt (by omega), Nat.add_zero, Nat.mul_comm]

end OsZ
