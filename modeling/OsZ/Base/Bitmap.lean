import Mathlib.Logic.Function.Basic
import Mathlib.Tactic

/-!
# Bitmaps in words of 64 bits

* `bit`, `set`, `clear`  bit `k` is bit `k%64` of word `k/64`, as `map[k>>6]&(1UL<<(k%64))`;
* `sum`                  the sum of the first words: it is zero iff none of their bits is set
                         (`sum_eq_zero`), which is not so for the sum modulo a power of two.
-/

namespace OsZ
namespace Bitmap

def bit (m : Nat → BitVec 64) (k : Nat) : Bool := (m (k / 64)).getLsbD (k % 64)

def set (m : Nat → BitVec 64) (k : Nat) : Nat → BitVec 64 :=
  Function.update m (k / 64) (m (k / 64) ||| 1#64 <<< (k % 64))

def clear (m : Nat → BitVec 64) (k : Nat) : Nat → BitVec 64 :=
  Function.update m (k / 64) (m (k / 64) &&& ~~~(1#64 <<< (k % 64)))

def sum (m : Nat → BitVec 64) : Nat → Nat
  | 0 => 0
  | n+1 => sum m n + (m n).toNat

theorem mask_bit {i j : Nat} (hi : i < 64) : (1#64 <<< j).getLsbD i = decide (i = j) := by
  rw [BitVec.getLsbD_shiftLeft, BitVec.getLsbD_one]
  by_cases h : i = j
  · simp [h]
    omega
  · simp only [h, decide_false, hi, decide_true, Bool.true_and, Bool.and_eq_false_imp]
    intro h1
    simp only [Bool.not_eq_true', decide_eq_false_iff_not] at h1
    simp
    omega

theorem bit_set (m : Nat → BitVec 64) (j k : Nat) : bit (set m j) k = (decide (k = j) || bit m k) := by
  unfold bit set
  by_cases h : k / 64 = j / 64
  · rw [h, Function.update_self, BitVec.getLsbD_or, mask_bit (Nat.mod_lt _ (by decide)), Bool.or_comm,
      decide_eq_decide.mpr (show k % 64 = j % 64 ↔ k = j by omega)]
  · rw [Function.update_of_ne h, decide_eq_false (show ¬ k = j by omega), Bool.false_or]

theorem bit_clear (m : Nat → BitVec 64) (j k : Nat) :
    bit (clear m j) k = (decide (k ≠ j) && bit m k) := by
  have hk : k % 64 < 64 := Nat.mod_lt _ (by decide)
  unfold bit clear
  by_cases h : k / 64 = j / 64
  · rw [h, Function.update_self, BitVec.getLsbD_and, BitVec.getLsbD_not, mask_bit hk, Bool.and_comm,
      decide_eq_true hk, Bool.true_and, ← decide_not,
      decide_eq_decide.mpr (show ¬ k % 64 = j % 64 ↔ k ≠ j by omega)]
  · rw [Function.update_of_ne h, decide_eq_true (show k ≠ j by omega), Bool.true_and]

theorem bit_zero (k : Nat) : bit (fun _ => 0) k = false := BitVec.getLsbD_zero

theorem toNat_eq_zero {w : BitVec 64} : w.toNat = 0 ↔ ∀ i < 64, w.getLsbD i = false := by
  constructor
  · intro h i _
    rw [BitVec.getLsbD, h, Nat.zero_testBit]
  · intro h
    have : w = 0#64 := BitVec.eq_of_getLsbD_eq (fun i hi => by rw [h i hi, BitVec.getLsbD_zero])
    rw [this]
    rfl

theorem sum_eq_zero {m : Nat → BitVec 64} {n : Nat} :
    sum m n = 0 ↔ ∀ k < 64 * n, bit m k = false := by
  induction n with
  | zero => simp [sum]
  | succ n ih =>
    rw [sum, Nat.add_eq_zero_iff, ih, toNat_eq_zero]
    constructor
    · rintro ⟨h1, h2⟩ k hk
      rcases Nat.lt_or_ge k (64 * n) with hlt | hge
      · exact h1 k hlt
      · have e : k / 64 = n := by omega
        rw [bit, e]
        exact h2 _ (Nat.mod_lt _ (by decide))
    · intro h
      refine ⟨fun k hk => h k (by omega), fun i hi => ?_⟩
      have := h (64 * n + i) (by omega)
      rwa [bit, show (64 * n + i) / 64 = n by omega, show (64 * n + i) % 64 = i by omega] at this

end Bitmap
end OsZ
