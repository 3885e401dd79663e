import Mathlib.Data.List.Basic
import Mathlib.Data.UInt
import Mathlib.Tactic

/-!
# Numbers and texts in memory

Memory is a function of the address.

* `leBytes f o n`  the little-endian number in the `n` bytes at `o`; `le64` for eight of them;
* `bytesAt f o n`  the `n` bytes at `o` as a list, for `memcmp`;
* `leByte v i`     byte `i` of the number `v`.
-/

namespace OsZ
variable {f g : Nat → UInt8} {o n v i : Nat}

def leBytes (f : Nat → UInt8) (o : Nat) : Nat → Nat
  | 0 => 0
  | n+1 => (f o).toNat + 256 * leBytes f (o + 1) n

def le64 (f : Nat → UInt8) (o : Nat) : Nat := leBytes f o 8

def bytesAt (f : Nat → UInt8) (o n : Nat) : List UInt8 := (List.range n).map (fun i => f (o + i))

def leByte (v i : Nat) : UInt8 := UInt8.ofNat (v / 256^i)

theorem leBytes_congr (h : ∀ i < n, f (o + i) = g (o + i)) : leBytes f o n = leBytes g o n := by
  induction n generalizing o with
  | zero => rfl
  | succ n ih =>
    have h0 : f o = g o := h 0 (Nat.succ_pos n)
    have ht : leBytes f (o + 1) n = leBytes g (o + 1) n := by
      apply ih
      intro i hi
      have h1 := h (i + 1) (Nat.succ_lt_succ hi)
      rwa [← Nat.add_assoc, Nat.add_right_comm] at h1
    rw [leBytes, leBytes, h0, ht]

theorem leBytes_lt (f : Nat → UInt8) (o n : Nat) : leBytes f o n < 256^n := by
  induction n generalizing o with
  | zero => exact Nat.one_pos
  | succ n ih =>
    have h0 := (f o).toNat_lt
    have ht := ih (o + 1)
    rw [leBytes, pow_succ]
    omega

theorem le64_lt (f : Nat → UInt8) (o : Nat) : le64 f o < 2^64 := leBytes_lt f o 8

theorem leBytes_add (f : Nat → UInt8) (a o n : Nat) :
    leBytes (fun i => f (a + i)) o n = leBytes f (a + o) n := by
  induction n generalizing o with
  | zero => rfl
  | succ n ih => rw [leBytes, leBytes, ih, Nat.add_assoc]

theorem leByte_succ (v i : Nat) : leByte v (i + 1) = leByte (v / 256) i := by
  unfold leByte
  rw [pow_succ', Nat.div_div_eq_div_mul]

theorem leBytes_of_leByte (h : ∀ i < n, f (o + i) = leByte v i) : leBytes f o n = v % 256^n := by
  induction n generalizing o v with
  | zero => rw [pow_zero, Nat.mod_one]; rfl
  | succ n ih =>
    have h0 : (f o).toNat = v % 256 := by
      have e : f o = leByte v 0 := h 0 (Nat.succ_pos n)
      rw [e, leByte, pow_zero, Nat.div_one, UInt8.toNat_ofNat']
    have ht : leBytes f (o + 1) n = v / 256 % 256^n := by
      apply ih
      intro i hi
      rw [← leByte_succ, ← h (i + 1) (Nat.succ_lt_succ hi)]
      congr 1
      omega
    rw [leBytes, h0, ht, pow_succ', Nat.mod_mul]

theorem leBytes_zero (h : ∀ i < n, f (o + i) = 0) : leBytes f o n = 0 := by
  have hz : ∀ i < n, f (o + i) = leByte 0 i := by
    intro i hi
    rw [h i hi, leByte, Nat.zero_div]
    rfl
  rw [leBytes_of_leByte hz, Nat.zero_mod]

end OsZ
