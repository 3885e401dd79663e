import OsZ.Base.Bytes

/-!
# Writing to memory

* `store f o n g`       `n` bytes of `g` at the address `o`; `putLe` and `putList` for numbers and texts;
* `Within A f f'`       only addresses in `A` have changed.
-/

namespace OsZ
variable {f f' f'' g : Nat → UInt8} {o n o' n' v i : Nat} {A B : Nat → Prop}

def store (f : Nat → UInt8) (o n : Nat) (g : Nat → UInt8) : Nat → UInt8 := fun i =>
  if o ≤ i ∧ i < o + n then g (i - o) else f i

def putLe (f : Nat → UInt8) (o n v : Nat) : Nat → UInt8 := store f o n (leByte v)

def putList (f : Nat → UInt8) (o : Nat) (l : List UInt8) : Nat → UInt8 :=
  store f o l.length (fun i => l.getD i 0)

theorem store_at (h : i < n) : store f o n g (o + i) = g i := by
  unfold store
  rw [if_pos (by omega), Nat.add_sub_cancel_left]

theorem store_out (h : i < o ∨ o + n ≤ i) : store f o n g i = f i := by
  unfold store
  rw [if_neg (by omega)]

theorem leBytes_store_out (h : o' + n' ≤ o ∨ o + n ≤ o') :
    leBytes (store f o n g) o' n' = leBytes f o' n' := by
  apply leBytes_congr
  intro i hi
  exact store_out (by omega)

theorem leBytes_store_in (h : i + n' ≤ n) : leBytes (store f o n g) (o + i) n' = leBytes g i n' := by
  rw [← leBytes_add]
  apply leBytes_congr
  intro j hj
  exact store_at (by omega)

theorem le64_putLe_out (h : o' + 8 ≤ o ∨ o + n ≤ o') : le64 (putLe f o n v) o' = le64 f o' :=
  leBytes_store_out h

theorem leBytes_putLe (f : Nat → UInt8) (o n v : Nat) : leBytes (putLe f o n v) o n = v % 256^n := by
  apply leBytes_of_leByte
  intro i hi
  exact store_at hi

theorem le64_putLe (h : v < 2^64) : le64 (putLe f o 8 v) o = v := by
  rw [le64, leBytes_putLe]
  exact Nat.mod_eq_of_lt h

theorem bytesAt_congr (h : ∀ i < n, f (o + i) = g (o + i)) : bytesAt f o n = bytesAt g o n := by
  unfold bytesAt
  apply List.map_congr_left
  intro i hi
  exact h i (List.mem_range.mp hi)

/-! ## what is left as it was -/

def Within (A : Nat → Prop) (f f' : Nat → UInt8) : Prop := ∀ i, ¬ A i → f' i = f i

theorem Within.refl (A : Nat → Prop) (f : Nat → UInt8) : Within A f f := fun _ _ => rfl

theorem within_store (h : ∀ i < n, A (o + i)) : Within A f (store f o n g) := by
  intro i hi
  apply store_out
  by_contra hc
  apply hi
  have hlt := h (i - o) (by omega)
  rwa [Nat.add_sub_cancel' (by omega)] at hlt

theorem Within.bytesAt (h : Within A f f') (ha : ∀ i < n, ¬ A (o + i)) :
    OsZ.bytesAt f' o n = OsZ.bytesAt f o n := bytesAt_congr (fun i hi => h _ (ha i hi))

theorem Within.leBytes (h : Within A f f') (ha : ∀ i < n, ¬ A (o + i)) :
    OsZ.leBytes f' o n = OsZ.leBytes f o n := leBytes_congr (fun i hi => h _ (ha i hi))

end OsZ
