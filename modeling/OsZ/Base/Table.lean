import Mathlib.Data.List.Range
import Mathlib.Logic.Function.Basic
import Mathlib.Tactic

/-!
# A table edited in place

An array of entries with a separately kept length, edited the way C code does it: entries are
overwritten one by one and neighbours are shifted by a loop.  Every write is logged, so that
"nothing is written outside the array" can be stated.

* `scan`            the search loop `for(i=0;i<n;i++) if(p(i))`;
* `Table.put`       one assignment;
* `Table.down`      `k` rounds of `t[i]=t[i+1]; i++`   (close a hole);
* `Table.up`        `k` rounds of `t[j]=t[j-1]; j--`   (open a hole);
* `Table.copy`      `k` entries written one after the other, as `memcpy` does;
* `Table.seg t i k` the entries `i .. i+k-1` as a list, and how the loops act on it.
-/

namespace OsZ

/-! ## the search loop -/

/-- the first index of `i, i+1, .., i+k-1` that satisfies `p` -/
def scan (p : Nat → Bool) : Nat → Nat → Option Nat
  | _, 0 => none
  | i, k+1 => if p i then some i else scan p (i+1) k

theorem scan_some {p : Nat → Bool} {i k m : Nat} (h : scan p i k = some m) :
    i ≤ m ∧ m < i + k ∧ p m = true ∧ ∀ j, i ≤ j → j < m → p j = false := by
  induction k generalizing i with
  | zero => exact absurd h (by simp [scan])
  | succ k ih =>
    rw [scan] at h
    by_cases hp : p i = true
    · rw [if_pos hp] at h
      cases h
      exact ⟨le_refl _, by omega, hp, fun j h1 h2 => by omega⟩
    · rw [if_neg hp] at h
      obtain ⟨h1, h2, h3, h4⟩ := ih h
      refine ⟨by omega, by omega, h3, fun j hj1 hj2 => ?_⟩
      rcases Nat.eq_or_lt_of_le hj1 with e | e
      · rw [← e]; simpa using hp
      · exact h4 j e hj2

theorem scan_none {p : Nat → Bool} {i k : Nat} (h : scan p i k = none) :
    ∀ j, i ≤ j → j < i + k → p j = false := by
  induction k generalizing i with
  | zero => intro j h1 h2; omega
  | succ k ih =>
    rw [scan] at h
    by_cases hp : p i = true
    · rw [if_pos hp] at h; exact absurd h (by simp)
    · rw [if_neg hp] at h
      intro j hj1 hj2
      rcases Nat.eq_or_lt_of_le hj1 with e | e
      · rw [← e]; simpa using hp
      · exact ih h j e (by omega)

/-! ## tables -/

structure Table (α : Type) where
  cell : Nat → α
  /-- indices written so far, latest first -/
  log : List Nat

namespace Table
variable {α : Type}

def put (t : Table α) (i : Nat) (a : α) : Table α := ⟨Function.update t.cell i a, i :: t.log⟩

/-- `k` rounds of `t[i]=t[i+1]; i++` -/
def down (t : Table α) (i : Nat) : Nat → Table α
  | 0 => t
  | k+1 => (t.put i (t.cell (i+1))).down (i+1) k

/-- `k` rounds of `t[j]=t[j-1]; j--` -/
def up (t : Table α) (j : Nat) : Nat → Table α
  | 0 => t
  | k+1 => (t.put j (t.cell (j-1))).up (j-1) k

def seg (t : Table α) (i k : Nat) : List α := (List.range' i k).map t.cell

@[simp] theorem put_cell_self (t : Table α) (i : Nat) (a : α) : (t.put i a).cell i = a :=
  Function.update_self ..

theorem put_cell_of_ne (t : Table α) {i j : Nat} (a : α) (h : j ≠ i) :
    (t.put i a).cell j = t.cell j := Function.update_of_ne h ..

@[simp] theorem seg_zero (t : Table α) (i : Nat) : t.seg i 0 = [] := rfl

theorem seg_succ (t : Table α) (i k : Nat) : t.seg i (k+1) = t.cell i :: t.seg (i+1) k := by
  simp [seg, List.range'_succ]

theorem seg_append (t : Table α) (i a b : Nat) : t.seg i (a + b) = t.seg i a ++ t.seg (i+a) b := by
  unfold seg
  rw [← List.map_append, List.range'_append_1]

theorem seg_split (t : Table α) {i n : Nat} (h : i < n) :
    t.seg 0 n = t.seg 0 i ++ t.cell i :: t.seg (i+1) (n - 1 - i) := by
  have e : n = i + ((n - 1 - i) + 1) := by omega
  conv_lhs => rw [e, seg_append, seg_succ, Nat.zero_add]

theorem mem_seg {t : Table α} {i k : Nat} {a : α} :
    a ∈ t.seg i k ↔ ∃ j, i ≤ j ∧ j < i + k ∧ t.cell j = a := by
  simp [seg, List.mem_range'_1, and_assoc]

theorem seg_congr {t u : Table α} {i k : Nat} (h : ∀ j, i ≤ j → j < i + k → t.cell j = u.cell j) :
    t.seg i k = u.seg i k := by
  apply List.map_congr_left
  intro j hj
  rw [List.mem_range'_1] at hj
  exact h j hj.1 hj.2

theorem seg_shift {t u : Table α} {i k : Nat}
    (h : ∀ m, i ≤ m → m < i + k → u.cell (m+1) = t.cell m) : u.seg (i+1) k = t.seg i k := by
  induction k generalizing i with
  | zero => rfl
  | succ k ih =>
    rw [seg_succ, seg_succ, h i (le_refl _) (by omega), ih (fun m h1 h2 => h m (by omega) (by omega))]

theorem seg_put_out (t : Table α) {i k j : Nat} (a : α) (h : j < i ∨ i + k ≤ j) :
    (t.put j a).seg i k = t.seg i k :=
  seg_congr (fun m h1 h2 => put_cell_of_ne t a (by omega))

/-! ## closing a hole -/

theorem down_cell_out (t : Table α) (i k j : Nat) (h : j < i ∨ i + k ≤ j) :
    (t.down i k).cell j = t.cell j := by
  induction k generalizing t i with
  | zero => rfl
  | succ k ih =>
    show ((t.put i (t.cell (i+1))).down (i+1) k).cell j = _
    rw [ih _ _ (by omega), put_cell_of_ne t _ (by omega)]

theorem seg_down (t : Table α) (i k : Nat) : (t.down i k).seg i k = t.seg (i+1) k := by
  induction k generalizing t i with
  | zero => rfl
  | succ k ih =>
    show ((t.put i (t.cell (i+1))).down (i+1) k).seg i (k+1) = _
    rw [seg_succ, ih, down_cell_out _ _ _ _ (Or.inl (Nat.lt_succ_self i)), put_cell_self,
      seg_put_out _ _ (by omega), seg_succ t (i+1)]

theorem down_log (t : Table α) (i k : Nat) {j : Nat} (h : j ∈ (t.down i k).log) :
    j ∈ t.log ∨ (i ≤ j ∧ j < i + k) := by
  induction k generalizing t i with
  | zero => exact Or.inl h
  | succ k ih =>
    rcases ih (t.put i (t.cell (i+1))) (i+1) h with h1 | h1
    · rcases List.mem_cons.mp h1 with e | e
      · exact Or.inr ⟨by omega, by omega⟩
      · exact Or.inl e
    · exact Or.inr ⟨by omega, by omega⟩

theorem seg_remove (t : Table α) {i n : Nat} (h : i < n) :
    (t.down i (n - 1 - i)).seg 0 (n - 1) = t.seg 0 i ++ t.seg (i+1) (n - 1 - i) := by
  have e : n - 1 = i + (n - 1 - i) := by omega
  conv_lhs => rw [e, seg_append, Nat.zero_add, Nat.add_sub_cancel_left]
  rw [seg_down, seg_congr (fun j _ h2 => down_cell_out t i _ j (by omega))]

/-! ## opening a hole -/

theorem up_cell_out (t : Table α) (j k m : Nat) (hk : k ≤ j) (h : m ≤ j - k ∨ j < m) :
    (t.up j k).cell m = t.cell m := by
  induction k generalizing t j with
  | zero => rfl
  | succ k ih =>
    show ((t.put j (t.cell (j-1))).up (j-1) k).cell m = _
    rw [ih _ _ (by omega) (by omega), put_cell_of_ne t _ (by omega)]

theorem up_cell_in (t : Table α) (j k m : Nat) (hk : k ≤ j) (h1 : j - k < m) (h2 : m ≤ j) :
    (t.up j k).cell m = t.cell (m-1) := by
  induction k generalizing t j with
  | zero => omega
  | succ k ih =>
    show ((t.put j (t.cell (j-1))).up (j-1) k).cell m = _
    rcases Nat.eq_or_lt_of_le h2 with e | e
    · rw [up_cell_out _ _ _ _ (by omega) (by omega), e, put_cell_self]
    · rw [ih _ _ (by omega) (by omega) (by omega), put_cell_of_ne t _ (by omega)]

theorem up_log (t : Table α) (j k : Nat) {m : Nat} (h : m ∈ (t.up j k).log) :
    m ∈ t.log ∨ m ≤ j := by
  induction k generalizing t j with
  | zero => exact Or.inl h
  | succ k ih =>
    rcases ih (t.put j (t.cell (j-1))) (j-1) h with h1 | h1
    · rcases List.mem_cons.mp h1 with e | e
      · exact Or.inr (by omega)
      · exact Or.inl e
    · exact Or.inr (by omega)

/-! ## copying -/

/-- entries `a .. a+k-1` become `f 0 .. f (k-1)` -/
def copy (t : Table α) (a : Nat) (f : Nat → α) : Nat → Table α
  | 0 => t
  | k+1 => (t.copy a f k).put (a+k) (f k)

theorem copy_cell_in (t : Table α) (a : Nat) (f : Nat → α) {k i : Nat} (h : i < k) :
    (t.copy a f k).cell (a+i) = f i := by
  induction k with
  | zero => omega
  | succ k ih =>
    show ((t.copy a f k).put (a+k) (f k)).cell (a+i) = _
    rcases Nat.eq_or_lt_of_le (Nat.le_of_lt_succ h) with e | e
    · rw [e, put_cell_self]
    · rw [put_cell_of_ne _ _ (by omega), ih e]

theorem copy_cell_out (t : Table α) (a : Nat) (f : Nat → α) {k j : Nat} (h : j < a ∨ a + k ≤ j) :
    (t.copy a f k).cell j = t.cell j := by
  induction k with
  | zero => rfl
  | succ k ih =>
    show ((t.copy a f k).put (a+k) (f k)).cell j = _
    rw [put_cell_of_ne _ _ (by omega), ih (by omega)]

theorem mem_copy_log (t : Table α) (a : Nat) (f : Nat → α) {k j : Nat} :
    j ∈ (t.copy a f k).log ↔ j ∈ t.log ∨ (a ≤ j ∧ j < a + k) := by
  induction k with
  | zero =>
    show j ∈ t.log ↔ _
    constructor
    · exact Or.inl
    · rintro (h | h)
      · exact h
      · omega
  | succ k ih =>
    show j ∈ (a+k) :: (t.copy a f k).log ↔ _
    rw [List.mem_cons, ih]
    constructor
    · rintro (h | h | h)
      · exact Or.inr (by omega)
      · exact Or.inl h
      · exact Or.inr (by omega)
    · rintro (h | h)
      · exact Or.inr (Or.inl h)
      · by_cases hj : j = a + k
        · exact Or.inl hj
        · exact Or.inr (Or.inr (by omega))

end Table
end OsZ
