import OsZ.Base.Store
import OsZ.Base.Word

/-!
# Copying memory (`memcpy` and `memmove` of `x86_64/string.S`)

Eight bytes are moved at a time, then the rest one by one.  With the direction flag the addresses go down.

* `repMovs w df k`     `repnz movsq` (`w` is 8) and `repnz movsb` (`w` is 1), `k` times;
* `memcpy`, `memmove`  the memory that is left behind; `memmove` starts with the direction flag clear;
* `CopyArgs`           two ranges of memory of the same length;
* `memcpy_moves`, `memmove_moves_iff`   when the bytes arrive.
-/

namespace OsZ
variable {f g : Nat → UInt8} {w k m n d s a : Nat}

def repMovs (w : Nat) (df : Bool) : Nat → (Nat → UInt8) → Nat → Nat → (Nat → UInt8) × Nat × Nat
  | 0, f, rdi, rsi => (f, rdi, rsi)
  | k+1, f, rdi, rsi =>
    let f := store f rdi w fun i => f (rsi + i)
    if df then repMovs w df k f (rdi - w) (rsi - w) else repMovs w df k f (rdi + w) (rsi + w)

/-- from the label `1:` on -/
def copyRun (df : Bool) (f : Nat → UInt8) (rdi rsi rdx : Nat) : Nat → UInt8 :=
  let r := repMovs 8 df (rdx / 8) f rdi rsi
  (repMovs 1 df (rdx % 8) r.1 r.2.1 r.2.2).1

def memcpy (f : Nat → UInt8) (dest src n : Nat) : Nat → UInt8 :=
  if dest = 0 ∨ src = 0 ∨ n = 0 then f else copyRun false f dest src n

def memmove (f : Nat → UInt8) (dest src n : Nat) : Nat → UInt8 :=
  if dest = 0 ∨ src = 0 ∨ n = 0 then f
  else if w64 (src + n) < dest then copyRun false f dest src n
  else copyRun true f (w64 (dest + n)) (w64 (src + n)) n

/-! ## upwards -/

/-- a piece of a copy, and the piece behind it, where no byte is overwritten before it is read -/
theorem store_append (h : d ≤ s ∨ s + (m + n) ≤ d) :
    store (store f d m fun i => f (s + i)) (d + m) n (fun i => store f d m (fun i => f (s + i)) (s + m + i)) =
      store f d (m + n) fun i => f (s + i) := by
  funext i
  rcases lt_or_ge i (d + m) with hlow | hhigh
  · rw [store_out (Or.inl hlow)]
    unfold store
    congr 1
    exact propext ⟨fun h => by omega, fun h => by omega⟩
  · by_cases hin : i < d + m + n
    · obtain ⟨j, rfl⟩ := Nat.exists_eq_add_of_le hhigh
      rw [store_at (by omega), store_out (by omega), Nat.add_assoc d, store_at (by omega), Nat.add_assoc]
    · rw [store_out (by omega), store_out (by omega), store_out (by omega)]

theorem repMovs_up (w k : Nat) (h : d ≤ s ∨ s + w * k ≤ d) :
    repMovs w false k f d s = (store f d (w * k) fun i => f (s + i), d + w * k, s + w * k) := by
  induction k generalizing f d s with
  | zero =>
    rw [repMovs, Nat.mul_zero]
    congr 1
    funext i
    exact (store_out (by omega)).symm
  | succ k ih =>
    rw [Nat.mul_succ] at h ⊢
    rw [repMovs]
    simp only [Bool.false_eq_true, if_false]
    rw [ih (by omega), store_append (by omega), Nat.add_comm w]
    simp only [Nat.add_assoc, Nat.add_comm w]

theorem copyRun_up (h : d ≤ s ∨ s + n ≤ d) : copyRun false f d s n = store f d n fun i => f (s + i) := by
  have hn : 8 * (n / 8) + 1 * (n % 8) = n := by omega
  unfold copyRun
  rw [repMovs_up 8 _ (by omega)]
  dsimp only
  rw [repMovs_up 1 _ (by omega), store_append (by omega), hn]

/-! ## downwards -/

theorem repMovs_down (w k : Nat) (h : a + w * k < d + w) :
    (repMovs w true k f d s).1 a = f a ∧ (repMovs w true k f d s).2.1 = d - w * k := by
  induction k generalizing f d s with
  | zero => exact ⟨rfl, by rw [Nat.mul_zero]; rfl⟩
  | succ k ih =>
    rw [Nat.mul_succ] at h
    rw [repMovs, if_pos rfl]
    by_cases hk : k = 0
    · subst hk
      rw [repMovs, Nat.zero_add, Nat.mul_one]
      dsimp only
      exact ⟨store_out (by omega), rfl⟩
    · have hw : w ≤ w * k := Nat.le_mul_of_pos_right w (Nat.pos_of_ne_zero hk)
      have ht := @ih (store f d w fun i => f (s + i)) (d - w) (s - w) (by omega)
      rw [ht.1, ht.2, store_out (by omega), Nat.mul_succ]
      exact ⟨rfl, by omega⟩

theorem copyRun_down (d s n : Nat) : copyRun true f (d + n) s n d = f d := by
  have h8 := @repMovs_down f (d + n) s d 8 (n / 8) (by omega)
  have h1 := @repMovs_down (repMovs 8 true (n / 8) f (d + n) s).1 (repMovs 8 true (n / 8) f (d + n) s).2.1
    (repMovs 8 true (n / 8) f (d + n) s).2.2 d 1 (n % 8) (by omega)
  exact h1.1.trans h8.1

theorem repMovs_same (w k : Nat) (df : Bool) :
    (repMovs w df k f d d).1 = f ∧ (repMovs w df k f d d).2.1 = (repMovs w df k f d d).2.2 := by
  have hself : ∀ d, store f d w (fun i => f (d + i)) = f := by
    intro d
    funext i
    by_cases hi : d ≤ i ∧ i < d + w
    · obtain ⟨j, rfl⟩ := Nat.exists_eq_add_of_le hi.1
      exact store_at (by omega)
    · exact store_out (by omega)
  induction k generalizing d with
  | zero => exact ⟨rfl, rfl⟩
  | succ k ih =>
    rw [repMovs, hself]
    cases df with
    | true => exact ih
    | false => exact ih

theorem copyRun_same (df : Bool) (d n : Nat) : copyRun df f d d n = f := by
  have h8 := @repMovs_same f d 8 (n / 8) df
  unfold copyRun
  dsimp only
  rw [h8.1, ← h8.2]
  exact (repMovs_same 1 _ df).1

/-! ## the two functions -/

/-- two ranges, neither of them at NULL, whose ends are addresses -/
structure CopyArgs where
  dest : Nat
  src : Nat
  n : Nat
  dest_ne : dest ≠ 0
  src_ne : src ≠ 0
  dest_fits : dest + n < 2^64
  src_fits : src + n < 2^64

/-- the bytes have arrived and nothing else has changed -/
structure Moved (f f' : Nat → UInt8) (dest src n : Nat) : Prop where
  bytes : ∀ i < n, f' (dest + i) = f (src + i)
  rest : ∀ a, a < dest ∨ dest + n ≤ a → f' a = f a

theorem moved_store (f : Nat → UInt8) (d s n : Nat) : Moved f (store f d n fun i => f (s + i)) d s n :=
  ⟨fun _ hi => store_at hi, fun _ ha => store_out ha⟩

theorem moved_zero (f : Nat → UInt8) (d s : Nat) : Moved f f d s 0 :=
  ⟨fun i hi => absurd hi (Nat.not_lt_zero i), fun _ _ => rfl⟩

theorem memcpy_eq (hd : d ≠ 0) (hs : s ≠ 0) (h : d ≤ s ∨ s + n ≤ d) :
    memcpy f d s n = store f d n fun i => f (s + i) := by
  by_cases hn : n = 0
  · subst hn
    rw [memcpy, if_pos (Or.inr (Or.inr rfl))]
    funext i
    exact (store_out (by omega)).symm
  · rw [memcpy, if_neg (by simp [hd, hs, hn]), copyRun_up h]

theorem memcpy_moves (c : CopyArgs) (f : Nat → UInt8)
    (h : c.src + c.n ≤ c.dest ∨ c.dest + c.n ≤ c.src ∨ c.dest ≤ c.src) :
    Moved f (memcpy f c.dest c.src c.n) c.dest c.src c.n := by
  rw [memcpy_eq c.dest_ne c.src_ne (by omega)]
  exact moved_store f _ _ _

theorem memcpy_moves_down : Moved (UInt8.ofNat ·) (memcpy (UInt8.ofNat ·) 3 4 10) 3 4 10 :=
  memcpy_moves ⟨3, 4, 10, by decide, by decide, by decide, by decide⟩ _ (Or.inr (Or.inr (by decide)))

theorem memmove_moves_iff (c : CopyArgs) :
    (∀ f, Moved f (memmove f c.dest c.src c.n) c.dest c.src c.n) ↔
      c.n = 0 ∨ c.dest = c.src ∨ c.src + c.n < c.dest := by
  obtain ⟨d, s, n, hd, hs, hdn, hsn⟩ := c
  dsimp only
  constructor
  · intro h
    by_contra hc
    have hdown : memmove (fun a => if a = s then 1 else 0) d s n d = 0 := by
      rw [memmove, if_neg (by omega), w64_of_lt hsn, w64_of_lt hdn, if_neg (by omega), copyRun_down, if_neg (by omega)]
    have harrives := (h fun a => if a = s then 1 else 0).bytes 0 (by omega)
    rw [Nat.add_zero, Nat.add_zero, hdown, if_pos rfl] at harrives
    exact absurd harrives (by decide)
  · intro h f
    by_cases hn : n = 0
    · subst hn
      rw [memmove, if_pos (Or.inr (Or.inr rfl))]
      exact moved_zero f d s
    · rw [memmove, if_neg (by simp [hd, hs, hn]), w64_of_lt hsn, w64_of_lt hdn]
      by_cases hup : s + n < d
      · rw [if_pos hup, copyRun_up (Or.inr hup.le)]
        exact moved_store f d s n
      · obtain rfl : d = s := by omega
        rw [if_neg hup, copyRun_same]
        exact ⟨fun _ _ => rfl, fun _ _ => rfl⟩

/-- one byte, from the address above -/
theorem memmove_misses : ¬ Moved (fun a => if a = 4 then 1 else 0)
    (memmove (fun a => if a = 4 then 1 else 0) 3 4 1) 3 4 1 :=
  fun h => absurd (h.bytes 0 (by decide)) (by decide +kernel)

end OsZ
