import OsZ.Bzt.Success

/-!
# The quantum of a request

`bzt_alloc` doubles `q` from 8 on until it is not below the size.  No power of two below 2^64 is large enough for
a size above 2^63; then `q` becomes 0 and the loop goes on forever.

* `QuantumOk`         the least quantum, and sizes that do not wrap;
* `QuantumLaw`        this for every size that has a quantum; `ENOMEM` for the others;
* `quantum_law_iff`   the law holds for the sizes up to 2^63.
-/

namespace OsZ
variable {s n k q : Nat}

/-- the loop ends with the least quantum, and the round-up to 2M and the extent of a chunk are what they seem -/
def QuantumOk (s : Nat) : Prop :=
  ∃ n q, quantumLoop s n 8 = some q ∧ IsLeast {x | 8 ≤ x ∧ s ≤ x ∧ ∃ k, x = 2^k} q ∧
    s ≤ roundUp 2097152 s ∧ roundUp 2097152 s < s + 2097152 ∧ (q < 2097152 → chunksize q = q * 512)

def QuantumLaw (mok : Site → Bool) (ar : Arena) (a ptr s : Nat) (spare : Bool) : Prop :=
  ((∃ k < 64, s ≤ 2^k) → QuantumOk s) ∧
    ((∀ k < 64, 2^k < s) → ∃ out, bztAlloc mok ar a ptr s spare = some out ∧ out.err = some .ENOMEM)

theorem quantumLoop_le (hs : 0 < s) (hk : 3 ≤ k) (hk' : k < 64) (h : quantumLoop s n (2^k) = some q) :
    ∀ i, k ≤ i → s ≤ 2^i → q ≤ 2^i := by
  induction n generalizing k with
  | zero => exact absurd h (by simp [quantumLoop])
  | succ n ih =>
    intro i hi hsi
    rw [quantumLoop] at h
    split_ifs at h with hlt
    · have hne : k ≠ i := by
        rintro rfl
        omega
      by_cases h63 : k = 63
      · -- the shift has lost the only bit
        subst h63
        obtain ⟨-, j, -, hj, rfl⟩ := quantumLoop_spec hs (Or.inl rfl) h
        exact Nat.pow_le_pow_right (by decide) (by omega)
      · rw [← Nat.pow_succ', w64_of_lt (Nat.pow_lt_pow_right (by decide) (by omega))] at h
        exact ih (by omega) (by omega) h i (by omega) hsi
    · cases h
      exact Nat.pow_le_pow_right (by decide) hi

theorem quantumOk_of_le (hs : 0 < s) (h : s ≤ 2^63) : QuantumOk s := by
  obtain ⟨q, hq⟩ := quantumLoop_total 60 3 3 h (by decide)
  obtain ⟨hsq, k, h3, hk, rfl⟩ := quantumLoop_spec hs (Or.inr ⟨3, le_rfl, by decide, rfl⟩) hq
  refine ⟨64, _, hq, ⟨⟨show 2^3 ≤ 2^k from Nat.pow_le_pow_right (by decide) h3, hsq, k, rfl⟩, ?_⟩,
    le_roundUp (by omega) (by decide), roundUp_lt (by omega) (by decide), fun hlt => (chunksize_eq h3 rfl hlt).1⟩
  rintro _ ⟨h8, hsx, i, rfl⟩
  have hi : 3 ≤ i := (Nat.pow_le_pow_iff_right (by decide : 1 < 2)).mp h8
  exact quantumLoop_le hs le_rfl (by decide) hq i hi hsx

theorem quantumOf_none (hs : 2^63 < s) : quantumOf s = none := by
  cases hq : quantumOf s with
  | none => rfl
  | some q =>
    obtain ⟨hsq, k, -, hk, rfl⟩ := quantumOf_spec (by omega) hq
    have hle : 2^k ≤ 2^63 := Nat.pow_le_pow_right (by decide) (by omega)
    omega

theorem quantum_law_iff (mok : Site → Bool) (ar : Arena) (a ptr s : Nat) (spare : Bool) (hs : 0 < s) :
    QuantumLaw mok ar a ptr s spare ↔ s ≤ 2^63 := by
  constructor
  · intro h
    by_contra hlarge
    obtain ⟨out, hout, -⟩ := h.2 fun k hk =>
      lt_of_le_of_lt (Nat.pow_le_pow_right (by decide) (by omega : k ≤ 63)) (by omega)
    rw [bztAlloc, if_neg (by omega), quantumOf_none (by omega)] at hout
    cases hout
  · exact fun h => ⟨fun _ => quantumOk_of_le hs h, fun hall => absurd (hall 63 (by decide)) (by omega)⟩

theorem quantum_law_page : QuantumLaw mapped ⟨0x100000000, 0, fun _ => none⟩ 8 0 4097 false :=
  (quantum_law_iff _ _ _ _ _ _ (by decide)).mpr (by decide)

/-- one byte more than half of the address space: the function does not return -/
theorem quantum_endless : ¬ QuantumLaw mapped ⟨0x100000000, 0, fun _ => none⟩ 8 0 (2^63 + 1) false := by
  rintro ⟨-, h⟩
  obtain ⟨out, hout, -⟩ := h (by decide +kernel)
  rw [bztAlloc, if_neg (by decide), quantumOf_none (by decide)] at hout
  cases hout

end OsZ
