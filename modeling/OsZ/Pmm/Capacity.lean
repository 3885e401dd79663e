import OsZ.Pmm.Model

/-!
# The table of fragments stays in its memory

`nrphymax` pages are reserved for the table; an entry has 16 bytes.  Only a split in
`pmm_allocslot` and a free range without a neighbour make the table longer.  The first checks the
room, the second does not:

* `pmm_table_fits`    nothing is written outside the reserved pages in a run in which no
                      `pmm_free` needs a new entry in a full table;
* `pmmFree_overruns`  three calls on a full table, the last of which writes behind it.

Nothing here depends on the numbers in the entries, so the calls are arbitrary.
-/

namespace OsZ

/-- the table fits in `N` pages, and so did every write so far -/
structure PmmFits (N : Nat) (s : Pmm) : Prop where
  cap : s.nrphymax = N
  size : s.size * 16 ≤ N * 4096
  log : ∀ j ∈ s.entries.log, (j + 1) * 16 ≤ N * 4096

namespace PmmFits
variable {N : Nat} {s : Pmm}

theorem put (h : PmmFits N s) {i : Nat} (hi : i < s.size) (e : Entry) :
    PmmFits N { s with entries := s.entries.put i e } := by
  refine ⟨h.cap, h.size, fun j hj => ?_⟩
  rcases List.mem_cons.mp hj with rfl | hj
  · have := h.size
    omega
  · exact h.log j hj

theorem drop (h : PmmFits N s) (i : Nat) :
    PmmFits N { s with entries := s.entries.down i (s.size - 1 - i), size := s.size - 1 } := by
  have hsize := h.size
  refine ⟨h.cap, ?_, fun j hj => ?_⟩
  · show (s.size - 1) * 16 ≤ N * 4096
    omega
  · rcases Table.down_log _ _ _ hj with hj | hj
    · exact h.log j hj
    · omega

theorem double (h : PmmFits N s) (i : Nat) (hr : s.Room s.size) :
    PmmFits N { s with entries := s.entries.up s.size (s.size - i), size := s.size + 1 } := by
  unfold Pmm.Room at hr
  rw [h.cap] at hr
  refine ⟨h.cap, hr, fun j hj => ?_⟩
  rcases Table.up_log _ _ _ hj with hj | hj
  · exact h.log j hj
  · omega

theorem freepages (h : PmmFits N s) (f : Nat) : PmmFits N { s with freepages := f } :=
  ⟨h.cap, h.size, h.log⟩

theorem shrink (h : PmmFits N s) {i f : Nat} (hf : f < s.size) (e : Entry) (c : Prop) [Decidable c] :
    PmmFits N (if c then
      { s with entries := (s.entries.put f e).down i (s.size - 1 - i), size := s.size - 1 }
      else { s with entries := s.entries.put f e }) := by
  split
  · exact (h.put hf e).drop i
  · exact h.put hf e

end PmmFits

/-! ## one call -/

section
variable {N : Nat} {s s' : Pmm} {b : Nat}

theorem pmmAlloc_fits {pages : Int} (h : PmmFits N s) (hal : pmmAlloc s pages = some (s', b)) :
    PmmFits N s' := by
  unfold pmmAlloc at hal
  cases hi : scan (fits s pages) 0 s.size with
  | none => rw [hi] at hal; exact absurd hal (by simp)
  | some i =>
    obtain ⟨-, hlt, -, -⟩ := scan_some hi
    rw [hi, Option.some.injEq, Prod.mk.injEq] at hal
    rw [← hal.1]
    exact (h.shrink (by omega) _ _).freepages _

theorem takeSlot_fits {i f b' c : Nat} (h : PmmFits N s) (hf : f < s.size)
    (hal : takeSlot s i f b' c = (s', b)) : PmmFits N s' := by
  unfold takeSlot at hal
  rw [Prod.mk.injEq] at hal
  rw [← hal.1]
  exact (h.shrink hf _ _).freepages _

theorem pmmAllocslot_fits (h : PmmFits N s) (hal : pmmAllocslot s = some (s', b)) :
    PmmFits N s' := by
  unfold pmmAllocslot at hal
  cases hi : scan (hasSlot s) 0 s.size with
  | none => rw [hi] at hal; exact absurd hal (by simp)
  | some i =>
    obtain ⟨-, hlt, -, -⟩ := scan_some hi
    rw [hi] at hal
    dsimp only at hal
    split at hal
    · split at hal
      · exact absurd hal (by simp)
      · next hroom =>
        have hd := h.double i (not_not.mp hroom)
        exact takeSlot_fits (hd.put (show i < s.size + 1 by omega) _)
          (show i + 1 < s.size + 1 by omega) (Option.some.inj hal)
    · exact takeSlot_fits h (by omega) (Option.some.inj hal)

/-- the freed range borders a fragment, or there is room for one more entry -/
def PmmRoom (w : PmmWorld) : PmmOp → Prop
  | .free base n =>
    (∃ i < w.pmm.size, before w.pmm base n i = true ∨ behind w.pmm base i = true) ∨
      w.pmm.Room w.pmm.size
  | _ => True

theorem pmmFree_fits {base n : Nat} (h : PmmFits N s)
    (hc : (∃ i < s.size, before s base n i = true ∨ behind s base i = true) ∨ s.Room s.size) :
    PmmFits N (pmmFree s base n) := by
  unfold pmmFree
  refine PmmFits.freepages ?_ _
  cases hi : scan (fun i => before s base n i || behind s base i) 0 s.size with
  | none =>
    have hroom : s.Room s.size := by
      refine hc.resolve_left ?_
      rintro ⟨i, hlt, hb⟩
      have := scan_none hi i (Nat.zero_le _) (by omega)
      rcases hb with hb | hb <;> simp [hb] at this
    unfold Pmm.Room at hroom
    rw [h.cap] at hroom
    refine ⟨h.cap, hroom, fun j hj => ?_⟩
    rcases List.mem_cons.mp hj with rfl | hj
    · exact hroom
    · exact h.log j hj
  | some i =>
    obtain ⟨-, hlt, -, -⟩ := scan_some hi
    dsimp only
    split
    · exact h.put (by omega) _
    · exact h.put (by omega) _

end

theorem PmmFits.step {N : Nat} {w w' : PmmWorld} {op : PmmOp} (h : PmmFits N w.pmm)
    (hc : PmmRoom w op) (hs : PmmStep w op w') : PmmFits N w'.pmm := by
  cases hs with
  | alloc ha => exact pmmAlloc_fits h ha
  | allocslot ha => exact pmmAllocslot_fits h ha
  | free ha hn hh => exact pmmFree_fits h hc

/-! ## all runs -/

/-- **The table stays in its memory** in a run of calls that satisfy `PmmRoom`: the size after every
call, and every write of every call (the log of the first state is empty). -/
theorem pmm_table_fits {w₀ w : PmmWorld} (hsize : w₀.pmm.size * 16 ≤ w₀.pmm.nrphymax * 4096)
    (hlog : w₀.pmm.entries.log = []) (h : Reach PmmStep PmmRoom w₀ w) :
    w.pmm.size * 16 ≤ w₀.pmm.nrphymax * 4096 ∧
      ∀ j ∈ w.pmm.entries.log, (j + 1) * 16 ≤ w₀.pmm.nrphymax * 4096 := by
  have h0 : PmmFits w₀.pmm.nrphymax w₀.pmm := ⟨rfl, hsize, by rw [hlog]; simp⟩
  have hfit : PmmFits w₀.pmm.nrphymax w.pmm :=
    h.keeps (I := fun w => PmmFits w₀.pmm.nrphymax w.pmm) h0 (fun _ _ _ hi hc hs => hi.step hc hs)
  exact ⟨hfit.size, hfit.log⟩

/-- two pages, full with 512 fragments of three pages, eight pages apart -/
def pmmFull : PmmWorld := ⟨⟨512, 1536, ⟨fun i => ⟨(i + 1) * 32768, 3⟩, []⟩, 2⟩, ∅⟩

/-- the fragments of `pmmFull` after its first two pages were handed out -/
def pmmFull2 : Table Entry :=
  (pmmFull.pmm.entries.put 0 ⟨36864, 2⟩).put 0 ⟨40960, 1⟩

theorem pmmFull_alloc1 : pmmAlloc pmmFull.pmm 1
    = some (⟨512, 1535, pmmFull.pmm.entries.put 0 ⟨36864, 2⟩, 2⟩, 32768) := rfl

theorem pmmFull_alloc2 : pmmAlloc ⟨512, 1535, pmmFull.pmm.entries.put 0 ⟨36864, 2⟩, 2⟩ 1
    = some (⟨512, 1534, pmmFull2, 2⟩, 36864) := rfl

theorem pmmFull2_cell {i : Nat} (h : i ≠ 0) : pmmFull2.cell i = ⟨(i + 1) * 32768, 3⟩ := by
  unfold pmmFull2
  rw [Table.put_cell_of_ne _ _ h, Table.put_cell_of_ne _ _ h]
  rfl

/-- the first page has no neighbour in the table -/
theorem pmmFull2_scan : scan (fun i => before ⟨512, 1534, pmmFull2, 2⟩ 32768 1 i ||
    behind ⟨512, 1534, pmmFull2, 2⟩ 32768 i) 0 512 = none := by
  cases hs : scan (fun i => before ⟨512, 1534, pmmFull2, 2⟩ 32768 1 i ||
    behind ⟨512, 1534, pmmFull2, 2⟩ 32768 i) 0 512 with
  | none => rfl
  | some i =>
    obtain ⟨-, hlt, hp, -⟩ := scan_some hs
    by_cases h0 : i = 0
    · subst h0
      exact absurd hp (by decide)
    · simp only [before, behind, pmmFull2_cell h0, w64, Bool.or_eq_true, decide_eq_true_eq] at hp
      omega

theorem pmmFull2_free : (pmmFree ⟨512, 1534, pmmFull2, 2⟩ 32768 1).size = 513 ∧
    (pmmFree ⟨512, 1534, pmmFull2, 2⟩ 32768 1).entries.log = 512 :: pmmFull2.log := by
  unfold pmmFree
  rw [pmmFull2_scan]
  exact ⟨rfl, rfl⟩

/-- a page is handed out and given back, next to the rest of its fragment -/
theorem pmm_table_fits_demo : ∃ w₁ w, PmmStep pmmFull (.alloc 1) w₁ ∧ PmmStep w₁ (.free 32768 1) w ∧
    Reach PmmStep PmmRoom pmmFull w ∧ w.pmm.size * 16 ≤ 2 * 4096 := by
  let w₁ : PmmWorld := ⟨⟨512, 1535, pmmFull.pmm.entries.put 0 ⟨36864, 2⟩, 2⟩, pmmFull.held ∪ pagesAt 32768 1⟩
  have h1 : PmmStep pmmFull (.alloc 1) w₁ := PmmStep.alloc pmmFull_alloc1
  have h2 : PmmStep w₁ (.free 32768 1) _ := PmmStep.free ⟨8, rfl⟩ Nat.one_pos Set.subset_union_right
  have hroom : PmmRoom w₁ (.free 32768 1) := Or.inl ⟨0, by decide, Or.inl (by decide)⟩
  have hr := (Reach.refl.tail (show PmmRoom pmmFull (.alloc 1) from trivial) h1).tail hroom h2
  exact ⟨_, _, h1, h2, hr, (pmm_table_fits (by decide) rfl hr).1⟩

/-- two single pages are handed out and the first one is given back: the 513th entry is written
behind the two pages -/
theorem pmmFree_overruns :
    pmmFull.pmm.size * 16 ≤ pmmFull.pmm.nrphymax * 4096 ∧ pmmFull.pmm.entries.log = [] ∧
      ∃ w₁ w₂ w₃, PmmStep pmmFull (.alloc 1) w₁ ∧ PmmStep w₁ (.alloc 1) w₂ ∧
        PmmStep w₂ (.free 32768 1) w₃ ∧ ¬ w₃.pmm.size * 16 ≤ pmmFull.pmm.nrphymax * 4096 ∧
        512 ∈ w₃.pmm.entries.log ∧ ¬ (512 + 1) * 16 ≤ pmmFull.pmm.nrphymax * 4096 := by
  refine ⟨by decide, rfl, _, _, _, PmmStep.alloc pmmFull_alloc1, PmmStep.alloc pmmFull_alloc2,
    PmmStep.free ⟨8, rfl⟩ Nat.one_pos ?_, ?_, ?_, by decide⟩
  · exact fun p hp => Or.inl (Or.inr hp)
  · dsimp only
    rw [pmmFull2_free.1]
    decide
  · dsimp only
    rw [pmmFull2_free.2]
    exact List.mem_cons_self ..

end OsZ
