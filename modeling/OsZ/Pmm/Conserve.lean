import OsZ.Pmm.Safety

/-!
# No page is lost

`Conserved P w`: `freepages` is the number of free pages, no fragment is empty and every page of
`P` is free or handed out.

* `Conserved.step`           every call keeps it, but for the calls `PmmSpare` excludes;
* `pmm_conserves`            hence every run without such a call;
* `pmmAllocslot_loses_page`  a call that loses a page.

When the slot lies at the end of its fragment but not at the front, `pmm_allocslot` splits the
entry `i` in two, finds the second part empty and deletes entry `i`: the pages before the slot are
lost and the empty entry stays.
-/

namespace OsZ

def sizeSum (l : List Entry) : Nat := (l.map Entry.size).sum

theorem sizeSum_append (l r : List Entry) : sizeSum (l ++ r) = sizeSum l + sizeSum r := by
  simp [sizeSum]

theorem sizeSum_cons (e : Entry) (l : List Entry) : sizeSum (e :: l) = e.size + sizeSum l := by
  simp [sizeSum]

structure Conserved (P : Set Nat) (w : PmmWorld) : Prop where
  sum : w.pmm.freepages = sizeSum w.pmm.frags
  pos : ∀ e ∈ w.pmm.frags, 0 < e.size
  all : w.pmm.free ∪ w.held = P

/-! ## the sum of the sizes counts the free pages -/

theorem Entry.pages_ncard (e : Entry) : e.pages.ncard = e.size := by
  rw [Entry.pages, pagesAt, Set.ncard_eq_toFinset_card', Set.toFinset_Ico, Nat.card_Ico,
    Nat.add_sub_cancel_left]

theorem pagesOf_finite (l : List Entry) : (pagesOf l).Finite := by
  induction l with
  | nil => rw [pagesOf_nil]; exact Set.finite_empty
  | cons e l ih => rw [pagesOf_cons]; exact (Set.finite_Ico _ _).union ih

theorem pagesOf_ncard {l : List Entry} (h : Apart Entry.pages l) : (pagesOf l).ncard = sizeSum l := by
  induction l with
  | nil => rw [pagesOf_nil, Set.ncard_empty]; rfl
  | cons e l ih =>
    obtain ⟨he, hl⟩ := List.pairwise_cons.mp h
    have hd : Disjoint e.pages (pagesOf l) := by
      rw [Set.disjoint_left]
      rintro p hp ⟨x, hx, hq⟩
      exact Set.disjoint_left.mp (he x hx) hp hq
    rw [pagesOf_cons, Set.ncard_union_eq hd (Set.finite_Ico _ _) (pagesOf_finite l),
      Entry.pages_ncard, ih hl, sizeSum_cons]

theorem PmmInv.sizeSum_le {w : PmmWorld} (h : PmmInv w) : sizeSum w.pmm.frags ≤ 2^40 := by
  have hsub : pagesOf w.pmm.frags ⊆ Set.Iio (2^40) := by
    rintro p ⟨e, he, hp⟩
    exact (h.ok e he).below hp
  have hcard : (Set.Iio (2^40 : Nat)).ncard = 2^40 := by
    rw [Set.ncard_eq_toFinset_card', Set.toFinset_Iio, Nat.card_Iio]
  rw [← pagesOf_ncard h.apart, ← hcard]
  exact Set.ncard_le_ncard hsub (Set.finite_Iio _)

/-! ## one call -/

/-- a call that replaces the fragment `e` by what is left of it without the `k` pages `R` -/
theorem Conserved.carve {P R : Set Nat} {w : PmmWorld} (hinv : PmmInv w) (h : Conserved P w) {s : Pmm}
    {l r m : List Entry} {e : Entry} {k : Nat} (hf : w.pmm.frags = l ++ e :: r)
    (hs : s.frags = l ++ (m ++ r)) (hm : pagesOf m = e.pages \ R) (hR : R ⊆ e.pages)
    (hpos : ∀ x ∈ m, 0 < x.size) (hk : sizeSum m + k = e.size)
    (hfree : s.freepages = sub64 w.pmm.freepages k) : Conserved P ⟨s, w.held ∪ R⟩ := by
  have hle := hinv.sizeSum_le
  have hsum := h.sum
  have hall := h.all
  rw [hf, sizeSum_append, sizeSum_cons] at hle hsum
  rw [Pmm.free_eq, hf, pagesOf_append, pagesOf_cons] at hall
  refine ⟨?_, ?_, ?_⟩
  · show s.freepages = sizeSum s.frags
    rw [hfree, hs, sizeSum_append, sizeSum_append, hsum, sub64_of_le (by omega) (by omega)]
    omega
  · intro x hx
    change x ∈ s.frags at hx
    rw [hs] at hx
    rcases List.mem_append.mp hx with hx | hx
    · exact h.pos x (by rw [hf]; simp [hx])
    · rcases List.mem_append.mp hx with hx | hx
      · exact hpos x hx
      · exact h.pos x (by rw [hf]; simp [hx])
  · show pagesOf s.frags ∪ (w.held ∪ R) = P
    rw [hs, pagesOf_append, pagesOf_append, hm, ← hall]
    ext p
    have := @hR p
    simp only [Set.mem_union, Set.mem_sdiff]
    tauto

theorem cutFront_pos {e x : Entry} {n : Nat} (h : n ≤ e.size) (hx : x ∈ cutFront e n) :
    0 < x.size := by
  unfold cutFront at hx
  split at hx
  · exact absurd hx (by simp)
  · rw [List.mem_singleton] at hx
    subst hx
    show 0 < e.size - n
    omega

theorem cutFront_sum {e : Entry} {n : Nat} (h : n ≤ e.size) : sizeSum (cutFront e n) + n = e.size := by
  unfold cutFront
  split
  · next h0 => rw [h0]; simp [sizeSum]
  · rw [sizeSum_cons]
    show e.size - n + 0 + n = e.size
    omega

/-- the slot is at the front of the fragment, or does not reach its end -/
def Spare (e : Entry) : Prop := slotOf e = e.base ∨ e.base + e.size * 4096 ≠ slotOf e + 2097152

section
variable {e : Entry} (hl : slotOf e = e.base + slotLead e * 4096) (hr : slotLead e + 512 ≤ e.size)
  (hsp : Spare e)
include hl hr hsp

theorem cutSlot_cases :
    (slotLead e = 0 ∧ cutSlot e = cutFront e 512) ∨
    (0 < slotLead e ∧ slotLead e + 512 < e.size ∧
      cutSlot e = [⟨e.base, slotLead e⟩, ⟨slotOf e + 2097152, e.size - (slotLead e + 512)⟩]) := by
  unfold cutSlot cutFront
  by_cases hb : slotOf e = e.base
  · refine Or.inl ⟨by omega, ?_⟩
    rw [if_pos hb, hb]
  · have hne := hsp.resolve_left hb
    have hlt : slotLead e + 512 < e.size := by
      refine lt_of_le_of_ne hr (fun h => hne ?_)
      rw [hl, ← h, Nat.add_mul, Nat.add_assoc]
    refine Or.inr ⟨by omega, hlt, ?_⟩
    rw [if_neg hb, if_neg (by omega)]

theorem cutSlot_pages_eq : pagesOf (cutSlot e) = e.pages \ pagesAt (slotOf e) 512 := by
  have h1 : (e.base + slotLead e * 4096) / 4096 = e.base / 4096 + slotLead e := by omega
  have h2 : (e.base + slotLead e * 4096 + 2097152) / 4096 = e.base / 4096 + slotLead e + 512 := by
    omega
  rcases cutSlot_cases hl hr hsp with ⟨h0, hc⟩ | ⟨-, hlt, hc⟩
  · rw [hc, cutFront_pages (by omega), hl, h0, Nat.zero_mul, Nat.add_zero]
  · rw [hc, hl]
    ext p
    simp only [pagesOf_cons, pagesOf_nil, Set.union_empty, Entry.pages, Set.mem_sdiff, mem_pagesAt,
      Set.mem_union, h1, h2]
    omega

theorem cutSlot_pos : ∀ x ∈ cutSlot e, 0 < x.size := by
  intro x hx
  rcases cutSlot_cases hl hr hsp with ⟨h0, hc⟩ | ⟨h0, hlt, hc⟩
  · rw [hc] at hx
    exact cutFront_pos (by omega) hx
  · rw [hc] at hx
    rcases List.mem_cons.mp hx with rfl | hx
    · exact h0
    · rw [List.mem_singleton] at hx
      subst hx
      show 0 < e.size - (slotLead e + 512)
      omega

theorem cutSlot_sum : sizeSum (cutSlot e) + 512 = e.size := by
  rcases cutSlot_cases hl hr hsp with ⟨h0, hc⟩ | ⟨-, hlt, hc⟩
  · rw [hc]
    exact cutFront_sum (by omega)
  · rw [hc, sizeSum_cons, sizeSum_cons]
    show slotLead e + (e.size - (slotLead e + 512) + 0) + 512 = e.size
    omega

end

/-- the calls that lose nothing: the page count does not overflow `int`, and the first fragment
with a slot does not start before the slot and end with it -/
def PmmSpare (w : PmmWorld) : PmmOp → Prop
  | .alloc pages => 1 ≤ pages ∧ pages < 2^19
  | .allocslot => ∀ i, scan (hasSlot w.pmm) 0 w.pmm.size = some i → Spare (w.pmm.entries.cell i)
  | .free _ _ => True

theorem PmmSpare.small {w : PmmWorld} {op : PmmOp} (h : PmmSpare w op) : PmmSmall w op := by
  cases op with
  | alloc pages => exact h
  | allocslot => trivial
  | free base n => trivial

theorem Conserved.free {P : Set Nat} {w : PmmWorld} (hinv : PmmInv w) (h : Conserved P w)
    {base n : Nat} (ha : 4096 ∣ base) (hn : 0 < n) (hh : pagesAt base n ⊆ w.held) :
    Conserved P ⟨pmmFree w.pmm base n, w.held \ pagesAt base n⟩ := by
  obtain ⟨hinv', hfree⟩ := hinv.free ha hn hh
  obtain ⟨hfp, hcases⟩ := pmmFree_spec hinv.ok (hinv.range_below ha hn hh)
  have hbound : sizeSum (pmmFree w.pmm base n).frags ≤ 2^40 := hinv'.sizeSum_le
  have hsum : sizeSum (pmmFree w.pmm base n).frags = sizeSum w.pmm.frags + n := by
    rcases hcases with hf | ⟨l, e, r, e', hf, hf', ⟨-, rfl⟩ | ⟨-, rfl⟩⟩
    · rw [hf, sizeSum_append]; rfl
    all_goals
      rw [hf, hf', sizeSum_append, sizeSum_append, sizeSum_cons, sizeSum_cons]
      dsimp only
      omega
  refine ⟨?_, ?_, ?_⟩
  · show (pmmFree w.pmm base n).freepages = sizeSum (pmmFree w.pmm base n).frags
    rw [hfp, h.sum, ← hsum, w64_of_lt (by omega)]
  · intro x hx
    change x ∈ (pmmFree w.pmm base n).frags at hx
    rcases hcases with hf | ⟨l, e, r, e', hf, hf', he⟩
    · rw [hf] at hx
      rcases List.mem_append.mp hx with hx | hx
      · exact h.pos x hx
      · rw [List.mem_singleton] at hx; rw [hx]; exact hn
    · have hpos : 0 < e'.size := by
        rcases he with ⟨-, rfl⟩ | ⟨-, rfl⟩
        all_goals exact Nat.add_pos_right _ hn
      rw [hf'] at hx
      rcases List.mem_append.mp hx with hx | hx
      · exact h.pos x (by rw [hf]; simp [hx])
      · rcases List.mem_cons.mp hx with hx | hx
        · rw [hx]; exact hpos
        · exact h.pos x (by rw [hf]; simp [hx])
  · show (pmmFree w.pmm base n).free ∪ (w.held \ pagesAt base n) = P
    rw [hfree, ← h.all]
    ext p
    have := @hh p
    simp only [Set.mem_union, Set.mem_sdiff]
    tauto

theorem Conserved.step {P : Set Nat} {w w' : PmmWorld} {op : PmmOp} (hinv : PmmInv w)
    (h : Conserved P w) (hc : PmmSpare w op) (hs : PmmStep w op w') : Conserved P w' := by
  cases hs with
  | @alloc pages s b ha =>
    obtain ⟨h1, h2⟩ := hc
    obtain ⟨n, rfl⟩ := Int.eq_ofNat_of_zero_le (show 0 ≤ pages by omega)
    rw [Int.toNat_natCast]
    obtain ⟨l, e, r, hf, hsz, rfl, hs, hfp⟩ :=
      pmmAlloc_spec hinv.ok (show 1 ≤ n by omega) (by omega) ha
    refine h.carve hinv hf hs (cutFront_pages hsz) (fun p hp => ?_)
      (fun x hx => cutFront_pos hsz hx) (cutFront_sum hsz) hfp
    rw [mem_pagesAt] at hp
    rw [Entry.pages, mem_pagesAt]
    omega
  | allocslot ha =>
    obtain ⟨i, l, e, r, ⟨hi, he⟩, hf, rfl, hd, hl, hr, hs, hfp⟩ := pmmAllocslot_spec hinv.ok ha
    have hsp : Spare e := he ▸ hc i hi
    refine h.carve hinv hf hs (cutSlot_pages_eq hl hr hsp) (fun p hp => ?_) (cutSlot_pos hl hr hsp)
      (cutSlot_sum hl hr hsp) hfp
    rw [mem_pagesAt] at hp
    rw [Entry.pages, mem_pagesAt]
    omega
  | free ha hn hh => exact h.free hinv ha hn hh

/-! ## all runs -/

/-- **No page is lost** in a run of calls that satisfy `PmmSpare`. -/
theorem pmm_conserves {w₀ w : PmmWorld} (h0 : PmmStart w₀)
    (hsum : w₀.pmm.freepages = sizeSum w₀.pmm.frags) (hpos : ∀ e ∈ w₀.pmm.frags, 0 < e.size)
    (h : Reach PmmStep PmmSpare w₀ w) : Conserved w₀.pmm.free w := by
  have hstart : PmmInv w₀ ∧ Conserved w₀.pmm.free w₀ :=
    ⟨h0.inv, hsum, hpos, by rw [h0.none, Set.union_empty]⟩
  refine (h.keeps (I := fun w => PmmInv w ∧ Conserved w₀.pmm.free w) hstart ?_).2
  rintro u op u' ⟨hi, hc⟩ hsp hs
  exact ⟨hi.step hsp.small hs, hc.step hi hsp hs⟩

/-- the slot at the start of a fragment -/
theorem pmm_conserves_demo : ∃ w, Reach PmmStep PmmSpare pmmDemo w ∧ pagesAt 0x400000 512 ⊆ w.held ∧
    Conserved pmmDemo.pmm.free w := by
  have hcall : (pmmAllocslot pmmDemo.pmm).map Prod.snd = some 0x400000 := by decide
  obtain ⟨⟨s, b⟩, hs, rfl⟩ := Option.map_eq_some_iff.mp hcall
  have hc : PmmSpare pmmDemo .allocslot := fun _ _ => Or.inl (show slotOf ⟨0x400000, 1024⟩ = 0x400000 by decide)
  have hr := Reach.refl.tail hc (PmmStep.allocslot hs)
  exact ⟨_, hr, Set.subset_union_right,
    pmm_conserves pmmDemo_start rfl (by simp [pmmDemo, Pmm.frags, Table.seg]) hr⟩

/-- one fragment, one page longer than a slot, that ends with the slot at `2M` -/
def pmmTight : PmmWorld := ⟨⟨1, 513, ⟨fun _ => ⟨0x1ff000, 513⟩, []⟩, 1⟩, ∅⟩

/-- the first `pmm_allocslot` on it hands out the slot, and the page `0x1ff` is gone: it is neither
free nor handed out, and the only entry that is left is empty -/
theorem pmmAllocslot_loses_page :
    PmmStart pmmTight ∧ pmmTight.pmm.freepages = sizeSum pmmTight.pmm.frags ∧
      (∀ e ∈ pmmTight.pmm.frags, 0 < e.size) ∧
      ∃ w, PmmStep pmmTight .allocslot w ∧ w.pmm.frags = [⟨0x400000, 0⟩] ∧ w.pmm.freepages = 1 ∧
        0x1ff ∈ pmmTight.pmm.free ∧ 0x1ff ∉ w.pmm.free ∪ w.held := by
  have hcall : (pmmAllocslot pmmTight.pmm).map (fun x => (x.1.frags, x.1.freepages, x.2))
      = some ([⟨0x400000, 0⟩], 1, 0x200000) := by decide
  obtain ⟨⟨s, b⟩, hs, hx⟩ := Option.map_eq_some_iff.mp hcall
  simp only [Prod.mk.injEq] at hx
  obtain ⟨hf, hfp, rfl⟩ := hx
  refine ⟨⟨by simp [pmmTight, Pmm.frags, Table.seg, Entry.ok_mk],
    Apart.single, rfl⟩, rfl,
    by simp [pmmTight, Pmm.frags, Table.seg], _, PmmStep.allocslot hs, hf, hfp, ?_, ?_⟩
  · refine ⟨⟨0x1ff000, 513⟩, by simp [pmmTight, Pmm.frags, Table.seg], ?_⟩
    rw [Entry.pages, mem_pagesAt]
    decide
  · rintro (h | h)
    · rw [Pmm.free_eq, hf, pagesOf_cons, pagesOf_nil, Set.union_empty, Entry.pages, mem_pagesAt] at h
      dsimp only at h
      omega
    · rcases h with h | h
      · exact h
      · rw [mem_pagesAt] at h
        omega

end OsZ
