import OsZ.Base.Regions
import OsZ.Pmm.Spec
import Mathlib.Data.Set.Card

/-!
# No page is handed out twice

`PmmInv`: the fragments are page aligned, pairwise disjoint and disjoint from the pages that are
handed out.  Every call keeps it (`PmmInv.step`), because a call only replaces a fragment by
parts of it, or of it and the freed range.

* `pmmAlloc_fresh`, `pmmAllocslot_fresh`  what is handed out was free;
* `pmm_exclusive`                         the statement over all runs.
-/

namespace OsZ

theorem Entry.ok_mk {b n : Nat} : (⟨b, n⟩ : Entry).Ok ↔ 4096 ∣ b ∧ b + n * 4096 ≤ 2^52 := Iff.rfl

def pagesOf (l : List Entry) : Set Nat := cover Entry.pages l

theorem Pmm.free_eq (s : Pmm) : s.free = pagesOf s.frags := rfl

theorem pagesOf_append (l r : List Entry) : pagesOf (l ++ r) = pagesOf l ∪ pagesOf r := cover_append

theorem pagesOf_cons (e : Entry) (l : List Entry) : pagesOf (e :: l) = e.pages ∪ pagesOf l :=
  cover_cons

theorem pagesOf_nil : pagesOf [] = ∅ := cover_nil

theorem mem_pagesAt {base n p : Nat} : p ∈ pagesAt base n ↔ base / 4096 ≤ p ∧ p < base / 4096 + n :=
  Iff.rfl

/-! ## what is left of a fragment -/

theorem cutFront_pages {e : Entry} {n : Nat} (h : n ≤ e.size) :
    pagesOf (cutFront e n) = e.pages \ pagesAt e.base n := by
  ext p
  unfold cutFront
  split
  · next h0 =>
    rw [pagesOf_nil, Entry.pages, h0, Set.sdiff_self]
  · simp only [pagesOf_cons, pagesOf_nil, Set.union_empty, Entry.pages, Set.mem_sdiff, mem_pagesAt]
    omega

theorem cutFront_ok {e x : Entry} {n : Nat} (hok : e.Ok) (h : n ≤ e.size) (hx : x ∈ cutFront e n) :
    x.Ok := by
  obtain ⟨⟨k, hk⟩, hb⟩ := hok
  unfold cutFront at hx
  split at hx
  · exact absurd hx (by simp)
  · rw [List.mem_singleton] at hx
    subst hx
    exact Entry.ok_mk.mpr ⟨⟨k + n, by omega⟩, by omega⟩

theorem cutFront_apart (e : Entry) (n : Nat) : Apart Entry.pages (cutFront e n) := by
  unfold cutFront
  split
  · exact Apart.nil
  · exact Apart.single

section
variable {e : Entry} (hl : slotOf e = e.base + slotLead e * 4096)
  (hr : slotLead e + 512 ≤ e.size)
include hl hr

theorem cutSlot_pages : pagesOf (cutSlot e) ⊆ e.pages \ pagesAt (slotOf e) 512 := by
  intro p
  have h1 : (e.base + slotLead e * 4096) / 4096 = e.base / 4096 + slotLead e := by omega
  have h2 : (e.base + slotLead e * 4096 + 2097152) / 4096 = e.base / 4096 + slotLead e + 512 := by
    omega
  unfold cutSlot
  rw [hl]
  split
  · next h0 =>
    split
    · intro h; simp [pagesOf_nil] at h
    · simp only [pagesOf_cons, pagesOf_nil, Set.union_empty, Entry.pages, Set.mem_sdiff, mem_pagesAt,
        h1, h2]
      omega
  · split
    · simp only [pagesOf_cons, pagesOf_nil, Set.union_empty, Entry.pages, Set.mem_sdiff, mem_pagesAt,
        h1, h2]
      omega
    · simp only [pagesOf_cons, pagesOf_nil, Set.union_empty, Entry.pages, Set.mem_sdiff, mem_pagesAt,
        Set.mem_union, h1, h2]
      omega

theorem cutSlot_ok (hok : e.Ok) : ∀ x ∈ cutSlot e, x.Ok := by
  obtain ⟨⟨k, hk⟩, hb⟩ := hok
  have hle : slotLead e * 4096 ≤ e.size * 4096 :=
    Nat.mul_le_mul_right _ ((Nat.le_add_right _ _).trans hr)
  have hlead : (⟨e.base, slotLead e⟩ : Entry).Ok :=
    Entry.ok_mk.mpr ⟨⟨k, hk⟩, (Nat.add_le_add_left hle _).trans hb⟩
  have hrest : ∀ n, n ≤ e.size - (slotLead e + 512) → (⟨slotOf e + 2097152, n⟩ : Entry).Ok := by
    intro n hn
    exact Entry.ok_mk.mpr ⟨⟨k + slotLead e + 512, by omega⟩, by omega⟩
  intro x hx
  unfold cutSlot at hx
  split at hx
  · split at hx
    · exact absurd hx (by simp)
    · rw [List.mem_singleton] at hx
      subst hx
      exact hrest _ (by omega)
  · split at hx
    · rw [List.mem_singleton] at hx
      subst hx
      exact hrest _ (by omega)
    · rcases List.mem_cons.mp hx with rfl | hx
      · exact hlead
      · rw [List.mem_singleton] at hx
        subst hx
        exact hrest _ (by omega)

omit hr in
theorem cutSlot_apart : Apart Entry.pages (cutSlot e) := by
  have h2 : (slotOf e + 2097152) / 4096 = e.base / 4096 + slotLead e + 512 := by omega
  unfold cutSlot
  split
  · split
    · exact Apart.nil
    · exact Apart.single
  · split
    · exact Apart.single
    · refine Apart.pair (Set.disjoint_left.mpr (fun p => ?_))
      simp only [Entry.pages, mem_pagesAt, h2]
      omega

end

/-! ## the invariant -/

structure PmmInv (w : PmmWorld) : Prop where
  ok : ∀ e ∈ w.pmm.frags, e.Ok
  apart : Apart Entry.pages w.pmm.frags
  below : w.held ⊆ Set.Iio (2^40)
  sep : Disjoint w.held w.pmm.free

theorem Entry.Ok.below {e : Entry} (h : e.Ok) : e.pages ⊆ Set.Iio (2^40) := by
  intro p hp
  have h1 := h.2
  rw [Entry.pages, mem_pagesAt] at hp
  show p < 2^40
  omega

theorem pmmAlloc_fresh {w : PmmWorld} (hinv : PmmInv w) {n b : Nat} {s : Pmm} (hn : 1 ≤ n)
    (hn' : n < 2^19) (h : pmmAlloc w.pmm n = some (s, b)) :
    4096 ∣ b ∧ pagesAt b n ⊆ w.pmm.free ∧ Disjoint (pagesAt b n) w.held := by
  obtain ⟨l, e, r, hf, hsz, rfl, -, -⟩ := pmmAlloc_spec hinv.ok hn hn' h
  have hmem : e ∈ w.pmm.frags := by rw [hf]; simp
  have hsub : pagesAt e.base n ⊆ w.pmm.free := by
    intro p hp
    refine ⟨e, hmem, ?_⟩
    rw [mem_pagesAt] at hp
    rw [Entry.pages, mem_pagesAt]
    omega
  exact ⟨(hinv.ok e hmem).1, hsub, (hinv.sep.symm).mono_left hsub⟩

theorem pmmAllocslot_fresh {w : PmmWorld} (hinv : PmmInv w) {b : Nat} {s : Pmm}
    (h : pmmAllocslot w.pmm = some (s, b)) :
    2097152 ∣ b ∧ pagesAt b 512 ⊆ w.pmm.free ∧ Disjoint (pagesAt b 512) w.held := by
  obtain ⟨-, l, e, r, -, hf, rfl, hd, hl, hr, -, -⟩ := pmmAllocslot_spec hinv.ok h
  have hmem : e ∈ w.pmm.frags := by rw [hf]; simp
  have hsub : pagesAt (slotOf e) 512 ⊆ w.pmm.free := by
    intro p hp
    refine ⟨e, hmem, ?_⟩
    rw [mem_pagesAt] at hp
    rw [Entry.pages, mem_pagesAt]
    omega
  exact ⟨hd, hsub, (hinv.sep.symm).mono_left hsub⟩

/-- a call that replaces the fragment `e` by parts of it, and hands out pages `R` of it -/
theorem PmmInv.carve {w : PmmWorld} (hinv : PmmInv w) {s : Pmm} {l r m : List Entry} {e : Entry}
    {R : Set Nat} (hf : w.pmm.frags = l ++ e :: r) (hs : s.frags = l ++ (m ++ r))
    (hok : ∀ x ∈ m, x.Ok) (hap : Apart Entry.pages m) (hm : pagesOf m ⊆ e.pages \ R)
    (hR : R ⊆ e.pages) : PmmInv ⟨s, w.held ∪ R⟩ := by
  have hmem : e ∈ w.pmm.frags := by rw [hf]; simp
  have hap' := hinv.apart
  rw [hf] at hap'
  have hrest : Disjoint (pagesOf (l ++ r)) e.pages := hap'.rest
  have hsep := hinv.sep
  rw [Pmm.free_eq, hf, pagesOf_append, pagesOf_cons] at hsep
  refine ⟨?_, ?_, ?_, ?_⟩
  · intro x hx
    change x ∈ s.frags at hx
    rw [hs] at hx
    rcases List.mem_append.mp hx with hx | hx
    · exact hinv.ok x (by rw [hf]; simp [hx])
    · rcases List.mem_append.mp hx with hx | hx
      · exact hok x hx
      · exact hinv.ok x (by rw [hf]; simp [hx])
  · show Apart Entry.pages s.frags
    rw [hs]
    exact hap'.replace hap (X := ∅) (fun p hp => Or.inl (hm hp).1) (Set.disjoint_empty _)
  · exact Set.union_subset hinv.below (hR.trans (hinv.ok e hmem).below)
  · show Disjoint (w.held ∪ R) (pagesOf s.frags)
    rw [hs, pagesOf_append, pagesOf_append]
    rw [pagesOf_append] at hrest
    refine Set.disjoint_left.mpr (fun p hp hq => ?_)
    rcases hp with hp | hp
    · refine Set.disjoint_left.mp hsep hp ?_
      rcases hq with hq | hq | hq
      · exact Or.inl hq
      · exact Or.inr (Or.inl (hm hq).1)
      · exact Or.inr (Or.inr hq)
    · rcases hq with hq | hq | hq
      · exact Set.disjoint_left.mp hrest (Or.inl hq) (hR hp)
      · exact (hm hq).2 hp
      · exact Set.disjoint_left.mp hrest (Or.inr hq) (hR hp)

theorem PmmInv.alloc {w : PmmWorld} (hinv : PmmInv w) {n b : Nat} {s : Pmm} (hn : 1 ≤ n)
    (hn' : n < 2^19) (h : pmmAlloc w.pmm n = some (s, b)) : PmmInv ⟨s, w.held ∪ pagesAt b n⟩ := by
  obtain ⟨l, e, r, hf, hsz, rfl, hs, -⟩ := pmmAlloc_spec hinv.ok hn hn' h
  have hmem : e ∈ w.pmm.frags := by rw [hf]; simp
  refine hinv.carve hf hs (fun x hx => cutFront_ok (hinv.ok e hmem) hsz hx) (cutFront_apart e n)
    (cutFront_pages hsz).subset (fun p hp => ?_)
  rw [mem_pagesAt] at hp
  rw [Entry.pages, mem_pagesAt]
  omega

theorem PmmInv.allocslot {w : PmmWorld} (hinv : PmmInv w) {b : Nat} {s : Pmm}
    (h : pmmAllocslot w.pmm = some (s, b)) : PmmInv ⟨s, w.held ∪ pagesAt b 512⟩ := by
  obtain ⟨-, l, e, r, -, hf, rfl, hd, hl, hr, hs, -⟩ := pmmAllocslot_spec hinv.ok h
  have hmem : e ∈ w.pmm.frags := by rw [hf]; simp
  refine hinv.carve hf hs (cutSlot_ok hl hr (hinv.ok e hmem)) (cutSlot_apart hl)
    (cutSlot_pages hl hr) (fun p hp => ?_)
  rw [mem_pagesAt] at hp
  rw [Entry.pages, mem_pagesAt]
  omega

theorem PmmInv.range_below {w : PmmWorld} (hinv : PmmInv w) {base n : Nat} (ha : 4096 ∣ base)
    (hn : 0 < n) (h : pagesAt base n ⊆ w.held) : base + n * 4096 ≤ 2^52 := by
  have h1 : base / 4096 + (n - 1) ∈ pagesAt base n := by rw [mem_pagesAt]; omega
  have h2 : base / 4096 + (n - 1) < 2^40 := hinv.below (h h1)
  omega

theorem pages_grown {base n : Nat} {e e' : Entry} (ha : 4096 ∣ base) (hok : e.Ok)
    (he : (e.base = base + n * 4096 ∧ e' = ⟨base, e.size + n⟩) ∨
      (e.base + e.size * 4096 = base ∧ e' = ⟨e.base, e.size + n⟩)) :
    e'.pages = e.pages ∪ pagesAt base n ∧ 4096 ∣ e'.base ∧
      e'.base + e'.size * 4096 = max (e.base + e.size * 4096) (base + n * 4096) := by
  obtain ⟨ha', -⟩ := hok
  rcases he with ⟨h1, rfl⟩ | ⟨h1, rfl⟩
  · refine ⟨?_, ha, ?_⟩
    · ext p
      simp only [Entry.pages, Set.mem_union, mem_pagesAt, h1]
      omega
    · dsimp only
      omega
  · refine ⟨?_, ha', ?_⟩
    · ext p
      simp only [Entry.pages, Set.mem_union, mem_pagesAt, ← h1]
      omega
    · rw [h1, max_eq_right (Nat.le_add_right _ _), ← h1, Nat.add_mul, Nat.add_assoc]

theorem PmmInv.free {w : PmmWorld} (hinv : PmmInv w) {base n : Nat} (ha : 4096 ∣ base) (hn : 0 < n)
    (h : pagesAt base n ⊆ w.held) :
    PmmInv ⟨pmmFree w.pmm base n, w.held \ pagesAt base n⟩ ∧
      (pmmFree w.pmm base n).free = w.pmm.free ∪ pagesAt base n := by
  have hb := hinv.range_below ha hn h
  have hnew : (⟨base, n⟩ : Entry).Ok := ⟨ha, hb⟩
  have hsep : Disjoint w.pmm.free (pagesAt base n) := hinv.sep.symm.mono_right h
  -- both cases: the fragments cover what they covered, and the freed range
  suffices hlist : (∀ x ∈ (pmmFree w.pmm base n).frags, x.Ok) ∧
      Apart Entry.pages (pmmFree w.pmm base n).frags ∧
      (pmmFree w.pmm base n).free = w.pmm.free ∪ pagesAt base n by
    obtain ⟨h1, h2, h3⟩ := hlist
    refine ⟨⟨h1, h2, fun p hp => hinv.below hp.1, ?_⟩, h3⟩
    show Disjoint (w.held \ pagesAt base n) (pmmFree w.pmm base n).free
    rw [h3]
    refine Set.disjoint_left.mpr (fun p hp hq => ?_)
    rcases hq with hq | hq
    · exact Set.disjoint_left.mp hinv.sep hp.1 hq
    · exact hp.2 hq
  rcases (pmmFree_spec hinv.ok hb).2 with hf | ⟨l, e, r, e', hf, hf', he⟩
  · rw [Pmm.free_eq, hf]
    refine ⟨fun x hx => ?_, ?_, ?_⟩
    · rcases List.mem_append.mp hx with hx | hx
      · exact hinv.ok x hx
      · rw [List.mem_singleton] at hx; rw [hx]; exact hnew
    · exact hinv.apart.add hsep
    · rw [pagesOf_append, pagesOf_cons, pagesOf_nil, Set.union_empty]; rfl
  · have hmem : e ∈ w.pmm.frags := by rw [hf]; simp
    obtain ⟨hp, ha', hend⟩ := pages_grown ha (hinv.ok e hmem) he
    have hap := hinv.apart
    rw [Pmm.free_eq, hf, pagesOf_append, pagesOf_cons] at hsep
    rw [hf] at hap
    rw [Pmm.free_eq, Pmm.free_eq, hf', hf]
    refine ⟨fun x hx => ?_, ?_, ?_⟩
    · rcases List.mem_append.mp hx with hx | hx
      · exact hinv.ok x (by rw [hf]; simp [hx])
      · rcases List.mem_cons.mp hx with hx | hx
        · rw [hx]
          exact ⟨ha', by rw [hend]; exact max_le (hinv.ok e hmem).2 hb⟩
        · exact hinv.ok x (by rw [hf]; simp [hx])
    · refine hap.replace (m := [e']) Apart.single ?_ (X := pagesAt base n) ?_
      · rw [cover_cons, cover_nil, Set.union_empty, hp]
      · rw [cover_append]
        exact hsep.mono_left (Set.union_subset_union_right _ Set.subset_union_right)
    · rw [pagesOf_append, pagesOf_cons, hp, pagesOf_append, pagesOf_cons]
      ext p
      simp only [Set.mem_union]
      tauto

/-! ## all runs -/

/-- the calls the statements are about: an `int` page count whose product with the page size
does not overflow -/
def PmmSmall (_ : PmmWorld) : PmmOp → Prop
  | .alloc pages => 1 ≤ pages ∧ pages < 2^19
  | _ => True

theorem PmmInv.step {w w' : PmmWorld} {op : PmmOp} (hinv : PmmInv w) (hc : PmmSmall w op)
    (h : PmmStep w op w') : PmmInv w' := by
  cases h with
  | @alloc pages s b h =>
    obtain ⟨h1, h2⟩ := hc
    obtain ⟨n, rfl⟩ := Int.eq_ofNat_of_zero_le (show 0 ≤ pages by omega)
    rw [Int.toNat_natCast]
    exact hinv.alloc (by omega) (by omega) h
  | allocslot h => exact hinv.allocslot h
  | free ha hn h => exact (hinv.free ha hn h).1

/-- a list of pairwise disjoint page-aligned fragments, nothing handed out yet -/
structure PmmStart (w : PmmWorld) : Prop where
  ok : ∀ e ∈ w.pmm.frags, e.Ok
  apart : Apart Entry.pages w.pmm.frags
  none : w.held = ∅

theorem PmmStart.inv {w : PmmWorld} (h : PmmStart w) : PmmInv w :=
  ⟨h.ok, h.apart, by rw [h.none]; exact Set.empty_subset _, by rw [h.none]; exact Set.empty_disjoint _⟩

/-- **No page is handed out twice**: in every state a run leads to, the next range is aligned, was
free and touches nothing that is still handed out, and the fragments are pairwise disjoint and
disjoint from everything handed out. -/
theorem pmm_exclusive {w₀ w : PmmWorld} (h0 : PmmStart w₀) (h : Reach PmmStep PmmSmall w₀ w) :
    (∀ (pages : Int) (s : Pmm) (b : Nat), 1 ≤ pages → pages < 2^19 →
        pmmAlloc w.pmm pages = some (s, b) →
        4096 ∣ b ∧ pagesAt b pages.toNat ⊆ w.pmm.free ∧ Disjoint (pagesAt b pages.toNat) w.held) ∧
      (∀ (s : Pmm) (b : Nat), pmmAllocslot w.pmm = some (s, b) →
        2097152 ∣ b ∧ pagesAt b 512 ⊆ w.pmm.free ∧ Disjoint (pagesAt b 512) w.held) ∧
      Apart Entry.pages w.pmm.frags ∧ Disjoint w.held w.pmm.free := by
  have hinv : PmmInv w := h.keeps h0.inv (fun _ _ _ hi hc hs => hi.step hc hs)
  refine ⟨fun pages s b h1 h2 hal => ?_, fun s b hal => pmmAllocslot_fresh hinv hal, hinv.apart,
    hinv.sep⟩
  obtain ⟨n, rfl⟩ := Int.eq_ofNat_of_zero_le (show 0 ≤ pages by omega)
  rw [Int.toNat_natCast]
  exact pmmAlloc_fresh hinv (by omega) (by omega) hal

/-- one fragment of two slots at `4M` -/
def pmmDemo : PmmWorld := ⟨⟨1, 1024, ⟨fun _ => ⟨0x400000, 1024⟩, []⟩, 1⟩, ∅⟩

theorem pmmDemo_start : PmmStart pmmDemo :=
  ⟨by simp [pmmDemo, Pmm.frags, Table.seg, Entry.ok_mk], Apart.single, rfl⟩

theorem pmmDemo_alloc : ∃ s, pmmAlloc pmmDemo.pmm 3 = some (s, 0x400000) := ⟨_, rfl⟩

theorem pmm_exclusive_demo : ∃ w, Reach PmmStep PmmSmall pmmDemo w ∧ pagesAt 0x400000 3 ⊆ w.held ∧
    Apart Entry.pages w.pmm.frags ∧ Disjoint w.held w.pmm.free := by
  obtain ⟨s, hs⟩ := pmmDemo_alloc
  have hc : PmmSmall pmmDemo (.alloc 3) := by unfold PmmSmall; decide
  have hr := Reach.refl.tail hc (PmmStep.alloc hs)
  have h := pmm_exclusive pmmDemo_start hr
  exact ⟨_, hr, Set.subset_union_right, h.2.2⟩

end OsZ
