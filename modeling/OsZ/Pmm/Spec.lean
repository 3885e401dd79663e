import OsZ.Pmm.Model

/-!
# What one call does to the list of fragments

Each call replaces one fragment of the list by the fragments that are left of it (or adds a
fragment at the end).  The in-place loops of the source are used here and nowhere else:

* `pmmAlloc_spec`      the fragment `e` becomes `cutFront e n`;
* `pmmAllocslot_spec`  the fragment `e` becomes `cutSlot e`;
* `pmmFree_spec`       a neighbour grows, or a fragment is added.
-/

namespace OsZ

/-- page aligned and below `2^52` -/
def Entry.Ok (e : Entry) : Prop := 4096 ∣ e.base ∧ e.base + e.size * 4096 ≤ 2^52

/-- what `pmm_alloc(n)` leaves of a fragment -/
def cutFront (e : Entry) (n : Nat) : List Entry :=
  if e.size = n then [] else [⟨e.base + n * 4096, e.size - n⟩]

/-- pages of the fragment before its first slot boundary -/
def slotLead (e : Entry) : Nat := (slotOf e - e.base) / 4096

/-- what `pmm_allocslot()` leaves of a fragment.  When the slot ends where the fragment ends and
does not start where it starts, the loop of the source deletes the wrong one of the two parts. -/
def cutSlot (e : Entry) : List Entry :=
  if slotOf e = e.base then
    if e.size = 512 then [] else [⟨slotOf e + 2097152, e.size - 512⟩]
  else
    if e.size = slotLead e + 512 then [⟨slotOf e + 2097152, 0⟩]
    else [⟨e.base, slotLead e⟩, ⟨slotOf e + 2097152, e.size - (slotLead e + 512)⟩]

theorem Pmm.mem_frags {s : Pmm} {i : Nat} (h : i < s.size) : s.entries.cell i ∈ s.frags :=
  Table.mem_seg.mpr ⟨i, Nat.zero_le _, by omega, rfl⟩

theorem Pmm.frags_freepages (s : Pmm) (f : Nat) : ({ s with freepages := f } : Pmm).frags = s.frags :=
  rfl

/-- entry `i` overwritten, and deleted when it became empty -/
def Pmm.setOrDrop (s : Pmm) (i : Nat) (e : Entry) : Pmm :=
  if e.size = 0 then
    { s with entries := (s.entries.put i e).down i (s.size - 1 - i), size := s.size - 1 }
  else { s with entries := s.entries.put i e }

theorem Pmm.frags_setOrDrop (s : Pmm) {i : Nat} (h : i < s.size) (e : Entry) :
    (s.setOrDrop i e).frags
      = s.entries.seg 0 i ++ ((if e.size = 0 then [] else [e])
          ++ s.entries.seg (i+1) (s.size - 1 - i)) := by
  have hl : (s.entries.put i e).seg 0 i = s.entries.seg 0 i :=
    Table.seg_put_out _ _ (Or.inr (by omega))
  have hr : (s.entries.put i e).seg (i+1) (s.size - 1 - i) = s.entries.seg (i+1) (s.size - 1 - i) :=
    Table.seg_put_out _ _ (Or.inl (by omega))
  unfold Pmm.setOrDrop Pmm.frags
  by_cases h0 : e.size = 0
  · rw [if_pos h0, if_pos h0]
    show Table.seg _ 0 (s.size - 1) = _
    rw [Table.seg_remove _ h, hl, hr, List.nil_append]
  · rw [if_neg h0, if_neg h0]
    show Table.seg _ 0 s.size = _
    rw [Table.seg_split _ h, hl, hr, Table.put_cell_self, List.singleton_append]

theorem pmmAlloc_spec {s s' : Pmm} {n b : Nat} (hok : ∀ e ∈ s.frags, e.Ok) (hn : 1 ≤ n)
    (hn' : n < 2^19) (h : pmmAlloc s n = some (s', b)) :
    ∃ l e r, s.frags = l ++ e :: r ∧ n ≤ e.size ∧ b = e.base ∧
      s'.frags = l ++ (cutFront e n ++ r) ∧ s'.freepages = sub64 s.freepages n := by
  have hu : u64 (n : Int) = n := u64_natCast (by omega)
  have hm : u64 (i32 ((n : Int) * 4096)) = n * 4096 := by
    rw [u64_i32 (by omega) (by omega)]; omega
  unfold pmmAlloc at h
  cases hi : scan (fits s n) 0 s.size with
  | none => rw [hi] at h; exact absurd h (by simp)
  | some i =>
    obtain ⟨-, hlt, hp, -⟩ := scan_some hi
    have hlt' : i < s.size := by omega
    have hsz : n ≤ (s.entries.cell i).size := by simpa [fits, hu] using hp
    obtain ⟨-, hb⟩ := hok _ (Pmm.mem_frags hlt')
    rw [hi] at h
    have h' : some ({ s.setOrDrop i ⟨w64 ((s.entries.cell i).base + u64 (i32 ((n:Int) * 4096))),
        sub64 (s.entries.cell i).size (u64 n)⟩ with freepages := sub64 s.freepages (u64 n) },
        (s.entries.cell i).base) = some (s', b) := h
    rw [hu, hm, w64_of_lt (by omega), sub64_of_le hsz (by omega), Option.some.injEq,
      Prod.mk.injEq] at h'
    obtain ⟨rfl, rfl⟩ := h'
    refine ⟨_, _, _, Table.seg_split _ hlt', hsz, rfl, ?_, rfl⟩
    rw [Pmm.frags_freepages, Pmm.frags_setOrDrop s hlt']
    unfold cutFront
    have e0 : (s.entries.cell i).size - n = 0 ↔ (s.entries.cell i).size = n := by omega
    simp only [e0]

theorem slotOf_bounds {e : Entry} (hok : e.Ok)
    (h : w64 (slotOf e + 2097152) ≤ w64 (e.base + w64 (e.size * 4096))) :
    2097152 ∣ slotOf e ∧ slotOf e = e.base + slotLead e * 4096 ∧ slotLead e + 512 ≤ e.size := by
  obtain ⟨ha, hb⟩ := hok
  have hd := dvd_roundUp (a := 2097152) (n := e.base) (by omega) (by omega)
  have hl := le_roundUp (a := 2097152) (n := e.base) (by omega) (by omega)
  have hu := roundUp_lt (a := 2097152) (n := e.base) (by omega) (by omega)
  change 2097152 ∣ slotOf e at hd
  change e.base ≤ slotOf e at hl
  change slotOf e < _ at hu
  rw [w64_of_lt (by omega), w64_of_lt (show e.size * 4096 < 2^64 by omega),
    w64_of_lt (by omega)] at h
  unfold slotLead
  omega

theorem pmmAllocslot_spec {s s' : Pmm} {b : Nat} (hok : ∀ e ∈ s.frags, e.Ok)
    (h : pmmAllocslot s = some (s', b)) :
    ∃ i l e r, (scan (hasSlot s) 0 s.size = some i ∧ s.entries.cell i = e) ∧
      s.frags = l ++ e :: r ∧ b = slotOf e ∧ 2097152 ∣ b ∧
      slotOf e = e.base + slotLead e * 4096 ∧ slotLead e + 512 ≤ e.size ∧
      s'.frags = l ++ (cutSlot e ++ r) ∧ s'.freepages = sub64 s.freepages 512 := by
  unfold pmmAllocslot at h
  cases hi : scan (hasSlot s) 0 s.size with
  | none => rw [hi] at h; exact absurd h (by simp)
  | some i =>
    obtain ⟨-, hlt, hp, -⟩ := scan_some hi
    have hlt' : i < s.size := by omega
    rw [hi] at h
    simp only at h
    set e := s.entries.cell i
    have heok : e.Ok := hok _ (Pmm.mem_frags hlt')
    have hp' : w64 (slotOf e + 2097152) ≤ w64 (e.base + w64 (e.size * 4096)) := by
      simpa [hasSlot] using hp
    obtain ⟨hd, hlead, hroom⟩ := slotOf_bounds heok hp'
    have hb := heok.2
    have hw : w64 (slotOf e + 2097152) = slotOf e + 2097152 := w64_of_lt (by omega)
    have hsplit := Table.seg_split s.entries hlt'
    by_cases hbase : slotOf e = e.base
    · rw [if_neg (not_not.mpr hbase)] at h
      have h' : some ({ s.setOrDrop i ⟨w64 (slotOf e + 2097152), sub64 e.size (0 + 512)⟩ with
          freepages := sub64 s.freepages 512 }, slotOf e) = some (s', b) := h
      rw [hw, Nat.zero_add, sub64_of_le (by omega) (by omega), Option.some.injEq,
        Prod.mk.injEq] at h'
      obtain ⟨rfl, rfl⟩ := h'
      refine ⟨i, _, e, _, ⟨rfl, rfl⟩, hsplit, rfl, hd, hlead, hroom, ?_, rfl⟩
      rw [Pmm.frags_freepages, Pmm.frags_setOrDrop s hlt']
      unfold cutSlot
      have e0 : e.size - 512 = 0 ↔ e.size = 512 := by omega
      simp only [hbase, e0, if_true]
    · rw [if_pos hbase] at h
      by_cases hr : s.Room s.size
      · rw [if_neg (not_not.mpr hr)] at h
        have hc : sub64 (slotOf e) e.base / 4096 = slotLead e := by
          rw [sub64_of_le (by omega) (by omega)]; rfl
        rw [hc] at h
        -- the doubled table: entry `i` keeps the lead, entry `i+1` the whole fragment
        set t := s.entries.up s.size (s.size - i) with ht
        have hti : t.cell i = e := Table.up_cell_out _ _ _ _ (by omega) (by omega)
        have hti1 : t.cell (i+1) = e := by
          rw [ht, Table.up_cell_in _ _ _ _ (by omega) (by omega) (by omega), Nat.add_sub_cancel]
        set t1 := t.put i ({ t.cell i with size := slotLead e } : Entry) with ht1
        have h1i : t1.cell i = ⟨e.base, slotLead e⟩ := by rw [ht1, Table.put_cell_self, hti]
        have h1i1 : t1.cell (i+1) = e := by
          rw [ht1, Table.put_cell_of_ne _ _ (by omega), hti1]
        have hlen : s.size + 1 - 1 - i = (s.size - 1 - i) + 1 := by omega
        have hl : t1.seg 0 i = s.entries.seg 0 i := by
          rw [ht1, Table.seg_put_out _ _ (Or.inr (by omega))]
          exact Table.seg_congr (fun j _ h2 => Table.up_cell_out _ _ _ _ (by omega) (by omega))
        have hrr : t1.seg (i+1+1) (s.size - 1 - i) = s.entries.seg (i+1) (s.size - 1 - i) := by
          rw [ht1, Table.seg_put_out _ _ (Or.inl (by omega))]
          exact Table.seg_shift (fun m h1 h2 => by
            rw [ht, Table.up_cell_in _ _ _ _ (by omega) (by omega) (by omega), Nat.add_sub_cancel])
        unfold takeSlot at h
        simp only [h1i1, hw] at h
        rw [sub64_of_le hroom (by omega), Option.some.injEq, Prod.mk.injEq] at h
        obtain ⟨rfl, rfl⟩ := h
        set e2 : Entry := ⟨slotOf e + 2097152, e.size - (slotLead e + 512)⟩ with he2
        have hput : (t1.put (i+1) e2).seg 0 (s.size + 1)
            = s.entries.seg 0 i ++ ⟨e.base, slotLead e⟩ :: e2 :: s.entries.seg (i+1) (s.size - 1 - i) := by
          rw [Table.seg_split _ (show i < s.size + 1 by omega), hlen, Table.seg_succ,
            Table.seg_put_out _ _ (Or.inr (by omega)), hl, Table.put_cell_of_ne _ _ (by omega), h1i,
            Table.put_cell_self, Table.seg_put_out _ _ (Or.inl (by omega)), hrr]
        refine ⟨i, _, e, _, ⟨rfl, rfl⟩, hsplit, rfl, hd, hlead, hroom, ?_, ?_⟩
        · unfold cutSlot
          rw [if_neg hbase]
          by_cases h0 : e.size = slotLead e + 512
          · have h0' : e.size - (slotLead e + 512) = 0 := by omega
            have h2 : e2 = ⟨slotOf e + 2097152, 0⟩ := by rw [he2, h0']
            rw [if_pos h0', if_pos h0]
            show Table.seg _ 0 (s.size + 1 - 1) = _
            rw [Table.seg_remove _ (show i < s.size + 1 by omega), hlen, Table.seg_succ,
              Table.seg_put_out _ _ (Or.inr (by omega)), hl, Table.put_cell_self,
              Table.seg_put_out _ _ (Or.inl (by omega)), hrr, h2, List.singleton_append]
          · rw [if_neg (by omega), if_neg h0]
            show Table.seg _ 0 (s.size + 1) = _
            rw [hput]; rfl
        · split <;> rfl
      · rw [if_pos hr] at h; exact absurd h (by simp)

theorem pmmFree_spec {s : Pmm} {base n : Nat} (hok : ∀ e ∈ s.frags, e.Ok)
    (hb : base + n * 4096 ≤ 2^52) :
    (pmmFree s base n).freepages = w64 (s.freepages + n) ∧
    ((pmmFree s base n).frags = s.frags ++ [⟨base, n⟩] ∨
      ∃ l e r e', s.frags = l ++ e :: r ∧ (pmmFree s base n).frags = l ++ e' :: r ∧
        ((e.base = base + n * 4096 ∧ e' = ⟨base, e.size + n⟩) ∨
          (e.base + e.size * 4096 = base ∧ e' = ⟨e.base, e.size + n⟩))) := by
  have hlen : w64 (base + w64 (n * 4096)) = base + n * 4096 := by
    rw [w64_of_lt (show n * 4096 < 2^64 by omega), w64_of_lt (by omega)]
  unfold pmmFree
  cases hi : scan (fun i => before s base n i || behind s base i) 0 s.size with
  | none =>
    refine ⟨rfl, Or.inl ?_⟩
    show Table.seg _ 0 (s.size + 1) = _
    rw [Table.seg_append, Nat.zero_add, Table.seg_succ, Table.seg_zero, Table.put_cell_self,
      Table.seg_put_out _ _ (Or.inr (by omega)), w64_of_lt (show n < 2^64 by omega)]
    rfl
  | some i =>
    obtain ⟨-, hlt, hp, -⟩ := scan_some hi
    have hlt' : i < s.size := by omega
    obtain ⟨-, hb'⟩ := hok _ (Pmm.mem_frags hlt')
    have hsum : w64 ((s.entries.cell i).size + n) = (s.entries.cell i).size + n :=
      w64_of_lt (by omega)
    have hput : ∀ e' : Entry, (s.entries.put i e').seg 0 s.size
        = s.entries.seg 0 i ++ e' :: s.entries.seg (i+1) (s.size - 1 - i) := by
      intro e'
      rw [Table.seg_split _ hlt', Table.put_cell_self, Table.seg_put_out _ _ (Or.inr (by omega)),
        Table.seg_put_out _ _ (Or.inl (by omega))]
    simp only [hsum, true_and]
    by_cases hbef : before s base n i = true
    · rw [if_pos hbef]
      refine Or.inr ⟨_, _, _, _, Table.seg_split _ hlt', hput _, Or.inl ⟨?_, rfl⟩⟩
      simpa [before, hlen] using hbef
    · rw [if_neg hbef]
      refine Or.inr ⟨_, _, _, _, Table.seg_split _ hlt', hput _, Or.inr ⟨?_, rfl⟩⟩
      have hbeh : behind s base i = true := by simpa [hbef] using hp
      have h2 : w64 ((s.entries.cell i).base + w64 ((s.entries.cell i).size * 4096)) = base := by
        simpa [behind] using hbeh
      rwa [w64_of_lt (show (s.entries.cell i).size * 4096 < 2^64 by omega),
        w64_of_lt (by omega)] at h2

end OsZ
