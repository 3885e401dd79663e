import OsZ.Elf.Link

/-!
# What the run-time linker leaves in memory

* `RelocsDone`            every relocation with a symbol holds the address of its first definition, and every
                      other one was increased by the load address;
* `handled`           the relocations up to the one that finds the table full;
* `LinkOk`            the others are right already, and a PLT entry without a symbol gets the right value
                      by chance;
* `elf_rtlink_iff`    for well-formed objects `RelocsDone` holds if and only if `LinkOk` does;
* `elfRtlink_drops`   513 PLT entries.
-/

namespace OsZ

/-! ## statement -/

structure WellFormed (g : TextSeg) (exports : Nat → Nat → (Nat → Nat) → Nat → Nat) : Prop where
  names : ∀ j o, g.obj j = some o → ∀ i < o.syms, (o.sym i).name ≤ o.strsz
  slots : ((relocs g).map Reloc.slot).Nodup
  placed : ∀ r ∈ relocs g, r.slot ≠ 0
  exported : ∀ r ∈ relocs g, ∀ j i m, exports j i m r.slot = m r.slot

structure RelocsDone (g : TextSeg) (mem mem' : Nat → Nat) : Prop where
  symbolic : ∀ r ∈ relocs g, r.name ≠ [] → firstDef (defs g) r.name = some (mem' r.slot)
  plain : ∀ r ∈ relocs g, r.name = [] → mem' r.slot = w64 (mem r.slot + loadAddress r.page)

def Reloc.recorded (r : Reloc) : Bool := decide (r.name ≠ []) || r.plt

/-- the relocations that are reached before the table is full, from `n` entries on -/
def handled : Nat → List Reloc → List Reloc
  | _, [] => []
  | n, r :: l => if relaMax ≤ n then [] else r :: handled (if r.recorded = true then n + 1 else n) l

structure LinkOk (g : TextSeg) (mem : Nat → Nat) : Prop where
  dropped : ∀ r ∈ relocs g, r ∉ handled 0 (relocs g) →
    r.name ≠ [] ∧ firstDef (defs g) r.name = some (mem r.slot)
  plt : ∀ r ∈ handled 0 (relocs g), r.plt = true → r.name = [] →
    firstDef (defs g) [] = some (w64 (mem r.slot + loadAddress r.page))

/-! ## collecting -/

section
variable {g : TextSeg} {st : LinkState} {n a : Nat} {l : List Reloc} {r : Reloc} {mem mem' : Nat → Nat}
  {exports : Nat → Nat → (Nat → Nat) → Nat → Nat} {ds : List SymDef} {d : SymDef} {name : List UInt8}
  {rs : List RelaT} {m : Nat → Nat}

def Reloc.entry (r : Reloc) : RelaT := ⟨r.slot, r.name⟩

theorem handled_sublist (n : Nat) (l : List Reloc) : (handled n l).Sublist l := by
  induction l generalizing n with
  | nil => exact List.Sublist.refl _
  | cons r l ih =>
    rw [handled]
    split
    · exact List.nil_sublist _
    · exact (ih _).cons_cons r

theorem recorded_iff : r.recorded = true ↔ r.name ≠ [] ∨ r.plt = true := by
  unfold Reloc.recorded
  rw [Bool.or_eq_true, decide_eq_true_eq]

theorem relocEntry_full (h : relaMax ≤ st.relas.length) : relocEntry st r = st := if_pos h

theorem relocEntry_recorded (h : ¬ relaMax ≤ st.relas.length) (hr : r.recorded = true) :
    relocEntry st r = st.record r.slot r.name := by
  unfold relocEntry
  rw [if_neg h, if_pos (recorded_iff.mp hr)]

theorem relocEntry_plain (h : ¬ relaMax ≤ st.relas.length) (hr : ¬ r.recorded = true) :
    relocEntry st r = st.rebase r.slot (loadAddress r.page) := by
  unfold relocEntry
  rw [if_neg h, if_neg (fun hc => hr (recorded_iff.mpr hc))]

theorem handled_full (h : relaMax ≤ n) (l : List Reloc) : handled n l = [] := by
  cases l with
  | nil => rfl
  | cons r l => rw [handled, if_pos h]

theorem collect_relas (l : List Reloc) (st : LinkState) :
    (l.foldl relocEntry st).relas
      = st.relas ++ ((handled st.relas.length l).filter Reloc.recorded).map Reloc.entry := by
  induction l generalizing st with
  | nil => simp [handled]
  | cons r l ih =>
    rw [List.foldl_cons, ih, handled]
    by_cases hfull : relaMax ≤ st.relas.length
    · rw [relocEntry_full hfull, if_pos hfull, handled_full hfull]
    · rw [if_neg hfull]
      by_cases hr : r.recorded = true
      · rw [relocEntry_recorded hfull hr, if_pos hr, List.filter_cons, if_pos hr]
        simp [LinkState.record, Reloc.entry]
      · rw [relocEntry_plain hfull hr, if_neg hr, List.filter_cons, if_neg hr]
        rfl

theorem collect_mem (l : List Reloc) (st : LinkState) (hnodup : (l.map Reloc.slot).Nodup) :
    (∀ r ∈ handled st.relas.length l, r.recorded = false →
      (l.foldl relocEntry st).mem r.slot = w64 (st.mem r.slot + loadAddress r.page)) ∧
    ∀ a, (∀ r ∈ handled st.relas.length l, r.recorded = false → r.slot ≠ a) →
      (l.foldl relocEntry st).mem a = st.mem a := by
  induction l generalizing st with
  | nil => exact ⟨fun r hr => absurd hr (by simp [handled]), fun a _ => rfl⟩
  | cons r l ih =>
    rw [List.map_cons, List.nodup_cons] at hnodup
    rw [List.foldl_cons, handled]
    by_cases hfull : relaMax ≤ st.relas.length
    · have hih := ih st hnodup.2
      rw [handled_full hfull] at hih
      rw [relocEntry_full hfull, if_pos hfull]
      exact hih
    · rw [if_neg hfull]
      by_cases hr : r.recorded = true
      · rw [relocEntry_recorded hfull hr, if_pos hr]
        obtain ⟨h1, h2⟩ := ih (st.record r.slot r.name) hnodup.2
        have hlen : (st.record r.slot r.name).relas.length = st.relas.length + 1 := by simp [LinkState.record]
        rw [hlen] at h1 h2
        refine ⟨fun r' hr' hrec => ?_, fun a ha => ?_⟩
        · rcases List.mem_cons.mp hr' with rfl | hr'
          · rw [hr] at hrec
            cases hrec
          · exact h1 r' hr' hrec
        · exact h2 a (fun r' hr' => ha r' (List.mem_cons_of_mem _ hr'))
      · rw [relocEntry_plain hfull hr, if_neg hr]
        obtain ⟨h1, h2⟩ := ih (st.rebase r.slot (loadAddress r.page)) hnodup.2
        have hlen : (st.rebase r.slot (loadAddress r.page)).relas.length = st.relas.length := rfl
        rw [hlen] at h1 h2
        -- the places of the others are different
        have hne : ∀ r' ∈ handled st.relas.length l, r'.slot ≠ r.slot := by
          intro r' hr' he
          exact hnodup.1 (he ▸ List.mem_map_of_mem ((handled_sublist _ _).subset hr'))
        refine ⟨fun r' hr' hrec => ?_, fun a ha => ?_⟩
        · rcases List.mem_cons.mp hr' with rfl | hr'
          · rw [h2 r'.slot (fun r' hr' _ => hne r' hr')]
            exact Function.update_self _ _ _
          · rw [h1 r' hr' hrec]
            unfold LinkState.rebase
            dsimp only
            rw [Function.update_of_ne (hne r' hr')]
        · rw [h2 a (fun r' hr' => ha r' (List.mem_cons_of_mem _ hr'))]
          have har : a ≠ r.slot := (ha r List.mem_cons_self (Bool.eq_false_iff.mpr hr)).symm
          exact Function.update_of_ne har _ _

/-! ## resolving -/

/-- the entry for `name` is done -/
def closed (name : List UInt8) (r : RelaT) : RelaT := if r.offs ≠ 0 ∧ r.sym = name then ⟨0, r.sym⟩ else r

theorem matchRelas_relas (offs : Nat) (name : List UInt8) (m : Nat → Nat) (rs : List RelaT) :
    (matchRelas offs name m rs).2 = rs.map (closed name) := by
  induction rs generalizing m with
  | nil => rfl
  | cons r rs ih =>
    rw [matchRelas, List.map_cons]
    unfold closed
    split
    · dsimp only
      rw [ih]
      rfl
    · dsimp only
      rw [ih]
      rfl

theorem matchRelas_mem (offs : Nat) (name : List UInt8) (m : Nat → Nat) (rs : List RelaT) :
    ∀ a, (matchRelas offs name m rs).1 a
      = if ∃ r ∈ rs, r.offs ≠ 0 ∧ r.sym = name ∧ r.offs = a then offs else m a := by
  induction rs generalizing m with
  | nil =>
    intro a
    rw [if_neg (by simp)]
    rfl
  | cons r rs ih =>
    intro a
    rw [matchRelas]
    by_cases hr : r.offs ≠ 0 ∧ r.sym = name
    · rw [if_pos hr]
      dsimp only
      rw [ih]
      by_cases ha : ∃ r ∈ rs, r.offs ≠ 0 ∧ r.sym = name ∧ r.offs = a
      · obtain ⟨r', hr', h'⟩ := ha
        rw [if_pos ⟨r', hr', h'⟩, if_pos ⟨r', List.mem_cons_of_mem _ hr', h'⟩]
      · rw [if_neg ha]
        by_cases he : r.offs = a
        · rw [if_pos ⟨r, List.mem_cons_self, hr.1, hr.2, he⟩, ← he, Function.update_self]
        · rw [Function.update_of_ne (Ne.symm he), if_neg ?_]
          rintro ⟨r', hr', h'⟩
          rcases List.mem_cons.mp hr' with rfl | hr'
          · exact he h'.2.2
          · exact ha ⟨r', hr', h'⟩
    · rw [if_neg hr]
      dsimp only
      rw [ih]
      refine if_congr ⟨?_, ?_⟩ rfl rfl
      · rintro ⟨r', hr', h'⟩
        exact ⟨r', List.mem_cons_of_mem _ hr', h'⟩
      · rintro ⟨r', hr', h'⟩
        rcases List.mem_cons.mp hr' with rfl | hr'
        · exact absurd ⟨h'.1, h'.2.1⟩ hr
        · exact ⟨r', hr', h'⟩

theorem firstDef_append (ds : List SymDef) (d : SymDef) (name : List UInt8) :
    firstDef (ds ++ [d]) name
      = (firstDef ds name).or (if d.name = name then some d.addr else none) := by
  unfold firstDef
  rw [List.find?_append]
  cases ds.find? (fun d => decide (d.name = name)) with
  | some d' => rfl
  | none =>
    by_cases h : d.name = name
    · simp [h]
    · simp [h]

/-- the table and the memory after the definitions `ds`; `rs` is the table before and `S` are the places
of all relocations -/
structure Resolved (S : Nat → Prop) (rs : List RelaT) (m : Nat → Nat) (ds : List SymDef) (st : LinkState) :
    Prop where
  relas : st.relas = rs.map (fun r => if (firstDef ds r.sym).isSome = true then ⟨0, r.sym⟩ else r)
  mem : ∀ r ∈ rs, st.mem r.offs = (firstDef ds r.sym).getD (m r.offs)
  rest : ∀ a, S a → (∀ r ∈ rs, r.offs ≠ a) → st.mem a = m a

theorem Resolved.step {S : Nat → Prop} (h : Resolved S rs m ds st) (hS : ∀ r ∈ rs, S r.offs ∧ r.offs ≠ 0)
    (hnodup : (rs.map RelaT.offs).Nodup) (hexp : ∀ a, S a → ∀ j i m, exports j i m a = m a) :
    Resolved S rs m (ds ++ [d]) (defEntry exports st d) := by
  -- the open entries of the table are those of `rs` without a definition in `ds`
  have hopen : ∀ a, (∃ r ∈ st.relas, r.offs ≠ 0 ∧ r.sym = d.name ∧ r.offs = a) ↔
      ∃ r ∈ rs, firstDef ds r.sym = none ∧ r.sym = d.name ∧ r.offs = a := by
    intro a
    rw [h.relas]
    constructor
    · rintro ⟨x, hx, h0, hname, ha⟩
      obtain ⟨r, hr, rfl⟩ := List.mem_map.mp hx
      by_cases hd : (firstDef ds r.sym).isSome = true
      · rw [if_pos hd] at h0
        exact absurd rfl h0
      · rw [if_neg hd] at hname ha
        exact ⟨r, hr, by simpa using hd, hname, ha⟩
    · rintro ⟨r, hr, hd, hname, ha⟩
      refine ⟨r, List.mem_map.mpr ⟨r, hr, by rw [if_neg (by rw [hd]; decide)]⟩, (hS r hr).2, hname, ha⟩
  have hmem : ∀ a, S a → (defEntry exports st d).mem a
      = if ∃ r ∈ rs, firstDef ds r.sym = none ∧ r.sym = d.name ∧ r.offs = a then d.addr else st.mem a := by
    intro a ha
    unfold defEntry
    dsimp only
    rw [matchRelas_mem, hexp a ha]
    exact if_congr (hopen a) rfl rfl
  refine ⟨?_, fun r hr => ?_, fun a ha hno => ?_⟩
  · unfold defEntry
    dsimp only
    rw [matchRelas_relas, h.relas, List.map_map]
    apply List.map_congr_left
    intro r hr
    rw [Function.comp_apply, firstDef_append]
    cases hd : firstDef ds r.sym with
    | some x => simp [closed]
    | none =>
      unfold closed
      by_cases hname : d.name = r.sym
      · simp [hname, (hS r hr).2]
      · simp [hname, Ne.symm hname]
  · rw [hmem _ (hS r hr).1, firstDef_append]
    cases hd : firstDef ds r.sym with
    | some x =>
      rw [if_neg ?_, h.mem r hr, hd]
      · rfl
      rintro ⟨r', hr', hd', -, he⟩
      have hsame : r' = r := List.inj_on_of_nodup_map hnodup hr' hr he
      rw [hsame, hd] at hd'
      cases hd'
    | none =>
      by_cases hname : d.name = r.sym
      · rw [if_pos ⟨r, hr, hd, hname.symm, rfl⟩, if_pos hname]
        rfl
      · rw [if_neg ?_, h.mem r hr, hd, if_neg hname]
        · rfl
        rintro ⟨r', hr', -, hname', he⟩
        have hsame : r' = r := List.inj_on_of_nodup_map hnodup hr' hr he
        rw [hsame] at hname'
        exact hname hname'.symm
  · rw [hmem a ha, if_neg ?_]
    · exact h.rest a ha hno
    rintro ⟨r, hr, -, -, he⟩
    exact hno r hr he

theorem resolved_all {S : Nat → Prop} (hS : ∀ r ∈ rs, S r.offs ∧ r.offs ≠ 0)
    (hnodup : (rs.map RelaT.offs).Nodup) (hexp : ∀ a, S a → ∀ j i m, exports j i m a = m a) (ds : List SymDef) :
    Resolved S rs m ds (ds.foldl (defEntry exports) ⟨m, rs⟩) := by
  induction ds using List.reverseRecOn with
  | nil =>
    refine ⟨?_, fun r _ => rfl, fun a _ _ => rfl⟩
    simp [firstDef]
  | append_singleton ds d ih =>
    rw [List.foldl_append, List.foldl_cons, List.foldl_nil]
    exact ih.step hS hnodup hexp

/-! ## the linker -/

def table (l : List Reloc) : List RelaT := ((handled 0 l).filter Reloc.recorded).map Reloc.entry

theorem mem_table {x : RelaT} : x ∈ table l ↔ ∃ r ∈ handled 0 l, r.recorded = true ∧ r.entry = x := by
  unfold table
  rw [List.mem_map]
  constructor
  · rintro ⟨r, hr, he⟩
    obtain ⟨h1, h2⟩ := List.mem_filter.mp hr
    exact ⟨r, h1, h2, he⟩
  · rintro ⟨r, hr, h1, h2⟩
    exact ⟨r, List.mem_filter.mpr ⟨hr, h1⟩, h2⟩

section
variable (hnodup : (l.map Reloc.slot).Nodup) (hplaced : ∀ r ∈ l, r.slot ≠ 0)
  (hexp : ∀ r ∈ l, ∀ j i m, exports j i m r.slot = m r.slot)
include hnodup hplaced hexp

theorem both_resolved (mem : Nat → Nat) (ds : List SymDef) :
    Resolved (fun a => ∃ r ∈ l, r.slot = a) (table l) (l.foldl relocEntry ⟨mem, []⟩).mem ds
      (ds.foldl (defEntry exports) (l.foldl relocEntry ⟨mem, []⟩)) := by
  have hsub := (handled_sublist 0 l).subset
  obtain ⟨c, hc⟩ : ∃ c, c = l.foldl relocEntry ⟨mem, []⟩ := ⟨_, rfl⟩
  have htable : c.relas = table l := by
    rw [hc, collect_relas]
    rfl
  have hS : ∀ x ∈ table l, (∃ r ∈ l, r.slot = x.offs) ∧ x.offs ≠ 0 := by
    intro x hx
    obtain ⟨r, hr, -, rfl⟩ := mem_table.mp hx
    exact ⟨⟨r, hsub hr, rfl⟩, hplaced r (hsub hr)⟩
  have htnodup : ((table l).map RelaT.offs).Nodup := by
    have he : (table l).map RelaT.offs = ((handled 0 l).filter Reloc.recorded).map Reloc.slot := by
      unfold table
      rw [List.map_map]
      rfl
    rw [he]
    exact hnodup.sublist ((List.filter_sublist.trans (handled_sublist 0 l)).map _)
  have hexp' : ∀ a, (∃ r ∈ l, r.slot = a) → ∀ j i m, exports j i m a = m a := by
    rintro a ⟨r, hr, rfl⟩
    exact hexp r hr
  have hall := resolved_all (m := c.mem) hS htnodup hexp' ds
  rw [← hc]
  rw [← htable] at hall ⊢
  exact hall

theorem both_loops (hst : st = ds.foldl (defEntry exports) (l.foldl relocEntry ⟨mem, []⟩))
    (hclosed : ∀ x ∈ st.relas, x.offs = 0) (hr : r ∈ l) :
    (r ∈ handled 0 l → r.recorded = true → firstDef ds r.name = some (st.mem r.slot)) ∧
    (r ∈ handled 0 l → r.recorded = false → st.mem r.slot = w64 (mem r.slot + loadAddress r.page)) ∧
    (r ∉ handled 0 l → st.mem r.slot = mem r.slot) := by
  have hsub := (handled_sublist 0 l).subset
  have hinj : ∀ r' ∈ l, r'.slot = r.slot → r' = r := fun r' hr' he => List.inj_on_of_nodup_map hnodup hr' hr he
  have hres := both_resolved hnodup hplaced hexp mem ds
  obtain ⟨hplain, hkeep⟩ := collect_mem l ⟨mem, []⟩ hnodup
  rw [← hst] at hres
  have hdone : ∀ x ∈ table l, (firstDef ds x.sym).isSome = true := by
    intro x hx
    obtain ⟨r, hr, -, rfl⟩ := mem_table.mp hx
    by_contra hnone
    apply hplaced r (hsub hr)
    apply hclosed r.entry
    rw [hres.relas]
    exact List.mem_map.mpr ⟨r.entry, hx, if_neg hnone⟩
  -- a relocation that is not in the table
  have hother : ¬ (r ∈ handled 0 l ∧ r.recorded = true) →
      st.mem r.slot = (l.foldl relocEntry ⟨mem, []⟩).mem r.slot := by
    intro hno
    refine hres.rest r.slot ⟨r, hr, rfl⟩ ?_
    intro x hx he
    obtain ⟨r', hr', hrec, rfl⟩ := mem_table.mp hx
    have hsame : r' = r := hinj r' (hsub hr') he
    rw [hsame] at hr' hrec
    exact hno ⟨hr', hrec⟩
  refine ⟨fun hh hrec => ?_, fun hh hrec => ?_, fun hh => ?_⟩
  · have hx : r.entry ∈ table l := mem_table.mpr ⟨r, hh, hrec, rfl⟩
    have hval : st.mem r.slot = (firstDef ds r.name).getD _ := hres.mem _ hx
    obtain ⟨v, hv⟩ := Option.isSome_iff_exists.mp (hdone _ hx)
    have hv' : firstDef ds r.name = some v := hv
    rw [hval, hv', Option.getD_some]
  · rw [hother (fun hc => by rw [hrec] at hc; cases hc.2)]
    exact hplain r hh hrec
  · rw [hother (fun hc => hh hc.1)]
    refine hkeep r.slot (fun r' hr' _ he => ?_)
    rw [hinj r' (hsub hr') he] at hr'
    exact hh hr'

end

theorem both_eq (h : WellFormed g exports) : resolve exports g (collect g mem)
    = (defs g).foldl (defEntry exports) ((relocs g).foldl relocEntry ⟨mem, []⟩) := by
  rw [resolve_eq g _ h.names, collect_eq]

theorem elfRtlink_returns {o : ElfObj} (h : WellFormed g exports) (h0 : g.obj 0 = some o) (he : o.entry = true)
    (hdef : ∀ r ∈ handled 0 (relocs g), r.recorded = true → (firstDef (defs g) r.name).isSome = true) :
    ∃ mem', elfRtlink exports g mem = some mem' := by
  have hres := both_resolved h.slots h.placed h.exported mem (defs g)
  rw [← both_eq h] at hres
  have hclosed : ¬ (resolve exports g (collect g mem)).relas.any (fun r => decide (r.offs ≠ 0)) = true := by
    intro hany
    obtain ⟨x, hx, hne⟩ := List.any_eq_true.mp hany
    rw [hres.relas] at hx
    obtain ⟨y, hy, rfl⟩ := List.mem_map.mp hx
    obtain ⟨r, hr, hrec, rfl⟩ := mem_table.mp hy
    have hsome : (firstDef (defs g) r.entry.sym).isSome = true := hdef r hr hrec
    rw [if_pos hsome] at hne
    exact of_decide_eq_true hne rfl
  unfold elfRtlink
  dsimp only
  rw [if_neg hclosed, h0]
  dsimp only
  rw [he]
  exact ⟨_, rfl⟩

theorem elfRtlink_result (h : WellFormed g exports) (hret : elfRtlink exports g mem = some mem')
    (hr : r ∈ relocs g) :
    (r ∈ handled 0 (relocs g) → r.recorded = true → firstDef (defs g) r.name = some (mem' r.slot)) ∧
    (r ∈ handled 0 (relocs g) → r.recorded = false → mem' r.slot = w64 (mem r.slot + loadAddress r.page)) ∧
    (r ∉ handled 0 (relocs g) → mem' r.slot = mem r.slot) := by
  unfold elfRtlink at hret
  dsimp only at hret
  split at hret
  · cases hret
  next hopen =>
  have hmem' : mem' = (resolve exports g (collect g mem)).mem := by
    split at hret
    · cases hret
    · split at hret
      · cases hret
      · exact (Option.some.inj hret).symm
  have hclosed : ∀ x ∈ (resolve exports g (collect g mem)).relas, x.offs = 0 := by
    intro x hx
    by_contra hne
    exact hopen (List.any_eq_true.mpr ⟨x, hx, decide_eq_true hne⟩)
  rw [hmem']
  exact both_loops h.slots h.placed h.exported (both_eq h) hclosed hr

end

theorem loadAddress_ne {j : Nat} (hj : j < 512) (v : Nat) : v ≠ w64 (v + loadAddress j) := by
  unfold loadAddress textAddress w64
  omega

theorem relocsOf_page {g : TextSeg} {r : Reloc} {l : List Nat}
    (h : r ∈ l.flatMap (fun j => (g.obj j).elim [] (relocsOf g j))) : r.page ∈ l := by
  obtain ⟨j, hj, hr⟩ := List.mem_flatMap.mp h
  cases ho : g.obj j with
  | none =>
    rw [ho] at hr
    cases hr
  | some o =>
    rw [ho, Option.elim_some, relocsOf, List.mem_append] at hr
    rcases hr with hr | hr
    · obtain ⟨i, -, rfl⟩ := List.mem_map.mp hr
      exact hj
    · obtain ⟨i, -, rfl⟩ := List.mem_map.mp hr
      exact hj

theorem relocs_page {g : TextSeg} {r : Reloc} (h : r ∈ relocs g) : r.page < 512 := by
  unfold relocs at h
  exact List.mem_range.mp (relocsOf_page h)

/-- for every set of well-formed objects, when the linker returns -/
theorem elf_rtlink_iff {g : TextSeg} {exports : Nat → Nat → (Nat → Nat) → Nat → Nat} {mem mem' : Nat → Nat}
    (h : WellFormed g exports) (hret : elfRtlink exports g mem = some mem') :
    RelocsDone g mem mem' ↔ LinkOk g mem := by
  constructor
  · intro hl
    refine ⟨fun r hr hdrop => ?_, fun r hr hplt hname => ?_⟩
    · have hkeep := (elfRtlink_result h hret hr).2.2 hdrop
      have hname : r.name ≠ [] := by
        intro hempty
        have hplain := hl.plain r hr hempty
        rw [hkeep] at hplain
        exact loadAddress_ne (relocs_page hr) _ hplain
      refine ⟨hname, ?_⟩
      rw [← hkeep]
      exact hl.symbolic r hr hname
    · have hr' := (handled_sublist 0 (relocs g)).subset hr
      have hdef := (elfRtlink_result h hret hr').1 hr (recorded_iff.mpr (Or.inr hplt))
      rw [hname, hl.plain r hr' hname] at hdef
      exact hdef
  · intro hok
    refine ⟨fun r hr hname => ?_, fun r hr hname => ?_⟩
    · obtain ⟨hrec, -, hdrop⟩ := elfRtlink_result h hret hr
      by_cases hh : r ∈ handled 0 (relocs g)
      · exact hrec hh (recorded_iff.mpr (Or.inl hname))
      · rw [hdrop hh]
        exact (hok.dropped r hr hh).2
    · obtain ⟨hrec, hplain, -⟩ := elfRtlink_result h hret hr
      by_cases hh : r ∈ handled 0 (relocs g)
      · cases hplt : r.plt with
        | false =>
          refine hplain hh ?_
          unfold Reloc.recorded
          rw [hplt, Bool.or_false]
          exact decide_eq_false (fun hne => hne hname)
        | true =>
          have hdef := hrec hh (recorded_iff.mpr (Or.inr hplt))
          rw [hname, hok.plt r hh hplt hname] at hdef
          exact (Option.some.inj hdef).symm
      · exact absurd hname (hok.dropped r hr hh).1

/-! ## one object -/

section
variable {g : TextSeg} {o : ElfObj}

theorem flatMap_first {α : Type} {f : Nat → List α} (n : Nat) (h : ∀ j, j ≠ 0 → f j = []) :
    (List.range (n + 1)).flatMap f = f 0 := by
  rw [List.range_succ_eq_map, List.flatMap_cons, List.flatMap_eq_nil_iff.mpr, List.append_nil]
  intro x hx
  obtain ⟨j, -, rfl⟩ := List.mem_map.mp hx
  exact h _ (Nat.succ_ne_zero j)

theorem relocs_first (h0 : g.obj 0 = some o) (h : ∀ j, j ≠ 0 → g.obj j = none) :
    relocs g = relocsOf g 0 o ∧ defs g = defsOf 0 o := by
  unfold relocs defs
  constructor
  · rw [flatMap_first 511 (fun j hj => by rw [h j hj]; rfl), h0, Option.elim_some]
  · rw [flatMap_first 511 (fun j hj => by rw [h j hj]; rfl), h0, Option.elim_some]

theorem handled_take (l : List Reloc) (n : Nat) (h : ∀ r ∈ l, r.recorded = true) :
    handled n l = l.take (relaMax - n) := by
  induction l generalizing n with
  | nil => simp [handled]
  | cons r l ih =>
    rw [handled]
    by_cases hn : relaMax ≤ n
    · rw [if_pos hn, Nat.sub_eq_zero_of_le hn, List.take_zero]
    · rw [if_neg hn, if_pos (h r List.mem_cons_self), ih _ (fun r' hr' => h r' (List.mem_cons_of_mem _ hr')),
        show relaMax - n = (relaMax - (n + 1)) + 1 by omega, List.take_succ_cons]

end

/-- an object with `n` PLT entries for the symbol `f`, which it defines itself -/
def pltObj (n : Nat) : ElfObj where
  dyn := [(2, 24 * n), (5, 48), (6, 0), (10, 3), (11, 24)]
  str := fun i => if i = 1 then [0x66] else []
  sym := fun i => if i = 1 then ⟨1, 0x40⟩ else ⟨0, 0⟩
  rela := fun i => ⟨0x1000 + 8 * i, 2^32 + 7⟩
  relad := fun _ => ⟨0, 0⟩
  entry := true

def pltSeg (n : Nat) : TextSeg := ⟨fun p => 0x100000 + 4096 * p, fun j => if j = 0 then some (pltObj n) else none⟩

section
variable {n : Nat}

def pltReloc (i : Nat) : Reloc := ⟨0, 0x101000 + 8 * i, [0x66], true⟩

theorem pltSeg_phys {i : Nat} (h : i < 1000) : (pltSeg n).phys 0 (0x1000 + 8 * i) = 0x101000 + 8 * i := by
  unfold TextSeg.phys pltSeg pagePhys w64
  dsimp only
  omega

theorem pltSeg_obj (n : Nat) : (pltSeg n).obj 0 = some (pltObj n) := rfl

theorem pltObj_counts (h : n ≤ 1000) : (pltObj n).relads = 0 ∧ (pltObj n).relas = n ∧ (pltObj n).syms = 2 := by
  have h24 : i32 24 = 24 := by decide
  refine ⟨?_, ?_, ?_⟩
  · have e : (pltObj n).relads = (Int.tdiv (i32 0) (i32 24)).toNat := rfl
    rw [e]
    decide
  · have e : (pltObj n).relas = (Int.tdiv (i32 ((24 * n : Nat) : Int)) (i32 24)).toNat := rfl
    have hn : i32 ((24 * n : Nat) : Int) = 24 * (n : Int) := by
      unfold i32
      rw [Int.bmod_eq_of_le (by omega) (by omega)]
      omega
    rw [e, h24, hn, Int.mul_tdiv_cancel_left _ (by decide), Int.toNat_natCast]
  · have e : (pltObj n).syms = (Int.tdiv ((48 : Nat) - (0 : Nat) : Int) (i32 24)).toNat := rfl
    rw [e]
    decide

theorem pltObj_name (n i : Nat) : (pltObj n).relaName ((pltObj n).rela i) = [0x66] := by
  have h1 : (2^32 + 7) / 2^32 = 1 := by decide
  unfold ElfObj.relaName ElfObj.symName pltObj
  dsimp only
  rw [h1]
  rfl

theorem pltSeg_relocs (h : n ≤ 1000) : relocs (pltSeg n) = (List.range n).map pltReloc ∧
    firstDef (defs (pltSeg n)) [0x66] = some 0x200040 := by
  obtain ⟨h1, h2⟩ := relocs_first (pltSeg_obj n) (fun j hj => if_neg hj)
  obtain ⟨hdata, hplt, hsyms⟩ := pltObj_counts h
  rw [h1, h2]
  constructor
  · unfold relocsOf
    rw [hdata, hplt, List.range_zero, List.map_nil, List.nil_append]
    apply List.map_congr_left
    intro i hi
    have hlt := List.mem_range.mp hi
    have hslot : (pltSeg n).phys 0 ((pltObj n).rela i).offset = 0x101000 + 8 * i := pltSeg_phys (by omega)
    rw [pltObj_name, hslot]
    rfl
  · have hfilter : (List.range 2).filter (fun i => decide (((pltObj n).sym i).value ≠ 0)) = [1] := rfl
    have haddr : w64 (((pltObj n).sym 1).value + loadAddress 0) = 0x200040 := by
      change w64 (0x40 + loadAddress 0) = 0x200040
      decide
    have hname : (pltObj n).symName 1 = [0x66] := rfl
    unfold defsOf firstDef
    rw [hsyms, hfilter, List.map_cons, List.map_nil, haddr, hname, List.find?_cons, decide_eq_true rfl]
    rfl

theorem pltSeg_wellFormed (h : n ≤ 1000) : WellFormed (pltSeg n) (fun _ _ m => m) := by
  obtain ⟨hrel, -⟩ := pltSeg_relocs h
  refine ⟨fun j o ho i hi => ?_, ?_, fun r hr => ?_, fun r _ j i m => rfl⟩
  · have hj : j = 0 := by
      by_contra hne
      have hnone : (pltSeg n).obj j = none := if_neg hne
      rw [hnone] at ho
      cases ho
    rw [hj] at ho
    rw [← Option.some.inj ho]
    have hsz : (pltObj n).strsz = 3 := rfl
    rw [hsz]
    change (if i = 1 then (⟨1, 0x40⟩ : ElfSym) else ⟨0, 0⟩).name ≤ 3
    split <;> decide
  · rw [hrel, List.map_map]
    refine List.Nodup.map ?_ List.nodup_range
    intro i j hij
    change 0x101000 + 8 * i = 0x101000 + 8 * j at hij
    omega
  · rw [hrel] at hr
    obtain ⟨i, -, rfl⟩ := List.mem_map.mp hr
    unfold pltReloc
    dsimp only
    omega

theorem pltSeg_handled (h : n ≤ 1000) : handled 0 (relocs (pltSeg n)) = ((List.range n).map pltReloc).take 512 := by
  rw [(pltSeg_relocs h).1, handled_take]
  · rfl
  · intro r hr
    obtain ⟨i, -, rfl⟩ := List.mem_map.mp hr
    rfl

theorem pltSeg_returns (h : n ≤ 1000) (mem : Nat → Nat) :
    ∃ mem', elfRtlink (fun _ _ m => m) (pltSeg n) mem = some mem' := by
  refine elfRtlink_returns (pltSeg_wellFormed h) (pltSeg_obj n) rfl (fun r hr _ => ?_)
  rw [pltSeg_handled h] at hr
  obtain ⟨i, -, rfl⟩ := List.mem_map.mp (List.mem_of_mem_take hr)
  change (firstDef (defs (pltSeg n)) [0x66]).isSome = true
  rw [(pltSeg_relocs h).2]
  rfl

end

theorem elf_rtlink_small : ∃ mem', elfRtlink (fun _ _ m => m) (pltSeg 3) (fun _ => 0) = some mem' ∧
    RelocsDone (pltSeg 3) (fun _ => 0) mem' := by
  obtain ⟨mem', hret⟩ := pltSeg_returns (show 3 ≤ 1000 by decide) (fun _ => 0)
  refine ⟨mem', hret, (elf_rtlink_iff (pltSeg_wellFormed (by decide)) hret).mpr
    ⟨fun r hr hdrop => ?_, fun r hr _ hname => ?_⟩⟩
  · rw [pltSeg_handled (by decide), List.take_of_length_le (by simp), ← (pltSeg_relocs (by decide)).1] at hdrop
    exact absurd hr hdrop
  · rw [pltSeg_handled (by decide)] at hr
    obtain ⟨i, -, rfl⟩ := List.mem_map.mp (List.mem_of_mem_take hr)
    cases hname

/-- the last of 513 entries is not in the table -/
theorem elfRtlink_drops : WellFormed (pltSeg 513) (fun _ _ m => m) ∧
    ∃ mem', elfRtlink (fun _ _ m => m) (pltSeg 513) (fun _ => 0) = some mem' ∧
      ¬ RelocsDone (pltSeg 513) (fun _ => 0) mem' := by
  have hwf := pltSeg_wellFormed (show 513 ≤ 1000 by decide)
  obtain ⟨mem', hret⟩ := pltSeg_returns (show 513 ≤ 1000 by decide) (fun _ => 0)
  obtain ⟨hrel, hdef⟩ := pltSeg_relocs (show 513 ≤ 1000 by decide)
  refine ⟨hwf, mem', hret, fun hl => ?_⟩
  have hmem : pltReloc 512 ∈ relocs (pltSeg 513) := by
    rw [hrel]
    exact List.mem_map_of_mem (List.mem_range.mpr (by decide))
  have hdrop : pltReloc 512 ∉ handled 0 (relocs (pltSeg 513)) := by
    rw [pltSeg_handled (by decide), ← List.map_take, List.take_range]
    intro hin
    obtain ⟨i, hi, he⟩ := List.mem_map.mp hin
    have hlt := List.mem_range.mp hi
    have hslot : 0x101000 + 8 * i = 0x101000 + 8 * 512 := congrArg Reloc.slot he
    omega
  have hsym := hl.symbolic _ hmem (by decide)
  rw [(elfRtlink_result hwf hret hmem).2.2 hdrop] at hsym
  change firstDef (defs (pltSeg 513)) [0x66] = some 0 at hsym
  rw [hdef] at hsym
  cases hsym

end OsZ
