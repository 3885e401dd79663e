import OsZ.Base.Regions
import OsZ.Pmm.Model

/-!
# The table of free memory is made (`pmm_init` in `core/pmm.c`)

The loader hands over a list of areas.  The first pass aligns the areas that are large enough and
takes the pages of the tables from the first of them, the second pass records what is free without
the initrd.

* `pmmInit`       `pmm_init()` up to `pmm.freepages = pmm.totalpages`; `none` is `kpanic`;
* `marked`        the areas, with a mark at the one the tables are taken from;
* `prepare_spec`  an area after the first pass: `start` to `stop`;
* `pmmInit_eq`    the result as one list of fragments, `parts` of each free area.

The entropy pool, the texts for the log and the buffers allocated at the end are left out.
-/

namespace OsZ

/-! ## the program -/

/-- the low four bits of `size` are the type -/
structure MMapEnt where
  ptr : Nat
  size : Nat
deriving DecidableEq, Repr

namespace MMapEnt

/-- `MMapEnt_Size` -/
def len (e : MMapEnt) : Nat := e.size / 16 * 16

/-- `MMapEnt_IsFree`: types 1 (free) and 3 (ACPI, free) -/
def isFree (e : MMapEnt) : Bool := e.size % 16 == 1 || e.size % 16 == 3

/-- free, with `n` pages at least; the number of pages is an `uint` -/
def fits (n : Nat) (e : MMapEnt) : Bool := e.isFree && decide (n ≤ e.len / 4096 % 2^32)

/-- "failsafe, make it page aligned" -/
def align (e : MMapEnt) : MMapEnt :=
  if e.ptr % 4096 ≠ 0 then
    ⟨w64 (e.ptr + 4096) / 4096 * 4096, sub64 e.size ((4096 - e.ptr % 4096) / 16 * 16)⟩
  else e

/-- "preallocate" `n+1` pages -/
def reserve (n : Nat) (e : MMapEnt) : MMapEnt := ⟨w64 (e.ptr + (n + 1) * 4096), sub64 e.size ((n + 1) * 4096)⟩

end MMapEnt

/-- the variables of the first pass: `i`, `m`, the pages mapped for the tables, the areas so far -/
structure FirstPass where
  taken : Bool
  m : Nat
  tables : Nat
  map : List MMapEnt

def firstStep (n : Nat) (r : FirstPass) (e : MMapEnt) : FirstPass :=
  if e.fits n = true then
    let e := e.align
    let top := w64 (e.ptr + e.len)
    let m := if r.m < top then top else r.m
    if r.taken = true then { r with m := m, map := r.map ++ [e] }
    else ⟨true, m, e.ptr, r.map ++ [e.reserve n]⟩
  else { r with map := r.map ++ [e] }

/-- end of the pages of the initrd -/
def initrdEnd (ip iz : Nat) : Nat := w64 (ip + w64 (w64 (iz + 4095) / 4096 * 4096))

/-- what is recorded of a free area, with the initrd at `ip`, `iz` bytes long -/
def parts (ip iz : Nat) (e : MMapEnt) : List Entry :=
  let top := w64 (e.ptr + e.len)
  let ie := initrdEnd ip iz
  if (e.ptr ≤ ip ∧ ip < top) ∨ (e.ptr < ie ∧ ie ≤ top) then
    (if w64 (e.ptr + 4096) < ip then [⟨e.ptr, sub64 ip e.ptr / 4096⟩] else []) ++
      if w64 (ie + 4096) < top then [⟨w64 (ip + iz), sub64 top ie / 4096⟩] else []
  else if e.len / 4096 ≠ 0 then [⟨e.ptr, e.len / 4096⟩] else []

/-- the fragments so far and `pmm.totalpages` -/
def secondStep (ip iz : Nat) (r : List Entry × Nat) (e : MMapEnt) : List Entry × Nat :=
  if e.isFree = true then
    (r.1 ++ parts ip iz e, (parts ip iz e).foldl (fun t f => w64 (t + f.size)) r.2)
  else r

structure PmmInit where
  frags : List Entry
  totalpages : Nat
  /-- physical address of the pages for `mcb` and `pmm.entries` -/
  tables : Nat
deriving DecidableEq, Repr

/-- `magic` is the test of `bootboot.magic`; `PHYMEM_MIN` is 32 -/
def pmmInit (magic : Bool) (map : List MMapEnt) (ip iz nrphymax : Nat) : Option PmmInit :=
  if magic = false ∨ 504 < map.length then none
  else
    let n := if nrphymax < 2 then 2 else nrphymax
    let r := map.foldl (firstStep n) ⟨false, 0, 0, []⟩
    if r.m / 1024 / 1024 < 31 then none
    else
      let t := r.map.foldl (secondStep ip iz) ([], 0)
      some ⟨t.1, t.2, r.tables⟩

/-! ## the areas after the first pass -/

/-- `true` marks the area the tables are taken from -/
def marked (n : Nat) : Bool → List MMapEnt → List (MMapEnt × Bool)
  | _, [] => []
  | taken, e :: es => (e, !taken && e.fits n) :: marked n (taken || e.fits n) es

def prepare (n : Nat) (x : MMapEnt × Bool) : MMapEnt :=
  if x.1.fits n = true then if x.2 = true then x.1.align.reserve n else x.1.align else x.1

section
variable {n ip iz : Nat} {es : List MMapEnt} {e : MMapEnt} {r : FirstPass} {x : MMapEnt × Bool}
  {taken first : Bool}

theorem firstPass_map : (es.foldl (firstStep n) r).map = r.map ++ (marked n r.taken es).map (prepare n) := by
  induction es generalizing r with
  | nil => simp [marked]
  | cons e es ih =>
    rw [List.foldl_cons, ih, marked, List.map_cons]
    unfold firstStep prepare
    by_cases hf : e.fits n = true
    · rw [if_pos hf]
      dsimp only
      rw [if_pos hf]
      cases ht : r.taken with
      | true => simp
      | false => simp [hf]
    · rw [if_neg hf]
      dsimp only
      rw [if_neg hf]
      rw [Bool.not_eq_true] at hf
      simp [hf]

theorem firstPass_nothing (h : ∀ e ∈ es, e.fits n = false) : (es.foldl (firstStep n) r).m = r.m := by
  induction es generalizing r with
  | nil => rfl
  | cons e es ih =>
    rw [List.foldl_cons, ih (fun x hx => h x (List.mem_cons_of_mem _ hx))]
    unfold firstStep
    rw [if_neg (by rw [h e (List.mem_cons_self ..)]; decide)]

theorem firstPass_tables_kept (h : r.taken = true) : (es.foldl (firstStep n) r).tables = r.tables := by
  induction es generalizing r with
  | nil => rfl
  | cons e es ih =>
    have hstep : (firstStep n r e).taken = true ∧ (firstStep n r e).tables = r.tables := by
      unfold firstStep
      by_cases hf : e.fits n = true
      · rw [if_pos hf]
        dsimp only
        rw [if_pos h]
        exact ⟨h, rfl⟩
      · rw [if_neg hf]
        exact ⟨h, rfl⟩
    rw [List.foldl_cons, ih hstep.1, hstep.2]

theorem firstPass_tables (h : r.taken = false) (hx : (e, true) ∈ marked n false es) :
    (es.foldl (firstStep n) r).tables = e.align.ptr := by
  induction es generalizing r with
  | nil => cases hx
  | cons y es ih =>
    rw [marked, List.mem_cons] at hx
    rw [List.foldl_cons]
    by_cases hf : y.fits n = true
    · have hy : e = y := by
        rcases hx with hx | hx
        · exact (Prod.mk.inj hx).1
        · -- behind the first one no area is marked
          have hno : ∀ {l : List MMapEnt}, (e, true) ∉ marked n true l := by
            intro l
            induction l with
            | nil => exact List.not_mem_nil
            | cons z l ihl =>
              rw [marked, List.mem_cons]
              rintro (h1 | h1)
              · simp at h1
              · exact ihl h1
          rw [hf] at hx
          exact absurd hx hno
      have hstep : (firstStep n r y).taken = true ∧ (firstStep n r y).tables = y.align.ptr := by
        unfold firstStep
        rw [if_pos hf]
        dsimp only
        rw [if_neg (by rw [h]; decide)]
        exact ⟨rfl, rfl⟩
      rw [firstPass_tables_kept hstep.1, hstep.2, hy]
    · have hstep : (firstStep n r y).taken = false := by
        unfold firstStep
        rw [if_neg hf]
        exact h
      rw [Bool.not_eq_true] at hf
      rw [hf] at hx
      rcases hx with hx | hx
      · simp at hx
      · exact ih hstep hx

theorem exists_marked (h : ∃ e ∈ es, e.fits n = true) : ∃ e, (e, true) ∈ marked n false es := by
  induction es with
  | nil =>
    obtain ⟨e, he, -⟩ := h
    cases he
  | cons y es ih =>
    by_cases hf : y.fits n = true
    · refine ⟨y, ?_⟩
      rw [marked, hf]
      exact List.mem_cons_self ..
    · obtain ⟨e, he, hfe⟩ := h
      have hes : e ∈ es := by
        rcases List.mem_cons.mp he with rfl | he
        · exact absurd hfe hf
        · exact he
      obtain ⟨e', he'⟩ := ih ⟨e, hes, hfe⟩
      rw [Bool.not_eq_true] at hf
      refine ⟨e', ?_⟩
      rw [marked, hf]
      exact List.mem_cons_of_mem _ he'

theorem marked_fst : (marked n taken es).map Prod.fst = es := by
  induction es generalizing taken with
  | nil => rfl
  | cons y es ih => rw [marked, List.map_cons, ih]

theorem mem_of_marked (h : x ∈ marked n taken es) : x.1 ∈ es := by
  have := List.mem_map_of_mem (f := Prod.fst) h
  rwa [marked_fst] at this

theorem fits_of_marked (h : x ∈ marked n taken es) (hx : x.2 = true) : x.1.fits n = true := by
  induction es generalizing taken with
  | nil => cases h
  | cons y es ih =>
    rw [marked, List.mem_cons] at h
    rcases h with rfl | h
    · rw [Bool.and_eq_true] at hx
      exact hx.2
    · exact ih h

/-! ## one area -/

def MMapEnt.start (n : Nat) (first : Bool) (e : MMapEnt) : Nat :=
  (if e.fits n = true then (e.ptr + 4095) / 4096 * 4096 else e.ptr) + if first = true then (n + 1) * 4096 else 0

/-- its end: an area that is aligned grows to a multiple of 16 -/
def MMapEnt.stop (n : Nat) (e : MMapEnt) : Nat :=
  if e.fits n = true ∧ e.ptr % 4096 ≠ 0 then (e.ptr + e.len + 15) / 16 * 16 else e.ptr + e.len

/-- an area of physical memory, which ends before the last megabyte of the 64 bit addresses -/
structure MMapEnt.Phys (e : MMapEnt) : Prop where
  stop : e.ptr + e.len + 2^20 ≤ 2^64
  size : e.size < 2^64

theorem MMapEnt.fits_len (h : e.fits n = true) : n * 4096 ≤ e.len := by
  unfold MMapEnt.fits at h
  rw [Bool.and_eq_true, decide_eq_true_eq] at h
  omega

theorem MMapEnt.isFree_of_fits (h : e.fits n = true) : e.isFree = true := by
  unfold MMapEnt.fits at h
  rw [Bool.and_eq_true] at h
  exact h.1

theorem MMapEnt.align_spec (h : e.Phys) (hn : 2 ≤ n) (hf : e.fits n = true) :
    e.align.ptr = (e.ptr + 4095) / 4096 * 4096 ∧ e.align.ptr + e.align.len = e.stop n ∧
      e.align.size % 16 = e.size % 16 ∧ e.align.size < 2^64 := by
  have hlen := MMapEnt.fits_len hf
  obtain ⟨hstop, hsize⟩ := h
  unfold MMapEnt.stop MMapEnt.align
  by_cases ha : e.ptr % 4096 ≠ 0
  · rw [if_pos ha, if_pos ⟨hf, ha⟩]
    unfold MMapEnt.len at *
    dsimp only
    have hsub : sub64 e.size ((4096 - e.ptr % 4096) / 16 * 16)
        = e.size - (4096 - e.ptr % 4096) / 16 * 16 := sub64_of_le (by omega) hsize
    rw [hsub, w64_of_lt (by omega)]
    refine ⟨by omega, by omega, by omega, by omega⟩
  · rw [if_neg ha, if_neg (fun h => ha h.2)]
    refine ⟨by omega, rfl, rfl, hsize⟩

theorem MMapEnt.stop_bounds (e : MMapEnt) (n : Nat) :
    e.ptr + e.len ≤ e.stop n ∧ e.stop n ≤ e.ptr + e.len + 15 := by
  unfold MMapEnt.stop
  split <;> omega

theorem MMapEnt.start_of_fits (hf : e.fits n = true) :
    e.start n false = (e.ptr + 4095) / 4096 * 4096 ∧
      e.start n true = (e.ptr + 4095) / 4096 * 4096 + (n + 1) * 4096 := by
  unfold MMapEnt.start
  rw [if_pos hf, if_neg (by decide), if_pos rfl, Nat.add_zero]
  exact ⟨rfl, rfl⟩

/-- a subtraction of whole pages, with its wrap around, leaves the type alone -/
theorem MMapEnt.reserve_spec {f : MMapEnt} (h : f.ptr + f.len + 2^20 ≤ 2^64 + 15) (hsize : f.size < 2^64)
    (hn' : n ≤ 128) :
    (f.reserve n).ptr = f.ptr + (n + 1) * 4096 ∧ (f.reserve n).size % 16 = f.size % 16 ∧
      (f.ptr + (n + 1) * 4096 ≤ f.ptr + f.len →
        (f.reserve n).len = f.ptr + f.len - (f.ptr + (n + 1) * 4096)) ∧
      (f.ptr + f.len < f.ptr + (n + 1) * 4096 →
        (f.reserve n).len = 2^64 - (f.ptr + (n + 1) * 4096 - (f.ptr + f.len))) := by
  obtain ⟨p, z⟩ := f
  unfold MMapEnt.reserve MMapEnt.len at *
  dsimp only at *
  rw [w64_of_lt (show p + (n + 1) * 4096 < 2^64 by omega)]
  by_cases hle : (n + 1) * 4096 ≤ z
  · rw [sub64_of_le hle hsize]
    refine ⟨rfl, by omega, fun _ => by omega, fun _ => by omega⟩
  · have hsub : sub64 z ((n + 1) * 4096) = 2^64 - ((n + 1) * 4096 - z) := by
      unfold sub64
      omega
    rw [hsub]
    refine ⟨rfl, by omega, fun _ => by omega, fun _ => by omega⟩

/-- what the first pass leaves of an area; `len` wraps around when the tables do not fit -/
theorem prepare_spec (h : e.Phys) (hn : 2 ≤ n) (hn' : n ≤ 128) (hm : first = true → e.fits n = true) :
    (prepare n (e, first)).ptr = e.start n first ∧ (prepare n (e, first)).isFree = e.isFree ∧
      (e.start n first ≤ e.stop n → (prepare n (e, first)).len = e.stop n - e.start n first) ∧
      (e.stop n < e.start n first →
        (prepare n (e, first)).len = 2^64 - (e.start n first - e.stop n)) := by
  unfold prepare
  dsimp only
  by_cases hf : e.fits n = true
  · obtain ⟨hp, hs, ht, hlt⟩ := MMapEnt.align_spec h hn hf
    obtain ⟨hb1, hb2⟩ := MMapEnt.stop_bounds e n
    have hstop := h.stop
    obtain ⟨hrest, hfst⟩ := MMapEnt.start_of_fits hf
    rw [← hp] at hrest hfst
    rw [if_pos hf]
    cases first with
    | false =>
      rw [if_neg (by decide), hrest, ← hs]
      unfold MMapEnt.isFree
      rw [ht]
      refine ⟨rfl, rfl, fun _ => by omega, fun _ => by omega⟩
    | true =>
      obtain ⟨h1, h2, h3, h4⟩ := MMapEnt.reserve_spec (f := e.align) (by omega) hlt hn'
      rw [if_pos rfl, hfst, ← hs]
      refine ⟨h1, ?_, h3, h4⟩
      unfold MMapEnt.isFree
      rw [h2, ht]
  · have hfirst : first = false := by
      cases first with
      | false => rfl
      | true => exact absurd (hm rfl) hf
    have hstart : e.start n first = e.ptr := by
      unfold MMapEnt.start
      rw [if_neg hf, hfirst]
      rfl
    have hstop : e.stop n = e.ptr + e.len := by
      unfold MMapEnt.stop
      rw [if_neg (fun h => hf h.1)]
    rw [if_neg hf, hstart, hstop]
    refine ⟨rfl, rfl, fun _ => by omega, fun _ => by omega⟩

end

/-! ## the result -/

section
variable {n ip iz nrphymax : Nat} {map : List MMapEnt} {magic : Bool} {r : PmmInit}

def fragments (n ip iz : Nat) (l : List (MMapEnt × Bool)) : List Entry :=
  l.flatMap (fun x => if x.1.isFree = true then parts ip iz (prepare n x) else [])

/-- `totalpages` -/
def pageSum (fs : List Entry) (t : Nat) : Nat := fs.foldl (fun t f => w64 (t + f.size)) t

theorem secondPass_eq {l : List (MMapEnt × Bool)} (hfree : ∀ x ∈ l, (prepare n x).isFree = x.1.isFree)
    (acc : List Entry × Nat) : (l.map (prepare n)).foldl (secondStep ip iz) acc
      = (acc.1 ++ fragments n ip iz l, pageSum (fragments n ip iz l) acc.2) := by
  induction l generalizing acc with
  | nil => simp [fragments, pageSum]
  | cons x l ih =>
    rw [List.map_cons, List.foldl_cons, ih (fun y hy => hfree y (List.mem_cons_of_mem _ hy))]
    unfold secondStep fragments pageSum
    rw [hfree x (List.mem_cons_self ..), List.flatMap_cons]
    split
    · rw [List.append_assoc, List.foldl_append]
    · rw [List.nil_append]

theorem pmmInit_eq (hphys : ∀ e ∈ map, e.Phys) (hn : 2 ≤ n) (hn' : n ≤ 128)
    (h : pmmInit magic map ip iz n = some r) :
    map.length ≤ 504 ∧ r.frags = fragments n ip iz (marked n false map) ∧
      r.totalpages = pageSum r.frags 0 ∧
      ∃ e, (e, true) ∈ marked n false map ∧ r.tables = (e.ptr + 4095) / 4096 * 4096 := by
  unfold pmmInit at h
  split at h
  · cases h
  · next hmagic =>
    dsimp only at h
    rw [if_neg (show ¬ n < 2 by omega)] at h
    split at h
    · cases h
    · next hm =>
      rw [Option.some.injEq] at h
      have hfree : ∀ x ∈ marked n false map, (prepare n x).isFree = x.1.isFree := by
        intro x hx
        exact (prepare_spec (hphys _ (mem_of_marked hx)) hn hn' (fun h1 => fits_of_marked hx h1)).2.1
      rw [firstPass_map, List.nil_append, secondPass_eq hfree, List.nil_append] at h
      -- without an area that fits `m` would be 0
      have hfit : ∃ e ∈ map, e.fits n = true := by
        by_contra hno
        have hall : ∀ e ∈ map, e.fits n = false := by
          intro e he
          rw [← Bool.not_eq_true]
          exact fun hf => hno ⟨e, he, hf⟩
        rw [firstPass_nothing hall] at hm
        exact hm (by decide)
      obtain ⟨e, he⟩ := exists_marked hfit
      refine ⟨?_, by rw [← h], by rw [← h], e, he, ?_⟩
      · by_contra hlt
        exact hmagic (Or.inr (by omega))
      · rw [← h]
        dsimp only
        rw [firstPass_tables rfl he]
        exact (MMapEnt.align_spec (hphys _ (mem_of_marked he)) hn (fits_of_marked he rfl)).1

end

end OsZ
