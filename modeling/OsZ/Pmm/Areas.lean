import OsZ.Pmm.Init

/-!
# What `pmm_init` records as free

* `InitOk`         the fragments are aligned, inside free areas, without the initrd and the tables,
                   disjoint, and `totalpages` is their sum;
* `AreaOk`         the condition on one area of the memory map;
* `pmm_init_iff`   `InitOk` holds if and only if `AreaOk` does for every free area;
* `pmmInit_wrong`  an initrd whose size is no multiple of 4096 in the middle of an area.
-/

namespace OsZ

/-! ## statement -/

def MMapEnt.area (e : MMapEnt) : Set Nat := Set.Ico e.ptr (e.ptr + e.len)

structure BootMap (map : List MMapEnt) : Prop where
  phys : ∀ e ∈ map, e.Phys
  apart : Apart MMapEnt.area map

/-- end of the last page of the initrd -/
def initrdStop (ip iz : Nat) : Nat := ip + (iz + 4095) / 4096 * 4096

def Entry.bytes (f : Entry) : Set Nat := Set.Ico f.base (f.base + f.size * 4096)

structure InitOk (map : List MMapEnt) (n ip iz : Nat) (r : PmmInit) : Prop where
  aligned : ∀ f ∈ r.frags, 4096 ∣ f.base
  inside : ∀ f ∈ r.frags, ∃ e ∈ map, e.isFree = true ∧ f.bytes ⊆ e.area
  initrd : ∀ f ∈ r.frags, Disjoint f.bytes (Set.Ico ip (initrdStop ip iz))
  tables : ∀ f ∈ r.frags, Disjoint f.bytes (Set.Ico r.tables (r.tables + (n + 1) * 4096))
  apart : Apart Entry.bytes r.frags
  total : r.totalpages = (r.frags.map Entry.size).sum

/-- the test for the initrd, on an area from `x` to `y` -/
def Meets (ip iz x y : Nat) : Prop :=
  (x ≤ ip ∧ ip < y) ∨ (x < initrdStop ip iz ∧ initrdStop ip iz ≤ y)

instance (ip iz x y : Nat) : Decidable (Meets ip iz x y) := inferInstanceAs (Decidable (_ ∨ _))

/-- `x.2` says that the tables are taken from the area `x.1`: they must fit.  Of an area that passes the
test for the initrd the pages before and behind it are recorded, of another one all pages: these must
begin at a page, end in the area and not lie in the initrd -/
structure AreaOk (n ip iz : Nat) (x : MMapEnt × Bool) : Prop where
  room : x.2 = true → x.1.start n x.2 ≤ x.1.stop n
  whole : ¬ Meets ip iz (x.1.start n x.2) (x.1.stop n) → x.1.start n x.2 + 4096 ≤ x.1.stop n →
    4096 ∣ x.1.start n x.2 ∧ x.1.stop n / 4096 * 4096 ≤ x.1.ptr + x.1.len ∧
      ¬ (ip < x.1.start n x.2 ∧ x.1.stop n < initrdStop ip iz)
  front : Meets ip iz (x.1.start n x.2) (x.1.stop n) → x.1.start n x.2 + 4096 < ip →
    4096 ∣ x.1.start n x.2 ∧ ip ≤ x.1.ptr + x.1.len
  back : Meets ip iz (x.1.start n x.2) (x.1.stop n) → initrdStop ip iz + 4096 < x.1.stop n →
    4096 ∣ iz ∧ x.1.stop n / 4096 * 4096 ≤ x.1.ptr + x.1.len

/-! ## the parts of one area -/

section
variable {n ip iz : Nat} {map : List MMapEnt} {e e' : MMapEnt} {x : MMapEnt × Bool} {f : Entry}
  {first : Bool} {r : PmmInit}

theorem initrdEnd_eq (h : initrdStop ip iz + 4096 < 2^64) : initrdEnd ip iz = initrdStop ip iz := by
  unfold initrdStop at h
  unfold initrdEnd initrdStop
  rw [w64_of_lt (show iz + 4095 < 2^64 by omega),
    w64_of_lt (show (iz + 4095) / 4096 * 4096 < 2^64 by omega), w64_of_lt (by omega)]

theorem MMapEnt.start_ge (e : MMapEnt) (n : Nat) (first : Bool) : e.ptr ≤ e.start n first := by
  have h : e.ptr ≤ (e.ptr + 4095) / 4096 * 4096 := by omega
  unfold MMapEnt.start
  split
  · exact h.trans (Nat.le_add_right _ _)
  · exact Nat.le_add_right _ _

theorem MMapEnt.start_lt (h : e.Phys) (hn' : n ≤ 128) : e.start n first + 2^18 < 2^64 := by
  have hstop := h.stop
  unfold MMapEnt.start
  split <;> split <;> omega

/-- the table of `parts` without the wrap around -/
structure PartsAre (n ip iz : Nat) (x : MMapEnt × Bool) (p : List Entry) : Prop where
  whole : ¬ Meets ip iz (x.1.start n x.2) (x.1.stop n) →
    p = if x.1.start n x.2 + 4096 ≤ x.1.stop n then
      [⟨x.1.start n x.2, (x.1.stop n - x.1.start n x.2) / 4096⟩] else []
  cut : Meets ip iz (x.1.start n x.2) (x.1.stop n) →
    p = (if x.1.start n x.2 + 4096 < ip then [⟨x.1.start n x.2, (ip - x.1.start n x.2) / 4096⟩] else []) ++
      if initrdStop ip iz + 4096 < x.1.stop n then [⟨ip + iz, (x.1.stop n - initrdStop ip iz) / 4096⟩] else []

theorem parts_are (h : x.1.Phys) (hn : 2 ≤ n) (hn' : n ≤ 128) (hm : x.2 = true → x.1.fits n = true)
    (hip : initrdStop ip iz + 4096 < 2^64) (hroom : x.1.start n x.2 ≤ x.1.stop n) :
    PartsAre n ip iz x (parts ip iz (prepare n x)) := by
  obtain ⟨hp, -, hlen, -⟩ := prepare_spec h hn hn' hm
  have hl := hlen hroom
  have hstop := (MMapEnt.stop_bounds x.1 n).2
  have hphys := h.stop
  have hie : ip + iz ≤ initrdStop ip iz := by
    unfold initrdStop
    omega
  obtain ⟨a, ha⟩ : ∃ a, a = x.1.start n x.2 := ⟨_, rfl⟩
  obtain ⟨b, hb⟩ : ∃ b, b = x.1.stop n := ⟨_, rfl⟩
  have htop : w64 ((prepare n x).ptr + (prepare n x).len) = b := by
    rw [hp, hl, ← ha, ← hb]
    rw [← ha, ← hb] at hroom
    rw [w64_of_lt (by omega)]
    omega
  unfold parts
  dsimp only
  rw [htop, hp, hl, initrdEnd_eq hip, ← ha, ← hb]
  rw [← ha, ← hb] at hroom
  rw [← hb] at hstop
  have hw1 : w64 (a + 4096) = a + 4096 := w64_of_lt (by omega)
  have hw2 : w64 (initrdStop ip iz + 4096) = initrdStop ip iz + 4096 := w64_of_lt (by omega)
  have hw3 : w64 (ip + iz) = ip + iz := w64_of_lt (by omega)
  rw [hw1, hw2, hw3]
  refine ⟨fun hno => ?_, fun hyes => ?_⟩
  · rw [← ha, ← hb] at hno ⊢
    unfold Meets at hno
    rw [if_neg hno]
    by_cases hpage : a + 4096 ≤ b
    · rw [if_pos hpage, if_pos (by omega)]
    · rw [if_neg hpage, if_neg (by omega)]
  · rw [← ha, ← hb] at hyes ⊢
    unfold Meets at hyes
    rw [if_pos hyes]
    have hfront : (if a + 4096 < ip then [(⟨a, sub64 ip a / 4096⟩ : Entry)] else [])
        = if a + 4096 < ip then [⟨a, (ip - a) / 4096⟩] else [] := by
      split
      · rw [sub64_of_le (by omega) (by omega)]
      · rfl
    have hback : (if initrdStop ip iz + 4096 < b then
        [(⟨ip + iz, sub64 b (initrdStop ip iz) / 4096⟩ : Entry)] else [])
        = if initrdStop ip iz + 4096 < b then [⟨ip + iz, (b - initrdStop ip iz) / 4096⟩] else [] := by
      split
      · rw [sub64_of_le (by omega) (by omega)]
      · rfl
    rw [hfront, hback]

/-- tables that do not fit: one fragment up to the end of all addresses -/
theorem parts_wrapped (h : x.1.Phys) (hn : 2 ≤ n) (hn' : n ≤ 128) (hm : x.2 = true → x.1.fits n = true)
    (hroom : x.1.stop n < x.1.start n x.2) :
    parts ip iz (prepare n x)
      = [⟨x.1.start n x.2, (2^64 - (x.1.start n x.2 - x.1.stop n)) / 4096⟩] := by
  obtain ⟨hp, -, -, hlen⟩ := prepare_spec h hn hn' hm
  have hl := hlen hroom
  have hstart : x.1.start n x.2 + 2^18 < 2^64 := MMapEnt.start_lt h hn'
  obtain ⟨a, ha⟩ : ∃ a, a = x.1.start n x.2 := ⟨_, rfl⟩
  obtain ⟨b, hb⟩ : ∃ b, b = x.1.stop n := ⟨_, rfl⟩
  rw [← ha] at hstart
  rw [← ha, ← hb] at hroom
  have htop : w64 ((prepare n x).ptr + (prepare n x).len) = b := by
    rw [hp, hl, ← ha, ← hb]
    unfold w64
    omega
  unfold parts
  dsimp only
  rw [htop, hp, hl, ← ha, ← hb, if_neg (by omega), if_pos (by omega)]

theorem parts_length (e : MMapEnt) : (parts ip iz e).length ≤ 2 := by
  unfold parts
  dsimp only
  split
  · rw [List.length_append]
    split <;> split <;> simp
  · split <;> simp

/-! ## from the condition to the fragments -/

structure FragOk (ip iz : Nat) (e : MMapEnt) (lo : Nat) (f : Entry) : Prop where
  aligned : 4096 ∣ f.base
  above : lo ≤ f.base
  inside : f.base + f.size * 4096 ≤ e.ptr + e.len
  initrd : f.base + f.size * 4096 ≤ ip ∨ initrdStop ip iz ≤ f.base

theorem AreaOk.start_le (h : AreaOk n ip iz x) (hn : 2 ≤ n) : x.1.start n x.2 ≤ x.1.stop n := by
  cases hx : x.2 with
  | true =>
    rw [← hx]
    exact h.room hx
  | false =>
    have hb := (MMapEnt.stop_bounds x.1 n).1
    by_cases hf : x.1.fits n = true
    · have hlen : 4096 ≤ x.1.len := by
        have := MMapEnt.fits_len hf
        omega
      rw [(MMapEnt.start_of_fits hf).1]
      exact le_trans (by omega) hb
    · unfold MMapEnt.start
      rw [if_neg hf, if_neg (by decide), Nat.add_zero]
      omega

theorem AreaOk.frags (h : AreaOk n ip iz x) (hip : 4096 ∣ ip) {p : List Entry}
    (hp : PartsAre n ip iz x p) :
    (∀ f ∈ p, FragOk ip iz x.1 (x.1.start n x.2) f) ∧ Apart Entry.bytes p := by
  have hie : ip ≤ initrdStop ip iz ∧ 4096 ∣ initrdStop ip iz := by
    unfold initrdStop
    omega
  by_cases hm : Meets ip iz (x.1.start n x.2) (x.1.stop n)
  · rw [hp.cut hm]
    have hfront : ∀ f ∈ (if x.1.start n x.2 + 4096 < ip then
        [(⟨x.1.start n x.2, (ip - x.1.start n x.2) / 4096⟩ : Entry)] else []),
        FragOk ip iz x.1 (x.1.start n x.2) f ∧ f.base + f.size * 4096 ≤ ip := by
      intro f hf
      split at hf
      · next hc =>
        obtain ⟨hal, hin⟩ := h.front hm hc
        rw [List.mem_singleton.mp hf]
        dsimp only
        exact ⟨⟨hal, le_rfl, by dsimp only; omega, Or.inl (by dsimp only; omega)⟩, by omega⟩
      · cases hf
    have hback : ∀ f ∈ (if initrdStop ip iz + 4096 < x.1.stop n then
        [(⟨ip + iz, (x.1.stop n - initrdStop ip iz) / 4096⟩ : Entry)] else []),
        FragOk ip iz x.1 (x.1.start n x.2) f ∧ initrdStop ip iz ≤ f.base := by
      intro f hf
      split at hf
      · next hc =>
        obtain ⟨hiz, hin⟩ := h.back hm hc
        have he : initrdStop ip iz = ip + iz := by
          unfold initrdStop
          omega
        rw [List.mem_singleton.mp hf]
        rw [he] at hie hc ⊢
        unfold Meets at hm
        rw [he] at hm
        refine ⟨⟨hie.2, by dsimp only; omega, by dsimp only; omega, Or.inr he.le⟩, le_rfl⟩
      · cases hf
    refine ⟨fun f hf => ?_, List.pairwise_append.mpr ⟨?_, ?_, fun f hf g hg => ?_⟩⟩
    · rcases List.mem_append.mp hf with hf | hf
      · exact (hfront f hf).1
      · exact (hback f hf).1
    · split
      · exact Apart.single
      · exact Apart.nil
    · split
      · exact Apart.single
      · exact Apart.nil
    · have h1 := (hfront f hf).2
      have h2 := (hback g hg).2
      rw [Set.disjoint_left]
      rintro y ⟨-, hy⟩ ⟨hy', -⟩
      omega
  · rw [hp.whole hm]
    split
    · next hc =>
      obtain ⟨hal, hin, hcov⟩ := h.whole hm hc
      refine ⟨fun f hf => ?_, Apart.single⟩
      rw [List.mem_singleton.mp hf]
      unfold Meets at hm
      refine ⟨hal, le_rfl, by dsimp only; omega, ?_⟩
      dsimp only
      omega
    · exact ⟨fun f hf => absurd hf (by simp), Apart.nil⟩

theorem BootMap.marked (h : BootMap map) (n : Nat) :
    Apart (fun x : MMapEnt × Bool => x.1.area) (marked n false map) := by
  have hap : List.Pairwise (fun x y => Disjoint x.area y.area) ((OsZ.marked n false map).map Prod.fst) := by
    rw [marked_fst]
    exact h.apart
  rw [List.pairwise_map] at hap
  exact hap

theorem mem_fragments {l : List (MMapEnt × Bool)} :
    f ∈ fragments n ip iz l ↔ ∃ x ∈ l, x.1.isFree = true ∧ f ∈ parts ip iz (prepare n x) := by
  unfold fragments
  rw [List.mem_flatMap]
  constructor
  · rintro ⟨x, hx, hf⟩
    split at hf
    · next hfree => exact ⟨x, hx, hfree, hf⟩
    · cases hf
  · rintro ⟨x, hx, hfree, hf⟩
    exact ⟨x, hx, by rw [if_pos hfree]; exact hf⟩

theorem FragOk.bytes_subset {lo : Nat} (h : FragOk ip iz e lo f) (hlo : e.ptr ≤ lo) : f.bytes ⊆ e.area := by
  rintro y ⟨h1, h2⟩
  have h3 := h.above
  have h4 := h.inside
  exact ⟨by omega, by omega⟩

theorem FragOk.apart_tables (hmap : BootMap map) (hx : x ∈ OsZ.marked n false map)
    (he : (e, true) ∈ OsZ.marked n false map) (hroom : e.start n true ≤ e.stop n)
    (hf : FragOk ip iz x.1 (x.1.start n x.2) f) :
    Disjoint f.bytes (Set.Ico ((e.ptr + 4095) / 4096 * 4096)
      ((e.ptr + 4095) / 4096 * 4096 + (n + 1) * 4096)) := by
  have hfit : e.fits n = true := fits_of_marked he rfl
  rw [← (MMapEnt.start_of_fits hfit).2]
  have hstart := (MMapEnt.start_of_fits hfit).2
  have hstop := (MMapEnt.stop_bounds e n).2
  rw [Set.disjoint_left]
  rintro y ⟨h1, h2⟩ ⟨h3, h4⟩
  have hal := hf.aligned
  -- the first byte of the page of `y` is in both areas
  have hpage : y / 4096 * 4096 ∈ e.area := ⟨by omega, by omega⟩
  have hbyte : y / 4096 * 4096 ∈ f.bytes := ⟨by omega, by omega⟩
  have hsame : x = (e, true) :=
    (hmap.marked n).eq_of_mem hx he (hf.bytes_subset (MMapEnt.start_ge _ _ _) hbyte) hpage
  have habove := hf.above
  rw [hsame] at habove
  dsimp only at habove
  omega

theorem pageSum_eq {fs : List Entry} {t : Nat} (h : t + (fs.map Entry.size).sum < 2^64) :
    pageSum fs t = t + (fs.map Entry.size).sum := by
  induction fs generalizing t with
  | nil => rfl
  | cons f fs ih =>
    rw [List.map_cons, List.sum_cons] at h ⊢
    have hw : w64 (t + f.size) = t + f.size := w64_of_lt (by omega)
    change pageSum fs (w64 (t + f.size)) = _
    rw [hw, ih (by omega)]
    omega

theorem sum_le_of_size {fs : List Entry} {b : Nat} (h : ∀ f ∈ fs, f.size ≤ b) :
    (fs.map Entry.size).sum ≤ fs.length * b := by
  have := List.sum_le_card_nsmul (fs.map Entry.size) b (by
    intro z hz
    obtain ⟨f, hf, rfl⟩ := List.mem_map.mp hz
    exact h f hf)
  rwa [List.length_map, smul_eq_mul] at this

theorem fragments_length (l : List (MMapEnt × Bool)) : (fragments n ip iz l).length ≤ 2 * l.length := by
  induction l with
  | nil => rfl
  | cons x l ih =>
    unfold fragments at ih ⊢
    rw [List.flatMap_cons, List.length_append, List.length_cons]
    have hx : (if x.1.isFree = true then parts ip iz (prepare n x) else []).length ≤ 2 := by
      split
      · exact parts_length _
      · exact Nat.zero_le _
    omega

theorem initOk_of_areas (hmap : BootMap map) (hn : 2 ≤ n) (hn' : n ≤ 128) (hip : 4096 ∣ ip)
    (hiz : initrdStop ip iz + 4096 < 2^64) {magic : Bool} (h : pmmInit magic map ip iz n = some r)
    (hok : ∀ x ∈ marked n false map, x.1.isFree = true → AreaOk n ip iz x) : InitOk map n ip iz r := by
  obtain ⟨hlen, hfrags, htotal, e, he, htab⟩ := pmmInit_eq hmap.phys hn hn' h
  have hfits : ∀ x ∈ marked n false map, x.2 = true → x.1.fits n = true :=
    fun x hx hx2 => fits_of_marked hx hx2
  have hpart : ∀ x ∈ marked n false map, x.1.isFree = true →
      (∀ f ∈ parts ip iz (prepare n x), FragOk ip iz x.1 (x.1.start n x.2) f) ∧
        Apart Entry.bytes (parts ip iz (prepare n x)) := by
    intro x hx hfree
    have hx' := hok x hx hfree
    exact hx'.frags hip (parts_are (hmap.phys _ (mem_of_marked hx)) hn hn' (hfits x hx) hiz (hx'.start_le hn))
  have hfrag : ∀ f ∈ r.frags, ∃ x ∈ marked n false map, x.1.isFree = true ∧
      FragOk ip iz x.1 (x.1.start n x.2) f := by
    intro f hf
    rw [hfrags, mem_fragments] at hf
    obtain ⟨x, hx, hfree, hf⟩ := hf
    exact ⟨x, hx, hfree, (hpart x hx hfree).1 f hf⟩
  refine ⟨fun f hf => ?_, fun f hf => ?_, fun f hf => ?_, fun f hf => ?_, ?_, ?_⟩
  · obtain ⟨x, -, -, hx⟩ := hfrag f hf
    exact hx.aligned
  · obtain ⟨x, hx, hfree, hfx⟩ := hfrag f hf
    exact ⟨x.1, mem_of_marked hx, hfree, hfx.bytes_subset (MMapEnt.start_ge _ _ _)⟩
  · obtain ⟨x, -, -, hx⟩ := hfrag f hf
    rw [Set.disjoint_left]
    rintro y ⟨h1, h2⟩ ⟨h3, h4⟩
    rcases hx.initrd with h5 | h5 <;> omega
  · obtain ⟨x, hx, -, hfx⟩ := hfrag f hf
    have hroom := (hok (e, true) he (MMapEnt.isFree_of_fits (hfits _ he rfl))).room rfl
    rw [htab]
    exact hfx.apart_tables hmap hx he hroom
  · rw [hfrags]
    unfold fragments
    refine List.pairwise_flatMap.mpr ⟨fun x hx => ?_, ?_⟩
    · split
      · next hfree => exact (hpart x hx hfree).2
      · exact Apart.nil
    · refine (hmap.marked n).imp_of_mem ?_
      intro x y hx hy hxy f hf g hg
      split at hf
      · next hfx =>
        split at hg
        · next hfy =>
          have h1 := ((hpart x hx hfx).1 f hf).bytes_subset (MMapEnt.start_ge _ _ _)
          have h2 := ((hpart y hy hfy).1 g hg).bytes_subset (MMapEnt.start_ge _ _ _)
          exact hxy.mono h1 h2
        · cases hg
      · cases hf
  · have hsize : ∀ f ∈ r.frags, f.size ≤ 2^52 := by
      intro f hf
      obtain ⟨x, hx, -, hfx⟩ := hfrag f hf
      have h1 := hfx.inside
      have h2 := (hmap.phys _ (mem_of_marked hx)).stop
      omega
    have hcount : r.frags.length ≤ 2 * 504 := by
      have h1 : (fragments n ip iz (marked n false map)).length ≤ 2 * (marked n false map).length :=
        fragments_length _
      have h2 : (marked n false map).length = map.length := by
        rw [← List.length_map (f := Prod.fst), marked_fst]
      rw [← hfrags] at h1
      omega
    have hsum := sum_le_of_size hsize
    rw [htotal, pageSum_eq (by omega), Nat.zero_add]

/-! ## from the fragments to the condition -/

/-- the area a fragment lies in is the one it was cut from -/
theorem InitOk.inside_area (hmap : BootMap map) (h : InitOk map n ip iz r) (he : e ∈ map) (hf : f ∈ r.frags)
    (hsize : 0 < f.size) (hbase : f.base ∈ e.area) : f.base + f.size * 4096 ≤ e.ptr + e.len := by
  obtain ⟨e', he', -, hsub⟩ := h.inside f hf
  have h0 : f.base ∈ f.bytes := ⟨le_rfl, by omega⟩
  have hsame : e = e' := hmap.apart.eq_of_mem he he' hbase (hsub h0)
  have hlast : f.base + f.size * 4096 - 1 ∈ f.bytes := ⟨by omega, by omega⟩
  have := (hsub hlast).2
  rw [← hsame] at this
  omega

theorem areaOk_of_init (hmap : BootMap map) (hn : 2 ≤ n) (hn' : n ≤ 128) (hip : 4096 ∣ ip)
    (hiz : initrdStop ip iz + 4096 < 2^64) (h : InitOk map n ip iz r) (hx : x ∈ marked n false map)
    (hfrags : ∀ f ∈ parts ip iz (prepare n x), f ∈ r.frags) : AreaOk n ip iz x := by
  have hphys := hmap.phys _ (mem_of_marked hx)
  have hfits : x.2 = true → x.1.fits n = true := fun hx2 => fits_of_marked hx hx2
  have hmem := mem_of_marked hx
  have hptr := MMapEnt.start_ge x.1 n x.2
  obtain ⟨hb1, hb2⟩ := MMapEnt.stop_bounds x.1 n
  have hroom : x.1.start n x.2 ≤ x.1.stop n := by
    by_contra hlt
    -- the fragment that wrapped around is in no area
    have hp : parts ip iz (prepare n x) = _ := parts_wrapped hphys hn hn' hfits (by omega)
    have hf := hfrags ⟨x.1.start n x.2, (2^64 - (x.1.start n x.2 - x.1.stop n)) / 4096⟩ (by rw [hp]; simp)
    obtain ⟨e', he', -, hsub⟩ := h.inside _ hf
    have hlt' : x.1.start n x.2 + 2^18 < 2^64 := MMapEnt.start_lt hphys hn'
    have hlast : max (x.1.start n x.2) (2^64 - 2^20) ∈ (⟨x.1.start n x.2,
        (2^64 - (x.1.start n x.2 - x.1.stop n)) / 4096⟩ : Entry).bytes := ⟨by dsimp only; omega, by dsimp only; omega⟩
    have h1 := (hsub hlast).2
    have h2 := (hmap.phys e' he').stop
    omega
  have hp : PartsAre n ip iz x (parts ip iz (prepare n x)) := parts_are hphys hn hn' hfits hiz hroom
  refine ⟨fun _ => hroom, fun hm hc => ?_, fun hm hc => ?_, fun hm hc => ?_⟩
  · have hf := hfrags ⟨x.1.start n x.2, (x.1.stop n - x.1.start n x.2) / 4096⟩ (by
      rw [hp.whole hm, if_pos hc]; simp)
    have hal := h.aligned _ hf
    have hin := h.inside_area hmap hmem hf (by dsimp only; omega) ⟨by dsimp only; omega, by dsimp only; omega⟩
    dsimp only at hal hin
    refine ⟨hal, by omega, fun hcov => ?_⟩
    have h0 : x.1.start n x.2 ∈ (⟨x.1.start n x.2, (x.1.stop n - x.1.start n x.2) / 4096⟩ : Entry).bytes :=
      ⟨le_rfl, by dsimp only; omega⟩
    exact Set.disjoint_left.mp (h.initrd _ hf) h0 ⟨hcov.1.le, by omega⟩
  · have hf := hfrags ⟨x.1.start n x.2, (ip - x.1.start n x.2) / 4096⟩ (by
      rw [hp.cut hm, if_pos hc]; simp)
    have hal := h.aligned _ hf
    unfold Meets initrdStop at hm
    have hin := h.inside_area hmap hmem hf (by dsimp only; omega) ⟨by dsimp only; omega, by dsimp only; omega⟩
    dsimp only at hal hin
    exact ⟨hal, by omega⟩
  · have hf := hfrags ⟨ip + iz, (x.1.stop n - initrdStop ip iz) / 4096⟩ (by
      rw [hp.cut hm, if_pos hc]; simp)
    have hal := h.aligned _ hf
    dsimp only at hal
    have hdvd : 4096 ∣ iz := by omega
    have he : initrdStop ip iz = ip + iz := by
      unfold initrdStop
      omega
    unfold Meets at hm
    rw [he] at hm hc hf
    have hin := h.inside_area hmap hmem hf (by dsimp only; omega) ⟨by dsimp only; omega, by dsimp only; omega⟩
    dsimp only at hin
    exact ⟨hdvd, by omega⟩

end

/-- for every memory map of disjoint areas and every page aligned initrd: what `pmm_init` records is as
it should be if and only if each free area meets the condition -/
theorem pmm_init_iff {magic : Bool} {map : List MMapEnt} {n ip iz : Nat} {r : PmmInit} (hmap : BootMap map)
    (hn : 2 ≤ n) (hn' : n ≤ 128) (hip : 4096 ∣ ip) (hiz : initrdStop ip iz + 4096 < 2^64)
    (h : pmmInit magic map ip iz n = some r) :
    InitOk map n ip iz r ↔ ∀ x ∈ marked n false map, x.1.isFree = true → AreaOk n ip iz x := by
  constructor
  · intro hinit x hx hfree
    refine areaOk_of_init hmap hn hn' hip hiz hinit hx (fun f hf => ?_)
    rw [(pmmInit_eq hmap.phys hn hn' h).2.1, mem_fragments]
    exact ⟨x, hx, hfree, hf⟩
  · exact initOk_of_areas hmap hn hn' hip hiz h

/-- 64 megabytes from the second one on -/
def plainMap : List MMapEnt := [⟨0x100000, 0x4000001⟩]

theorem plainMap_boot : BootMap plainMap := by
  refine ⟨fun e he => ?_, Apart.single⟩
  rw [List.mem_singleton.mp he]
  exact ⟨by decide, by decide⟩

theorem plainMap_marked {x : MMapEnt × Bool} (hx : x ∈ marked 2 false plainMap) :
    x.1.start 2 x.2 = 0x103000 ∧ x.1.stop 2 = 0x4100000 ∧ x.1.ptr + x.1.len = 0x4100000 := by
  rw [List.mem_singleton.mp hx]
  exact ⟨by decide, by decide, by decide⟩

theorem pmm_init_plain :
    ∃ r, pmmInit true plainMap 0x800000 0x10000 2 = some r ∧ r.frags.length = 2 ∧
      InitOk plainMap 2 0x800000 0x10000 r := by
  have h : pmmInit true plainMap 0x800000 0x10000 2
      = some ⟨[⟨0x103000, 0x6fd⟩, ⟨0x810000, 0x38f0⟩], 0x3fed, 0x100000⟩ := by decide +kernel
  refine ⟨_, h, rfl,
    (pmm_init_iff plainMap_boot (by decide) (by decide) (by decide) (by decide) h).mpr ?_⟩
  intro x hx _
  obtain ⟨h1, h2, h3⟩ := plainMap_marked hx
  refine ⟨fun _ => by omega, fun hm => ?_, fun _ _ => ?_, fun _ _ => ?_⟩
  · unfold Meets at hm
    omega
  · omega
  · omega

/-- an initrd of 1000 bytes: the pages behind it begin at no page -/
theorem pmmInit_wrong :
    BootMap plainMap ∧ ∃ r, pmmInit true plainMap 0x800000 1000 2 = some r ∧ ¬ InitOk plainMap 2 0x800000 1000 r := by
  refine ⟨plainMap_boot, ⟨[⟨0x103000, 0x6fd⟩, ⟨0x8003e8, 0x38ff⟩], 0x3ffc, 0x100000⟩, by decide +kernel, fun h => ?_⟩
  have hal := h.aligned ⟨0x8003e8, 0x38ff⟩ (by simp)
  exact absurd hal (by decide)

end OsZ
