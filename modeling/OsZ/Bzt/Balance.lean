import OsZ.Bzt.Empty

/-!
# Everything mapped is unmapped

The calls of `mmap` and `munmap` in a run are followed for one address at a time.

* `ledger`         is the address mapped; `none` when it is mapped twice or unmapped when it is not;
* `InMem`          the allocmap, and what is mapped of the chunks;
* `Owned`          every marked unit and every large chunk is a block of the program;
* `Edit.booked`    a call maps and unmaps what `InMem` says;
* `bzt_balanced`   after a run of `BztSafe` calls that frees all blocks nothing is left;
* `bztFree_fails`  a run in which the last `free` reports EFAULT.
-/

namespace OsZ

/-! ## the ledger of one address -/

def ledgerStep (x : Nat) (m : Bool) : Eff → Option Bool
  | .mmap addr len => if addr ≤ x ∧ x < addr + len then if m = true then none else some true else some m
  | .munmap addr len => if addr ≤ x ∧ x < addr + len then if m = true then some false else none else some m
  | .memzero _ _ => some m
  | .memcpy _ _ _ => some m

def ledger (x : Nat) (m : Bool) (effs : List Eff) : Option Bool := effs.foldlM (ledgerStep x) m

/-- the effects are in order for `x`, which is mapped before if `P` and afterwards if `Q` -/
def Booked (x : Nat) (P : Prop) (effs : List Eff) (Q : Prop) : Prop :=
  ∀ m : Bool, (m = true ↔ P) → ∃ m', ledger x m effs = some m' ∧ (m' = true ↔ Q)

namespace Booked
variable {x addr len : Nat} {P Q R : Prop} {effs effs' : List Eff}

theorem nil (h : P ↔ Q) : Booked x P [] Q := fun m hm => ⟨m, rfl, hm.trans h⟩

theorem trans (h : Booked x P effs Q) (h' : Booked x Q effs' R) : Booked x P (effs ++ effs') R := by
  intro m hm
  obtain ⟨m₁, h1, hm₁⟩ := h m hm
  obtain ⟨m₂, h2, hm₂⟩ := h' m₁ hm₁
  refine ⟨m₂, ?_, hm₂⟩
  unfold ledger at h1 h2 ⊢
  rw [List.foldlM_append, h1]
  exact h2

theorem congr {P' Q' : Prop} (h : Booked x P effs Q) (hp : P' ↔ P) (hq : Q ↔ Q') :
    Booked x P' effs Q' := by
  intro m hm
  obtain ⟨m', h1, hm'⟩ := h m (hm.trans hp)
  exact ⟨m', h1, hm'.trans hq⟩

theorem mmap (h : x ∈ Set.Ico addr (addr + len) → ¬ P) :
    Booked x P [.mmap addr len] (P ∨ x ∈ Set.Ico addr (addr + len)) := by
  intro m hm
  unfold ledger
  rw [List.foldlM_cons, ledgerStep]
  by_cases hx : addr ≤ x ∧ x < addr + len
  · have hp := h hx
    rw [if_pos hx, if_neg (fun hmt => hp (hm.mp hmt))]
    exact ⟨true, rfl, fun _ => Or.inr hx, fun _ => rfl⟩
  · rw [if_neg hx]
    exact ⟨m, rfl, fun hmt => Or.inl (hm.mp hmt), fun hq => hm.mpr (hq.resolve_right hx)⟩

theorem munmap (h : x ∈ Set.Ico addr (addr + len) → P) :
    Booked x P [.munmap addr len] (P ∧ x ∉ Set.Ico addr (addr + len)) := by
  intro m hm
  unfold ledger
  rw [List.foldlM_cons, ledgerStep]
  by_cases hx : addr ≤ x ∧ x < addr + len
  · rw [if_pos hx, if_pos (hm.mpr (h hx))]
    exact ⟨false, rfl, fun hmt => absurd hmt (by decide), fun hq => absurd hx hq.2⟩
  · rw [if_neg hx]
    exact ⟨m, rfl, fun hmt => ⟨hm.mp hmt, hx⟩, fun hq => hm.mpr hq.1⟩

theorem memzero : Booked x P [.memzero addr len] P := fun m hm => ⟨m, rfl, hm⟩

theorem fill {fp ptr oq q : Nat} {spare : Bool} : Booked x P (fillEffs fp ptr oq q spare) P := by
  intro m hm
  unfold fillEffs
  split
  · split
    · exact ⟨m, rfl, hm⟩
    · exact ⟨m, rfl, hm⟩
  · exact ⟨m, rfl, hm⟩

end Booked

/-! ## what is mapped -/

/-- what is mapped of a chunk: its marked units if they are mapped one by one, or all of it -/
def Chunk.InUse (c : Chunk) (x : Nat) : Prop :=
  x ∈ c.range ∧ (4096 ≤ c.quantum → c.quantum < 2097152 → ∃ k < 512, c.bit k = true ∧
    x ∈ Set.Ico (c.ptr + k * c.quantum) (c.ptr + k * c.quantum + c.quantum))

def InMap (base : Nat) (cs : List Chunk) (x : Nat) : Prop :=
  cs ≠ [] ∧ x ∈ Set.Ico (base + 2097152) (base + 2097152 + 2097152)

def InMem (base : Nat) (cs : List Chunk) (x : Nat) : Prop := InMap base cs x ∨ ∃ c ∈ cs, c.InUse x

structure Chunk.Owned (c : Chunk) (live : List Block) : Prop where
  some : c.quantum < 2097152 → ∃ k < 512, c.bit k = true
  units : c.quantum < 2097152 → ∀ k < 512, c.bit k = true → ∃ b ∈ live, b.ptr = c.ptr + k * c.quantum
  large : 2097152 ≤ c.quantum → ∃ b ∈ live, b.ptr = c.ptr

section
variable {base q a s fp n m k x : Nat} {cs cs1 : List Chunk} {live live' : List Block} {b b' : Block}
  {c c' : Chunk} {effs : List Eff} {P : Chunk → Prop} {R : Prop}

def others (cs : List Chunk) (n : Nat) : List Chunk := cs.take n ++ cs.drop (n+1)

theorem exists_chunk (hn : cs[n]? = some c) : (∃ y ∈ cs, P y) ↔ P c ∨ ∃ y ∈ others cs n, P y := by
  unfold others
  constructor
  · rintro ⟨y, hy, hp⟩
    rw [chunks_split hn] at hy
    rcases List.mem_append.mp hy with hy | hy
    · exact Or.inr ⟨y, List.mem_append_left _ hy, hp⟩
    · rcases List.mem_cons.mp hy with rfl | hy
      · exact Or.inl hp
      · exact Or.inr ⟨y, List.mem_append_right _ hy, hp⟩
  · rintro (hp | ⟨y, hy, hp⟩)
    · exact ⟨c, List.mem_of_getElem? hn, hp⟩
    · rcases List.mem_append.mp hy with hy | hy
      · exact ⟨y, List.mem_of_mem_take hy, hp⟩
      · exact ⟨y, List.mem_of_mem_drop hy, hp⟩

theorem exists_chunk_set (hlt : n < cs.length) :
    (∃ y ∈ cs.set n c', P y) ↔ P c' ∨ ∃ y ∈ others cs n, P y := by
  have hget : (cs.set n c')[n]? = some c' := by
    rw [List.getElem?_set_self hlt]
  have hoth : others (cs.set n c') n = others cs n := by
    unfold others
    rw [List.take_set, List.drop_set_of_lt (by omega), List.set_eq_of_length_le (by simp)]
  rw [exists_chunk hget, hoth]

theorem BlockInv.others_apart (h : BlockInv base cs live) (hn : cs[n]? = some c) (hx : x ∈ c.range) :
    ¬ ∃ y ∈ others cs n, x ∈ y.range := by
  have hap := h.apart
  rw [chunks_split hn] at hap
  exact fun hy => Set.disjoint_left.mp hap.rest hy hx

theorem BlockInv.others_use (h : BlockInv base cs live) (hn : cs[n]? = some c) (hx : x ∈ c.range) :
    ¬ ∃ y ∈ others cs n, y.InUse x := by
  rintro ⟨y, hy, hu⟩
  exact h.others_apart hn hx ⟨y, hy, hu.1⟩

theorem BlockInv.map_below (h : BlockInv base cs live) (hc : c ∈ cs) (hx : x ∈ c.range) :
    ¬ InMap base cs x := by
  rintro ⟨-, -, h2⟩
  have h1 := (h.ok c hc).lo
  have h3 := hx.1
  omega

/-! ## getting memory -/

theorem unit_eq {p q k k' x : Nat} (hx : x ∈ Set.Ico (p + k * q) (p + k * q + q))
    (hx' : x ∈ Set.Ico (p + k' * q) (p + k' * q + q)) : k = k' := by
  obtain ⟨h1, h2⟩ := hx
  obtain ⟨h3, h4⟩ := hx'
  rcases Nat.lt_trichotomy k k' with hlt | heq | hlt
  · have : (k + 1) * q ≤ k' * q := Nat.mul_le_mul_right _ hlt
    rw [Nat.add_mul, Nat.one_mul] at this
    omega
  · exact heq
  · have : (k' + 1) * q ≤ k * q := Nat.mul_le_mul_right _ hlt
    rw [Nat.add_mul, Nat.one_mul] at this
    omega

theorem Chunk.taken_inUse (hok : c.Ok base) (hl : c.quantum < 2097152) (hk : k < 512) :
    (c.taken k c.quantum s).InUse x ↔ c.InUse x ∨
      (4096 ≤ c.quantum ∧ x ∈ Set.Ico (c.ptr + k * c.quantum) (c.ptr + k * c.quantum + c.quantum)) := by
  have hrange : ({ c with map := Bitmap.set c.map k } : Chunk).range = c.range :=
    (hok.congr (show ({ c with map := Bitmap.set c.map k } : Chunk).quantum = c.quantum from rfl) rfl hl).2
  have hin : x ∈ Set.Ico (c.ptr + k * c.quantum) (c.ptr + k * c.quantum + c.quantum) → x ∈ c.range := by
    rintro ⟨h1, h2⟩
    have hu := unit_bounds (p := c.ptr) (q := c.quantum) hk le_rfl
    refine ⟨by omega, ?_⟩
    rw [hok.extent_small hl]
    omega
  rw [Chunk.taken_small hl]
  unfold Chunk.InUse
  rw [hrange]
  dsimp only [Chunk.bit]
  constructor
  · rintro ⟨hr, hu⟩
    by_cases hq : 4096 ≤ c.quantum
    · obtain ⟨k', hk', hb, hx⟩ := hu hq hl
      rw [Bitmap.bit_set, Bool.or_eq_true, decide_eq_true_eq] at hb
      rcases hb with rfl | hb
      · exact Or.inr ⟨hq, hx⟩
      · exact Or.inl ⟨hr, fun _ _ => ⟨k', hk', hb, hx⟩⟩
    · exact Or.inl ⟨hr, fun h1 => absurd h1 hq⟩
  · rintro (⟨hr, hu⟩ | ⟨hq, hx⟩)
    · refine ⟨hr, fun h1 h2 => ?_⟩
      obtain ⟨k', hk', hb, hx⟩ := hu h1 h2
      refine ⟨k', hk', ?_, hx⟩
      rw [Bitmap.bit_set, hb, Bool.or_true]
    · refine ⟨hin hx, fun _ _ => ⟨k, hk, ?_, hx⟩⟩
      rw [Bitmap.bit_set, decide_eq_true rfl, Bool.true_or]

theorem BlockInv.booked_unit (h : BlockInv base cs live) (hn : cs[n]? = some c)
    (hl : c.quantum < 2097152) (hk : k < 512) (hb : c.bit k = false) (hR : R → ∀ y ∈ cs, x ∉ y.range) :
    Booked x (R ∨ ∃ y ∈ cs, y.InUse x)
      (grabEffs false c.quantum s c.ptr (w64 (c.ptr + k * c.quantum)) false)
      (R ∨ ∃ y ∈ cs.set n (c.taken k c.quantum s), y.InUse x) := by
  have hc := List.mem_of_getElem? hn
  have hok := h.ok c hc
  have hlt := (List.getElem?_eq_some_iff.mp hn).1
  have hhi := hok.hi
  have hu := unit_bounds (p := c.ptr) (q := c.quantum) hk le_rfl
  rw [hok.extent_small hl] at hhi
  rw [exists_chunk hn, exists_chunk_set hlt, Chunk.taken_inUse hok hl hk]
  unfold grabEffs
  rw [if_neg (by decide), w64_of_lt (by omega)]
  by_cases hq : c.quantum < 4096
  · have hnot : ¬ 4096 ≤ c.quantum := by omega
    rw [if_pos hq, if_neg (by decide)]
    refine Booked.nil ?_
    simp only [hnot, false_and, or_false]
  · rw [if_neg hq, if_pos hl]
    have hin : x ∈ Set.Ico (c.ptr + k * c.quantum) (c.ptr + k * c.quantum + c.quantum) → x ∈ c.range := by
      rintro ⟨h1, h2⟩
      refine ⟨by omega, ?_⟩
      rw [hok.extent_small hl]
      omega
    refine (Booked.mmap ?_).congr Iff.rfl ?_
    · rintro hx (hr | hux | hox)
      · exact hR hr c hc (hin hx)
      · obtain ⟨k', -, hb', hx'⟩ := hux.2 (by omega) hl
        rw [unit_eq hx hx', hb'] at hb
        cases hb
      · exact h.others_use hn (hin hx) hox
    · have hge : 4096 ≤ c.quantum := by omega
      simp only [hge, true_and, or_assoc]
      exact or_congr_right (or_congr_right or_comm)

theorem newChunk_bit {p : Nat} (hl : q < 2097152) : (newChunk q p s).bit k = true ↔ k = 0 := by
  unfold newChunk Chunk.bit
  rw [Chunk.taken_small hl]
  dsimp only
  rw [Bitmap.bit_set, Bitmap.bit_zero, Bool.or_false, decide_eq_true_eq]

theorem newChunk_inUse {p j : Nat} (hk : 3 ≤ j) (hq : q = 2^j) :
    ∃ len, grabEffs true q s p p false = [.mmap p len] ∧
      ((newChunk q p s).InUse x ↔ x ∈ Set.Ico p (p + len)) := by
  obtain ⟨eq, ep, ee⟩ := newChunk_extent (s := s) (p := p) hk hq
  unfold grabEffs Chunk.InUse Chunk.range
  rw [if_neg (by decide), eq, ep, ee]
  unfold newExtent
  by_cases h1 : q < 4096
  · have hx := (chunksize_eq hk hq (by omega)).1
    rw [if_pos h1, if_pos rfl, hx, if_pos (show q < 2097152 by omega)]
    exact ⟨_, rfl, fun hu => hu.1, fun hu => ⟨hu, fun h4 => absurd h4 (by omega)⟩⟩
  · rw [if_neg h1]
    by_cases h2 : q < 2097152
    · rw [if_pos h2, if_pos h2]
      refine ⟨_, rfl, fun hu => ?_, fun hu => ⟨⟨hu.1, ?_⟩, fun _ _ => ⟨0, by decide, ?_, ?_⟩⟩⟩
      · obtain ⟨k, -, hb, hx⟩ := hu.2 (by omega) h2
        rw [(newChunk_bit h2).mp hb, Nat.zero_mul, Nat.add_zero] at hx
        exact hx
      · have := hu.2
        omega
      · exact (newChunk_bit h2).mpr rfl
      · rw [Nat.zero_mul, Nat.add_zero]
        exact hu
    · rw [if_neg h2, if_neg h2]
      exact ⟨_, rfl, fun hu => hu.1, fun hu => ⟨hu, fun _ h4 => absurd h4 h2⟩⟩

theorem BlockInv.booked_new {p j : Nat} (hi : BlockInv base (cs ++ [newChunk q p s]) live)
    (hk : 3 ≤ j) (hq : q = 2^j) (hR : R → x ∉ (newChunk q p s).range) :
    Booked x (R ∨ ∃ y ∈ cs, y.InUse x) (grabEffs true q s p p false)
      (R ∨ ∃ y ∈ cs ++ [newChunk q p s], y.InUse x) := by
  obtain ⟨len, he, hu⟩ := newChunk_inUse (x := x) (s := s) (p := p) hk hq
  have hlast : (cs ++ [newChunk q p s])[cs.length]? = some (newChunk q p s) := by simp
  have hoth : others (cs ++ [newChunk q p s]) cs.length = cs := by simp [others]
  rw [he, exists_chunk hlast, hoth, hu]
  refine (Booked.mmap ?_).congr Iff.rfl ?_
  · rintro hx (hr | hex)
    · exact hR hr (hu.mpr hx).1
    · have := hi.others_use hlast (hu.mpr hx).1
      rw [hoth] at this
      exact this hex
  · rw [or_assoc, or_comm (a := ∃ y ∈ cs, y.InUse x)]

theorem Grab.booked (h : BlockInv base cs live) (hi : BlockInv base cs1 (⟨fp, s⟩ :: live)) (hs : 0 < s)
    (hq : quantumOf s = some q) (hg : Grab base cs q a s false cs1 fp effs) :
    Booked x (InMap base cs1 x ∨ ∃ y ∈ cs, y.InUse x) effs (InMem base cs1 x) := by
  obtain ⟨-, j, hj, -, hpow⟩ := quantumOf_spec hs hq
  cases hg with
  | unit hn hcq hl hu hb =>
    rw [← hcq] at hl ⊢
    refine h.booked_unit hn hl hu hb (fun hr y hy hx => h.map_below hy hx ⟨?_, hr.2⟩)
    exact List.ne_nil_of_mem hy
  | new hlen hno hspot hp =>
    refine hi.booked_new hj hpow (fun hr hx => ?_)
    exact hi.map_below (List.mem_append_right _ (List.mem_singleton_self _)) hx hr

theorem Grab.owned (h : BlockInv base cs live) (ho : ∀ y ∈ cs, y.Owned live) (hs : 0 < s)
    (hq : quantumOf s = some q) (hg : Grab base cs q a s false cs1 fp effs) :
    ∀ y ∈ cs1, y.Owned (⟨fp, s⟩ :: live) := by
  obtain ⟨-, j, hj, -, hpow⟩ := quantumOf_spec hs hq
  have hold : ∀ y : Chunk, y.Owned live → y.Owned (⟨fp, s⟩ :: live) := by
    intro y hy
    refine ⟨hy.some, fun h1 k hk hb => ?_, fun h1 => ?_⟩
    · obtain ⟨b, hb, e⟩ := hy.units h1 k hk hb
      exact ⟨b, List.mem_cons_of_mem _ hb, e⟩
    · obtain ⟨b, hb, e⟩ := hy.large h1
      exact ⟨b, List.mem_cons_of_mem _ hb, e⟩
  intro y hy
  cases hg with
  | @unit n k c hn hcq hl hk hb =>
    have hc := List.mem_of_getElem? hn
    rcases List.mem_or_eq_of_mem_set hy with hy | rfl
    · exact hold y (ho y hy)
    · have hok := h.ok c hc
      have hhi := hok.hi
      have hu := unit_bounds (p := c.ptr) (q := c.quantum) hk le_rfl
      rw [hok.extent_small (by omega)] at hhi
      rw [Chunk.taken_small hl]
      refine ⟨fun _ => ⟨k, hk, ?_⟩, fun _ k' hk' hb' => ?_, fun h1 => ?_⟩
      · dsimp only [Chunk.bit]
        rw [Bitmap.bit_set, decide_eq_true rfl, Bool.true_or]
      · dsimp only [Chunk.bit] at hb' ⊢
        rw [Bitmap.bit_set, Bool.or_eq_true, decide_eq_true_eq] at hb'
        rcases hb' with rfl | hb'
        · refine ⟨_, List.mem_cons_self .., ?_⟩
          dsimp only
          rw [← hcq, w64_of_lt]
          omega
        · exact (hold c (ho c hc)).units (by omega) k' hk' hb'
      · dsimp only at h1
        omega
  | new hlen hno hspot hp =>
    rcases List.mem_append.mp hy with hy | hy
    · exact hold y (ho y hy)
    · rw [List.mem_singleton.mp hy]
      change (newChunk q fp s).Owned _
      obtain ⟨eq, ep, -⟩ := newChunk_extent (s := s) (p := fp) hj hpow
      refine ⟨fun h1 => ?_, fun h1 k hk hb => ?_, fun _ => ⟨_, List.mem_cons_self .., ep.symm⟩⟩
      · rw [eq] at h1
        exact ⟨0, by decide, (newChunk_bit h1).mpr rfl⟩
      · rw [eq] at h1
        refine ⟨_, List.mem_cons_self .., ?_⟩
        rw [(newChunk_bit h1).mp hb, ep]
        simp

/-! ## giving memory back -/

theorem Chunk.unmaps_last (hok : c.Ok base) (hcb : c.Holds b) (hsum : c.SumOk m b.ptr)
    (hl : c.last m b.ptr = true) :
    ∃ addr len, c.unmaps m b.ptr = [.munmap addr len] ∧ (c.InUse x ↔ x ∈ Set.Ico addr (addr + len)) := by
  by_cases hs : c.quantum < 2097152
  · have hext := hok.extent_small hs
    unfold Chunk.unmaps Chunk.InUse Chunk.range
    rw [if_pos hs]
    by_cases hp : c.quantum < 4096
    · have hsize : chunksize c.quantum = c.extent := by
        unfold Chunk.extent
        rw [if_pos hs]
      rw [if_pos hp, if_pos hl, hsize]
      exact ⟨_, _, rfl, fun hu => hu.1, fun hu => ⟨hu, fun h4 => absurd h4 (by omega)⟩⟩
    · rw [if_neg hp]
      refine ⟨_, _, rfl, ?_⟩
      have hbits := (Chunk.last_iff_bits hs hsum).mp hl
      rcases hcb with ⟨-, k, hk, hptr, -, hbit⟩ | ⟨hge, -⟩
      · have hu := unit_bounds (p := c.ptr) (q := c.quantum) hk le_rfl
        rw [hptr]
        constructor
        · rintro ⟨-, hx⟩
          obtain ⟨k', hk', hb', hx'⟩ := hx (by omega) hs
          -- the only bit is that of the block
          have hkk : k' = k := by
            by_contra hne
            have h0 := hbits k' hk'
            rw [Chunk.cleared_small hs, hptr, unit_index hok.quantum_pos] at h0
            dsimp only [Chunk.bit] at h0 hb'
            rw [Bitmap.bit_clear, hb', decide_eq_true hne] at h0
            cases h0
          rw [hkk] at hx'
          exact hx'
        · intro hx
          refine ⟨⟨?_, ?_⟩, fun _ _ => ⟨k, hk, hbit, hx⟩⟩
          · have := hx.1
            omega
          · have := hx.2
            rw [hext]
            omega
      · omega
  · have hext : c.extent = (c.map 0).toNat := by
      unfold Chunk.extent
      rw [if_neg hs]
    unfold Chunk.unmaps Chunk.InUse Chunk.range
    rw [if_neg hs, ← hext]
    exact ⟨_, _, rfl, fun hu => hu.1, fun hu => ⟨hu, fun _ h4 => absurd h4 hs⟩⟩

theorem Chunk.small_of_stays {ptr : Nat} (hl : c.last m ptr = false) : c.quantum < 2097152 := by
  by_contra hge
  rw [Chunk.last_large (not_lt.mp hge)] at hl
  cases hl

theorem Chunk.cleared_inUse (hok : c.Ok base) (hcb : c.Holds b) (hs : c.quantum < 2097152) :
    (c.cleared b.ptr).InUse x ↔ c.InUse x ∧
      (4096 ≤ c.quantum → x ∉ Set.Ico b.ptr (b.ptr + c.quantum)) := by
  rcases hcb with ⟨-, k, hk, hptr, -, hbit⟩ | ⟨hge, -⟩
  · have hrange : ({ c with map := Bitmap.clear c.map k } : Chunk).range = c.range :=
      (hok.congr (show ({ c with map := Bitmap.clear c.map k } : Chunk).quantum = c.quantum from rfl)
        rfl hs).2
    rw [Chunk.cleared_small hs, hptr, unit_index hok.quantum_pos]
    unfold Chunk.InUse
    rw [hrange]
    dsimp only [Chunk.bit]
    constructor
    · rintro ⟨hr, hu⟩
      refine ⟨⟨hr, fun h1 h2 => ?_⟩, fun h1 hx => ?_⟩
      · obtain ⟨k', hk', hb', hx'⟩ := hu h1 h2
        rw [Bitmap.bit_clear, Bool.and_eq_true] at hb'
        exact ⟨k', hk', hb'.2, hx'⟩
      · obtain ⟨k', hk', hb', hx'⟩ := hu h1 hs
        rw [Bitmap.bit_clear, Bool.and_eq_true, decide_eq_true_eq] at hb'
        exact hb'.1 (unit_eq hx' hx)
    · rintro ⟨⟨hr, hu⟩, hnot⟩
      refine ⟨hr, fun h1 h2 => ?_⟩
      obtain ⟨k', hk', hb', hx'⟩ := hu h1 h2
      refine ⟨k', hk', ?_, hx'⟩
      have hne : k' ≠ k := by
        rintro rfl
        exact hnot h1 hx'
      rw [Bitmap.bit_clear, hb', decide_eq_true hne]
      rfl
  · omega

theorem Chunk.Holds.unit_inUse (hok : c.Ok base) (hcb : c.Holds b) (hs : c.quantum < 2097152)
    (hx : x ∈ Set.Ico b.ptr (b.ptr + c.quantum)) : c.InUse x := by
  rcases hcb with ⟨-, k, hk, hptr, -, hbit⟩ | ⟨hge, -⟩
  · have hu := unit_bounds (p := c.ptr) (q := c.quantum) hk le_rfl
    rw [hptr] at hx
    refine ⟨⟨?_, ?_⟩, fun _ _ => ⟨k, hk, hbit, hx⟩⟩
    · have := hx.1
      omega
    · have := hx.2
      rw [hok.extent_small hs]
      omega
  · omega

theorem BlockInv.booked_unmaps (h : BlockInv base cs live) (hn : cs[n]? = some c) (hcb : c.Holds b)
    (hsum : c.SumOk m b.ptr) :
    Booked x (InMap base cs x ∨ ∃ y ∈ cs, y.InUse x) (c.unmaps m b.ptr)
      (InMap base cs x ∨ ∃ y ∈ giveBack m cs n b.ptr, y.InUse x) := by
  have hc := List.mem_of_getElem? hn
  have hok := h.ok c hc
  have hlt := (List.getElem?_eq_some_iff.mp hn).1
  have hrest : x ∈ c.range → ¬ (InMap base cs x ∨ ∃ y ∈ others cs n, y.InUse x) := by
    rintro hx (h1 | h1)
    · exact h.map_below hc hx h1
    · exact h.others_use hn hx h1
  rw [exists_chunk hn]
  by_cases hl : c.last m b.ptr = true
  · obtain ⟨addr, len, he, hu⟩ := Chunk.unmaps_last (x := x) hok hcb hsum hl
    have hgb : giveBack m cs n b.ptr = others cs n := by
      rw [giveBack_split hn, if_pos hl]
      rfl
    rw [he, hgb]
    refine (Booked.munmap (fun hx => Or.inr (Or.inl (hu.mpr hx)))).congr Iff.rfl ?_
    rw [← hu]
    constructor
    · rintro ⟨h1 | h1 | h1, h2⟩
      · exact Or.inl h1
      · exact absurd h1 h2
      · exact Or.inr h1
    · intro h1
      refine ⟨?_, fun h2 => hrest h2.1 h1⟩
      rcases h1 with h1 | h1
      · exact Or.inl h1
      · exact Or.inr (Or.inr h1)
  · rw [Bool.not_eq_true] at hl
    have hs := Chunk.small_of_stays hl
    have hgb : giveBack m cs n b.ptr = cs.set n (c.cleared b.ptr) := by
      unfold giveBack
      rw [hn]
      dsimp only
      rw [hl, if_neg (by decide)]
    rw [hgb, exists_chunk_set hlt, Chunk.cleared_inUse hok hcb hs]
    unfold Chunk.unmaps
    rw [if_pos hs]
    by_cases hp : c.quantum < 4096
    · rw [if_pos hp, hl, if_neg (by decide)]
      refine Booked.nil ?_
      have hnot : ¬ 4096 ≤ c.quantum := by omega
      simp only [hnot, false_implies, and_true]
    · rw [if_neg hp]
      have huse := hcb.unit_inUse (x := x) hok hs
      refine (Booked.munmap (fun hx => Or.inr (Or.inl (huse hx)))).congr Iff.rfl ?_
      constructor
      · rintro ⟨h1 | h1 | h1, h2⟩
        · exact Or.inl h1
        · exact Or.inr (Or.inl ⟨h1, fun _ => h2⟩)
        · exact Or.inr (Or.inr h1)
      · rintro (h1 | ⟨h1, h2⟩ | h1)
        · exact ⟨Or.inl h1, fun hx => hrest (huse hx).1 (Or.inl h1)⟩
        · exact ⟨Or.inr (Or.inl h1), h2 (by omega)⟩
        · exact ⟨Or.inr (Or.inr h1), fun hx => hrest (huse hx).1 (Or.inr h1)⟩

theorem BlockInv.booked_release (h : BlockInv base cs live) (hbase : base + 4194304 < 2^64)
    (hn : cs[n]? = some c) (hcb : c.Holds b) (hsum : c.SumOk m b.ptr) :
    Booked x (InMem base cs x) (unmapAll m base cs n b.ptr c)
      (InMem base (giveBack m cs n b.ptr) x) := by
  have hne : cs ≠ [] := List.ne_nil_of_mem (List.mem_of_getElem? hn)
  refine (h.booked_unmaps hn hcb hsum).trans ?_
  by_cases h0 : giveBack m cs n b.ptr = []
  · -- the allocmap goes with the last chunk
    rw [h0, if_pos rfl, w64_of_lt (by omega)]
    refine (Booked.munmap (fun hx => Or.inl ⟨hne, hx⟩)).congr Iff.rfl ?_
    constructor
    · rintro ⟨⟨-, hx⟩ | ⟨y, hy, -⟩, hnot⟩
      · exact absurd hx hnot
      · cases hy
    · rintro (⟨hnil, -⟩ | ⟨y, hy, -⟩)
      · exact absurd rfl hnil
      · cases hy
  · rw [if_neg h0]
    refine Booked.nil ?_
    unfold InMem InMap
    simp only [ne_eq, hne, h0, not_false_eq_true, true_and]

theorem BlockInv.owned_release (h : BlockInv base cs live) (ho : ∀ y ∈ cs, y.Owned live)
    (hn : cs[n]? = some c) (hcb : c.Holds b) : ∀ y ∈ giveBack m cs n b.ptr, y.Owned (live.erase b) := by
  have hc := List.mem_of_getElem? hn
  have hok := h.ok c hc
  have hkeep : ∀ b' ∈ live, b'.ptr ≠ b.ptr → b' ∈ live.erase b := by
    intro b' hb' hne
    refine (List.mem_erase_of_ne ?_).mpr hb'
    rintro rfl
    exact hne rfl
  have hothers : ∀ y ∈ others cs n, y.Owned (live.erase b) := by
    intro y hy
    have hyc : y ∈ cs := by
      rcases List.mem_append.mp hy with hy | hy
      · exact List.mem_of_mem_take hy
      · exact List.mem_of_mem_drop hy
    have hyok := h.ok y hyc
    have hyo := ho y hyc
    -- a pointer into this chunk is not that of `b`
    have hptr : ∀ p, p ∈ y.range → p ≠ b.ptr := by
      rintro p hp rfl
      exact h.others_apart hn (hcb.ptr_mem hok) ⟨y, hy, hp⟩
    refine ⟨hyo.some, fun h1 k hk hb' => ?_, fun h1 => ?_⟩
    · obtain ⟨b', hb'', e⟩ := hyo.units h1 k hk hb'
      refine ⟨b', hkeep b' hb'' (hptr _ ?_), e⟩
      have hu : y.Holds ⟨b'.ptr, 0⟩ := Or.inl ⟨h1, k, hk, e, Nat.zero_le _, hb'⟩
      exact Chunk.Holds.ptr_mem (b := ⟨b'.ptr, 0⟩) hyok hu
    · obtain ⟨b', hb'', e⟩ := hyo.large h1
      refine ⟨b', hkeep b' hb'' (hptr _ ?_), e⟩
      rw [e]
      exact hyok.ptr_mem
  intro y hy
  rw [giveBack_split hn] at hy
  split at hy
  · exact hothers y hy
  · next hl =>
    rw [Bool.not_eq_true] at hl
    have hs := Chunk.small_of_stays hl
    rcases List.mem_append.mp hy with hy | hy
    · exact hothers y (List.mem_append_left _ hy)
    · rcases List.mem_cons.mp hy with rfl | hy
      · rcases hcb with ⟨-, k, hk, hptr, -, -⟩ | ⟨hge, -⟩
        · have hsum : Bitmap.sum (c.cleared b.ptr).map 8 ≠ 0 := by
            intro h0
            have := (Chunk.last_iff hs m b.ptr).mpr (by rw [h0, Nat.zero_mod])
            rw [hl] at this
            cases this
          rw [Ne, Bitmap.sum_eq_zero] at hsum
          push Not at hsum
          obtain ⟨k', hk', hb'⟩ := hsum
          rw [ne_eq, Bool.not_eq_false] at hb'
          refine ⟨fun _ => ⟨k', by omega, hb'⟩, fun h1 i hi hbi => ?_, fun h1 => ?_⟩
          · rw [Chunk.cleared_small hs, hptr, unit_index hok.quantum_pos] at hbi ⊢
            dsimp only [Chunk.bit] at hbi ⊢
            rw [Bitmap.bit_clear, Bool.and_eq_true, decide_eq_true_eq] at hbi
            obtain ⟨b', hb'', e⟩ := (ho c hc).units hs i hi hbi.2
            refine ⟨b', hkeep b' hb'' ?_, e⟩
            intro e'
            rw [e, hptr] at e'
            exact hbi.1 (unit_inj hok.quantum_pos e')
          · rw [Chunk.cleared_small hs] at h1
            dsimp only at h1
            omega
        · omega
      · exact hothers y (List.mem_append_right _ hy)

/-! ## calls -/

/-- `malloc`, `realloc`, `aligned_alloc` and `free` do not set `MAP_SPARE` -/
def BztOp.Plain : BztOp → Prop
  | .alloc _ _ _ spare => spare = false
  | .free _ => True

theorem booked_map (hbase : base + 4194304 < 2^64) (hne : cs1 ≠ []) :
    Booked x (InMem base cs x) (mapEffs base cs) (InMap base cs1 x ∨ ∃ y ∈ cs, y.InUse x) := by
  unfold mapEffs InMem InMap
  split
  · next h0 =>
    rw [h0, w64_of_lt (by omega)]
    refine (Booked.mmap ?_).congr Iff.rfl ?_
    · rintro - (⟨hn, -⟩ | ⟨y, hy, -⟩)
      · exact hn rfl
      · cases hy
    · simp only [ne_eq, hne, not_true_eq_false, not_false_eq_true, true_and, false_and, false_or]
      exact or_comm
  · next h0 =>
    refine Booked.nil ?_
    simp only [ne_eq, hne, h0, not_false_eq_true, true_and]

theorem Edit.booked {op : BztOp} {cs' : List Chunk} (h : BlockInv base cs live)
    (hbase : base + 4194304 < 2^64) (hop : op.Plain) (he : Edit base cs live op cs' live' effs) :
    Booked x (InMem base cs x) effs (InMem base cs' x) := by
  cases he with
  | idle hop' => exact Booked.nil Iff.rfl
  | stay hb hs hc hcb hl hq => exact Booked.nil Iff.rfl
  | @fresh a q s fp spare _ effs hs hq hg hi =>
    obtain rfl : spare = false := hop
    have hne : cs' ≠ [] := by
      rintro rfl
      obtain ⟨c, hc, -⟩ := hi.held ⟨fp, s⟩ (List.mem_cons_self ..)
      cases hc
    rw [if_pos rfl]
    exact ((booked_map hbase hne).trans (hg.booked h hi hs hq)).trans Booked.memzero
  | @move a q s fp n spare b c cs1 effs hb hs hq hg hi hn hn1 hcb hsum =>
    obtain rfl : spare = false := hop
    have hne : cs ≠ [] := List.ne_nil_of_mem (List.mem_of_getElem? hn)
    have hne1 : cs1 ≠ [] := List.ne_nil_of_mem (List.mem_of_getElem? hn1)
    have hsame : InMem base cs x ↔ InMap base cs1 x ∨ ∃ y ∈ cs, y.InUse x := by
      unfold InMem InMap
      simp only [ne_eq, hne, hne1, not_false_eq_true, true_and]
    refine (Booked.trans ?_ Booked.fill).trans (hi.booked_release hbase hn1 hcb hsum)
    exact (hg.booked h hi hs hq).congr hsame Iff.rfl
  | free hop' hb hn hcb hsum => exact h.booked_release hbase hn hcb hsum

theorem Edit.owned {op : BztOp} {cs' : List Chunk} (h : BlockInv base cs live)
    (ho : ∀ y ∈ cs, y.Owned live) (hop : op.Plain) (he : Edit base cs live op cs' live' effs) :
    ∀ y ∈ cs', y.Owned live' := by
  cases he with
  | idle hop' => exact ho
  | @stay a s spare b c hb hs hc hcb hl hq =>
    intro y hy
    have hyo := ho y hy
    -- the block keeps its address
    have hsame : ∀ p, (∃ b' ∈ live, b'.ptr = p) → ∃ b' ∈ (⟨b.ptr, s⟩ :: live.erase b : List Block), b'.ptr = p := by
      rintro p ⟨b', hb', e⟩
      by_cases hbb : b' = b
      · exact ⟨⟨b.ptr, s⟩, List.mem_cons_self .., by rw [← e, hbb]⟩
      · exact ⟨b', List.mem_cons_of_mem _ ((List.mem_erase_of_ne hbb).mpr hb'), e⟩
    exact ⟨hyo.some, fun h1 k hk hb' => hsame _ (hyo.units h1 k hk hb'), fun h1 => hsame _ (hyo.large h1)⟩
  | @fresh a q s fp spare _ effs hs hq hg hi =>
    obtain rfl : spare = false := hop
    exact hg.owned h ho hs hq
  | @move a q s fp n spare b c cs1 effs hb hs hq hg hi hn hn1 hcb hsum =>
    obtain rfl : spare = false := hop
    have hne : b ≠ ⟨fp, s⟩ := by
      rintro rfl
      exact (List.nodup_cons.mp hi.ptrs).1 (List.mem_map_of_mem hb)
    have := hi.owned_release (m := 2^32) (hg.owned h ho hs hq) hn1 hcb
    rwa [List.erase_cons_tail (by simpa using hne.symm)] at this
  | free hop' hb hn hcb hsum => exact h.owned_release ho hn hcb

end

/-! ## runs -/

/-- a program with all that was asked of the kernel so far -/
structure TraceWorld where
  world : BztWorld
  effs : List Eff

/-- calls of `malloc`, `realloc`, `aligned_alloc` and `free` -/
inductive TraceStep : TraceWorld → BztOp → TraceWorld → Prop
  | call {u : TraceWorld} {op : BztOp} {w : BztWorld} (hop : op.Plain) (h : BztStep u.world op w) :
      TraceStep u op ⟨w, u.effs ++ op.effs u.world⟩

def TraceWorld.start (base : Nat) : TraceWorld := ⟨BztWorld.start base, []⟩

/-- nothing is mapped twice or unmapped twice, frees succeed, and without blocks nothing is left -/
structure Balanced (u : TraceWorld) : Prop where
  free : ∀ b ∈ u.world.live, (bztFree u.world.arena b.ptr).err = none
  pages : ∀ x, (ledger x false u.effs).isSome = true
  nomaps : u.world.live = [] → u.world.arena.count = 0 ∧ ∀ i, u.world.arena.slot i = none
  unmapped : u.world.live = [] → ∀ x, ledger x false u.effs = some false

structure TraceInv (base : Nat) (u : TraceWorld) (cs : List Chunk) : Prop where
  bzt : BztInv base u.world cs
  owned : ∀ y ∈ cs, y.Owned u.world.live
  booked : ∀ x, Booked x False u.effs (InMem base cs x)

section
variable {base : Nat} {u u' : TraceWorld} {cs : List Chunk}

theorem TraceInv.start (base : Nat) : TraceInv base (TraceWorld.start base) [] := by
  refine ⟨BztInv.start base, fun y hy => absurd hy (by simp), fun x => Booked.nil ?_⟩
  unfold InMem InMap
  simp

theorem TraceInv.step {op : BztOp} (hi : TraceInv base u cs) (hbase : base + 4194304 < 2^64)
    (hpage : 4096 ∣ base) (hsafe : BztSafe u.world op) (h : TraceStep u op u') :
    ∃ cs', TraceInv base u' cs' := by
  cases h with
  | call hop h =>
    obtain ⟨cs', har, hed⟩ := h.edit hi.bzt.blocks hi.bzt.arena hbase hpage hsafe
    refine ⟨cs', ⟨har, hi.bzt.blocks.edit hed⟩, hed.owned hi.bzt.blocks hi.owned hop, fun x => ?_⟩
    exact (hi.booked x).trans (hed.booked hi.bzt.blocks hbase hop)

theorem TraceInv.nil_of_no_blocks (hi : TraceInv base u cs) (h0 : u.world.live = []) : cs = [] := by
  cases cs with
  | nil => rfl
  | cons c cs =>
    have hc := hi.owned c (List.mem_cons_self ..)
    rw [h0] at hc
    by_cases hs : c.quantum < 2097152
    · obtain ⟨k, hk, hb⟩ := hc.some hs
      obtain ⟨b, hb', -⟩ := hc.units hs k hk hb
      cases hb'
    · obtain ⟨b, hb', -⟩ := hc.large (by omega)
      cases hb'

theorem TraceInv.balanced (hi : TraceInv base u cs) : Balanced u := by
  have hfalse : (false = true) ↔ False := by simp
  refine ⟨fun b hb => ?_, fun x => ?_, fun h0 => ?_, fun h0 x => ?_⟩
  · obtain ⟨c, hc, hcb⟩ := hi.bzt.blocks.held b hb
    have hok := hi.bzt.blocks.ok c hc
    obtain ⟨j, c', -, -, e⟩ := bztFree_spec base hc (hok.hasPtr_iff.mpr (hcb.ptr_mem hok))
      (hi.bzt.blocks.ptr_pos hb)
    rw [hi.bzt.arena, e]
  · obtain ⟨m, hm, -⟩ := hi.booked x false hfalse
    rw [hm]
    rfl
  · have hcs := hi.nil_of_no_blocks h0
    rw [hi.bzt.arena, hcs]
    exact ⟨rfl, fun _ => rfl⟩
  · obtain ⟨m, hm, hiff⟩ := hi.booked x false hfalse
    have hm0 : m ≠ true := by
      rw [Ne, hiff, hi.nil_of_no_blocks h0]
      unfold InMem InMap
      simp
    rw [hm, Bool.eq_false_of_not_eq_true hm0]

end

theorem bzt_balanced {base : Nat} {u : TraceWorld} (hbase : base + 4194304 < 2^64) (hpage : 4096 ∣ base)
    (h : Reach TraceStep (fun u op => BztSafe u.world op) (TraceWorld.start base) u) : Balanced u := by
  have hinv : ∃ cs, TraceInv base u cs := by
    refine h.keeps (I := fun u => ∃ cs, TraceInv base u cs) ⟨[], TraceInv.start base⟩ ?_
    intro v op v' hv hsafe hstep
    obtain ⟨cs, hv⟩ := hv
    exact hv.step hbase hpage hsafe hstep
  obtain ⟨cs, hinv⟩ := hinv
  exact hinv.balanced

/-- `p = malloc(8)`, `free(p)` -/
def bztFreed : TraceWorld :=
  let w := (BztWorld.start 0x100000000).alloc 3 8
  ⟨⟨(bztFree w.arena 0x100400000).arena, w.live.erase ⟨0x100400000, 8⟩⟩,
    ([] ++ BztOp.effs (BztWorld.start 0x100000000) (.alloc (2^3) 0 8 false)) ++
      BztOp.effs w (.free 0x100400000)⟩

theorem bzt_balanced_demo : bztFreed.effs.length = 5 ∧ bztFreed.world.live = [] ∧ Balanced bztFreed := by
  have hbase : 0x100000000 + 4194304 < 2^64 := by decide
  refine ⟨by decide +kernel, by decide +kernel, bzt_balanced hbase (by decide) ?_⟩
  have h1 : TraceStep (TraceWorld.start 0x100000000) (.alloc (2^3) 0 8 false)
      ⟨(BztWorld.start 0x100000000).alloc 3 8,
        [] ++ BztOp.effs (BztWorld.start 0x100000000) (.alloc (2^3) 0 8 false)⟩ :=
    TraceStep.call rfl (BztStep.ofAlloc (by decide) (by decide) (by decide +kernel))
  have hb : (⟨0x100400000, 8⟩ : Block) ∈ ((BztWorld.start 0x100000000).alloc 3 8).live := by
    decide +kernel
  have hsum : ((BztWorld.start 0x100000000).alloc 3 8).arena.SumOk (2^64) 0x100400000 := by
    decide +kernel
  have hsafe : BztSafe ((BztWorld.start 0x100000000).alloc 3 8) (.free 0x100400000) := hsum
  have h2 : TraceStep ⟨(BztWorld.start 0x100000000).alloc 3 8,
        [] ++ BztOp.effs (BztWorld.start 0x100000000) (.alloc (2^3) 0 8 false)⟩ (.free 0x100400000) bztFreed :=
    TraceStep.call trivial (BztStep.free hb)
  refine (Reach.refl.tail ?_ h1).tail hsafe h2
  exact bztSafe_alloc (q := 8) (by decide) rfl (by decide +kernel) (by decide +kernel) (by decide +kernel)

/-- `p = aligned_alloc(256,8)`, `x = aligned_alloc(256,8)`, `realloc(p,100)`: the chunk is gone, and
`free(x)` finds no block -/
theorem bztFree_fails :
    Reach TraceStep (fun _ _ => True) (TraceWorld.start 0x100000000)
      ⟨bztSpread.realloc ⟨0x100400000, 8⟩ 100,
        (([] ++ BztOp.effs (BztWorld.start 0x100000000) (.alloc (2^8) 0 8 false)) ++
          BztOp.effs ((BztWorld.start 0x100000000).alloc 8 8) (.alloc (2^8) 0 8 false)) ++
          BztOp.effs bztSpread (.alloc (2^3) 0x100400000 100 false)⟩ ∧
    (⟨0x100400100, 8⟩ : Block) ∈ (bztSpread.realloc ⟨0x100400000, 8⟩ 100).live ∧
    (bztFree (bztSpread.realloc ⟨0x100400000, 8⟩ 100).arena 0x100400100).err = some .EFAULT := by
  have h1 : TraceStep (TraceWorld.start 0x100000000) (.alloc (2^8) 0 8 false) _ :=
    TraceStep.call rfl (BztStep.ofAlloc (by decide) (by decide) (by decide +kernel))
  have h2 : TraceStep ⟨(BztWorld.start 0x100000000).alloc 8 8,
        [] ++ BztOp.effs (BztWorld.start 0x100000000) (.alloc (2^8) 0 8 false)⟩ (.alloc (2^8) 0 8 false)
      ⟨bztSpread, _⟩ :=
    TraceStep.call rfl (BztStep.ofAlloc (by decide) (by decide) (by decide +kernel))
  have h3 : TraceStep ⟨bztSpread,
        ([] ++ BztOp.effs (BztWorld.start 0x100000000) (.alloc (2^8) 0 8 false)) ++
          BztOp.effs ((BztWorld.start 0x100000000).alloc 8 8) (.alloc (2^8) 0 8 false)⟩
      (.alloc (2^3) 0x100400000 100 false) ⟨bztSpread.realloc ⟨0x100400000, 8⟩ 100, _⟩ :=
    TraceStep.call rfl (BztStep.ofRealloc (b := ⟨0x100400000, 8⟩) (by decide) (by decide +kernel)
      (by decide +kernel))
  refine ⟨((Reach.refl.tail trivial h1).tail trivial h2).tail trivial h3, ?_, ?_⟩
  · decide +kernel
  · decide +kernel

end OsZ
