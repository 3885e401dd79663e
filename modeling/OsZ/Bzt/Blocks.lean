import OsZ.Base.Regions
import OsZ.Bzt.Spec

/-!
# Chunks and the blocks in them

`BlockInv base cs live`: the chunks occupy disjoint address ranges above the allocmap, and every
block of the program is a marked unit of a chunk, or a large chunk.

* `BlockInv.disjoint`  blocks then occupy disjoint ranges;
* `BlockInv.released`  it is kept when a block is given back, if the sum of the words of the bitmap
                       is not a multiple of the word size by accident (`Chunk.SumOk`);
* `BlockInv.grab`      it is kept when memory for a new block is grabbed, if a new chunk has room
                       (`Fits`).
-/

namespace OsZ

/-! ## quanta -/

theorem quantumLoop_spec {s n q r : Nat} (hs : 0 < s) (hq : q = 0 ∨ ∃ k, 3 ≤ k ∧ k < 64 ∧ q = 2^k)
    (h : quantumLoop s n q = some r) : s ≤ r ∧ ∃ k, 3 ≤ k ∧ k < 64 ∧ r = 2^k := by
  induction n generalizing q with
  | zero => exact absurd h (by simp [quantumLoop])
  | succ n ih =>
    rw [quantumLoop] at h
    split at h
    · refine ih ?_ h
      rcases hq with rfl | ⟨k, h3, h64, rfl⟩
      · exact Or.inl rfl
      · by_cases hk : k = 63
        · subst hk
          exact Or.inl rfl
        · refine Or.inr ⟨k + 1, by omega, by omega, ?_⟩
          rw [← Nat.pow_succ', w64_of_lt (Nat.pow_lt_pow_right (by decide) (by omega))]
    · next hge =>
      cases h
      rcases hq with rfl | hq
      · omega
      · exact ⟨by omega, hq⟩

theorem quantumOf_spec {s q : Nat} (hs : 0 < s) (h : quantumOf s = some q) :
    s ≤ q ∧ ∃ k, 3 ≤ k ∧ k < 64 ∧ q = 2^k :=
  quantumLoop_spec hs (Or.inr ⟨3, le_rfl, by decide, rfl⟩) h

theorem chunksize_eq {q k : Nat} (hk : 3 ≤ k) (hq : q = 2^k) (hlt : q < 2097152) :
    chunksize q = q * 512 ∧ 4096 ∣ q * 512 := by
  have h8 : 8 ∣ q := by rw [hq]; exact pow_dvd_pow 2 hk
  obtain ⟨m, rfl⟩ := h8
  refine ⟨?_, ⟨m, by omega⟩⟩
  unfold chunksize
  rw [w64_of_lt (by omega)]
  omega

/-! ## chunks and blocks -/

structure Chunk.Ok (base : Nat) (c : Chunk) : Prop where
  pow : ∃ k, 3 ≤ k ∧ k < 64 ∧ c.quantum = 2^k
  lo : base + 4194304 ≤ c.ptr
  hi : c.ptr + c.extent < 2^64
  pos : 0 < c.extent
  page : 4096 ∣ c.ptr ∧ 4096 ∣ c.extent

def Chunk.range (c : Chunk) : Set Nat := Set.Ico c.ptr (c.ptr + c.extent)

def Block.range (b : Block) : Set Nat := Set.Ico b.ptr (b.ptr + b.size)

/-- `b` is a marked unit of a chunk, or a large chunk -/
def Chunk.Holds (c : Chunk) (b : Block) : Prop :=
  (c.quantum < 2097152 ∧ ∃ k < 512, b.ptr = c.ptr + k * c.quantum ∧ b.size ≤ c.quantum ∧
    c.bit k = true) ∨
  (2097152 ≤ c.quantum ∧ b.ptr = c.ptr ∧ b.size ≤ c.extent)

section
variable {base : Nat} {c : Chunk} {b b' : Block}

theorem Chunk.Ok.fin (h : c.Ok base) : c.fin = c.ptr + c.extent := w64_of_lt h.hi

theorem Chunk.Ok.hasPtr_iff (h : c.Ok base) {p : Nat} : c.hasPtr p = true ↔ p ∈ c.range := by
  unfold Chunk.hasPtr Chunk.range
  rw [h.fin, Bool.and_eq_true, decide_eq_true_eq, decide_eq_true_eq, Set.mem_Ico]

theorem Chunk.Ok.quantum_pos (h : c.Ok base) : 0 < c.quantum := by
  obtain ⟨k, -, -, e⟩ := h.pow
  rw [e]
  exact Nat.two_pow_pos k

theorem Chunk.Ok.extent_small (h : c.Ok base) (hs : c.quantum < 2097152) :
    c.extent = c.quantum * 512 := by
  obtain ⟨k, h3, -, e⟩ := h.pow
  rw [Chunk.extent, if_pos hs]
  exact (chunksize_eq h3 e hs).1

theorem unit_bounds {p q k n : Nat} (hk : k < 512) (hn : n ≤ q) : p + k * q + n ≤ p + q * 512 := by
  have h1 : (k + 1) * q ≤ 512 * q := Nat.mul_le_mul_right q hk
  rw [Nat.add_mul, Nat.one_mul, Nat.mul_comm 512] at h1
  omega

theorem Chunk.Holds.range_subset (h : c.Ok base) (hb : c.Holds b) : b.range ⊆ c.range := by
  rintro x ⟨h1, h2⟩
  rcases hb with ⟨hs, k, hk, hp, hn, -⟩ | ⟨-, hp, hn⟩
  · have hu := unit_bounds (p := c.ptr) (q := c.quantum) hk hn
    refine ⟨?_, ?_⟩
    · rw [hp] at h1
      exact (Nat.le_add_right _ _).trans h1
    · rw [h.extent_small hs]
      rw [hp] at h2
      exact lt_of_lt_of_le h2 hu
  · rw [hp] at h1 h2
    exact ⟨h1, lt_of_lt_of_le h2 (Nat.add_le_add_left hn _)⟩

theorem Chunk.Holds.ptr_mem (h : c.Ok base) (hb : c.Holds b) : b.ptr ∈ c.range := by
  rcases hb with ⟨hs, k, hk, hp, -, -⟩ | ⟨-, hp, -⟩
  · have hu := unit_bounds (p := c.ptr) (q := c.quantum) hk le_rfl
    have hq := h.quantum_pos
    refine ⟨by omega, ?_⟩
    rw [h.extent_small hs]
    omega
  · have := h.pos
    exact ⟨by omega, by omega⟩

theorem unit_index {p q k : Nat} (hq : 0 < q) : (p + k * q - p) / q = k := by
  rw [Nat.add_sub_cancel_left, Nat.mul_div_cancel _ hq]

theorem unit_inj {p q k k' : Nat} (hq : 0 < q) (h : p + k * q = p + k' * q) : k = k' :=
  Nat.eq_of_mul_eq_mul_right hq (Nat.add_left_cancel h)

theorem Chunk.Holds.disjoint (h : c.Holds b) (h' : c.Holds b') (hne : b.ptr ≠ b'.ptr) :
    Disjoint b.range b'.range := by
  rw [Set.disjoint_left]
  rintro x ⟨h1, h2⟩ ⟨h3, h4⟩
  rcases h with ⟨hs, k, hk, hp, hn, -⟩ | ⟨hl, hp, -⟩
  · rcases h' with ⟨-, k', hk', hp', hn', -⟩ | ⟨hl', -⟩
    · rcases Nat.lt_trichotomy k k' with hlt | heq | hlt
      · have : (k + 1) * c.quantum ≤ k' * c.quantum := Nat.mul_le_mul_right _ hlt
        rw [Nat.add_mul, Nat.one_mul] at this
        omega
      · rw [heq] at hp
        exact hne (hp.trans hp'.symm)
      · have : (k' + 1) * c.quantum ≤ k * c.quantum := Nat.mul_le_mul_right _ hlt
        rw [Nat.add_mul, Nat.one_mul] at this
        omega
    · omega
  · rcases h' with ⟨hs', -⟩ | ⟨-, hp', -⟩
    · omega
    · exact hne (hp.trans hp'.symm)

end

structure BlockInv (base : Nat) (cs : List Chunk) (live : List Block) : Prop where
  ok : ∀ c ∈ cs, c.Ok base
  apart : Apart Chunk.range cs
  held : ∀ b ∈ live, ∃ c ∈ cs, c.Holds b
  ptrs : (live.map Block.ptr).Nodup

namespace BlockInv
variable {base : Nat} {cs : List Chunk} {live : List Block}

theorem ptr_ne (h : BlockInv base cs live) {b b' : Block} (hb : b ∈ live) (hb' : b' ∈ live)
    (hne : b ≠ b') : b.ptr ≠ b'.ptr := fun e => hne (List.inj_on_of_nodup_map h.ptrs hb hb' e)

theorem chunk_eq (h : BlockInv base cs live) {c c' : Chunk} {b : Block} (hc : c ∈ cs) (hc' : c' ∈ cs)
    (hb : c.Holds b) (hp : c'.hasPtr b.ptr = true) : c = c' :=
  h.apart.eq_of_mem hc hc' (hb.ptr_mem (h.ok c hc)) ((h.ok c' hc').hasPtr_iff.mp hp)

theorem holds_of_hasPtr (h : BlockInv base cs live) {c : Chunk} {b : Block} (hc : c ∈ cs) (hb : b ∈ live)
    (hp : c.hasPtr b.ptr = true) : c.Holds b := by
  obtain ⟨c', hc', hcb'⟩ := h.held b hb
  rw [← h.chunk_eq hc' hc hcb' hp]
  exact hcb'

theorem chunk_ptr_pos (h : BlockInv base cs live) : ∀ c ∈ cs, c.ptr ≠ 0 := by
  intro c hc
  have := (h.ok c hc).lo
  omega

theorem disjoint (h : BlockInv base cs live) : Apart Block.range live := by
  have hnd : live.Nodup := List.Nodup.of_map _ h.ptrs
  refine List.Pairwise.imp_of_mem ?_ hnd
  intro b b' hb hb' hne
  obtain ⟨c, hc, hcb⟩ := h.held b hb
  obtain ⟨c', hc', hcb'⟩ := h.held b' hb'
  by_cases e : c = c'
  · rw [← e] at hcb'
    exact hcb.disjoint hcb' (h.ptr_ne hb hb' hne)
  · rw [Set.disjoint_left]
    intro x hx hx'
    exact e (h.apart.eq_of_mem hc hc' (hcb.range_subset (h.ok c hc) hx)
      (hcb'.range_subset (h.ok c' hc') hx'))

theorem ptr_pos (h : BlockInv base cs live) {b : Block} (hb : b ∈ live) : b.ptr ≠ 0 := by
  obtain ⟨c, hc, hcb⟩ := h.held b hb
  have h1 := (hcb.ptr_mem (h.ok c hc)).1
  have h2 := (h.ok c hc).lo
  omega

theorem mem_erase (h : BlockInv base cs live) {b b' : Block} (hb' : b' ∈ live.erase b) :
    b' ∈ live ∧ b' ≠ b := by
  have hnd : live.Nodup := List.Nodup.of_map _ h.ptrs
  have := hnd.mem_erase_iff.mp hb'
  exact ⟨this.2, this.1⟩

end BlockInv

/-! ## giving back -/

section
variable {base : Nat} {c : Chunk}

theorem Chunk.cleared_small (hs : c.quantum < 2097152) (ptr : Nat) :
    c.cleared ptr = { c with map := Bitmap.clear c.map ((ptr - c.ptr) / c.quantum) } := if_pos hs

theorem Chunk.last_large (hl : 2097152 ≤ c.quantum) (m ptr : Nat) : c.last m ptr = true :=
  if_neg (by omega)

theorem Chunk.last_iff (hs : c.quantum < 2097152) (m ptr : Nat) :
    c.last m ptr = true ↔ Bitmap.sum (c.cleared ptr).map 8 % m = 0 := by
  unfold Chunk.last
  rw [if_pos hs, decide_eq_true_eq]

theorem Chunk.extent_congr {c' : Chunk} (hq : c'.quantum = c.quantum) (hs : c.quantum < 2097152) :
    c'.extent = c.extent := by
  unfold Chunk.extent
  rw [hq, if_pos hs, if_pos hs]

theorem Chunk.Ok.congr {c' : Chunk} (h : c.Ok base) (hq : c'.quantum = c.quantum) (hp : c'.ptr = c.ptr)
    (hs : c.quantum < 2097152) : c'.Ok base ∧ c'.range = c.range := by
  have he := Chunk.extent_congr hq hs
  refine ⟨⟨?_, ?_, ?_, ?_, ?_⟩, ?_⟩
  · rw [hq]; exact h.pow
  · rw [hp]; exact h.lo
  · rw [hp, he]; exact h.hi
  · rw [he]; exact h.pos
  · rw [hp, he]; exact h.page
  · unfold Chunk.range
    rw [hp, he]

theorem Chunk.Holds.cleared {b b' : Block} (h : c.Ok base) (hb : c.Holds b) (hb' : c.Holds b')
    (hne : b'.ptr ≠ b.ptr) : (c.cleared b.ptr).Holds b' := by
  rcases hb with ⟨hs, k, hk, hp, hn, hbit⟩ | ⟨hl, hp, hn⟩
  · rcases hb' with ⟨-, k', hk', hp', hn', hbit'⟩ | ⟨hl', -⟩
    · rw [Chunk.cleared_small hs]
      refine Or.inl ⟨hs, k', hk', hp', hn', ?_⟩
      show Bitmap.bit (Bitmap.clear c.map _) k' = true
      have hkk : k' ≠ k := by
        rintro rfl
        exact hne (hp'.trans hp.symm)
      rw [Bitmap.bit_clear, hp, unit_index h.quantum_pos, decide_eq_true hkk, Bool.true_and]
      exact hbit'
    · omega
  · rcases hb' with ⟨hs', -⟩ | ⟨-, hp', -⟩
    · omega
    · exact absurd (hp'.trans hp.symm) hne

end

theorem mem_others {cs : List Chunk} {c x : Chunk} {n : Nat} (hn : cs[n]? = some c) (hx : x ∈ cs)
    (hne : x ≠ c) : x ∈ cs.take n ++ cs.drop (n+1) := by
  rw [chunks_split hn] at hx
  rcases List.mem_append.mp hx with hx | hx
  · exact List.mem_append_left _ hx
  · exact List.mem_append_right _ ((List.mem_cons.mp hx).resolve_left hne)

/-- the words of the bitmap without the bit of the block do not add up to a multiple of `m`, unless
they are all zero -/
def Chunk.SumOk (m : Nat) (c : Chunk) (ptr : Nat) : Prop :=
  c.quantum < 2097152 →
    Bitmap.sum (c.cleared ptr).map 8 % m = 0 → Bitmap.sum (c.cleared ptr).map 8 = 0

theorem Chunk.Holds.alone {base m : Nat} {c : Chunk} {b b' : Block} (h : c.Ok base) (hb : c.Holds b)
    (hb' : c.Holds b') (hne : b'.ptr ≠ b.ptr) (hl : c.last m b.ptr = true)
    (hsum : c.SumOk m b.ptr) : False := by
  by_cases hs : c.quantum < 2097152
  · have h0 := hsum hs ((Chunk.last_iff hs m b.ptr).mp hl)
    rw [Bitmap.sum_eq_zero] at h0
    have hq : (c.cleared b.ptr).quantum = c.quantum := by rw [Chunk.cleared_small hs]
    rcases Chunk.Holds.cleared h hb hb' hne with ⟨-, k, hk, -, -, hbit⟩ | ⟨hl', -⟩
    · have := h0 k (by omega)
      unfold Chunk.bit at hbit
      rw [this] at hbit
      cases hbit
    · rw [hq] at hl'
      omega
  · rcases hb with ⟨hs', -⟩ | ⟨-, hp, -⟩
    · exact hs hs'
    · rcases hb' with ⟨hs', -⟩ | ⟨-, hp', -⟩
      · exact hs hs'
      · exact hne (hp'.trans hp.symm)

theorem BlockInv.replace {base n : Nat} {cs : List Chunk} {live live' : List Block} {c c' : Chunk}
    (h : BlockInv base cs live) (hn : cs[n]? = some c) (hok : c'.Ok base) (hrange : c'.range = c.range)
    (hptrs : (live'.map Block.ptr).Nodup)
    (hheld : ∀ b ∈ live', c'.Holds b ∨ ∃ x ∈ cs, x ≠ c ∧ x.Holds b) :
    BlockInv base (cs.take n ++ c' :: cs.drop (n+1)) live' := by
  have hap := h.apart
  rw [chunks_split hn] at hap
  refine ⟨fun x hx => ?_, ?_, fun b hb => ?_, hptrs⟩
  · rcases List.mem_append.mp hx with hx | hx
    · exact h.ok x (List.mem_of_mem_take hx)
    · rcases List.mem_cons.mp hx with rfl | hx
      · exact hok
      · exact h.ok x (List.mem_of_mem_drop hx)
  · refine hap.replace (m := [c']) Apart.single (X := ∅) ?_ (Set.disjoint_empty _)
    rw [cover_cons, cover_nil, hrange]
  · rcases hheld b hb with hb' | ⟨x, hx, hne, hxb⟩
    · exact ⟨c', List.mem_append_right _ (List.mem_cons_self ..), hb'⟩
    · refine ⟨x, ?_, hxb⟩
      rcases List.mem_append.mp (mem_others hn hx hne) with hx | hx
      · exact List.mem_append_left _ hx
      · exact List.mem_append_right _ (List.mem_cons_of_mem _ hx)

theorem BlockInv.released {base m n : Nat} {cs : List Chunk} {live : List Block} {b : Block} {c : Chunk}
    (h : BlockInv base cs live) (hb : b ∈ live) (hn : cs[n]? = some c) (hcb : c.Holds b)
    (hsum : c.SumOk m b.ptr) : BlockInv base (giveBack m cs n b.ptr) (live.erase b) := by
  have hc : c ∈ cs := List.mem_of_getElem? hn
  have hcok := h.ok c hc
  have hptrs : ((live.erase b).map Block.ptr).Nodup := h.ptrs.sublist ((List.erase_sublist).map _)
  -- the other blocks and where they are
  have hothers : ∀ b' ∈ live.erase b, b'.ptr ≠ b.ptr ∧ ∃ c' ∈ cs, c'.Holds b' := by
    intro b' hb'
    obtain ⟨hmem, hne⟩ := h.mem_erase hb'
    exact ⟨h.ptr_ne hmem hb hne, h.held b' hmem⟩
  rw [giveBack_split hn]
  split
  · next hl =>
    have hap := h.apart
    rw [chunks_split hn] at hap
    refine ⟨fun x hx => h.ok x ?_, hap.drop, fun b' hb' => ?_, hptrs⟩
    · rcases List.mem_append.mp hx with hx | hx
      · exact List.mem_of_mem_take hx
      · exact List.mem_of_mem_drop hx
    · obtain ⟨hne, c', hc', hcb'⟩ := hothers b' hb'
      refine ⟨c', mem_others hn hc' ?_, hcb'⟩
      rintro rfl
      exact hcb.alone hcok hcb' hne hl hsum
  · next hl =>
    have hs : c.quantum < 2097152 := by
      by_contra hge
      exact hl (Chunk.last_large (not_lt.mp hge) m b.ptr)
    have hq : (c.cleared b.ptr).quantum = c.quantum := by rw [Chunk.cleared_small hs]
    have hpt : (c.cleared b.ptr).ptr = c.ptr := by rw [Chunk.cleared_small hs]
    obtain ⟨hok', hrange⟩ := hcok.congr hq hpt hs
    refine h.replace hn hok' hrange hptrs (fun b' hb' => ?_)
    obtain ⟨hne, c', hc', hcb'⟩ := hothers b' hb'
    by_cases e : c' = c
    · rw [e] at hcb'
      exact Or.inl (hcb.cleared hcok hcb' hne)
    · exact Or.inr ⟨c', hc', e, hcb'⟩

/-! ## grabbing -/

def newExtent (q s : Nat) : Nat := if q < 2097152 then q * 512 else roundUp 2097152 s

/-- room a new chunk may take above the top, with the padding before a large one -/
def needs (q a s : Nat) : Nat := if q < 2097152 then q * 512 else a + roundUp 2097152 s

/-- a new chunk has room: the address space does not end, and if the gap behind the allocmap is
taken (it has more than `s` bytes, rounded up to slots) the whole chunk fits there -/
structure Fits (base : Nat) (cs : List Chunk) (q a s : Nat) : Prop where
  room : base + 4194304 + needs q a s < 2^64
  top : ∀ c ∈ cs, c.ptr + c.extent + needs q a s < 2^64
  gap : q < 2097152 → (base + 4194304) &&& (a - 1) = 0 →
    (∀ c ∈ cs, w64 (base + 4194304 + roundUp 2097152 s) < c.ptr) →
    ∀ c ∈ cs, base + 4194304 + q * 512 ≤ c.ptr

theorem alignOf_pow {k q : Nat} (hq : ∃ j, 3 ≤ j ∧ j < 64 ∧ q = 2^j) :
    q ≤ alignOf (2^k) q ∧ ∃ i, alignOf (2^k) q = 2^i := by
  obtain ⟨j, -, -, rfl⟩ := hq
  unfold alignOf
  split
  · exact ⟨le_rfl, j, rfl⟩
  · next h => exact ⟨not_lt.mp h, k, rfl⟩

theorem page_dvd_pow {a i : Nat} (ha : a = 2^i) (h : 2097152 ≤ a) : 4096 ∣ a := by
  have h1 : 2^12 ≤ 2^i := by
    rw [← ha]
    exact le_trans (by decide) h
  rw [ha]
  exact pow_dvd_pow 2 ((Nat.pow_le_pow_iff_right (by decide)).mp h1)

section
variable {base q a s : Nat} {cs : List Chunk}

theorem Spot.place {p₀ p : Nat} (hok : ∀ c ∈ cs, c.Ok base) (hpage : 4096 ∣ base)
    (hf : Fits base cs q a s) (hq : 0 < q) (hqa : q ≤ a) (ha : ∃ i, a = 2^i)
    (hspot : Spot base cs a s p₀) (hp : p = if 2097152 ≤ q then roundUp a p₀ else p₀) :
    base + 4194304 ≤ p ∧ 4096 ∣ p ∧ p + newExtent q s < 2^64 ∧
      ∀ c ∈ cs, c.ptr + c.extent ≤ p ∨ p + newExtent q s ≤ c.ptr := by
  have hbase : 4096 ∣ base + 4194304 := (Nat.dvd_add_right hpage).mpr ⟨1024, rfl⟩
  -- the place before rounding
  have h₀ : base + 4194304 ≤ p₀ ∧ 4096 ∣ p₀ ∧ p₀ + needs q a s < 2^64 := by
    rcases hspot with ⟨e, -⟩ | ⟨hle, -, e | ⟨c, hc, e⟩⟩
    · rw [e]; exact ⟨le_rfl, hbase, hf.room⟩
    · rw [e]; exact ⟨le_rfl, hbase, hf.room⟩
    · rw [(hok c hc).fin] at e
      refine ⟨hle, ?_, by rw [e]; exact hf.top c hc⟩
      rw [e]
      exact Nat.dvd_add (hok c hc).page.1 (hok c hc).page.2
  obtain ⟨hlo, hdvd, hroom⟩ := h₀
  have hge : p₀ ≤ p ∧ 4096 ∣ p ∧ p + newExtent q s < 2^64 := by
    unfold newExtent
    unfold needs at hroom
    by_cases hl : q < 2097152
    · rw [if_neg (by omega)] at hp
      rw [if_pos hl] at hroom ⊢
      rw [hp]
      exact ⟨le_rfl, hdvd, hroom⟩
    · rw [if_pos (by omega)] at hp
      rw [if_neg hl] at hroom ⊢
      obtain ⟨i, hi⟩ := ha
      have hov : p₀ + a ≤ 2^64 := by omega
      have h1 := le_roundUp hov (by omega)
      have h2 := roundUp_lt hov (by omega)
      rw [hp]
      exact ⟨h1, (page_dvd_pow hi (by omega)).trans (dvd_roundUp hov (by omega)), by omega⟩
  refine ⟨hlo.trans hge.1, hge.2.1, hge.2.2, fun c hc => ?_⟩
  rcases hspot with ⟨e, hal, hgap⟩ | ⟨-, htop, -⟩
  · right
    -- the gap: rounding changes nothing there
    have hpe : p = base + 4194304 := by
      rw [hp, e]
      split
      · next hl =>
        obtain ⟨i, hi⟩ := ha
        unfold needs at hroom
        rw [if_neg (by omega)] at hroom
        refine roundUp_of_dvd (by omega) (by omega) ?_
        rw [hi, Nat.and_two_pow_sub_one_eq_mod] at hal
        rw [hi]
        exact Nat.dvd_of_mod_eq_zero hal
      · rfl
    rw [hpe]
    unfold newExtent
    by_cases hl : q < 2097152
    · rw [if_pos hl]
      exact hf.gap hl hal hgap c hc
    · rw [if_neg hl]
      have h1 := hgap c hc
      have h2 := hge.2.2
      rw [hpe, newExtent, if_neg hl] at h2
      rw [w64_of_lt h2] at h1
      exact h1.le
  · left
    have h1 := htop c hc
    rw [(hok c hc).fin] at h1
    exact h1.trans hge.1

/-- the chunk `addChunk` makes, once its first unit is taken -/
def newChunk (q p s : Nat) : Chunk := (⟨q, p, fun _ => 0⟩ : Chunk).taken 0 q s

theorem newChunk_extent {p k : Nat} (hk : 3 ≤ k) (hq : q = 2^k) :
    (newChunk q p s).quantum = q ∧ (newChunk q p s).ptr = p ∧
      (newChunk q p s).extent = newExtent q s := by
  unfold newChunk Chunk.taken newExtent
  by_cases hl : q < 2097152
  · rw [if_pos hl, if_pos hl]
    refine ⟨rfl, rfl, ?_⟩
    rw [Chunk.extent, if_pos hl]
    exact (chunksize_eq hk hq hl).1
  · rw [if_neg hl, if_neg hl]
    refine ⟨rfl, rfl, ?_⟩
    rw [Chunk.extent, if_neg hl]
    dsimp only
    rw [Function.update_self, BitVec.toNat_ofNat]
    exact Nat.mod_eq_of_lt (w64_lt _)

theorem newExtent_spec {k : Nat} (hk : 3 ≤ k) (hk' : k < 64) (hq : q = 2^k) (hs : 0 < s) (hsq : s ≤ q) :
    4096 ∣ newExtent q s ∧ 0 < newExtent q s ∧ s ≤ newExtent q s := by
  unfold newExtent
  by_cases hl : q < 2097152
  · rw [if_pos hl]
    exact ⟨(chunksize_eq hk hq hl).2, by omega, by omega⟩
  · have hq63 : q ≤ 2^63 := by
      rw [hq]
      exact Nat.pow_le_pow_right (by decide) (by omega)
    have hov : s + 2097152 ≤ 2^64 := by omega
    have h1 := le_roundUp hov (by decide)
    rw [if_neg hl]
    exact ⟨(Dvd.intro 512 rfl).trans (dvd_roundUp hov (by decide)), by omega, h1⟩

theorem newChunk_holds {p k : Nat} (hk : 3 ≤ k) (hk' : k < 64) (hq : q = 2^k) (hs : 0 < s)
    (hsq : s ≤ q) : (newChunk q p s).Holds ⟨p, s⟩ := by
  obtain ⟨eq, ep, ee⟩ := newChunk_extent (s := s) (p := p) hk hq
  unfold Chunk.Holds
  rw [eq, ep, ee]
  by_cases hl : q < 2097152
  · refine Or.inl ⟨hl, 0, by decide, by simp, hsq, ?_⟩
    unfold newChunk Chunk.taken Chunk.bit
    rw [if_pos hl]
    dsimp only
    rw [Bitmap.bit_set]
    rfl
  · exact Or.inr ⟨by omega, rfl, (newExtent_spec hk hk' hq hs hsq).2.2⟩

theorem Chunk.taken_small {c : Chunk} (hq : q < 2097152) (k : Nat) :
    c.taken k q s = { c with map := Bitmap.set c.map k } := if_pos hq

theorem Chunk.Holds.taken {c : Chunk} {b : Block} (hb : c.Holds b) (hq : c.quantum = q)
    (hl : q < 2097152) (k : Nat) : (c.taken k q s).Holds b := by
  rw [Chunk.taken_small hl]
  rcases hb with ⟨hs, k', hk', hp, hn, hbit⟩ | ⟨hl', -⟩
  · refine Or.inl ⟨hs, k', hk', hp, hn, ?_⟩
    unfold Chunk.bit at hbit ⊢
    dsimp only
    rw [Bitmap.bit_set, hbit, Bool.or_true]
  · omega

theorem BlockInv.grab {live : List Block} {spare : Bool} {cs1 : List Chunk} {fp : Nat} {effs : List Eff}
    (h : BlockInv base cs live) (hpage : 4096 ∣ base) (hs : 0 < s) (hsq : s ≤ q)
    (hq : ∃ k, 3 ≤ k ∧ k < 64 ∧ q = 2^k) (hqa : q ≤ a) (ha : ∃ i, a = 2^i)
    (hf : NoFree cs q a → Fits base cs q a s) (hg : Grab base cs q a s spare cs1 fp effs) :
    BlockInv base cs1 (⟨fp, s⟩ :: live) := by
  obtain ⟨k₀, h3, h64, hpow⟩ := hq
  cases hg with
  | @unit n k c hn hcq hl hk hb =>
    have hc : c ∈ cs := List.mem_of_getElem? hn
    have hcok := h.ok c hc
    have hlt : n < cs.length := (List.getElem?_eq_some_iff.mp hn).1
    have hsmall : c.quantum < 2097152 := by omega
    have hfp : w64 (c.ptr + k * q) = c.ptr + k * q := by
      have hu := unit_bounds (p := c.ptr) (q := c.quantum) hk hcok.quantum_pos
      have hhi := hcok.hi
      rw [hcok.extent_small hsmall] at hhi
      rw [hcq] at hu hhi
      exact w64_of_lt (by omega)
    have htq : (c.taken k q s).quantum = c.quantum := by rw [Chunk.taken_small hl]
    have htp : (c.taken k q s).ptr = c.ptr := by rw [Chunk.taken_small hl]
    obtain ⟨hok', hrange⟩ := hcok.congr htq htp hsmall
    have hset : cs.set n (c.taken k q s) = cs.take n ++ c.taken k q s :: cs.drop (n+1) := by
      rw [List.set_eq_take_append_cons_drop, if_pos hlt]
    have hnew : (c.taken k q s).Holds ⟨w64 (c.ptr + k * q), s⟩ := by
      rw [Chunk.taken_small hl]
      refine Or.inl ⟨hsmall, k, hk, by rw [hfp, hcq], by rw [hcq]; exact hsq, ?_⟩
      unfold Chunk.bit
      dsimp only
      rw [Bitmap.bit_set, decide_eq_true rfl, Bool.true_or]
    rw [hset]
    refine h.replace hn hok' hrange ?_ (fun b hb' => ?_)
    · rw [List.map_cons, List.nodup_cons]
      refine ⟨fun hmem => ?_, h.ptrs⟩
      obtain ⟨b, hbl, e⟩ := List.mem_map.mp hmem
      dsimp only at e
      -- a block at this address would be the marked unit `k`
      obtain ⟨c', hc', hcb'⟩ := h.held b hbl
      have hin : c.hasPtr b.ptr = true := by
        rw [hcok.hasPtr_iff, e, ← hrange]
        exact hnew.ptr_mem hok'
      rw [h.chunk_eq hc' hc hcb' hin] at hcb'
      rcases hcb' with ⟨-, k', -, hp', -, hbit'⟩ | ⟨hl', -⟩
      · rw [e, hfp, ← hcq] at hp'
        rw [← unit_inj hcok.quantum_pos hp', hb] at hbit'
        cases hbit'
      · omega
    · rcases List.mem_cons.mp hb' with rfl | hb'
      · exact Or.inl hnew
      · obtain ⟨c', hc', hcb'⟩ := h.held b hb'
        by_cases e : c' = c
        · rw [e] at hcb'
          exact Or.inl (hcb'.taken hcq hl k)
        · exact Or.inr ⟨c', hc', e, hcb'⟩
  | @new p₀ _ hlen hno hspot hp =>
    have hq0 : 0 < q := by omega
    obtain ⟨hlo, hdvd, hhi, hdis⟩ := hspot.place h.ok hpage (hf hno) hq0 hqa ha hp
    obtain ⟨eq, ep, ee⟩ := newChunk_extent (s := s) (p := fp) h3 hpow
    obtain ⟨he1, he2, -⟩ := newExtent_spec h3 h64 hpow hs hsq
    have hok' : (newChunk q fp s).Ok base := by
      refine ⟨⟨k₀, h3, h64, by rw [eq]; exact hpow⟩, ?_, ?_, ?_, ?_⟩
      · rw [ep]; exact hlo
      · rw [ep, ee]; exact hhi
      · rw [ee]; exact he2
      · rw [ep, ee]; exact ⟨hdvd, he1⟩
    have hcov : Disjoint (cover Chunk.range cs) (newChunk q fp s).range := by
      rw [Set.disjoint_left]
      rintro x ⟨c, hc, h1, h2⟩ ⟨h3, h4⟩
      rw [ep] at h3 h4
      rw [ee] at h4
      rcases hdis c hc with hd | hd <;> omega
    have hnew := newChunk_holds (p := fp) h3 h64 hpow hs hsq
    refine ⟨fun x hx => ?_, h.apart.add hcov, fun b hb' => ?_, ?_⟩
    · rcases List.mem_append.mp hx with hx | hx
      · exact h.ok x hx
      · rw [List.mem_singleton.mp hx]
        exact hok'
    · rcases List.mem_cons.mp hb' with rfl | hb'
      · exact ⟨_, List.mem_append_right _ (List.mem_singleton_self _), hnew⟩
      · obtain ⟨c, hc, hcb⟩ := h.held b hb'
        exact ⟨c, List.mem_append_left _ hc, hcb⟩
    · rw [List.map_cons, List.nodup_cons]
      refine ⟨fun hmem => ?_, h.ptrs⟩
      obtain ⟨b, hbl, e⟩ := List.mem_map.mp hmem
      obtain ⟨c, hc, hcb⟩ := h.held b hbl
      have h1 := hcb.ptr_mem (h.ok c hc)
      rw [e] at h1
      exact Set.disjoint_left.mp hcov ⟨c, hc, h1⟩ (hnew.ptr_mem hok')

end

end OsZ
