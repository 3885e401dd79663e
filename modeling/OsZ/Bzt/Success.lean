import OsZ.Bzt.Failed

/-!
# When an allocation succeeds

A request is served from a chunk with a free unit, or from a new chunk when an allocmap has a free record.
If all are full a new allocmap is made only when the number of allocmaps is above the index behind the search,
which it never is.

* `AllocLaw`         `bzt_alloc(arena,8,ptr,s,flag)` returns a block of at least `s` bytes;
* `AllocRoom`        there is a unit or a record, or the old block has room;
* `bztAlloc_total`   the function returns;
* `bzt_success_iff`  the law holds in a reachable arena if and only if there is room.
-/

namespace OsZ

/-- a block that holds `s` bytes, and the old one only if it did -/
def AllocLaw (w : BztWorld) (ptr s : Nat) (spare : Bool) : Prop :=
  ∃ out, bztAlloc mapped w.arena 8 ptr s spare = some out ∧ out.ret ≠ 0 ∧
    (∃ c ∈ out.arena.chunks, c.Holds ⟨out.ret, s⟩) ∧ (out.ret = ptr → ∃ c ∈ w.arena.chunks, c.Holds ⟨ptr, s⟩)

/-- a unit is free, or there is a record for a new chunk and a large one does not go beyond the address space, or
the old block is large enough -/
def AllocRoom (w : BztWorld) (ptr s : Nat) : Prop :=
  ∃ q, quantumOf s = some q ∧ (¬ NoFree w.arena.chunks q q ∨
    (w.arena.chunks.length < 26214 ∧ (2097152 ≤ q → chunkPlace w.arena.base w.arena.chunks q s + q ≤ 2^64)) ∨
    ∃ c ∈ w.arena.chunks, c.Holds ⟨ptr, s⟩)

/-! ## the search returns -/

theorem quantumLoop_total {s : Nat} (n k m : Nat) (hs : s ≤ 2 ^ (k + n)) (hk : k + n < 64) :
    ∃ q, quantumLoop s (n + 1 + m) (2 ^ k) = some q := by
  induction n generalizing k with
  | zero =>
    rw [Nat.zero_add, Nat.add_comm, quantumLoop, if_neg (by rw [Nat.add_zero] at hs; omega)]
    exact ⟨_, rfl⟩
  | succ n ih =>
    rw [show n + 1 + 1 + m = n + 1 + m + 1 by omega, quantumLoop]
    split_ifs
    · rw [← Nat.pow_succ', w64_of_lt (Nat.pow_lt_pow_right (by decide) (by omega))]
      exact ih (k + 1) (by rwa [Nat.add_assoc, Nat.add_comm 1]) (by omega)
    · exact ⟨_, rfl⟩

theorem unitLoop_total (map : Nat → BitVec 64) (n k : Nat) (h : 513 ≤ n + k) (hk : k ≤ 512) :
    ∃ u, unitLoop map 1 n k = some u := by
  induction n generalizing k with
  | zero => omega
  | succ n ih =>
    rw [unitLoop, if_neg (by omega)]
    split_ifs with h1 h2
    · exact ⟨_, rfl⟩
    · exact ⟨_, rfl⟩
    · have hnext : i32 ((k : Int) + 1) = (k + 1 : Nat) := by
        unfold i32
        rw [Int.bmod_eq_of_le (by omega) (by omega)]
        rfl
      rw [show ((1 : Nat) : Int) = 1 from rfl, hnext]
      exact ih (k + 1) (by omega) (by omega)

theorem scanChunks_total {q : Nat} (hq : 0 < q) (ptr i : Nat) (cs : List Chunk) (j : Nat) (r : Scan) :
    ∃ r', scanChunks q q ptr i cs j r = some r' := by
  induction cs generalizing j r with
  | nil => exact ⟨r, rfl⟩
  | cons c cs ih =>
    rw [scanChunks, Nat.div_self hq]
    obtain ⟨u, hu⟩ := unitLoop_total c.map 513 0 le_rfl (by omega)
    have hsome : ∃ v, (if c.quantum = q ∧ q < 2097152 ∧ c.ptr &&& (q - 1) = 0 then unitLoop c.map 1 513 0
        else some none) = some v := by
      split_ifs
      · exact ⟨u, hu⟩
      · exact ⟨none, rfl⟩
    obtain ⟨v, hv⟩ := hsome
    rw [hv]
    exact ih _ _

theorem alignOf_eight {q : Nat} (h : ∃ k, 3 ≤ k ∧ k < 64 ∧ q = 2^k) : alignOf 8 q = q ∧ 0 < q := by
  obtain ⟨k, h3, -, rfl⟩ := h
  have h8 : 2^3 ≤ 2^k := Nat.pow_le_pow_right (by decide) h3
  unfold alignOf
  split_ifs <;> omega

theorem bztAlloc_total {base s : Nat} (hbase : base + 4194304 < 2^64) (hs : 0 < s) (hs' : s ≤ 2^40) (cs : List Chunk)
    (ptr : Nat) (spare : Bool) : ∃ out, bztAlloc mapped (Arena.ofChunks base cs) 8 ptr s spare = some out := by
  obtain ⟨q, hq⟩ : ∃ q, quantumOf s = some q := quantumLoop_total 37 3 26 hs' (by decide)
  obtain ⟨ha, hpos⟩ := alignOf_eight (quantumOf_spec hs hq).2
  obtain ⟨r, hr⟩ := scanChunks_total hpos ptr 1 cs 0 (scanStart base cs)
  unfold bztAlloc
  rw [if_neg (by omega), hq]
  dsimp only
  rw [firstMap_ofChunks]
  dsimp only
  rw [scanMaps_withMap hbase, ha, hr]
  dsimp only [Option.map_some]
  split_ifs
  · exact ⟨_, rfl⟩
  · exact ⟨_, rfl⟩

/-! ## the block -/

theorem roundUp_wraps {a n : Nat} (hn : n < 2^64) (h : ¬ n + a ≤ 2^64) : roundUp a n = 0 := by
  have hw : w64 (n + (a - 1)) < a := by
    unfold w64
    by_cases ha : a ≤ 2^64
    · omega
    · exact lt_of_lt_of_le (Nat.mod_lt _ (by decide)) (by omega)
  unfold roundUp
  rw [Nat.div_eq_of_lt hw, Nat.zero_mul]
  rfl

theorem mem_giveBack {m n j ptr : Nat} {cs : List Chunk} {c : Chunk} (hj : cs[j]? = some c) (hne : j ≠ n) :
    c ∈ giveBack m cs n ptr := by
  unfold giveBack
  split
  · exact List.mem_of_getElem? hj
  · split_ifs
    · exact List.mem_eraseIdx_iff_getElem?.mpr ⟨j, hne, hj⟩
    · refine List.mem_of_getElem? (i := j) ?_
      rw [List.getElem?_set_ne hne.symm]
      exact hj

section
variable {base q s ptr fp : Nat} {cs cs1 : List Chunk} {live : List Block} {spare : Bool} {effs : List Eff}

theorem unit_addr {c : Chunk} {k : Nat} (hok : c.Ok base) (hq : c.quantum = q) (hl : q < 2097152) (hk : k < 512) :
    w64 (c.ptr + k * q) = c.ptr + k * q := by
  have hhi := hok.hi
  rw [hok.extent_small (hq ▸ hl), hq] at hhi
  have := unit_bounds (p := c.ptr) (q := q) hk (Nat.zero_le q)
  exact w64_of_lt (by omega)

theorem UnitAt.not_noFree {n k : Nat} {c : Chunk} (hu : UnitAt q q cs n k c) (hpos : 0 < q) : ¬ NoFree cs q q := by
  obtain ⟨hk, hbit⟩ := unitLoop_some hu.loop
  intro hno
  have := hno c (List.mem_of_getElem? hu.get) hu.quantum hu.small hu.aligned k hk
    (by rw [Nat.div_self hpos]; exact one_dvd k)
  rw [Chunk.bit, hbit] at this
  exact Bool.false_ne_true this

theorem Take.holder (h : BlockInv base cs live) (hbase : base < 2^63) (hpage : 4096 ∣ base) (hs : 0 < s)
    (hs' : s ≤ 2^40)
    (hq : quantumOf s = some q) (ht : Take base cs q q s spare cs1 fp effs) (h0 : fp ≠ 0) :
    (∃ (j : Nat) (c : Chunk), cs1[j]? = some c ∧ c.Holds ⟨fp, s⟩ ∧ cs[j]? ≠ some c) ∧ ∀ b ∈ live, fp ≠ b.ptr := by
  obtain ⟨hsq, hpow⟩ := quantumOf_spec hs hq
  have hpos := (alignOf_eight hpow).2
  cases ht with
  | @unit n k c hu hf =>
    obtain ⟨hk, hbit⟩ := unitLoop_some hu.loop
    have hok := h.ok c (List.mem_of_getElem? hu.get)
    have hlt := (List.getElem?_eq_some_iff.mp hu.get).1
    have hfp := unit_addr hok hu.quantum hu.small hk
    refine ⟨⟨n, c.taken k q s, ?_, ?_, ?_⟩, fun b hb he => ?_⟩
    · rw [List.getElem?_set_self hlt]
    · rw [Chunk.taken_small hu.small, hfp]
      refine Or.inl ⟨by rw [hu.quantum]; exact hu.small, k, hk, by rw [hu.quantum], by rw [hu.quantum]; exact hsq, ?_⟩
      dsimp only [Chunk.bit]
      rw [Bitmap.bit_set, decide_eq_true rfl, Bool.true_or]
    · rw [hu.get]
      exact fun e => Chunk.taken_ne hu.small hbit (Option.some.inj e).symm
    · obtain ⟨i, -, -, hi⟩ := id hpow
      have hg := h.grab hpage hs hsq hpow le_rfl ⟨i, hi⟩ (fun hno => absurd hno (hu.not_noFree hpos))
        ((Take.unit hu hf : Take base cs q q s spare _ _ _).grab h.chunk_ptr_pos)
      exact (List.nodup_cons.mp hg.ptrs).1 (List.mem_map.mpr ⟨b, hb, he.symm⟩)
  | new hlen hno hf hp =>
    obtain ⟨i, h3, h64, hi⟩ := id hpow
    refine ⟨⟨cs.length, newChunk q fp s, by simp [newChunk], newChunk_holds h3 h64 hi hs hsq, by simp⟩,
      fun b hb he => ?_⟩
    obtain ⟨c, hc, hcb⟩ := h.held b hb
    have hok := h.ok c hc
    have hmem := hcb.ptr_mem hok
    unfold Chunk.range at hmem
    rw [Set.mem_Ico, ← he] at hmem
    have hround : chunkPlace base cs q s ≤ fp ∧ (q ∣ chunkPlace base cs q s → fp = chunkPlace base cs q s) := by
      rw [hp]
      split_ifs with hl
      · have hov : chunkPlace base cs q s + q ≤ 2^64 := by
          by_contra hc
          exact h0 (hp.trans ((if_pos hl).trans (roundUp_wraps (chunkPlace_lt (by omega)) hc)))
        exact ⟨le_roundUp hov hpos, roundUp_of_dvd hov hpos⟩
      · exact ⟨le_rfl, fun _ => rfl⟩
    have hspot : Spot base cs q s (chunkPlace base cs q s) := chunkPlace_spot h.chunk_ptr_pos
    rcases hspot with ⟨e, hal, hgap⟩ | ⟨-, htop, -⟩
    · have hg := hgap c hc
      have hr := roundUp_lt (a := 2097152) (n := s) (by omega) (by decide)
      rw [w64_of_lt (by omega)] at hg
      rw [hi, Nat.and_two_pow_sub_one_eq_mod, ← hi] at hal
      have := hround.2 (e ▸ Nat.dvd_of_mod_eq_zero hal)
      omega
    · have := htop c hc
      rw [hok.fin] at this
      omega

theorem Take.room (h : BlockInv base cs live) (hlow : base + 4194304 < 2^64) (hpos : 0 < q)
    (ht : Take base cs q q s spare cs1 fp effs) :
    (fp ≠ 0 ↔ ¬ NoFree cs q q ∨ (cs.length < 26214 ∧ (2097152 ≤ q → chunkPlace base cs q s + q ≤ 2^64))) ∧
    (fp = 0 → ∀ c ∈ cs, c ∈ cs1) := by
  cases ht with
  | @unit n k c hu hf =>
    obtain ⟨hk, hbit⟩ := unitLoop_some hu.loop
    have hok := h.ok c (List.mem_of_getElem? hu.get)
    have hfp := unit_addr hok hu.quantum hu.small hk
    have hlo := hok.lo
    have h0 : w64 (c.ptr + k * q) ≠ 0 := by
      rw [hfp]
      omega
    exact ⟨iff_of_true h0 (Or.inl (hu.not_noFree hpos)), fun he => absurd he h0⟩
  | new hlen hno hf hp =>
    refine ⟨?_, fun _ c hc => List.mem_append_left _ hc⟩
    have hplace : base + 4194304 ≤ chunkPlace base cs q s := by
      unfold chunkPlace
      split_ifs
      · exact le_rfl
      · exact le_topOf cs _
    rw [or_iff_right (not_not_intro hno), and_iff_right hlen, hp]
    split_ifs with hl
    · rw [forall_prop_of_true hl]
      refine ⟨fun h0 => by_contra fun hc => h0 (roundUp_wraps (chunkPlace_lt hlow) hc), fun hov => ?_⟩
      have := le_roundUp hov hpos
      omega
    · exact iff_of_true (by omega) (fun hl' => absurd hl' hl)

end

theorem BztInv.success_iff {base : Nat} {w : BztWorld} {cs : List Chunk} (h : BztInv base w cs) (hbase : base < 2^63)
    (hpage : 4096 ∣ base) {ptr s : Nat} (hptr : ptr = 0 ∨ ∃ b ∈ w.live, b.ptr = ptr)
    (hs : 0 < s) (hs' : s ≤ 2^40) (spare : Bool) : AllocLaw w ptr s spare ↔ AllocRoom w ptr s := by
  have hlow : base + 4194304 < 2^64 := by omega
  obtain ⟨har, hi⟩ := h
  obtain ⟨out, hout⟩ := bztAlloc_total hlow hs hs' cs ptr spare
  obtain ⟨q, hq, hcase⟩ := bztAlloc_spec hlow (by omega) hout
  obtain ⟨hsq, hpow⟩ := quantumOf_spec hs hq
  obtain ⟨ha, hpos⟩ := alignOf_eight hpow
  rw [ha] at hcase
  have hold : ∀ c ∈ cs, ¬ c.Holds ⟨0, s⟩ := fun c hc hh => by
    have h1 := (hh.ptr_mem (hi.ok c hc)).1
    have h2 := (hi.ok c hc).lo
    dsimp only at h1
    omega
  -- the call returns the old pointer
  have hstay : ∀ ar : Arena, ar.chunks = cs → ((ptr ≠ 0 ∧ (∃ c ∈ ar.chunks, c.Holds ⟨ptr, s⟩) ∧
      (ptr = ptr → ∃ c ∈ cs, c.Holds ⟨ptr, s⟩)) ↔ ∃ c ∈ cs, c.Holds ⟨ptr, s⟩) := by
    rintro ar rfl
    refine ⟨fun hh => hh.2.1, fun hh => ⟨?_, hh, fun _ => hh⟩⟩
    rintro rfl
    obtain ⟨c, hc, hh⟩ := hh
    exact hold c hc hh
  unfold AllocLaw AllocRoom
  rw [har, Arena.ofChunks_chunks, Arena.ofChunks_base]
  simp only [hout, Option.some.injEq, exists_eq_left', hq]
  rcases hcase with ⟨c, hc, hcq, hl, h0, hp, rfl⟩ | ⟨hfull, hno, rfl⟩ | ⟨cs1, fp, effs, htk, hrest⟩
  · obtain ⟨b, hb, rfl⟩ := hptr.resolve_left h0
    have hh : c.Holds ⟨b.ptr, s⟩ := by
      rcases hi.holds_of_hasPtr hc hb hp with ⟨h1, k, hk, hpk, -, hbit⟩ | ⟨h1, -⟩
      · exact Or.inl ⟨h1, k, hk, hpk, hcq ▸ hsq, hbit⟩
      · omega
    exact iff_of_true ((hstay _ (Arena.ofChunks_chunks base cs)).mpr ⟨c, hc, hh⟩) (Or.inr (Or.inr ⟨c, hc, hh⟩))
  · rw [hstay _ (Arena.ofChunks_chunks base cs)]
    refine ⟨fun hh => Or.inr (Or.inr hh), ?_⟩
    rintro (hh | ⟨hh, -⟩ | hh)
    · exact absurd hno hh
    · omega
    · exact hh
  · rcases hrest with ⟨h0, rfl⟩ | ⟨h0, hrest⟩
    · have hroom := htk.room hi hlow hpos
      have hfull := (not_congr hroom.1).mp (not_not_intro h0)
      rw [← or_assoc, or_iff_right hfull]
      refine ⟨fun hh => hh.2.2 rfl, fun hh => ⟨?_, ?_, fun _ => hh⟩⟩
      · rintro rfl
        obtain ⟨c, hc, hh⟩ := hh
        exact hold c hc hh
      · obtain ⟨c, hc, hh⟩ := hh
        rw [Arena.ofChunks_chunks]
        exact ⟨c, hroom.2 h0 c hc, hh⟩
    · obtain ⟨⟨j, c, hj, hh, hnew⟩, hne⟩ := htk.holder hi hbase hpage hs hs' hq h0
      have hother : fp = ptr → ∃ c ∈ cs, c.Holds ⟨ptr, s⟩ := by
        rintro rfl
        obtain ⟨b, hb, he⟩ := hptr.resolve_left h0
        exact absurd he.symm (hne b hb)
      refine iff_of_true ?_ (or_assoc.mp (Or.inl ((htk.room hi hlow hpos).1.mp h0)))
      rcases hrest with ⟨-, rfl⟩ | ⟨n, c', -, hn, hn1, -, rfl⟩
      · rw [Arena.ofChunks_chunks]
        exact ⟨h0, ⟨c, List.mem_of_getElem? hj, hh⟩, hother⟩
      · rw [Arena.ofChunks_chunks]
        refine ⟨h0, ⟨c, mem_giveBack hj fun e => hnew ?_, hh⟩, hother⟩
        rw [e] at hj ⊢
        rw [hn, ← hn1, hj]

/-- **When an allocation succeeds.**  In every arena that the program reaches by calls that keep its chunks apart,
a request for up to `2^40` bytes gets a block if and only if there is room for it. -/
theorem bzt_success_iff {base : Nat} {w : BztWorld} (hbase : base < 2^63) (hpage : 4096 ∣ base)
    (h : Reach BztStep BztSafe (BztWorld.start base) w) {ptr s : Nat} (hptr : ptr = 0 ∨ ∃ b ∈ w.live, b.ptr = ptr)
    (hs : 0 < s) (hs' : s ≤ 2^40) (spare : Bool) : AllocLaw w ptr s spare ↔ AllocRoom w ptr s := by
  obtain ⟨cs, hinv⟩ := BztInv.reach (by omega) hpage h
  exact hinv.success_iff hbase hpage hptr hs hs' spare

theorem bzt_success_first : AllocLaw (BztWorld.start 0x100000000) 0 8 false :=
  (bzt_success_iff (by decide) (by decide) Reach.refl (Or.inl rfl) (by decide) (by decide) false).mpr
    ⟨8, rfl, Or.inr (Or.inl ⟨by decide, fun h => absurd h (by decide)⟩)⟩

/-! ## a full allocmap -/

/-- an arena with `n` blocks of a slot each -/
structure Slots (w : BztWorld) (cs : List Chunk) (n : Nat) : Prop where
  reach : Reach BztStep BztSafe (BztWorld.start 0x100000000) w
  inv : BztInv 0x100000000 w cs
  count : cs.length = n
  top : ∀ c ∈ cs, c.ptr + c.extent ≤ 0x100400000 + n * 4194304

theorem noFree_large (cs : List Chunk) : NoFree cs 2097152 2097152 := fun _ _ _ hl => absurd hl (by decide)

theorem Slots.next {w : BztWorld} {cs : List Chunk} {n : Nat} (h : Slots w cs n) (hn : n < 26214) :
    ∃ w' cs', Slots w' cs' (n + 1) := by
  have hq : quantumOf 2097152 = some 2097152 := by decide +kernel
  obtain ⟨base, hbase⟩ : ∃ base, base = 0x100000000 := ⟨_, rfl⟩
  obtain ⟨s, hs⟩ : ∃ s, s = 2097152 := ⟨_, rfl⟩
  obtain ⟨out, hout⟩ := bztAlloc_total (by omega : base + 4194304 < 2^64) (by omega : 0 < s) (by omega) cs 0 false
  rw [hbase, hs] at hout
  have hneeds : needs 2097152 2097152 2097152 = 4194304 := by decide
  have hfits : Fits 0x100000000 cs 2097152 2097152 2097152 := by
    refine ⟨by rw [hneeds]; decide, fun c hc => ?_, fun hl => absurd hl (by decide)⟩
    have := h.top c hc
    rw [hneeds]
    omega
  have hstep : BztStep w (.alloc (2^3) 0 2097152 false) ⟨out.arena, got out 2097152 ++ w.live⟩ :=
    .alloc (by decide) (by decide) (h.inv.arena ▸ hout)
  have hsafe : BztSafe w (.alloc (2^3) 0 2097152 false) := by
    refine bztSafe_alloc (by decide) hq ?_ ?_ fun c hc hp => ?_
    · rw [h.inv.arena, Arena.ofChunks_chunks, Arena.ofChunks_base]
      exact hfits
    · rw [h.inv.arena, Arena.ofChunks_chunks, h.count]
      exact hn
    · rw [h.inv.arena, Arena.ofChunks_chunks] at hc
      have hlo := (h.inv.blocks.ok c hc).lo
      have hmem := ((h.inv.blocks.ok c hc).hasPtr_iff.mp hp).1
      omega
  have hreach := h.reach.tail hsafe hstep
  obtain ⟨cs', hinv⟩ := BztInv.reach (by decide) (by decide) hreach
  obtain ⟨q, hq', hcase⟩ := bztAlloc_spec (by decide) (by decide) hout
  rw [hq, Option.some.injEq] at hq'
  subst hq'
  rw [show alignOf 8 2097152 = 2097152 from rfl] at hcase
  rcases hcase with ⟨c, -, -, hl, -⟩ | ⟨hfull, -⟩ | ⟨cs1, fp, effs, htk, hrest⟩
  · exact absurd hl (by decide)
  · have := h.count
    omega
  · have hcs : cs' = cs1 := by
      have harena : out.arena = Arena.ofChunks 0x100000000 cs1 := by
        rcases hrest with ⟨-, e⟩ | ⟨-, ⟨-, e⟩ | ⟨n, c, h0, -⟩⟩
        · rw [e]
        · rw [e]
        · exact absurd rfl h0
      have := congrArg Arena.chunks (hinv.arena.symm.trans harena)
      rwa [Arena.ofChunks_chunks, Arena.ofChunks_chunks] at this
    subst hcs
    suffices ht : cs'.length = n + 1 ∧ ∀ c ∈ cs', c.ptr + c.extent ≤ 0x100400000 + (n + 1) * 4194304 from
      ⟨_, cs', hreach, hinv, ht.1, ht.2⟩
    cases htk with
    | unit hu hf => exact absurd hu.small (by decide)
    | new hlen hno hf hp =>
      have hplace : chunkPlace 0x100000000 cs 2097152 2097152 ≤ 0x100400000 + n * 4194304 := by
        unfold chunkPlace
        split_ifs
        · omega
        · rcases topOf_cases cs (0x100000000 + 4194304) with e | ⟨c, hc, e⟩
          · omega
          · rw [e, (h.inv.blocks.ok c hc).fin]
            exact h.top c hc
      refine ⟨by rw [List.length_append, h.count]; rfl, fun c hc => ?_⟩
      rcases List.mem_append.mp hc with hc | hc
      · exact (h.top c hc).trans (Nat.add_le_add_left (Nat.mul_le_mul_right _ (Nat.le_succ n)) _)
      · obtain ⟨-, hptr, hext⟩ := newChunk_extent (q := 2097152) (s := 2097152) (p := fp) (k := 21) (by decide)
          (by decide)
        have hround := roundUp_lt (a := 2097152) (n := chunkPlace 0x100000000 cs 2097152 2097152) (by omega) (by decide)
        rw [if_pos le_rfl] at hp
        rw [List.mem_singleton.mp hc]
        show (newChunk 2097152 fp 2097152).ptr + (newChunk 2097152 fp 2097152).extent ≤ _
        rw [hptr, hext, hp, show newExtent 2097152 2097152 = 2097152 by decide]
        omega

theorem slots_exist (n : Nat) (hn : n ≤ 26214) : ∃ w cs, Slots w cs n := by
  induction n with
  | zero => exact ⟨_, [], Reach.refl, BztInv.start _, rfl, fun c hc => absurd hc List.not_mem_nil⟩
  | succ n ih =>
    obtain ⟨w, cs, h⟩ := ih (by omega)
    exact h.next (by omega)

/-- after 26214 requests of a slot each the next one fails -/
theorem bzt_full : ∃ w, Reach BztStep BztSafe (BztWorld.start 0x100000000) w ∧ ¬ AllocLaw w 0 2097152 false := by
  obtain ⟨w, cs, h⟩ := slots_exist 26214 le_rfl
  refine ⟨w, h.reach, fun hlaw => ?_⟩
  obtain ⟨q, hq, hroom⟩ := (h.inv.success_iff (by decide) (by decide) (Or.inl rfl) (by decide) (by decide) false).mp
    hlaw
  rw [show quantumOf 2097152 = some 2097152 by decide +kernel, Option.some.injEq] at hq
  rw [h.inv.arena, Arena.ofChunks_chunks, ← hq] at hroom
  rcases hroom with hno | ⟨hlen, -⟩ | ⟨c, hc, hh⟩
  · exact hno (noFree_large cs)
  · rw [h.count] at hlen
    exact absurd hlen (by decide)
  · have h1 := (hh.ptr_mem (h.inv.blocks.ok c hc)).1
    have h2 := (h.inv.blocks.ok c hc).lo
    dsimp only at h1
    omega

end OsZ
