import OsZ.Base.Ram
import OsZ.Bzt.Empty

/-!
# What the calls do to memory

The effects of a call are run on a memory of which only what was mapped for the arena is mapped.

* `runEffs`           the effects in order; `none` is an access to memory that is not mapped;
* `Chunk.Backed`      the memory of a chunk that is mapped: all of it, its marked units, or the block;
* `CopySafe`          calls that copy and clear no more than the new block has: no `MAP_SPARE`, no
                      smaller quantum than before, and in a large chunk no gap behind the block;
* `bzt_contents`      such calls keep the contents of all blocks;
* `bzt_data_kept`     so does a whole run for a block it leaves alone;
* `bztAlloc_faults`   `realloc(malloc(8),5000000)` clears memory that is not mapped.
-/

namespace OsZ

/-- `fresh` is what the kernel leaves in the memory it maps -/
def runEff (fresh : Nat → UInt8) (r : Ram UInt8) : Eff → Option (Ram UInt8)
  | .mmap addr len => some (r.give fresh addr len)
  | .munmap addr len => some (r.drop addr len)
  | .memzero addr len => r.fill 0 addr len
  | .memcpy dst src len => r.copy dst src len

def runEffs (fresh : Nat → UInt8) (r : Ram UInt8) : List Eff → Option (Ram UInt8)
  | [] => some r
  | e :: effs => (runEff fresh r e).bind (fun r => runEffs fresh r effs)

section
variable {f : Nat → UInt8} {r r₁ r₂ : Ram UInt8} {effs effs' : List Eff}

theorem runEffs_append (h : runEffs f r effs = some r₁) (h' : runEffs f r₁ effs' = some r₂) :
    runEffs f r (effs ++ effs') = some r₂ := by
  induction effs generalizing r with
  | nil =>
    cases h
    exact h'
  | cons e effs ih =>
    rw [runEffs, Option.bind_eq_some_iff] at h
    obtain ⟨r', h1, h2⟩ := h
    rw [List.cons_append, runEffs, h1]
    exact ih h2

theorem runEffs_mmap (addr len : Nat) :
    runEffs f r [.mmap addr len] = some (r.give f addr len) := rfl

theorem runEffs_unmap (h : ∀ e ∈ effs, ∃ addr len, e = .munmap addr len) :
    ∃ r', runEffs f r effs = some r' ∧
      ∀ x, (∀ addr len, .munmap addr len ∈ effs → x ∉ Set.Ico addr (addr + len)) → r' x = r x := by
  induction effs generalizing r with
  | nil => exact ⟨r, rfl, fun x _ => rfl⟩
  | cons e effs ih =>
    obtain ⟨addr, len, rfl⟩ := h e (List.mem_cons_self ..)
    obtain ⟨r', hr, hx⟩ := ih (r := r.drop addr len) (fun e he => h e (List.mem_cons_of_mem _ he))
    refine ⟨r', hr, fun x hno => ?_⟩
    rw [hx x (fun a l hm => hno a l (List.mem_cons_of_mem _ hm))]
    exact Ram.drop_out (hno addr len (List.mem_cons_self ..))

theorem runEffs_fill {fp ptr oq q : Nat} (hdst : r.Mapped fp q) (hsrc : r.Mapped ptr oq) (hle : oq ≤ q)
    (hdis : Disjoint (Set.Ico fp (fp + q)) (Set.Ico ptr (ptr + oq))) (hlt : fp + q < 2^64) :
    ∃ r', runEffs f r (fillEffs fp ptr oq q false) = some r' ∧
      (∀ x, (r x).isSome = true → (r' x).isSome = true) ∧
      (∀ x, x ∉ Set.Ico fp (fp + q) → r' x = r x) ∧ ∀ i < oq, r' (fp + i) = r (ptr + i) := by
  have hdst' : r.Mapped fp oq := hdst.mono le_rfl (by omega)
  have hd : Disjoint (Set.Ico fp (fp + oq)) (Set.Ico ptr (ptr + oq)) :=
    hdis.mono_left (Set.Ico_subset_Ico_right (by omega))
  have hcopy : r.copy fp ptr oq = some (Ram.copyUp fp ptr oq r) := if_pos ⟨hsrc, hdst'⟩
  have hsome : ∀ x, (r x).isSome = true → (Ram.copyUp fp ptr oq r x).isSome = true :=
    fun x hx => Ram.isSome_copyUp hsrc hdst' hx
  have hout : ∀ x, x ∉ Set.Ico fp (fp + q) → Ram.copyUp fp ptr oq r x = r x := by
    intro x hx
    refine Ram.copyUp_out (fun hin => hx ⟨hin.1, ?_⟩)
    have := hin.2
    omega
  unfold fillEffs
  rw [if_pos rfl, runEffs, runEff, hcopy, Option.bind_some]
  by_cases hq : oq < q
  · have hm : (Ram.copyUp fp ptr oq r).Mapped (fp + oq) (q - oq) :=
      (hdst.congr (fun x _ _ => hsome x)).mono (by omega) (by omega)
    rw [if_pos hq, w64_of_lt (by omega), runEffs, runEff, Ram.fill_eq 0 hm]
    refine ⟨_, rfl, fun x hx => Ram.isSome_give (hsome x hx), fun x hx => ?_, fun i hi => ?_⟩
    · rw [Ram.give_out (fun hin => hx ⟨?_, ?_⟩), hout x hx]
      · exact (Nat.le_add_right _ _).trans hin.1
      · have := hin.2
        omega
    · rw [Ram.give_out (fun hin => ?_), Ram.copyUp_in hd hi]
      have := hin.1
      omega
  · rw [if_neg hq]
    exact ⟨_, rfl, hsome, hout, fun i hi => Ram.copyUp_in hd hi⟩

end

/-! ## the memory of a chunk -/

def Chunk.Backed (c : Chunk) (r : Ram UInt8) : Prop :=
  if c.quantum < 4096 then r.Mapped c.ptr c.extent
  else if c.quantum < 2097152 then
    ∀ k < 512, c.bit k = true → r.Mapped (c.ptr + k * c.quantum) c.quantum
  else c.extent = c.quantum ∧ r.Mapped c.ptr c.quantum

section
variable {base : Nat} {r r' : Ram UInt8} {c : Chunk} {b : Block}

theorem Chunk.Backed.congr (h : c.Backed r) (hok : c.Ok base)
    (hr : ∀ x ∈ c.range, (r x).isSome = true → (r' x).isSome = true) : c.Backed r' := by
  unfold Chunk.Backed at h ⊢
  split
  · next h1 =>
    rw [if_pos h1] at h
    exact h.congr (fun x hx hx' => hr x ⟨hx, hx'⟩)
  · next h1 =>
    rw [if_neg h1] at h
    split
    · next h2 =>
      rw [if_pos h2] at h
      intro k hk hb
      have hu : (⟨c.ptr + k * c.quantum, c.quantum⟩ : Block).range ⊆ c.range :=
        Chunk.Holds.range_subset hok (Or.inl ⟨h2, k, hk, rfl, le_rfl, hb⟩)
      exact (h k hk hb).congr (fun x hx hx' => hr x (hu ⟨hx, hx'⟩))
    · next h2 =>
      rw [if_neg h2] at h
      refine ⟨h.1, h.2.congr (fun x hx hx' => hr x ⟨hx, ?_⟩)⟩
      rw [h.1]
      exact hx'

theorem Chunk.Holds.full (hb : c.Holds b) (h : c.Backed r) : c.Holds ⟨b.ptr, c.quantum⟩ := by
  by_cases hs : c.quantum < 2097152
  · exact hb.unit hs
  · unfold Chunk.Backed at h
    rw [if_neg (by omega), if_neg hs] at h
    rcases hb with ⟨hs', -⟩ | ⟨hl, hp, -⟩
    · exact absurd hs' hs
    · exact Or.inr ⟨hl, hp, h.1.ge⟩

theorem Chunk.Backed.mapped (h : c.Backed r) (hok : c.Ok base) (hb : c.Holds b) :
    r.Mapped b.ptr c.quantum := by
  unfold Chunk.Backed at h
  rcases hb with ⟨hs, k, hk, hp, -, hbit⟩ | ⟨hl, hp, -⟩
  · rw [hp]
    split at h
    · refine h.mono (by omega) ?_
      rw [hok.extent_small hs]
      exact unit_bounds hk le_rfl
    · exact h k hk hbit
  · rw [if_neg (by omega), if_neg (by omega)] at h
    rw [hp]
    exact h.2

end

/-! ## getting memory -/

section
variable {base q a s fp n m : Nat} {cs cs1 : List Chunk} {live : List Block} {b b' : Block}
  {c c' : Chunk} {effs : List Eff} {f : Nat → UInt8} {r : Ram UInt8}

theorem BlockInv.holds_disjoint (h : BlockInv base cs live) (hc : c ∈ cs) (hc' : c' ∈ cs)
    (hb : c.Holds b) (hb' : c'.Holds b') (hne : b.ptr ≠ b'.ptr) : Disjoint b.range b'.range := by
  by_cases e : c = c'
  · rw [← e] at hb'
    exact hb.disjoint hb' hne
  · rw [Set.disjoint_left]
    intro x hx hx'
    exact e (h.apart.eq_of_mem hc hc' (hb.range_subset (h.ok c hc) hx)
      (hb'.range_subset (h.ok c' hc') hx'))

/-- memory after the `mmap` of a call -/
structure Grabbed (cs cs1 : List Chunk) (fp q s : Nat) (r r₁ : Ram UInt8) : Prop where
  backed : ∀ c ∈ cs1, c.Backed r₁
  kept : ∀ x, (r x).isSome = true → (r₁ x).isSome = true
  same : ∀ c ∈ cs, ∀ b, c.Holds b → b.ptr ≠ fp → ∀ x ∈ b.range, r₁ x = r x
  holder : ∃ c ∈ cs1, c.quantum = q ∧ c.Holds ⟨fp, s⟩

theorem Chunk.Backed.taken {k : Nat} (h : c.Backed r) (hl : c.quantum < 2097152)
    (hu : 4096 ≤ c.quantum → r.Mapped (c.ptr + k * c.quantum) c.quantum) :
    (c.taken k c.quantum s).Backed r := by
  have hx : ({ c with map := Bitmap.set c.map k } : Chunk).extent = c.extent :=
    Chunk.extent_congr rfl hl
  rw [Chunk.taken_small hl]
  unfold Chunk.Backed at h ⊢
  rw [hx]
  dsimp only
  split
  · next h1 =>
    rw [if_pos h1] at h
    exact h
  · next h1 =>
    rw [if_neg h1, if_pos hl] at h
    intro k' hk' hb
    unfold Chunk.bit at hb
    dsimp only at hb
    rw [Bitmap.bit_set, Bool.or_eq_true, decide_eq_true_eq] at hb
    rcases hb with rfl | hb
    · exact hu (by omega)
    · exact h k' hk' hb

theorem BlockInv.grab_unit {k : Nat} (h : BlockInv base cs live)
    (hi : BlockInv base (cs.set n (c.taken k c.quantum s)) (⟨w64 (c.ptr + k * c.quantum), s⟩ :: live))
    (hbk : ∀ c ∈ cs, c.Backed r) (hn : cs[n]? = some c) (hl : c.quantum < 2097152) (hk : k < 512)
    (hsq : s ≤ c.quantum) :
    ∃ r₁, runEffs f r (grabEffs false c.quantum s c.ptr (w64 (c.ptr + k * c.quantum)) false)
        = some r₁ ∧
      Grabbed cs (cs.set n (c.taken k c.quantum s)) (w64 (c.ptr + k * c.quantum)) c.quantum s r r₁ := by
  have hc : c ∈ cs := List.mem_of_getElem? hn
  have hok := h.ok c hc
  have hlt : n < cs.length := (List.getElem?_eq_some_iff.mp hn).1
  have hfp : w64 (c.ptr + k * c.quantum) = c.ptr + k * c.quantum := by
    have hu := unit_bounds (p := c.ptr) (q := c.quantum) hk hok.quantum_pos
    have hhi := hok.hi
    rw [hok.extent_small hl] at hhi
    exact w64_of_lt (by omega)
  rw [hfp] at hi ⊢
  have hset : cs.set n (c.taken k c.quantum s)
      = cs.take n ++ c.taken k c.quantum s :: cs.drop (n+1) := by
    rw [List.set_eq_take_append_cons_drop, if_pos hlt]
  have hmem : c.taken k c.quantum s ∈ cs.set n (c.taken k c.quantum s) := List.mem_set hlt _
  have hnew : ∀ z ≤ c.quantum, (c.taken k c.quantum s).Holds ⟨c.ptr + k * c.quantum, z⟩ := by
    intro z hz
    rw [Chunk.taken_small hl]
    refine Or.inl ⟨hl, k, hk, rfl, hz, ?_⟩
    unfold Chunk.bit
    dsimp only
    rw [Bitmap.bit_set, decide_eq_true rfl, Bool.true_or]
  have htq : (c.taken k c.quantum s).quantum = c.quantum := by rw [Chunk.taken_small hl]
  -- the chunks afterwards, in a memory where nothing was unmapped
  have hback : ∀ r₁ : Ram UInt8, (∀ x, (r x).isSome = true → (r₁ x).isSome = true) →
      (4096 ≤ c.quantum → r₁.Mapped (c.ptr + k * c.quantum) c.quantum) →
      ∀ x ∈ cs.set n (c.taken k c.quantum s), x.Backed r₁ := by
    intro r₁ hr hu x hx
    have hold : ∀ y ∈ cs, y.Backed r₁ := fun y hy => (hbk y hy).congr (h.ok y hy) (fun z _ => hr z)
    rcases List.mem_or_eq_of_mem_set hx with hx | rfl
    · exact hold x hx
    · exact (hold c hc).taken hl hu
  unfold grabEffs
  rw [if_neg (by decide)]
  by_cases hp : c.quantum < 4096
  · rw [if_pos hp, if_neg (by decide)]
    exact ⟨r, rfl, hback r (fun _ hx => hx) (fun h1 => by omega), fun _ hx => hx,
      fun _ _ _ _ _ _ _ => rfl, _, hmem, htq, hnew s hsq⟩
  · rw [if_neg hp, if_pos hl, runEffs_mmap]
    refine ⟨_, rfl, hback _ (fun _ hx => Ram.isSome_give hx) (fun _ => Ram.mapped_give _ _ _ _),
      fun _ hx => Ram.isSome_give hx, fun c' hc' b hb hne x hx => ?_, _, hmem, htq, hnew s hsq⟩
    refine Ram.give_out (fun hin => ?_)
    -- `c'` is also there afterwards, with all of its blocks
    obtain ⟨c1, hc1, hb1⟩ : ∃ c1 ∈ cs.set n (c.taken k c.quantum s), c1.Holds b := by
      by_cases e : c' = c
      · rw [e] at hb
        exact ⟨_, hmem, hb.taken rfl hl k⟩
      · refine ⟨c', ?_, hb⟩
        rw [hset]
        rcases List.mem_append.mp (mem_others hn hc' e) with hx | hx
        · exact List.mem_append_left _ hx
        · exact List.mem_append_right _ (List.mem_cons_of_mem _ hx)
    exact Set.disjoint_left.mp (hi.holds_disjoint hc1 hmem hb1 (hnew c.quantum le_rfl) hne) hx hin

theorem BlockInv.grab_new {k p : Nat}
    (hi : BlockInv base (cs ++ [newChunk q p s]) (⟨p, s⟩ :: live)) (hok : ∀ c ∈ cs, c.Ok base)
    (hbk : ∀ c ∈ cs, c.Backed r) (hk : 3 ≤ k) (hk' : k < 64) (hq : q = 2^k) (hs : 0 < s) (hsq : s ≤ q)
    (hlarge : q < 2097152 ∨ roundUp 2097152 s = q) :
    ∃ r₁, runEffs f r (grabEffs true q s p p false) = some r₁ ∧
      Grabbed cs (cs ++ [newChunk q p s]) p q s r r₁ := by
  obtain ⟨eq, ep, ee⟩ := newChunk_extent (s := s) (p := p) hk hq
  have hmem : newChunk q p s ∈ cs ++ [newChunk q p s] := List.mem_append_right _ (List.mem_singleton_self _)
  -- in all three classes one range at the beginning of the chunk is mapped
  have hone : ∃ len, grabEffs true q s p p false = [.mmap p len] ∧ len ≤ newExtent q s ∧
      ∀ r : Ram UInt8, r.Mapped p len → (newChunk q p s).Backed r := by
    unfold grabEffs Chunk.Backed
    rw [if_neg (by decide), eq, ep, ee]
    unfold newExtent
    by_cases h1 : q < 4096
    · have hx := (chunksize_eq hk hq (by omega)).1
      simp only [if_pos h1, if_pos (show q < 2097152 by omega), hx, if_true]
      exact ⟨_, rfl, le_rfl, fun r hr => hr⟩
    · simp only [if_neg h1]
      by_cases h2 : q < 2097152
      · simp only [if_pos h2]
        refine ⟨_, rfl, by omega, fun r hr k' hk' hb => ?_⟩
        have h0 : k' = 0 := by
          unfold newChunk at hb
          rw [Chunk.taken_small h2] at hb
          unfold Chunk.bit at hb
          dsimp only at hb
          rw [Bitmap.bit_set, Bitmap.bit_zero, Bool.or_false, decide_eq_true_eq] at hb
          exact hb
        rw [h0, Nat.zero_mul, Nat.add_zero]
        exact hr
      · simp only [if_neg h2]
        have he := hlarge.resolve_left h2
        exact ⟨_, rfl, le_rfl, fun r hr => ⟨he, by rw [he] at hr; exact hr⟩⟩
  obtain ⟨len, heff, hlen, hback⟩ := hone
  rw [heff, runEffs_mmap]
  refine ⟨_, rfl, fun c hc => ?_, fun _ hx => Ram.isSome_give hx, fun c hc b hb _ x hx => ?_,
    _, hmem, eq, newChunk_holds hk hk' hq hs hsq⟩
  · rcases List.mem_append.mp hc with hc | hc
    · exact (hbk c hc).congr (hok c hc) (fun _ _ hx => Ram.isSome_give hx)
    · rw [List.mem_singleton.mp hc]
      exact hback _ (Ram.mapped_give _ _ _ _)
  · refine Ram.give_out (fun hin => ?_)
    have hd := (List.pairwise_append.mp hi.apart).2.2 c hc _ (List.mem_singleton_self _)
    refine Set.disjoint_left.mp hd (hb.range_subset (hok c hc) hx) ?_
    unfold Chunk.range
    rw [ep, ee]
    exact ⟨hin.1, lt_of_lt_of_le hin.2 (by omega)⟩

theorem Grab.memory (h : BlockInv base cs live) (hi : BlockInv base cs1 (⟨fp, s⟩ :: live))
    (hbk : ∀ c ∈ cs, c.Backed r) (hg : Grab base cs q a s false cs1 fp effs) (hs : 0 < s)
    (hq : quantumOf s = some q) (hlarge : q < 2097152 ∨ roundUp 2097152 s = q) :
    ∃ r₁, runEffs f r effs = some r₁ ∧ Grabbed cs cs1 fp q s r r₁ := by
  obtain ⟨hsq, k, hk, hk', hpow⟩ := quantumOf_spec hs hq
  cases hg with
  | unit hn hcq hl hu hb =>
    rw [← hcq] at hi hl hsq ⊢
    exact h.grab_unit hi hbk hn hl hu hsq
  | new hlen hno hspot hp => exact BlockInv.grab_new hi h.ok hbk hk hk' hpow hs hsq hlarge

/-! ## giving memory back -/

theorem unmapAll_munmap (m base n ptr : Nat) (cs : List Chunk) (c : Chunk) :
    ∀ e ∈ unmapAll m base cs n ptr c, ∃ addr len, e = .munmap addr len := by
  intro e he
  unfold unmapAll at he
  rcases List.mem_append.mp he with he | he
  · rcases Chunk.unmaps_cases he with ⟨e, -⟩ | ⟨e, -⟩
    · exact ⟨_, _, e⟩
    · exact ⟨_, _, e⟩
  · split at he
    · exact ⟨_, _, List.mem_singleton.mp he⟩
    · cases he

theorem Chunk.Backed.cleared {r' : Ram UInt8} (h : c.Backed r) (hok : c.Ok base)
    (hbase : base + 4194304 < 2^64) (hcb : c.Holds b) (hl : c.last m b.ptr = false)
    (hr : ∀ x, (∀ addr len, .munmap addr len ∈ unmapAll m base cs n b.ptr c →
      x ∉ Set.Ico addr (addr + len)) → r' x = r x) : (c.cleared b.ptr).Backed r' := by
  have hs : c.quantum < 2097152 := by
    by_contra hge
    rw [Chunk.last_large (not_lt.mp hge)] at hl
    cases hl
  have hx : (c.cleared b.ptr).extent = c.extent :=
    Chunk.extent_congr (by rw [Chunk.cleared_small hs]) hs
  have hlo := hok.lo
  -- nothing but the unit of the block is unmapped in this chunk
  have hsame : ∀ x ∈ c.range, (4096 ≤ c.quantum → x ∉ (⟨b.ptr, c.quantum⟩ : Block).range) → r' x = r x := by
    intro x hxc hxb
    refine hr x (fun addr len he hin => ?_)
    unfold unmapAll at he
    rcases List.mem_append.mp he with he | he
    · rcases Chunk.unmaps_cases he with ⟨-, hl'⟩ | ⟨e, hq, -⟩
      · rw [hl] at hl'
        cases hl'
      · rw [Eff.munmap.injEq] at e
        rw [e.1, e.2] at hin
        exact hxb hq hin
    · split at he
      · have e := List.mem_singleton.mp he
        rw [Eff.munmap.injEq, w64_of_lt (by omega)] at e
        have h1 := hin.2
        have h2 := hxc.1
        omega
      · cases he
  unfold Chunk.Backed at h ⊢
  rw [hx, Chunk.cleared_small hs]
  dsimp only
  by_cases hp : c.quantum < 4096
  · rw [if_pos hp] at h ⊢
    refine h.congr (fun x h1 h2 h3 => ?_)
    rw [hsame x ⟨h1, h2⟩ (fun h4 => by omega)]
    exact h3
  · rw [if_neg hp, if_pos hs] at h ⊢
    intro k hk hb
    unfold Chunk.bit at hb
    dsimp only at hb
    rw [Bitmap.bit_clear, Bool.and_eq_true, decide_eq_true_eq] at hb
    have hu : c.Holds ⟨c.ptr + k * c.quantum, c.quantum⟩ := Or.inl ⟨hs, k, hk, rfl, le_rfl, hb.2⟩
    have hne : c.ptr + k * c.quantum ≠ b.ptr := by
      intro e
      apply hb.1
      rw [← e, unit_index hok.quantum_pos]
    refine (h k hk hb.2).congr (fun x h1 h2 h3 => ?_)
    have hin : x ∈ (⟨c.ptr + k * c.quantum, c.quantum⟩ : Block).range := ⟨h1, h2⟩
    rw [hsame x (hu.range_subset hok hin) (fun _ hxb =>
      Set.disjoint_left.mp (hu.disjoint (hcb.unit hs) hne) hin hxb)]
    exact h3

theorem BlockInv.released_memory (h : BlockInv base cs live) (hbase : base + 4194304 < 2^64)
    (hpage : 4096 ∣ base) (hbk : ∀ c ∈ cs, c.Backed r) (hb : b ∈ live) (hn : cs[n]? = some c)
    (hcb : c.Holds b) (hsum : c.SumOk m b.ptr) :
    ∃ r', runEffs f r (unmapAll m base cs n b.ptr c) = some r' ∧
      (∀ c ∈ giveBack m cs n b.ptr, c.Backed r') ∧
      ∀ b' ∈ live, b' ≠ b → ∀ x ∈ b'.range, r' x = r x := by
  have hc := List.mem_of_getElem? hn
  have hok := h.ok c hc
  obtain ⟨r', hrun, hr⟩ := runEffs_unmap (f := f) (r := r)
    (unmapAll_munmap m base n b.ptr cs c)
  have hap := h.apart
  rw [chunks_split hn] at hap
  have hothers : ∀ x ∈ cs.take n ++ cs.drop (n+1), x.Backed r' := by
    intro x hx
    have hxc : x ∈ cs := by
      rcases List.mem_append.mp hx with hx | hx
      · exact List.mem_of_mem_take hx
      · exact List.mem_of_mem_drop hx
    refine (hbk x hxc).congr (h.ok x hxc) (fun y hy hy' => ?_)
    rw [hr y (fun addr len he hin => ?_)]
    · exact hy'
    · rcases hok.unmap_range hbase hcb he with ⟨-, hsub⟩ | ⟨-, hlt⟩
      · exact Set.disjoint_left.mp hap.rest ⟨x, hx, hy⟩ (hsub hin)
      · have h1 := hin.2
        have h2 := hy.1
        have h3 := (h.ok x hxc).lo
        omega
  refine ⟨r', hrun, fun x hx => ?_, fun b' hb' hne x hx => ?_⟩
  · rw [giveBack_split hn] at hx
    split at hx
    · exact hothers x hx
    · next hl =>
      rcases List.mem_append.mp hx with hx | hx
      · exact hothers x (List.mem_append_left _ hx)
      · rcases List.mem_cons.mp hx with rfl | hx
        · exact (hbk c hc).cleared hok hbase hcb (Bool.not_eq_true _ ▸ hl) hr
        · exact hothers x (List.mem_append_right _ hx)
  · refine hr x (fun addr len he hin => ?_)
    exact h.unmap_pages hbase hpage hb hn hcb hsum he hb' hne x hin.1 hin.2 x hx rfl

end

/-! ## calls -/

/-- the call maps what it uses, and what is copied and cleared fits: the old quantum is not larger
than the new one, and a large chunk is as long as its quantum -/
def CopySafe (cs : List Chunk) : BztOp → Prop
  | .alloc _ ptr s spare => s ≠ 0 → spare = false ∧ ∀ q, quantumOf s = some q →
      (q < 2097152 ∨ roundUp 2097152 s = q) ∧ ∀ c ∈ cs, c.hasPtr ptr = true → c.quantum ≤ q
  | .free _ => True

structure CallMemory (live : List Block) (op : BztOp) (cs' : List Chunk) (live' : List Block)
    (r r' : Ram UInt8) : Prop where
  backed : ∀ c ∈ cs', c.Backed r'
  others : ∀ b ∈ live, b.ptr ≠ op.ptr → ∀ x ∈ b.range, r' x = r x
  moved : ∀ b ∈ live, ∀ a s spare p, op = .alloc a b.ptr s spare → 0 < s →
    live' = ⟨p, s⟩ :: live.erase b → ∀ i < min b.size s, r' (p + i) = r (b.ptr + i)

section
variable {base : Nat} {cs cs' : List Chunk} {live live' : List Block} {op : BztOp} {effs : List Eff}
  {f : Nat → UInt8} {r : Ram UInt8}

theorem Chunk.Holds.size_le {c : Chunk} {b : Block} (hb : c.Holds b) (h : c.Backed r) :
    b.size ≤ c.quantum := by
  rcases hb with ⟨-, k, -, -, hz, -⟩ | ⟨hl, -, hz⟩
  · exact hz
  · unfold Chunk.Backed at h
    rw [if_neg (by omega), if_neg (by omega)] at h
    rw [← h.1]
    exact hz

theorem BlockInv.move_memory {cs1 : List Chunk} {q s fp n : Nat} {b : Block} {c : Chunk}
    {r₁ : Ram UInt8} (hi : BlockInv base cs1 (⟨fp, s⟩ :: live)) (hbase : base + 4194304 < 2^64)
    (hpage : 4096 ∣ base) (hm : Grabbed cs cs1 fp q s r r₁) (hb : b ∈ live)
    (hn : cs[n]? = some c) (hn1 : cs1[n]? = some c) (hcb : c.Holds b) (hsum : c.SumOk (2^32) b.ptr)
    (hle : c.quantum ≤ q) (hheld : ∀ b ∈ live, ∃ c ∈ cs, c.Holds b) :
    ∃ r', runEffs f r₁ (fillEffs fp b.ptr c.quantum q false ++ unmapAll (2^32) base cs1 n b.ptr c)
        = some r' ∧ (∀ c ∈ giveBack (2^32) cs1 n b.ptr, c.Backed r') ∧
      (∀ b' ∈ live, b' ≠ b → ∀ x ∈ b'.range, r' x = r x) ∧
      ∀ i < min b.size s, r' (fp + i) = r (b.ptr + i) := by
  have hc1 := List.mem_of_getElem? hn1
  have hok := hi.ok c hc1
  obtain ⟨cn, hcn, hcq, hcnb⟩ := hm.holder
  have hfp : ∀ x ∈ live, x.ptr ≠ fp := fun x hx e =>
    (List.nodup_cons.mp hi.ptrs).1 (List.mem_map.mpr ⟨x, hx, e⟩)
  have hfull := hcnb.full (hm.backed cn hcn)
  rw [hcq] at hfull
  have hbfull := hcb.full (hm.backed c hc1)
  have hdst : r₁.Mapped fp q := by
    have := (hm.backed cn hcn).mapped (hi.ok cn hcn) hcnb
    rwa [hcq] at this
  have hsrc : r₁.Mapped b.ptr c.quantum := (hm.backed c hc1).mapped hok hcb
  have hdis : Disjoint (Set.Ico fp (fp + q)) (Set.Ico b.ptr (b.ptr + c.quantum)) :=
    hi.holds_disjoint hcn hc1 hfull hbfull (hfp b hb).symm
  have hlt : fp + q < 2^64 := by
    have h1 := (hi.ok cn hcn).hi
    have hq0 := (hi.ok cn hcn).quantum_pos
    rw [hcq] at hq0
    have h2 := (hfull.range_subset (hi.ok cn hcn)
      (show fp + q - 1 ∈ Set.Ico fp (fp + q) from ⟨by omega, by omega⟩)).2
    omega
  obtain ⟨r₂, hrun, hkept, hout, hcopy⟩ := runEffs_fill (f := f) hdst hsrc hle hdis hlt
  have hbk₂ : ∀ x ∈ cs1, x.Backed r₂ := fun x hx => (hm.backed x hx).congr (hi.ok x hx) (fun y _ => hkept y)
  obtain ⟨r', hrun', hbk', hsame⟩ := hi.released_memory (f := f) hbase hpage hbk₂
    (List.mem_cons_of_mem _ hb) hn1 hcb hsum
  refine ⟨r', runEffs_append hrun hrun', hbk', fun b' hb' hne x hx => ?_, fun i hlt' => ?_⟩
  · obtain ⟨c', hc', hcb'⟩ := hheld b' hb'
    obtain ⟨c1', hc1', hcb1'⟩ := hi.held b' (List.mem_cons_of_mem _ hb')
    have hnot : x ∉ Set.Ico fp (fp + q) := fun hin => Set.disjoint_left.mp
      (hi.holds_disjoint hcn hc1' hfull hcb1' (hfp b' hb').symm) hin hx
    rw [hsame b' (List.mem_cons_of_mem _ hb') hne x hx, hout x hnot,
      hm.same c' hc' b' hcb' (hfp b' hb') x hx]
  · have hi1 : i < b.size := lt_of_lt_of_le hlt' (min_le_left _ _)
    have hi2 : i < s := lt_of_lt_of_le hlt' (min_le_right _ _)
    have hne : (⟨fp, s⟩ : Block) ≠ b := fun e => hfp b hb (by rw [← e])
    rw [hsame ⟨fp, s⟩ (List.mem_cons_self ..) hne (fp + i)
      ⟨Nat.le_add_right _ _, Nat.add_lt_add_left hi2 _⟩,
      hcopy i (lt_of_lt_of_le hi1 (hcb.size_le (hm.backed c hc1))),
      hm.same c (List.mem_of_getElem? hn) b hcb (hfp b hb) (b.ptr + i)
        ⟨Nat.le_add_right _ _, Nat.add_lt_add_left hi1 _⟩]

theorem Edit.memory (h : BlockInv base cs live) (hbase : base + 4194304 < 2^64) (hpage : 4096 ∣ base)
    (hbk : ∀ c ∈ cs, c.Backed r) (hcopy : CopySafe cs op) (he : Edit base cs live op cs' live' effs) :
    ∃ r', runEffs f r effs = some r' ∧ CallMemory live op cs' live' r r' := by
  cases he with
  | idle hop =>
    refine ⟨r, rfl, hbk, fun _ _ _ _ _ => rfl, fun b hb a s spare p e => ?_⟩
    rcases hop with rfl | ⟨a', s', spare', rfl⟩
    · cases e
    · injection e with _ e2
      exact absurd e2.symm (h.ptr_pos hb)
  | @stay a s spare b c hb hs hc hcb hl hq =>
    refine ⟨r, rfl, hbk, fun _ _ _ _ _ => rfl, fun b' hb' a' s' spare' p e _ hlive i hi => ?_⟩
    injection e with _ e2 e3 _
    injection hlive with e4 _
    injection e4 with e5 _
    rw [← e5, e2]
  | @fresh a q s fp spare _ effs hs hq hg hi =>
    obtain ⟨rfl, hq'⟩ := hcopy (by omega)
    obtain ⟨hlarge, -⟩ := hq' q hq
    -- the allocmap is mapped only when there are no chunks, and then there are no blocks
    obtain ⟨r₀, hrun₀, hbk₀, hsame₀⟩ : ∃ r₀, runEffs f r (mapEffs base cs) = some r₀ ∧
        (∀ c ∈ cs, c.Backed r₀) ∧ (cs ≠ [] → r₀ = r) := by
      unfold mapEffs
      split
      · next h0 => exact ⟨_, rfl, by rw [h0]; simp, fun h1 => absurd h0 h1⟩
      · exact ⟨r, rfl, hbk, fun _ => rfl⟩
    obtain ⟨r₁, hrun₁, hm⟩ := hg.memory (f := f) h hi hbk₀ hs hq hlarge
    obtain ⟨cn, hcn, hcq, hcnb⟩ := hm.holder
    have hfull := hcnb.full (hm.backed cn hcn)
    rw [hcq] at hfull
    have hdst : r₁.Mapped fp q := by
      have := (hm.backed cn hcn).mapped (hi.ok cn hcn) hcnb
      rwa [hcq] at this
    refine ⟨r₁.give (fun _ => 0) fp q, runEffs_append (runEffs_append hrun₀ hrun₁) ?_, ?_, ?_, ?_⟩
    · rw [if_pos rfl, runEffs, runEff, Ram.fill_eq 0 hdst]
      rfl
    · exact fun c hc => (hm.backed c hc).congr (hi.ok c hc) (fun _ _ hx => Ram.isSome_give hx)
    · intro b hb _ x hx
      obtain ⟨c, hc, hcb⟩ := h.held b hb
      obtain ⟨c1, hc1, hcb1⟩ := hi.held b (List.mem_cons_of_mem _ hb)
      have hne : b.ptr ≠ fp := fun e => (List.nodup_cons.mp hi.ptrs).1 (List.mem_map.mpr ⟨b, hb, e⟩)
      rw [Ram.give_out (fun hin => ?_), hm.same c hc b hcb hne x hx,
        hsame₀ (List.ne_nil_of_mem hc)]
      exact Set.disjoint_left.mp (hi.holds_disjoint hcn hc1 hfull hcb1 hne.symm) hin hx
    · intro b hb a' s' spare' p e
      injection e with _ e2
      exact absurd e2.symm (h.ptr_pos hb)
  | @move a q s fp n spare b c cs1 effs hb hs hq hg hi hn hn1 hcb hsum =>
    obtain ⟨rfl, hq'⟩ := hcopy (by omega)
    obtain ⟨hlarge, hle⟩ := hq' q hq
    have hc := List.mem_of_getElem? hn
    have hp := (h.ok c hc).hasPtr_iff.mpr (hcb.ptr_mem (h.ok c hc))
    obtain ⟨r₁, hrun₁, hm⟩ := hg.memory (f := f) h hi hbk hs hq hlarge
    obtain ⟨r', hrun', hbk', hothers, hmoved⟩ := hi.move_memory (f := f) hbase hpage hm hb
      hn hn1 hcb hsum (hle c hc hp) h.held
    refine ⟨r', ?_, hbk', fun b' hb' hne => hothers b' hb' (fun e => hne (by rw [e]; rfl)), ?_⟩
    · rw [List.append_assoc]
      exact runEffs_append hrun₁ hrun'
    · intro b' hb' a' s' spare' p e _ hlive i hlt
      injection e with _ e2 e3 _
      injection hlive with e4 _
      injection e4 with e5 _
      have hbb : b' = b := List.inj_on_of_nodup_map h.ptrs hb' hb e2.symm
      rw [← e5, hbb]
      rw [hbb, ← e3] at hlt
      exact hmoved i hlt
  | @free _ n b c hop hb hn hcb hsum =>
    obtain ⟨r', hrun, hbk', hothers⟩ := h.released_memory (f := f) hbase hpage hbk hb hn hcb hsum
    refine ⟨r', hrun, hbk', fun b' hb' hne => hothers b' hb' (fun e => hne ?_), ?_⟩
    · rw [e]
      rcases hop with rfl | ⟨a, spare, rfl⟩ <;> rfl
    · intro b' hb' a' s' spare' p e hs'
      rcases hop with rfl | ⟨a, spare, rfl⟩
      · cases e
      · injection e with _ _ e3 _
        omega

theorem Edit.returned {a s : Nat} {spare : Bool} {b : Block} (h : BlockInv base cs live) (hb : b ∈ live)
    (hs : 0 < s) (he : Edit base cs live (.alloc a b.ptr s spare) cs' live' effs) :
    ∃ p, p ≠ 0 ∧ live' = ⟨p, s⟩ :: live.erase b := by
  have hinv := h.edit he
  have hsome : ∃ p, live' = ⟨p, s⟩ :: live.erase b := by
    generalize hop : BztOp.alloc a b.ptr s spare = op at he
    cases he with
    | idle hop' =>
      rcases hop' with rfl | ⟨a', s', spare', rfl⟩
      · cases hop
      · injection hop with _ e
        exact absurd e (h.ptr_pos hb)
    | @stay a' s' spare' b' c hb' hs' hc hcb hl hq =>
      injection hop with _ e2 e3 _
      rw [e3, List.inj_on_of_nodup_map h.ptrs hb hb' e2]
      exact ⟨_, rfl⟩
    | @fresh a' q s' fp spare' _ effs hs' hq hg hi =>
      injection hop with _ e
      exact absurd e (h.ptr_pos hb)
    | @move a' q s' fp n spare' b' c cs1 effs hb' hs' hq hg hi hn hn1 hcb hsum =>
      injection hop with _ e2 e3 _
      rw [e3, List.inj_on_of_nodup_map h.ptrs hb hb' e2]
      exact ⟨_, rfl⟩
    | @free _ n b' c hop' hb' hn hcb hsum =>
      rcases hop' with rfl | ⟨a', spare', rfl⟩
      · cases hop
      · injection hop with _ _ e3 _
        omega
  obtain ⟨p, e⟩ := hsome
  refine ⟨p, ?_, e⟩
  rw [e] at hinv
  exact hinv.ptr_pos (b := ⟨p, s⟩) (List.mem_cons_self ..)

end

/-! ## runs -/

/-- a program, its blocks and the memory mapped for the arena -/
structure RamWorld where
  world : BztWorld
  ram : Ram UInt8

inductive RamOp where
  | call (op : BztOp)
  | store (x : Nat) (v : UInt8)

/-- the program calls the allocator, or writes to one of its blocks -/
inductive RamStep : RamWorld → RamOp → RamWorld → Prop
  | call {u : RamWorld} {op : BztOp} {w : BztWorld} {fresh : Nat → UInt8} {r : Ram UInt8}
      (h : BztStep u.world op w) (hr : runEffs fresh u.ram (op.effs u.world) = some r) :
      RamStep u (.call op) ⟨w, r⟩
  | store {u : RamWorld} {b : Block} {x : Nat} {v : UInt8} (hb : b ∈ u.world.live) (hx : x ∈ b.range) :
      RamStep u (.store x v) ⟨u.world, Function.update u.ram x (some v)⟩

def RamSafe (u : RamWorld) : RamOp → Prop
  | .call op => BztSafe u.world op ∧ CopySafe u.world.arena.chunks op
  | .store _ _ => True

def RamWorld.start (base : Nat) : RamWorld := ⟨BztWorld.start base, fun _ => none⟩

structure RamInv (base : Nat) (u : RamWorld) (cs : List Chunk) : Prop where
  bzt : BztInv base u.world cs
  backed : ∀ c ∈ cs, c.Backed u.ram

section
variable {base : Nat} {u u' : RamWorld} {cs : List Chunk}

theorem RamInv.call {op : BztOp} {w : BztWorld} {fresh : Nat → UInt8} {r : Ram UInt8}
    (hi : RamInv base u cs) (hbase : base + 4194304 < 2^64) (hpage : 4096 ∣ base)
    (hsafe : RamSafe u (.call op)) (h : BztStep u.world op w)
    (hr : runEffs fresh u.ram (op.effs u.world) = some r) : ∃ cs', RamInv base ⟨w, r⟩ cs' := by
  obtain ⟨hs, hc⟩ := hsafe
  rw [hi.bzt.arena, Arena.ofChunks_chunks] at hc
  obtain ⟨cs', har, hed⟩ := h.edit hi.bzt.blocks hi.bzt.arena hbase hpage hs
  obtain ⟨r', hr', hm⟩ := hed.memory (f := fresh) hi.bzt.blocks hbase hpage hi.backed hc
  rw [hr, Option.some.injEq] at hr'
  rw [← hr'] at hm
  exact ⟨cs', ⟨har, hi.bzt.blocks.edit hed⟩, hm.backed⟩

theorem RamInv.store {x : Nat} (hi : RamInv base u cs) (v : UInt8) :
    RamInv base ⟨u.world, Function.update u.ram x (some v)⟩ cs := by
  refine ⟨hi.bzt, fun c hc => (hi.backed c hc).congr (hi.bzt.blocks.ok c hc) (fun y _ hy => ?_)⟩
  dsimp only
  by_cases e : y = x
  · rw [e, Function.update_self]
    rfl
  · rw [Function.update_of_ne e]
    exact hy

theorem RamInv.reach (hbase : base + 4194304 < 2^64) (hpage : 4096 ∣ base)
    (h : Reach RamStep RamSafe (RamWorld.start base) u) : ∃ cs, RamInv base u cs := by
  refine h.keeps (I := fun u => ∃ cs, RamInv base u cs)
    ⟨[], BztInv.start base, fun c hc => absurd hc (by simp)⟩ ?_
  rintro v op v' ⟨cs, hi⟩ hsafe hstep
  cases hstep with
  | call h hr => exact hi.call hbase hpage hsafe h hr
  | store hb hx => exact ⟨cs, hi.store _⟩

end

/-- what `bzt_alloc(arena,a,ptr,s,flag)` with result `ret` leaves in memory -/
structure Kept (live : List Block) (ptr s ret : Nat) (r r' : Ram UInt8) : Prop where
  block : ∀ b ∈ live, b.ptr = ptr → ret ≠ 0 ∧ r'.Mapped ret s
  moved : ∀ b ∈ live, b.ptr = ptr → ∀ i < min b.size s, r' (ret + i) = r (ptr + i)
  others : ∀ b ∈ live, b.ptr ≠ ptr → ∀ x ∈ b.range, r' x = r x

theorem bzt_contents {base k ptr s : Nat} {u : RamWorld} {spare : Bool} {out : BztOut}
    (hbase : base + 4194304 < 2^64) (hpage : 4096 ∣ base)
    (h : Reach RamStep RamSafe (RamWorld.start base) u)
    (hptr : ptr = 0 ∨ ∃ b ∈ u.world.live, b.ptr = ptr) (hs : 0 < s)
    (hsafe : RamSafe u (.call (.alloc (2^k) ptr s spare)))
    (hout : bztAlloc mapped u.world.arena (2^k) ptr s spare = some out) (fresh : Nat → UInt8) :
    ∃ r, runEffs fresh u.ram out.effs = some r ∧ Kept u.world.live ptr s out.ret u.ram r := by
  obtain ⟨cs, hi⟩ := RamInv.reach hbase hpage h
  have hblk := hi.bzt.blocks
  obtain ⟨hsafe, hcopy⟩ := hsafe
  dsimp only [BztSafe] at hsafe
  rw [if_neg (by omega), hi.bzt.arena] at hsafe
  rw [hi.bzt.arena, Arena.ofChunks_chunks] at hcopy
  rw [hi.bzt.arena] at hout
  rcases hptr with rfl | ⟨b, hb, rfl⟩
  · obtain ⟨cs', -, hed⟩ := hblk.alloc_spec hbase hpage hs hsafe.1 hout
    obtain ⟨r, hr, hm⟩ := hed.memory (f := fresh) hblk hbase hpage hi.backed hcopy
    exact ⟨r, hr, fun b hb e => absurd e (hblk.ptr_pos hb), fun b hb e => absurd e (hblk.ptr_pos hb),
      hm.others⟩
  · obtain ⟨cs', -, hed⟩ := hblk.realloc_spec hbase hpage hb hs hsafe.1 hsafe.2 hout
    obtain ⟨r, hr, hm⟩ := hed.memory (f := fresh) hblk hbase hpage hi.backed hcopy
    obtain ⟨p, hp, hlive⟩ := hed.returned hblk hb hs
    have hinv := hblk.edit hed
    have hret : out.ret = p := by
      have hg : got out s = [⟨p, s⟩] := List.append_cancel_right hlive
      unfold got at hg
      split at hg
      · cases hg
      · injection hg with e _
        injection e
    rw [hlive] at hinv
    rw [hret]
    refine ⟨r, hr, fun b' _ _ => ⟨hp, ?_⟩, fun b' hb' e => ?_, hm.others⟩
    · obtain ⟨c, hc, hcb⟩ := hinv.held ⟨p, s⟩ (List.mem_cons_self ..)
      have hbk := hm.backed c hc
      exact (hbk.mapped (hinv.ok c hc) hcb).mono le_rfl (Nat.add_le_add_left (hcb.size_le hbk) _)
    · have hbb : b' = b := List.inj_on_of_nodup_map hblk.ptrs hb' hb e
      rw [hbb]
      exact hm.moved b hb _ s spare p rfl hs hlive

/-! ## examples of runs -/

/-- `malloc(s)` and `free(b)`, when the memory that is mapped has the contents 0xAA -/
def RamWorld.alloc (u : RamWorld) (s : Nat) : RamWorld :=
  ⟨u.world.alloc 3 s, (runEffs (fun _ => 0xAA) u.ram (BztOp.effs u.world (.alloc (2^3) 0 s false))).getD u.ram⟩

theorem RamStep.ofAlloc {u : RamWorld} {s : Nat} (hs : s < 2^64)
    (h : (bztAlloc mapped u.world.arena (2^3) 0 s false).isSome = true)
    (hr : (runEffs (fun _ => 0xAA) u.ram (BztOp.effs u.world (.alloc (2^3) 0 s false))).isSome = true) :
    RamStep u (.call (.alloc (2^3) 0 s false)) (u.alloc s) := by
  obtain ⟨r, e⟩ := Option.isSome_iff_exists.mp hr
  unfold RamWorld.alloc
  rw [e]
  exact RamStep.call (BztStep.ofAlloc (by decide) hs h) e

/-- `p = malloc(8)` -/
def ramOne : RamWorld := (RamWorld.start 0x100000000).alloc 8

/-- `p[3] = 7` -/
def ramTwo : RamWorld := ⟨ramOne.world, Function.update ramOne.ram 0x100400003 (some 7)⟩

theorem CopySafe.intro {cs : List Chunk} {a ptr s q : Nat} (hq : quantumOf s = some q)
    (h : (q < 2097152 ∨ roundUp 2097152 s = q) ∧ ∀ c ∈ cs, c.hasPtr ptr = true → c.quantum ≤ q) :
    CopySafe cs (.alloc a ptr s false) := by
  refine fun _ => ⟨rfl, fun q' hq' => ?_⟩
  rw [hq] at hq'
  cases hq'
  exact h

theorem ramOne_reach : Reach RamStep RamSafe (RamWorld.start 0x100000000) ramOne := by
  refine Reach.refl.tail ?_ (RamStep.ofAlloc ?_ ?_ ?_)
  · exact ⟨bztSafe_alloc (q := 8) (by decide) rfl (by decide +kernel) (by decide +kernel)
      (by decide +kernel), CopySafe.intro (q := 8) rfl (by decide +kernel)⟩
  · decide
  · decide +kernel
  · decide +kernel

theorem ramTwo_reach : Reach RamStep RamSafe (RamWorld.start 0x100000000) ramTwo := by
  have hb : (⟨0x100400000, 8⟩ : Block) ∈ ramOne.world.live := by decide +kernel
  have hs : RamSafe ramOne (.store 0x100400003 7) := trivial
  exact ramOne_reach.tail hs (RamStep.store hb ⟨by decide, by decide⟩)

theorem bzt_contents_demo : ∃ out r,
    bztAlloc mapped ramTwo.world.arena (2^3) 0x100400000 20 false = some out ∧
    runEffs (fun _ => 0) ramTwo.ram out.effs = some r ∧
    Kept ramTwo.world.live 0x100400000 20 out.ret ramTwo.ram r := by
  have hsome : (bztAlloc mapped ramTwo.world.arena (2^3) 0x100400000 20 false).isSome = true := by
    decide +kernel
  obtain ⟨out, hout⟩ := Option.isSome_iff_exists.mp hsome
  have hsafe : RamSafe ramTwo (.call (.alloc (2^3) 0x100400000 20 false)) :=
    ⟨bztSafe_alloc (q := 32) (by decide) rfl (by decide +kernel) (by decide +kernel)
      (by decide +kernel), CopySafe.intro (q := 32) rfl (by decide +kernel)⟩
  obtain ⟨r, hr, hk⟩ := bzt_contents (by decide) (by decide) ramTwo_reach
    (Or.inr ⟨⟨0x100400000, 8⟩, by decide +kernel, rfl⟩) (by decide) hsafe hout (fun _ => 0)
  exact ⟨out, r, hout, hr, hk⟩

/-- `realloc(p,5000000)`: 6M are mapped, but the quantum is 8M and all of it is cleared -/
theorem bztAlloc_faults : Reach RamStep (fun _ _ => True) (RamWorld.start 0x100000000) ramOne ∧
    (⟨0x100400000, 8⟩ : Block) ∈ ramOne.world.live ∧
    ∃ out, bztAlloc mapped ramOne.world.arena 8 0x100400000 5000000 false = some out ∧
      ∀ fresh, runEffs fresh ramOne.ram out.effs = none := by
  refine ⟨Reach.refl.tail trivial (RamStep.ofAlloc ?_ ?_ ?_), ?_, ?_⟩
  · decide
  · decide +kernel
  · decide +kernel
  · decide +kernel
  · have hsome : (bztAlloc mapped ramOne.world.arena 8 0x100400000 5000000 false).isSome = true := by
      decide +kernel
    obtain ⟨out, hout⟩ := Option.isSome_iff_exists.mp hsome
    refine ⟨out, hout, fun fresh => ?_⟩
    have heffs : out.effs = [.mmap 0x100800000 6291456, .memcpy 0x100800000 0x100400000 8,
        .memzero 0x100800008 8388600, .munmap 0x100400000 4096] := by
      rw [← BztOp.effs_alloc hout]
      decide +kernel
    have hnone : ramOne.ram 0x100e00000 = none := by decide +kernel
    rw [heffs, runEffs, runEff, Option.bind_some, runEffs, runEff, Ram.copy]
    split
    · rw [Option.bind_some, runEffs, runEff, Ram.fill, if_neg]
      · rfl
      · intro hm
        have h1 := hm 6291448 (by decide)
        rw [Ram.copyUp_out (fun hin => absurd hin.2 (by decide)),
          Ram.give_out (fun hin => absurd hin.2 (by decide)), hnone] at h1
        cases h1
    · rfl

/-! ## whole runs -/

/-- the block is not given back, moved or written to -/
def RamOp.Spares (b : Block) : RamOp → Prop
  | .call op => b.ptr ≠ op.ptr
  | .store x _ => x ∉ b.range

theorem BztStep.live_of_ne {w w' : BztWorld} {op : BztOp} {b : Block} (h : BztStep w op w') (hb : b ∈ w.live)
    (hne : b.ptr ≠ op.ptr) : b ∈ w'.live := by
  have herase (b' : Block) (e : b.ptr ≠ b'.ptr) : b ∈ w.live.erase b' :=
    (List.mem_erase_of_ne (ne_of_apply_ne Block.ptr e)).mpr hb
  cases h with
  | alloc => exact List.mem_append_right _ hb
  | realloc => exact List.mem_append_right _ (herase _ hne)
  | free => exact herase _ hne
  | freeNull => exact hb

end OsZ
