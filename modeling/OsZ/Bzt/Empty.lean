import OsZ.Bzt.Calls

/-!
# When a chunk is given back

A chunk with a bitmap goes away when the words of the bitmap add up to 0, in `uint64_t` or `int`.

* `BlockInv.gone_iff`      the chunk that goes away is the one found empty (`Chunk.last`);
* `BlockInv.unmap_pages`   no page of a block that stays is unmapped;
* `bzt_empty`              for every call of a run of `BztSafe` calls: a chunk goes away if and only
                           if no bit is left;
* `bztAlloc_unmaps_live`   `realloc` of one of two blocks unmaps the other.
-/

namespace OsZ

/-! ## the chunk that goes away -/

theorem Chunk.last_iff_bits {m ptr : Nat} {c : Chunk} (hs : c.quantum < 2097152)
    (hsum : c.SumOk m ptr) :
    c.last m ptr = true ↔ ∀ k < 512, (c.cleared ptr).bit k = false := by
  rw [Chunk.last_iff hs]
  constructor
  · intro h
    exact Bitmap.sum_eq_zero.mp (hsum hs h)
  · intro h
    rw [Bitmap.sum_eq_zero.mpr h, Nat.zero_mod]

/-- no chunk is left at `p` -/
def Gone (cs : List Chunk) (p : Nat) : Prop := ∀ c ∈ cs, c.ptr ≠ p

instance (cs : List Chunk) (p : Nat) : Decidable (Gone cs p) :=
  inferInstanceAs (Decidable (∀ c ∈ cs, c.ptr ≠ p))

section
variable {base m n : Nat} {cs : List Chunk} {live : List Block} {b b' : Block} {c c' : Chunk}

theorem Chunk.Ok.ptr_mem (h : c.Ok base) : c.ptr ∈ c.range := by
  have := h.pos
  exact ⟨le_rfl, by omega⟩

theorem BlockInv.ptr_inj (h : BlockInv base cs live) (hc : c ∈ cs) (hc' : c' ∈ cs)
    (e : c.ptr = c'.ptr) : c = c' := by
  have h1 := (h.ok c hc).ptr_mem
  rw [e] at h1
  exact h.apart.eq_of_mem hc hc' h1 (h.ok c' hc').ptr_mem

theorem BlockInv.gone_iff (h : BlockInv base cs live) (hn : cs[n]? = some c) (hc' : c' ∈ cs) (ptr : Nat) :
    Gone (giveBack m cs n ptr) c'.ptr ↔ c' = c ∧ c.last m ptr = true := by
  have hc := List.mem_of_getElem? hn
  have hap := h.apart
  rw [chunks_split hn] at hap
  rw [giveBack_split hn]
  by_cases hne : c' = c
  · rw [hne]
    split
    · next hl =>
      refine ⟨fun _ => ⟨rfl, hl⟩, fun _ x hx e => ?_⟩
      have hxc : x ∈ cs := by
        rcases List.mem_append.mp hx with hx | hx
        · exact List.mem_of_mem_take hx
        · exact List.mem_of_mem_drop hx
      have hin := (h.ok x hxc).ptr_mem
      rw [e] at hin
      exact Set.disjoint_left.mp hap.rest ⟨x, hx, hin⟩ (h.ok c hc).ptr_mem
    · next hl =>
      refine ⟨fun hg => ?_, fun hg => absurd hg.2 hl⟩
      have hp : (c.cleared ptr).ptr = c.ptr := by
        unfold Chunk.cleared
        split <;> rfl
      exact absurd hp (hg _ (List.mem_append_right _ (List.mem_cons_self ..)))
  · refine ⟨fun hg => ?_, fun hg => absurd hg.1 hne⟩
    have hmem := mem_others hn hc' hne
    refine absurd rfl (hg c' ?_)
    split
    · exact hmem
    · rcases List.mem_append.mp hmem with hx | hx
      · exact List.mem_append_left _ hx
      · exact List.mem_append_right _ (List.mem_cons_of_mem _ hx)

/-! ## the pages that are unmapped -/

theorem page_dvd_quantum (h : c.Ok base) (hq : 4096 ≤ c.quantum) : 4096 ∣ c.quantum := by
  obtain ⟨k, -, -, e⟩ := h.pow
  have h1 : 2^12 ≤ 2^k := by
    rw [← e]
    exact hq
  rw [e]
  exact pow_dvd_pow 2 ((Nat.pow_le_pow_iff_right (by decide)).mp h1)

theorem Chunk.Holds.unit (hb : c.Holds b) (hs : c.quantum < 2097152) : c.Holds ⟨b.ptr, c.quantum⟩ := by
  rcases hb with ⟨-, k, hk, hp, -, hbit⟩ | ⟨hl, -⟩
  · exact Or.inl ⟨hs, k, hk, hp, le_rfl, hbit⟩
  · omega

theorem Chunk.unmaps_cases {ptr : Nat} {e : Eff} (h : e ∈ c.unmaps m ptr) :
    (e = .munmap c.ptr c.extent ∧ c.last m ptr = true) ∨
    (e = .munmap ptr c.quantum ∧ 4096 ≤ c.quantum ∧ c.quantum < 2097152) := by
  unfold Chunk.unmaps at h
  unfold Chunk.extent
  by_cases hs : c.quantum < 2097152
  · rw [if_pos hs] at h ⊢
    by_cases hp : c.quantum < 4096
    · rw [if_pos hp] at h
      split at h
      · next hl => exact Or.inl ⟨List.mem_singleton.mp h, hl⟩
      · cases h
    · rw [if_neg hp] at h
      exact Or.inr ⟨List.mem_singleton.mp h, by omega, hs⟩
  · rw [if_neg hs] at h ⊢
    exact Or.inl ⟨List.mem_singleton.mp h, Chunk.last_large (by omega) m ptr⟩

theorem Chunk.Ok.unmap_range (hok : c.Ok base) (hbase : base + 4194304 < 2^64) (hcb : c.Holds b)
    {addr len : Nat} (he : .munmap addr len ∈ unmapAll m base cs n b.ptr c) :
    (addr ∈ c.range ∧ Set.Ico addr (addr + len) ⊆ c.range) ∨
      (addr < base + 4194304 ∧ addr + len ≤ base + 4194304) := by
  unfold unmapAll at he
  rcases List.mem_append.mp he with he | he
  · left
    rcases Chunk.unmaps_cases he with ⟨e, -⟩ | ⟨e, -, hs⟩
    · rw [Eff.munmap.injEq] at e
      rw [e.1, e.2]
      exact ⟨hok.ptr_mem, subset_rfl⟩
    · rw [Eff.munmap.injEq] at e
      rw [e.1, e.2]
      exact ⟨hcb.ptr_mem hok, (hcb.unit hs).range_subset hok⟩
  · right
    split at he
    · have e := List.mem_singleton.mp he
      rw [Eff.munmap.injEq, w64_of_lt (by omega)] at e
      omega
    · cases he

/-- two ranges that share no page -/
def PageApart (lo hi : Nat) (r : Set Nat) : Prop := ∀ x, lo ≤ x → x < hi → ∀ y ∈ r, x / 4096 ≠ y / 4096

theorem PageApart.intro {lo hi : Nat} {r : Set Nat} (hlo : 4096 ∣ lo) (hhi : 4096 ∣ hi)
    (hd : Disjoint (Set.Ico lo hi) r) : PageApart lo hi r := by
  obtain ⟨i, rfl⟩ := hlo
  obtain ⟨j, rfl⟩ := hhi
  intro x hx hx' y hy e
  have : ¬ (4096 * i ≤ y ∧ y < 4096 * j) := fun hy' => Set.disjoint_left.mp hd hy' hy
  omega

theorem BlockInv.unmap_pages (h : BlockInv base cs live) (hbase : base + 4194304 < 2^64)
    (hpage : 4096 ∣ base) (hb : b ∈ live) (hn : cs[n]? = some c) (hcb : c.Holds b)
    (hsum : c.SumOk m b.ptr) {addr len : Nat} (he : .munmap addr len ∈ unmapAll m base cs n b.ptr c)
    (hb' : b' ∈ live) (hne : b' ≠ b) : PageApart addr (addr + len) b'.range := by
  have hc := List.mem_of_getElem? hn
  have hok := h.ok c hc
  have hptr := h.ptr_ne hb' hb hne
  obtain ⟨c', hc', hcb'⟩ := h.held b' hb'
  have hsub := hcb'.range_subset (h.ok c' hc')
  have hdis : c' ≠ c → Disjoint c.range b'.range := by
    intro hcc
    rw [Set.disjoint_left]
    intro x hx hx'
    exact hcc (h.apart.eq_of_mem hc' hc (hsub hx') hx)
  unfold unmapAll at he
  rcases List.mem_append.mp he with he | he
  · rcases Chunk.unmaps_cases he with ⟨e, hl⟩ | ⟨e, hq, hs⟩
    · rw [Eff.munmap.injEq] at e
      rw [e.1, e.2]
      refine PageApart.intro hok.page.1 (Nat.dvd_add hok.page.1 hok.page.2) (hdis ?_)
      rintro rfl
      exact hcb.alone hok hcb' hptr hl hsum
    · rw [Eff.munmap.injEq] at e
      rw [e.1, e.2]
      have hdq := page_dvd_quantum hok hq
      have hdp : 4096 ∣ b.ptr := by
        rcases hcb with ⟨-, k, -, hp, -, -⟩ | ⟨-, hp, -⟩
        · rw [hp]
          exact Nat.dvd_add hok.page.1 (hdq.mul_left k)
        · rw [hp]
          exact hok.page.1
      refine PageApart.intro hdp (Nat.dvd_add hdp hdq) ?_
      by_cases hcc : c' = c
      · rw [hcc] at hcb'
        exact (hcb.unit hs).disjoint hcb' hptr.symm
      · exact (hdis hcc).mono_left ((hcb.unit hs).range_subset hok)
  · split at he
    · have e := List.mem_singleton.mp he
      rw [Eff.munmap.injEq, w64_of_lt (by omega)] at e
      rw [e.1, e.2]
      refine PageApart.intro (by omega) (by omega) ?_
      rw [Set.disjoint_left]
      rintro x ⟨-, hx⟩ hx'
      have h1 := (hsub hx').1
      have h2 := (h.ok c' hc').lo
      omega
    · cases he

end

/-! ## calls -/

def BztOp.ptr : BztOp → Nat
  | .alloc _ ptr _ _ => ptr
  | .free ptr => ptr

/-- the block the call is about is no block afterwards -/
def BztOp.Freed (op : BztOp) (w' : BztWorld) : Prop := op.ptr ≠ 0 ∧ ∀ b ∈ w'.live, b.ptr ≠ op.ptr

/-- the block was in this chunk, and without its bit no bit is set -/
def Chunk.Emptied (c : Chunk) (op : BztOp) (w' : BztWorld) : Prop :=
  op.Freed w' ∧ c.hasPtr op.ptr = true ∧ ∀ k < 512, (c.cleared op.ptr).bit k = false

/-- chunks go away when they are empty, small ones with their memory; pages of blocks stay -/
structure EmptyExact (w : BztWorld) (op : BztOp) (w' : BztWorld) : Prop where
  gone : ∀ c ∈ w.arena.chunks, c.quantum < 2097152 → (Gone w'.arena.chunks c.ptr ↔ c.Emptied op w')
  unmapped : ∀ c ∈ w.arena.chunks, c.quantum < 4096 →
    (.munmap c.ptr (chunksize c.quantum) ∈ op.effs w ↔ c.Emptied op w')
  pages : ∀ addr len, .munmap addr len ∈ op.effs w → ∀ b ∈ w'.live, PageApart addr (addr + len) b.range

section
variable {base m n : Nat} {cs cs1 : List Chunk} {live live' : List Block} {b : Block} {c c' : Chunk}
  {q a s fp : Nat} {spare : Bool} {effs : List Eff}

theorem Grab.no_munmap (h : Grab base cs q a s spare cs1 fp effs) (addr len : Nat) :
    .munmap addr len ∉ effs := by
  have hg : ∀ new p, Eff.munmap addr len ∉ grabEffs new q s p fp spare := by
    intro new p
    unfold grabEffs
    repeat' split
    all_goals simp
  cases h with
  | unit hn hq hs hk hb => exact hg _ _
  | new hlen hno hspot hp => exact hg _ _

theorem fillEffs_no_munmap (fp ptr oq q : Nat) (spare : Bool) (addr len : Nat) :
    .munmap addr len ∉ fillEffs fp ptr oq q spare := by
  unfold fillEffs
  repeat' split
  all_goals simp

theorem Grab.chunk (h : Grab base cs q a s spare cs1 fp effs) (hc : c ∈ cs) :
    ∃ c1 ∈ cs1, c1.ptr = c.ptr := by
  cases h with
  | @unit n k c0 hn hq hs hk hb =>
    have hlt : n < cs.length := (List.getElem?_eq_some_iff.mp hn).1
    by_cases e : c = c0
    · refine ⟨c0.taken k q s, List.mem_set hlt _, ?_⟩
      rw [Chunk.taken_small hs, e]
    · refine ⟨c, ?_, rfl⟩
      rw [List.set_eq_take_append_cons_drop, if_pos hlt]
      rcases List.mem_append.mp (mem_others hn hc e) with hx | hx
      · exact List.mem_append_left _ hx
      · exact List.mem_append_right _ (List.mem_cons_of_mem _ hx)
  | new hlen hno hspot hp => exact ⟨c, List.mem_append_left _ hc, rfl⟩

theorem Chunk.Ok.unmap_iff (hok : c.Ok base) (hbase : base + 4194304 < 2^64) (hq : c.quantum < 4096)
    (ptr : Nat) :
    .munmap c.ptr (chunksize c.quantum) ∈ unmapAll m base cs n ptr c ↔ c.last m ptr = true := by
  have hlo := hok.lo
  unfold unmapAll Chunk.unmaps
  rw [if_pos (by omega), if_pos hq]
  constructor
  · intro he
    rcases List.mem_append.mp he with he | he
    · split at he
      · next hl => exact hl
      · cases he
    · split at he
      · have e := List.mem_singleton.mp he
        rw [Eff.munmap.injEq, w64_of_lt (by omega)] at e
        omega
      · cases he
  · intro hl
    rw [if_pos hl]
    exact List.mem_append_left _ (List.mem_singleton_self _)

theorem BlockInv.unmapped_iff (h : BlockInv base cs live) (hbase : base + 4194304 < 2^64) (hc : c ∈ cs)
    (hcb : c.Holds b) (hc' : c' ∈ cs) (hq : c'.quantum < 4096) :
    .munmap c'.ptr (chunksize c'.quantum) ∈ unmapAll m base cs1 n b.ptr c
      ↔ c' = c ∧ c.last m b.ptr = true := by
  have hok := h.ok c hc
  have hok' := h.ok c' hc'
  by_cases e : c' = c
  · rw [e] at hq ⊢
    rw [hok.unmap_iff hbase hq]
    exact ⟨fun hl => ⟨rfl, hl⟩, fun hl => hl.2⟩
  · refine ⟨fun he => ?_, fun he => absurd he.1 e⟩
    rcases hok.unmap_range hbase hcb he with hin | hlt
    · exact absurd (h.apart.eq_of_mem hc' hc hok'.ptr_mem hin.1) e
    · exact absurd hok'.lo (by omega)

variable {w w' : BztWorld} {op : BztOp}

theorem BlockInv.emptied_iff (h : BlockInv base cs live) (hc : c ∈ cs) (hcb : c.Holds b) (hc' : c' ∈ cs)
    (hs : c'.quantum < 2097152) (hsum : c.SumOk m b.ptr) (hp : op.ptr = b.ptr) (hf : op.Freed w') :
    c'.Emptied op w' ↔ c' = c ∧ c.last m b.ptr = true := by
  unfold Chunk.Emptied
  rw [hp]
  constructor
  · rintro ⟨-, hpc, hbits⟩
    have e : c = c' := h.chunk_eq hc hc' hcb hpc
    rw [← e] at hbits hs
    exact ⟨e.symm, (Chunk.last_iff_bits hs hsum).mpr hbits⟩
  · rintro ⟨rfl, hl⟩
    exact ⟨hf, (h.ok c' hc).hasPtr_iff.mpr (hcb.ptr_mem (h.ok c' hc)),
      (Chunk.last_iff_bits hs hsum).mp hl⟩

theorem EmptyExact.ofKept (hf : ¬ op.Freed w')
    (hkept : ∀ c ∈ w.arena.chunks, ∃ c' ∈ w'.arena.chunks, c'.ptr = c.ptr)
    (hno : ∀ addr len, .munmap addr len ∉ op.effs w) : EmptyExact w op w' := by
  refine ⟨fun c hc _ => ?_, fun c _ _ => ?_, fun addr len he => absurd he (hno addr len)⟩
  · obtain ⟨c', hc', e⟩ := hkept c hc
    exact ⟨fun hg => absurd e (hg c' hc'), fun he => absurd he.1 hf⟩
  · exact ⟨fun he => absurd he (hno _ _), fun he => absurd he.1 hf⟩

theorem Edit.empty {cs' : List Chunk} (h : BlockInv base cs w.live) (hbase : base + 4194304 < 2^64)
    (hpage : 4096 ∣ base) (har : w.arena.chunks = cs) (har' : w'.arena.chunks = cs')
    (he : Edit base cs w.live op cs' w'.live (op.effs w)) : EmptyExact w op w' := by
  generalize heffs : op.effs w = effs at he
  generalize hlive : w'.live = live' at he
  cases he with
  | idle hop =>
    refine EmptyExact.ofKept (fun hf => hf.1 ?_) (fun c hc => ?_) (fun _ _ => ?_)
    · rcases hop with rfl | ⟨a, s, spare, rfl⟩ <;> rfl
    · exact ⟨c, by rw [har', ← har]; exact hc, rfl⟩
    · rw [heffs]
      simp
  | @stay a s spare b c hb hs hc hcb hl hq =>
    refine EmptyExact.ofKept (fun hf => ?_) (fun c hc => ?_) (fun _ _ => ?_)
    · refine hf.2 ⟨b.ptr, s⟩ ?_ rfl
      rw [hlive]
      exact List.mem_cons_self ..
    · exact ⟨c, by rw [har', ← har]; exact hc, rfl⟩
    · rw [heffs]
      simp
  | @fresh a q s fp spare _ effs1 hs hq hg hi =>
    refine EmptyExact.ofKept (fun hf => hf.1 rfl) (fun c hc => ?_) (fun addr len hm => ?_)
    · rw [har']
      rw [har] at hc
      exact hg.chunk hc
    · rw [heffs] at hm
      rcases List.mem_append.mp hm with hm | hm
      · rcases List.mem_append.mp hm with hm | hm
        · unfold mapEffs at hm
          split at hm
          · simp at hm
          · cases hm
        · exact hg.no_munmap addr len hm
      · split at hm
        · simp at hm
        · cases hm
  | @move a q s fp n spare b c cs1 effs1 hb hs hq hg hi hn hn1 hcb hsum =>
    have hc := List.mem_of_getElem? hn
    have hc1 := List.mem_of_getElem? hn1
    have hfp : fp ≠ b.ptr := by
      intro e
      exact (List.nodup_cons.mp hi.ptrs).1 (List.mem_map.mpr ⟨b, hb, e.symm⟩)
    have hf : BztOp.Freed (.alloc a b.ptr s spare) w' := by
      refine ⟨h.ptr_pos hb, fun x hx => ?_⟩
      rw [hlive] at hx
      rcases List.mem_cons.mp hx with rfl | hx
      · exact hfp
      · obtain ⟨hxl, hne⟩ := h.mem_erase hx
        exact h.ptr_ne hxl hb hne
    have hmem : ∀ addr len, Eff.munmap addr len ∈ effs1 ++ fillEffs fp b.ptr c.quantum q spare ++
        unmapAll (2^32) base cs1 n b.ptr c ↔ .munmap addr len ∈ unmapAll (2^32) base cs1 n b.ptr c := by
      intro addr len
      rw [List.mem_append, List.mem_append]
      exact ⟨fun hm => hm.resolve_left (fun hm' =>
        hm'.elim (hg.no_munmap addr len) (fillEffs_no_munmap _ _ _ _ _ addr len)), Or.inr⟩
    refine ⟨fun c' hc' hs' => ?_, fun c' hc' hq' => ?_, fun addr len hm x hx => ?_⟩
    · rw [har] at hc'
      obtain ⟨c1, hc1', e⟩ := hg.chunk hc'
      rw [har', h.emptied_iff hc hcb hc' hs' hsum rfl hf, ← e, hi.gone_iff hn1 hc1']
      -- the chunk before and the chunk after have the same place
      have hiff : c1 = c ↔ c' = c := by
        constructor
        · rintro rfl
          exact h.ptr_inj hc' hc e.symm
        · rintro rfl
          exact hi.ptr_inj hc1' hc1 e
      rw [hiff]
    · rw [har] at hc'
      rw [heffs, hmem, h.unmapped_iff hbase hc hcb hc' hq',
        h.emptied_iff hc hcb hc' (by omega) hsum rfl hf]
    · rw [heffs, hmem] at hm
      rw [hlive] at hx
      have hx' : x ∈ (⟨fp, s⟩ :: w.live : List Block) ∧ x ≠ b := by
        rcases List.mem_cons.mp hx with rfl | hx
        · refine ⟨List.mem_cons_self .., ?_⟩
          rintro rfl
          exact hfp rfl
        · obtain ⟨hxl, hne⟩ := h.mem_erase hx
          exact ⟨List.mem_cons_of_mem _ hxl, hne⟩
      exact hi.unmap_pages hbase hpage (List.mem_cons_of_mem _ hb) hn1 hcb hsum hm hx'.1 hx'.2
  | @free _ n b c hop hb hn hcb hsum =>
    have hc := List.mem_of_getElem? hn
    have hp : op.ptr = b.ptr := by
      rcases hop with rfl | ⟨a, spare, rfl⟩ <;> rfl
    have hf : op.Freed w' := by
      unfold BztOp.Freed
      rw [hp, hlive]
      refine ⟨h.ptr_pos hb, fun x hx => ?_⟩
      obtain ⟨hxl, hne⟩ := h.mem_erase hx
      exact h.ptr_ne hxl hb hne
    refine ⟨fun c' hc' hs' => ?_, fun c' hc' hq' => ?_, fun addr len hm x hx => ?_⟩
    · rw [har] at hc'
      rw [har', h.emptied_iff hc hcb hc' hs' hsum hp hf, h.gone_iff hn hc']
    · rw [har] at hc'
      rw [heffs, h.unmapped_iff hbase hc hcb hc' hq', h.emptied_iff hc hcb hc' (by omega) hsum hp hf]
    · rw [heffs] at hm
      rw [hlive] at hx
      obtain ⟨hxl, hne⟩ := h.mem_erase hx
      exact h.unmap_pages hbase hpage hb hn hcb hsum hm hxl hne

end

theorem bzt_empty {base : Nat} {w w' : BztWorld} {op : BztOp} (hbase : base + 4194304 < 2^64)
    (hpage : 4096 ∣ base) (h : Reach BztStep BztSafe (BztWorld.start base) w) (hsafe : BztSafe w op)
    (hstep : BztStep w op w') : EmptyExact w op w' := by
  obtain ⟨cs, hinv⟩ := BztInv.reach hbase hpage h
  obtain ⟨cs', har', hed⟩ := hstep.edit hinv.blocks hinv.arena hbase hpage hsafe
  refine hed.empty hinv.blocks hbase hpage ?_ ?_
  · rw [hinv.arena, Arena.ofChunks_chunks]
  · rw [har', Arena.ofChunks_chunks]

theorem bzt_empty_demo : Gone bztDemo.arena.chunks 0x100400000 ∧
    EmptyExact bztPair (.alloc (2^3) 0x100400000 20 false) bztDemo :=
  ⟨by decide +kernel, bzt_empty (by decide) (by decide) bztPair_reach bztPair_safe bztDemo_step⟩

/-- `p = aligned_alloc(256,8)`, `aligned_alloc(256,8)` -/
def bztSpread : BztWorld := ((BztWorld.start 0x100000000).alloc 8 8).alloc 8 8

/-- `realloc(p,100)`: bit 32 is left, `2^32` is 0 as an `int`, and the page with the other block is
unmapped -/
theorem bztAlloc_unmaps_live :
    Reach BztStep (fun _ _ => True) (BztWorld.start 0x100000000) bztSpread ∧
    BztStep bztSpread (.alloc (2^3) 0x100400000 100 false) (bztSpread.realloc ⟨0x100400000, 8⟩ 100) ∧
    ¬ EmptyExact bztSpread (.alloc (2^3) 0x100400000 100 false)
      (bztSpread.realloc ⟨0x100400000, 8⟩ 100) := by
  refine ⟨(Reach.refl.tail trivial (BztStep.ofAlloc ?_ ?_ ?_)).tail trivial (BztStep.ofAlloc ?_ ?_ ?_),
    BztStep.ofRealloc (b := ⟨0x100400000, 8⟩) ?_ ?_ ?_, fun h => ?_⟩
  · decide
  · decide
  · decide +kernel
  · decide
  · decide
  · decide +kernel
  · decide
  · decide +kernel
  · decide +kernel
  · have hm : Eff.munmap 0x100400000 4096 ∈ BztOp.effs bztSpread (.alloc (2^3) 0x100400000 100 false) := by
      decide +kernel
    have hb : (⟨0x100400100, 8⟩ : Block) ∈ (bztSpread.realloc ⟨0x100400000, 8⟩ 100).live := by
      decide +kernel
    exact h.pages _ _ hm _ hb 0x100400100 (by decide) (by decide) 0x100400100 ⟨le_rfl, by decide⟩ rfl

end OsZ
