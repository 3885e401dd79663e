import OsZ.Bzt.Blocks

/-!
# Blocks do not overlap

* `Edit`          what a call does to the chunks and the blocks;
* `BztSafe`       the calls that do it right: a new chunk has room, a chunk that is found empty is
                  empty;
* `BztStep.edit`  such a call is an `Edit`, and edits keep `BlockInv` (`BlockInv.edit`);
* `bzt_disjoint`  hence blocks, chunks and allocmaps are disjoint after every run of such calls;
* `bzt_overlap`   two calls after which two chunks overlap.
-/

namespace OsZ

/-! ## calls -/

def Arena.chunks (ar : Arena) : List Chunk := ((ar.slot 1).map AllocMap.chunks).getD []

theorem Arena.ofChunks_chunks (base : Nat) (cs : List Chunk) : (Arena.ofChunks base cs).chunks = cs := by
  cases cs with
  | nil => rfl
  | cons c cs => rfl

theorem Arena.ofChunks_base (base : Nat) (cs : List Chunk) : (Arena.ofChunks base cs).base = base := by
  cases cs with
  | nil => rfl
  | cons c cs => rfl

/-- if the request needs a new chunk there is room for one, in the address space and (or the old
pointer would be returned) in the allocmap -/
def Arena.Room (ar : Arena) (a ptr s : Nat) : Prop :=
  ∀ q, quantumOf s = some q → NoFree ar.chunks q (alignOf a q) →
    Fits ar.base ar.chunks q (alignOf a q) s ∧ (ptr ≠ 0 → ar.chunks.length < 26214)

/-- if the block is given back its chunk is found empty only when it is -/
def Arena.SumOk (ar : Arena) (m ptr : Nat) : Prop :=
  ∀ c ∈ ar.chunks, c.hasPtr ptr = true → c.SumOk m ptr

def BztSafe (w : BztWorld) : BztOp → Prop
  | .alloc a ptr s _ =>
    if s = 0 then w.arena.SumOk (2^64) ptr else w.arena.Room a ptr s ∧ w.arena.SumOk (2^32) ptr
  | .free ptr => w.arena.SumOk (2^64) ptr

/-- what the call asks of the kernel and does to memory -/
def BztOp.effs (w : BztWorld) : BztOp → List Eff
  | .alloc a ptr s spare => ((bztAlloc mapped w.arena a ptr s spare).map BztOut.effs).getD []
  | .free ptr => (bztFree w.arena ptr).effs

theorem BztOp.effs_alloc {w : BztWorld} {a ptr s : Nat} {spare : Bool} {out : BztOut}
    (h : bztAlloc mapped w.arena a ptr s spare = some out) :
    BztOp.effs w (.alloc a ptr s spare) = out.effs := by
  dsimp only [BztOp.effs]
  rw [h]
  rfl

/-- what a call does, on the chunks and the blocks -/
inductive Edit (base : Nat) (cs : List Chunk) (live : List Block) :
    BztOp → List Chunk → List Block → List Eff → Prop
  | idle {op : BztOp} (hop : op = .free 0 ∨ ∃ a s spare, op = .alloc a 0 s spare) :
      Edit base cs live op cs live []
  | stay {a s : Nat} {spare : Bool} {b : Block} {c : Chunk} (hb : b ∈ live) (hs : 0 < s) (hc : c ∈ cs)
      (hcb : c.Holds b) (hl : c.quantum < 2097152) (hq : quantumOf s = some c.quantum) :
      Edit base cs live (.alloc a b.ptr s spare) cs (⟨b.ptr, s⟩ :: live.erase b) []
  | fresh {a q s fp : Nat} {spare : Bool} {cs1 : List Chunk} {effs : List Eff} (hs : 0 < s)
      (hq : quantumOf s = some q) (hg : Grab base cs q (alignOf a q) s spare cs1 fp effs)
      (hi : BlockInv base cs1 (⟨fp, s⟩ :: live)) :
      Edit base cs live (.alloc a 0 s spare) cs1 (⟨fp, s⟩ :: live)
        (mapEffs base cs ++ effs ++ if spare = false then [.memzero fp q] else [])
  | move {a q s fp n : Nat} {spare : Bool} {b : Block} {c : Chunk} {cs1 : List Chunk} {effs : List Eff}
      (hb : b ∈ live) (hs : 0 < s) (hq : quantumOf s = some q)
      (hg : Grab base cs q (alignOf a q) s spare cs1 fp effs)
      (hi : BlockInv base cs1 (⟨fp, s⟩ :: live)) (hn : cs[n]? = some c) (hn1 : cs1[n]? = some c)
      (hcb : c.Holds b) (hsum : c.SumOk (2^32) b.ptr) :
      Edit base cs live (.alloc a b.ptr s spare) (giveBack (2^32) cs1 n b.ptr) (⟨fp, s⟩ :: live.erase b)
        (effs ++ fillEffs fp b.ptr c.quantum q spare ++ unmapAll (2^32) base cs1 n b.ptr c)
  | free {op : BztOp} {n : Nat} {b : Block} {c : Chunk}
      (hop : op = .free b.ptr ∨ ∃ a spare, op = .alloc a b.ptr 0 spare) (hb : b ∈ live)
      (hn : cs[n]? = some c) (hcb : c.Holds b) (hsum : c.SumOk (2^64) b.ptr) :
      Edit base cs live op (giveBack (2^64) cs n b.ptr) (live.erase b) (unmapAll (2^64) base cs n b.ptr c)

section
variable {base : Nat} {cs : List Chunk} {live : List Block} {w w' : BztWorld} {op : BztOp}

theorem BlockInv.free_spec (h : BlockInv base cs live) {b : Block} (hb : b ∈ live)
    (hsum : (Arena.ofChunks base cs).SumOk (2^64) b.ptr) :
    ∃ n c, cs[n]? = some c ∧ c.Holds b ∧ c.SumOk (2^64) b.ptr ∧
      bztFree (Arena.ofChunks base cs) b.ptr = ⟨Arena.ofChunks base (giveBack (2^64) cs n b.ptr), 0,
        none, unmapAll (2^64) base cs n b.ptr c⟩ := by
  obtain ⟨c, hc, hcb⟩ := h.held b hb
  have hp : c.hasPtr b.ptr = true := (h.ok c hc).hasPtr_iff.mpr (hcb.ptr_mem (h.ok c hc))
  obtain ⟨n, c', hn, hp', he⟩ := bztFree_spec base hc hp (h.ptr_pos hb)
  have hc' : c' ∈ cs := List.mem_of_getElem? hn
  refine ⟨n, c', hn, h.holds_of_hasPtr hc' hb hp', hsum c' ?_ hp', he⟩
  rw [Arena.ofChunks_chunks]
  exact hc'

theorem BlockInv.alloc_spec (h : BlockInv base cs live) (hbase : base + 4194304 < 2^64)
    (hpage : 4096 ∣ base) {k s : Nat} {spare : Bool} {out : BztOut} (hs : 0 < s)
    (hroom : (Arena.ofChunks base cs).Room (2^k) 0 s)
    (ho : bztAlloc mapped (Arena.ofChunks base cs) (2^k) 0 s spare = some out) :
    ∃ cs', out.arena = Arena.ofChunks base cs' ∧
      Edit base cs live (.alloc (2^k) 0 s spare) cs' (got out s ++ live) out.effs := by
  obtain ⟨q, hq, hcase⟩ := bztAlloc_spec hbase (by omega) ho
  obtain ⟨hsq, hpow⟩ := quantumOf_spec hs hq
  obtain ⟨hqa, ha⟩ := alignOf_pow (k := k) hpow
  rcases hcase with ⟨c, -, -, -, h0, -⟩ | ⟨-, -, e⟩ | ⟨cs1, fp, effs, htk, hrest⟩
  · exact absurd rfl h0
  · rw [e]
    exact ⟨cs, rfl, Edit.idle (Or.inr ⟨_, _, _, rfl⟩)⟩
  · have hg := htk.grab h.chunk_ptr_pos
    have hi := h.grab hpage hs hsq hpow hqa ha (fun hno => by
      have := (hroom q hq (by rw [Arena.ofChunks_chunks]; exact hno)).1
      rwa [Arena.ofChunks_base, Arena.ofChunks_chunks] at this) hg
    have hfp : fp ≠ 0 := hi.ptr_pos (b := ⟨fp, s⟩) (List.mem_cons_self ..)
    rcases hrest with ⟨h0, -⟩ | ⟨-, ⟨-, e⟩ | ⟨n, c, h0, -⟩⟩
    · exact absurd h0 hfp
    · rw [e]
      refine ⟨cs1, rfl, ?_⟩
      unfold got
      rw [if_neg hfp]
      exact Edit.fresh hs hq hg hi
    · exact absurd rfl h0

theorem BlockInv.realloc_spec (h : BlockInv base cs live) (hbase : base + 4194304 < 2^64)
    (hpage : 4096 ∣ base) {k s : Nat} {spare : Bool} {b : Block} {out : BztOut} (hb : b ∈ live)
    (hs : 0 < s) (hroom : (Arena.ofChunks base cs).Room (2^k) b.ptr s)
    (hsum : (Arena.ofChunks base cs).SumOk (2^32) b.ptr)
    (ho : bztAlloc mapped (Arena.ofChunks base cs) (2^k) b.ptr s spare = some out) :
    ∃ cs', out.arena = Arena.ofChunks base cs' ∧
      Edit base cs live (.alloc (2^k) b.ptr s spare) cs' (got out s ++ live.erase b) out.effs := by
  obtain ⟨q, hq, hcase⟩ := bztAlloc_spec hbase (by omega) ho
  obtain ⟨hsq, hpow⟩ := quantumOf_spec hs hq
  obtain ⟨hqa, ha⟩ := alignOf_pow (k := k) hpow
  have hb0 := h.ptr_pos hb
  unfold Arena.Room at hroom
  unfold Arena.SumOk at hsum
  rw [Arena.ofChunks_chunks, Arena.ofChunks_base] at hroom
  rw [Arena.ofChunks_chunks] at hsum
  rcases hcase with ⟨c, hc, hcq, hl, -, hp, e⟩ | ⟨hfull, hno, -⟩ | ⟨cs1, fp, effs, htk, hrest⟩
  · rw [e]
    refine ⟨cs, rfl, ?_⟩
    unfold got
    rw [if_neg hb0]
    exact Edit.stay hb hs hc (h.holds_of_hasPtr hc hb hp) (by rw [hcq]; exact hl) (by rw [hcq]; exact hq)
  · exact absurd ((hroom q hq hno).2 hb0) (by omega)
  · have hg := htk.grab h.chunk_ptr_pos
    have hi := h.grab hpage hs hsq hpow hqa ha (fun hno => (hroom q hq hno).1) hg
    have hfp : fp ≠ 0 := hi.ptr_pos (b := ⟨fp, s⟩) (List.mem_cons_self ..)
    rcases hrest with ⟨h0, -⟩ | ⟨-, ⟨h0 | hno, -⟩ | ⟨n, c, -, hn, hn1, hp, e⟩⟩
    · exact absurd h0 hfp
    · exact absurd h0 hb0
    · obtain ⟨c, hc, hcb⟩ := h.held b hb
      have hp := (h.ok c hc).hasPtr_iff.mpr (hcb.ptr_mem (h.ok c hc))
      rw [hno c hc] at hp
      cases hp
    · have hc := List.mem_of_getElem? hn
      rw [e]
      refine ⟨_, rfl, ?_⟩
      unfold got
      rw [if_neg hfp]
      exact Edit.move hb hs hq hg hi hn hn1 (h.holds_of_hasPtr hc hb hp) (hsum c hc hp)

theorem BztStep.edit (h : BlockInv base cs w.live) (har : w.arena = Arena.ofChunks base cs)
    (hbase : base + 4194304 < 2^64) (hpage : 4096 ∣ base) (hsafe : BztSafe w op)
    (hstep : BztStep w op w') :
    ∃ cs', w'.arena = Arena.ofChunks base cs' ∧ Edit base cs w.live op cs' w'.live (op.effs w) := by
  cases hstep with
  | @alloc k s spare out hk hs ho =>
    rw [BztOp.effs_alloc ho]
    by_cases h0 : s = 0
    · subst h0
      unfold bztAlloc at ho
      rw [if_pos rfl, bztFree_null] at ho
      cases ho
      exact ⟨cs, har, Edit.idle (Or.inr ⟨_, _, _, rfl⟩)⟩
    · dsimp only [BztSafe] at hsafe
      rw [if_neg h0] at hsafe
      rw [har] at ho hsafe
      exact h.alloc_spec hbase hpage (by omega) hsafe.1 ho
  | @realloc k s spare b out hk hs hb ho =>
    rw [BztOp.effs_alloc ho]
    dsimp only [BztSafe] at hsafe
    by_cases h0 : s = 0
    · subst h0
      rw [if_pos rfl, har] at hsafe
      obtain ⟨n, c, hn, hcb, hsum, hf⟩ := h.free_spec hb hsafe
      unfold bztAlloc at ho
      rw [if_pos rfl, har, hf] at ho
      cases ho
      exact ⟨_, rfl, Edit.free (Or.inr ⟨_, _, rfl⟩) hb hn hcb hsum⟩
    · rw [if_neg h0] at hsafe
      rw [har] at ho hsafe
      exact h.realloc_spec hbase hpage hb (by omega) hsafe.1 hsafe.2 ho
  | @free b hb =>
    dsimp only [BztSafe] at hsafe
    rw [har] at hsafe
    obtain ⟨n, c, hn, hcb, hsum, hf⟩ := h.free_spec hb hsafe
    unfold BztOp.effs
    dsimp only
    rw [har, hf]
    exact ⟨_, rfl, Edit.free (Or.inl rfl) hb hn hcb hsum⟩
  | freeNull =>
    unfold BztOp.effs
    dsimp only
    rw [bztFree_null]
    exact ⟨cs, har, Edit.idle (Or.inl rfl)⟩

theorem BlockInv.edit {cs' : List Chunk} {live' : List Block} {effs : List Eff}
    (h : BlockInv base cs live) (he : Edit base cs live op cs' live' effs) :
    BlockInv base cs' live' := by
  cases he with
  | idle hop => exact h
  | @stay a s spare b c hb hs hc hcb hl hq =>
    refine ⟨h.ok, h.apart, fun x hx => ?_, ?_⟩
    · rcases List.mem_cons.mp hx with rfl | hx
      · refine ⟨c, hc, ?_⟩
        rcases hcb with ⟨-, k, hk, hp, -, hbit⟩ | ⟨hl', -⟩
        · exact Or.inl ⟨hl, k, hk, hp, (quantumOf_spec hs hq).1, hbit⟩
        · omega
      · exact h.held x (h.mem_erase hx).1
    · rw [List.map_cons, List.nodup_cons]
      refine ⟨fun hmem => ?_, h.ptrs.sublist ((List.erase_sublist).map _)⟩
      obtain ⟨x, hx, e⟩ := List.mem_map.mp hmem
      obtain ⟨hxl, hne⟩ := h.mem_erase hx
      exact h.ptr_ne hxl hb hne e
  | fresh hs hq hg hi => exact hi
  | @move a q s fp n spare b c cs1 effs hb hs hq hg hi hn hn1 hcb hsum =>
    have hne : b ≠ ⟨fp, s⟩ := by
      rintro rfl
      exact (List.nodup_cons.mp hi.ptrs).1 (List.mem_map_of_mem hb)
    have := hi.released (List.mem_cons_of_mem _ hb) hn1 hcb hsum
    rwa [List.erase_cons_tail (by simpa using hne.symm)] at this
  | free hop hb hn hcb hsum => exact h.released hb hn hcb hsum

end

/-! ## runs -/

/-- an arena of which nothing is used, and a program without blocks -/
def BztWorld.start (base : Nat) : BztWorld := ⟨⟨base, 0, fun _ => none⟩, []⟩

structure BztInv (base : Nat) (w : BztWorld) (cs : List Chunk) : Prop where
  arena : w.arena = Arena.ofChunks base cs
  blocks : BlockInv base cs w.live

theorem BztInv.start (base : Nat) : BztInv base (BztWorld.start base) [] :=
  ⟨rfl, by simp, Apart.nil, by simp [BztWorld.start], List.nodup_nil⟩

theorem BztInv.reach {base : Nat} {w : BztWorld} (hbase : base + 4194304 < 2^64) (hpage : 4096 ∣ base)
    (h : Reach BztStep BztSafe (BztWorld.start base) w) : ∃ cs, BztInv base w cs := by
  refine h.keeps (I := fun w => ∃ cs, BztInv base w cs) ⟨[], BztInv.start base⟩ ?_
  rintro u op u' ⟨cs, hu⟩ hsafe hstep
  obtain ⟨cs', har, hed⟩ := hstep.edit hu.blocks hu.arena hbase hpage hsafe
  exact ⟨cs', har, hu.blocks.edit hed⟩

/-- what an arena occupies: its allocmaps and their chunks -/
def AllocMap.regions (am : AllocMap) : List (Set Nat) :=
  Set.Ico am.addr (am.addr + 2097152) :: am.chunks.map Chunk.range

/-- blocks are disjoint and in chunks, chunks and allocmaps are disjoint -/
structure BztDisjoint (w : BztWorld) : Prop where
  blocks : Apart Block.range w.live
  inside : ∀ b ∈ w.live, ∃ i am, w.arena.slot i = some am ∧ ∃ c ∈ am.chunks, b.range ⊆ c.range
  regions : ∀ i am, w.arena.slot i = some am → Apart id am.regions
  maps : ∀ i j am am', i ≠ j → w.arena.slot i = some am → w.arena.slot j = some am' →
    Disjoint (cover id am.regions) (cover id am'.regions)

theorem Arena.ofChunks_slot {base i : Nat} {cs : List Chunk} {am : AllocMap}
    (h : (Arena.ofChunks base cs).slot i = some am) :
    i = 1 ∧ am = ⟨w64 (base + 2097152), cs⟩ := by
  cases cs with
  | nil => cases h
  | cons c cs =>
    rw [Arena.ofChunks_ne (by simp)] at h
    unfold Arena.withMap at h
    dsimp only at h
    by_cases hi : i = 1
    · rw [hi, Function.update_self, Option.some.injEq] at h
      exact ⟨hi, h.symm⟩
    · rw [Function.update_of_ne hi] at h
      cases h

theorem BztInv.disjoint {base : Nat} {w : BztWorld} {cs : List Chunk} (hbase : base + 4194304 < 2^64)
    (h : BztInv base w cs) : BztDisjoint w := by
  obtain ⟨har, hb⟩ := h
  refine ⟨hb.disjoint, fun b hbl => ?_, fun i am hi => ?_, fun i j am am' hne hi hj => ?_⟩
  · obtain ⟨c, hc, hcb⟩ := hb.held b hbl
    have hne : cs ≠ [] := List.ne_nil_of_mem hc
    refine ⟨1, ⟨w64 (base + 2097152), cs⟩, ?_, c, hc, hcb.range_subset (hb.ok c hc)⟩
    rw [har, Arena.ofChunks_ne hne, Arena.withMap_slot]
  · rw [har] at hi
    obtain ⟨-, rfl⟩ := Arena.ofChunks_slot hi
    refine List.pairwise_cons.mpr ⟨fun r hr => ?_, List.pairwise_map.mpr hb.apart⟩
    obtain ⟨c, hc, rfl⟩ := List.mem_map.mp hr
    have hlo := (hb.ok c hc).lo
    rw [Set.disjoint_left]
    rintro x ⟨-, h2⟩ ⟨h3, -⟩
    dsimp only at h2
    rw [w64_of_lt (by omega)] at h2
    omega
  · rw [har] at hi hj
    exact absurd ((Arena.ofChunks_slot hi).1.trans (Arena.ofChunks_slot hj).1.symm) hne

theorem bzt_disjoint {base : Nat} {w : BztWorld} (hbase : base + 4194304 < 2^64) (hpage : 4096 ∣ base)
    (h : Reach BztStep BztSafe (BztWorld.start base) w) : BztDisjoint w := by
  obtain ⟨cs, hinv⟩ := BztInv.reach hbase hpage h
  exact hinv.disjoint hbase

/-! ## examples of runs -/

/-- the world after a call with result `out`, when `live` are the other blocks -/
def BztWorld.next (w : BztWorld) (live : List Block) (s : Nat) : Option BztOut → BztWorld
  | none => w
  | some out => ⟨out.arena, got out s ++ live⟩

/-- `aligned_alloc(2^k,s)` -/
def BztWorld.alloc (w : BztWorld) (k s : Nat) : BztWorld :=
  w.next w.live s (bztAlloc mapped w.arena (2^k) 0 s false)

/-- `realloc(b,s)` -/
def BztWorld.realloc (w : BztWorld) (b : Block) (s : Nat) : BztWorld :=
  w.next (w.live.erase b) s (bztAlloc mapped w.arena (2^3) b.ptr s false)

theorem BztStep.ofAlloc {w : BztWorld} {k s : Nat} (hk : k < 64) (hs : s < 2^64)
    (h : (bztAlloc mapped w.arena (2^k) 0 s false).isSome = true) :
    BztStep w (.alloc (2^k) 0 s false) (w.alloc k s) := by
  obtain ⟨out, ho⟩ := Option.isSome_iff_exists.mp h
  unfold BztWorld.alloc
  rw [ho]
  exact BztStep.alloc hk hs ho

theorem BztStep.ofRealloc {w : BztWorld} {s : Nat} {b : Block} (hs : s < 2^64) (hb : b ∈ w.live)
    (h : (bztAlloc mapped w.arena (2^3) b.ptr s false).isSome = true) :
    BztStep w (.alloc (2^3) b.ptr s false) (w.realloc b s) := by
  obtain ⟨out, ho⟩ := Option.isSome_iff_exists.mp h
  unfold BztWorld.realloc
  rw [ho]
  exact BztStep.realloc (by decide) hs hb ho

instance (base : Nat) (cs : List Chunk) (q a s : Nat) : Decidable (Fits base cs q a s) :=
  decidable_of_iff
    (base + 4194304 + needs q a s < 2^64 ∧ (∀ c ∈ cs, c.ptr + c.extent + needs q a s < 2^64) ∧
      (q < 2097152 → (base + 4194304) &&& (a - 1) = 0 →
        (∀ c ∈ cs, w64 (base + 4194304 + roundUp 2097152 s) < c.ptr) →
        ∀ c ∈ cs, base + 4194304 + q * 512 ≤ c.ptr))
    ⟨fun h => ⟨h.1, h.2.1, h.2.2⟩, fun h => ⟨h.room, h.top, h.gap⟩⟩

instance (ar : Arena) (m ptr : Nat) : Decidable (ar.SumOk m ptr) :=
  inferInstanceAs (Decidable (∀ c ∈ ar.chunks, c.hasPtr ptr = true → c.quantum < 2097152 →
    Bitmap.sum (c.cleared ptr).map 8 % m = 0 → Bitmap.sum (c.cleared ptr).map 8 = 0))

theorem Arena.Room.intro {ar : Arena} {a ptr s q : Nat} (hq : quantumOf s = some q)
    (hf : Fits ar.base ar.chunks q (alignOf a q) s) (hlen : ar.chunks.length < 26214) :
    ar.Room a ptr s := by
  intro q' hq' _
  rw [hq] at hq'
  cases hq'
  exact ⟨hf, fun _ => hlen⟩

theorem bztSafe_alloc {w : BztWorld} {a ptr s q : Nat} {spare : Bool} (hs : s ≠ 0)
    (hq : quantumOf s = some q) (hf : Fits w.arena.base w.arena.chunks q (alignOf a q) s)
    (hlen : w.arena.chunks.length < 26214) (hsum : w.arena.SumOk (2^32) ptr) :
    BztSafe w (.alloc a ptr s spare) := by
  dsimp only [BztSafe]
  rw [if_neg hs]
  exact ⟨Arena.Room.intro hq hf hlen, hsum⟩

/-- `p = malloc(8)`, `malloc(100)` -/
def bztPair : BztWorld := ((BztWorld.start 0x100000000).alloc 3 8).alloc 3 100

/-- `realloc(p,20)` -/
def bztDemo : BztWorld := bztPair.realloc ⟨0x100400000, 8⟩ 20

theorem bztPair_reach : Reach BztStep BztSafe (BztWorld.start 0x100000000) bztPair := by
  refine (Reach.refl.tail ?_ (BztStep.ofAlloc (k := 3) (s := 8) ?_ ?_ ?_)).tail ?_
    (BztStep.ofAlloc (k := 3) (s := 100) ?_ ?_ ?_)
  · exact bztSafe_alloc (q := 8) (by decide) rfl (by decide +kernel) (by decide +kernel) (by decide +kernel)
  · decide
  · decide
  · decide +kernel
  · exact bztSafe_alloc (q := 128) (by decide) rfl (by decide +kernel) (by decide +kernel) (by decide +kernel)
  · decide
  · decide
  · decide +kernel

theorem bztPair_safe : BztSafe bztPair (.alloc (2^3) 0x100400000 20 false) :=
  bztSafe_alloc (q := 32) (by decide) rfl (by decide +kernel) (by decide +kernel) (by decide +kernel)

theorem bztDemo_step : BztStep bztPair (.alloc (2^3) 0x100400000 20 false) bztDemo :=
  BztStep.ofRealloc (b := ⟨0x100400000, 8⟩) (by decide) (by decide +kernel) (by decide +kernel)

theorem bzt_disjoint_demo : bztDemo.live = [⟨0x100411000, 20⟩, ⟨0x100401000, 100⟩] ∧
    BztDisjoint bztDemo :=
  ⟨by decide +kernel, bzt_disjoint (by decide) (by decide) (bztPair_reach.tail bztPair_safe bztDemo_step)⟩

/-- `malloc(8M)`, `malloc(16K)` -/
def bztOverlap : BztWorld := ((BztWorld.start 0x100000000).alloc 3 0x800000).alloc 3 0x4000

/-- the second chunk goes into the gap behind the allocmap, which has 4M, but it is 8M long -/
theorem bzt_overlap : Reach BztStep (fun _ _ => True) (BztWorld.start 0x100000000) bztOverlap ∧
    ¬ BztDisjoint bztOverlap := by
  refine ⟨(Reach.refl.tail trivial (BztStep.ofAlloc ?_ ?_ ?_)).tail trivial
    (BztStep.ofAlloc ?_ ?_ ?_), fun h => ?_⟩
  · decide
  · decide
  · decide +kernel
  · decide
  · decide
  · decide +kernel
  · have hc : bztOverlap.arena.chunks.map (fun c => (c.ptr, c.extent))
        = [(0x100800000, 0x800000), (0x100400000, 0x800000)] := by decide +kernel
    have hsome : (bztOverlap.arena.slot 1).isSome = true := by decide +kernel
    obtain ⟨am, ham⟩ := Option.isSome_iff_exists.mp hsome
    unfold Arena.chunks at hc
    rw [ham, Option.map_some, Option.getD_some] at hc
    have hr : am.chunks.map Chunk.range
        = [Set.Ico 0x100800000 0x101000000, Set.Ico 0x100400000 0x100c00000] := by
      have := congrArg (List.map (fun x : Nat × Nat => Set.Ico x.1 (x.1 + x.2))) hc
      rwa [List.map_map] at this
    have hap := (List.pairwise_cons.mp (h.regions 1 am ham)).2
    rw [hr] at hap
    have hdis := (List.pairwise_cons.mp hap).1 _ (List.mem_singleton_self _)
    have hin : (0x100800000 : Nat) ∈ Set.Ico 0x100800000 0x101000000 := ⟨by decide, by decide⟩
    exact Set.disjoint_left.mp hdis hin ⟨by decide, by decide⟩

end OsZ
