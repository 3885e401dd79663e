import OsZ.Bzt.Contents

/-!
# New blocks

The address of a new block is fixed by the chunks (`blockPlace`): a free unit, or the place of a new
chunk.  Units are aligned as asked for and large blocks are moved up to a multiple; a new chunk of
units begins where the topmost chunk ends.

* `BztStep.shape`       after any run an arena is a list of chunks;
* `bztAlloc_place`      the pointer and the effects of `bzt_alloc(arena,a,NULL,s,flag)`;
* `bzt_new_block`       when a new block is aligned, mapped and zero;
* `bztAlloc_unaligned`  `malloc(8)`, `aligned_alloc(8192,8192)`.
-/

namespace OsZ
variable {base q a s i k n p ptr : Nat} {cs : List Chunk} {spare : Bool} {out : BztOut}

/-! ## the shape of an arena -/

theorem freeScan_ofChunks (base ptr : Nat) (cs : List Chunk) (n : Nat)
    (h : ∀ c ∈ cs, c.hasPtr ptr = false) : freeScan (Arena.ofChunks base cs) ptr (n+2) 1 0 = none := by
  cases cs with
  | nil => rfl
  | cons c cs =>
    have hne : c :: cs ≠ [] := List.cons_ne_nil c cs
    have hcount : ¬ 0 + 1 < (Arena.withMap base (c :: cs)).count := Nat.lt_irrefl 1
    have hidx : (c :: cs).findIdx? (fun c => c.hasPtr ptr) = none := by
      rw [List.findIdx?_eq_none_iff]
      exact h
    rw [Arena.ofChunks_ne hne, freeScan,
      if_pos (show 0 < (Arena.withMap base (c :: cs)).count from Nat.one_pos), Arena.withMap_slot]
    dsimp only
    rw [hidx]
    dsimp only
    rw [freeScan, if_neg hcount]

theorem bztFree_shape (base ptr : Nat) (cs : List Chunk) :
    ∃ cs', (bztFree (Arena.ofChunks base cs) ptr).arena = Arena.ofChunks base cs' := by
  by_cases h0 : ptr = 0
  · rw [h0, bztFree_null]
    exact ⟨cs, rfl⟩
  · by_cases hp : ∃ c ∈ cs, c.hasPtr ptr = true
    · obtain ⟨c, hc, hp⟩ := hp
      obtain ⟨j, c', -, -, e⟩ := bztFree_spec base hc hp h0
      rw [e]
      exact ⟨_, rfl⟩
    · refine ⟨cs, ?_⟩
      have hno : ∀ c ∈ cs, c.hasPtr ptr = false := by
        intro c hc
        rw [← Bool.not_eq_true]
        exact fun h => hp ⟨c, hc, h⟩
      unfold bztFree
      rw [if_neg h0, freeScan_ofChunks base ptr cs _ hno]

theorem bztAlloc_shape (hbase : base + 4194304 < 2^64)
    (h : bztAlloc mapped (Arena.ofChunks base cs) a ptr s spare = some out) :
    ∃ cs', out.arena = Arena.ofChunks base cs' := by
  by_cases h0 : s = 0
  · unfold bztAlloc at h
    rw [if_pos h0, Option.some.injEq] at h
    rw [← h]
    exact bztFree_shape base ptr cs
  · obtain ⟨q, -, hcase⟩ := bztAlloc_spec hbase h0 h
    rcases hcase with ⟨c, -, -, -, -, -, e⟩ | ⟨-, -, e⟩ | ⟨cs1, fp, effs, -,
      ⟨-, e⟩ | ⟨-, ⟨-, e⟩ | ⟨n, c, -, -, -, -, e⟩⟩⟩
    all_goals
      rw [e]
      exact ⟨_, rfl⟩

theorem BztStep.shape {w w' : BztWorld} {op : BztOp} (hbase : base + 4194304 < 2^64)
    (h : BztStep w op w') (hw : ∃ cs, w.arena = Arena.ofChunks base cs) :
    ∃ cs, w'.arena = Arena.ofChunks base cs := by
  obtain ⟨cs, hw⟩ := hw
  cases h with
  | alloc hk hs ho =>
    rw [hw] at ho
    exact bztAlloc_shape hbase ho
  | realloc hk hs hb ho =>
    rw [hw] at ho
    exact bztAlloc_shape hbase ho
  | free hb =>
    dsimp only
    rw [hw]
    exact bztFree_shape _ _ _
  | freeNull =>
    dsimp only
    rw [hw]
    exact bztFree_shape _ _ _

theorem ramRun_shape {u : RamWorld} (hbase : base + 4194304 < 2^64)
    (h : Reach RamStep (fun _ _ => True) (RamWorld.start base) u) :
    ∃ cs, u.world.arena = Arena.ofChunks base cs := by
  refine h.keeps (I := fun u => ∃ cs, u.world.arena = Arena.ofChunks base cs) ⟨[], rfl⟩ ?_
  intro v op v' hv _ hstep
  cases hstep with
  | call h hr => exact h.shape hbase hv
  | store hb hx => exact hv

/-! ## alignment -/

/-- the units looked at are multiples of `sf`, also where the `int` wraps around -/
theorem unitLoop_dvd {map : Nat → BitVec 64} {m n u : Nat} {k : Int} (hk : ((2^m : Nat) : Int) ∣ k)
    (h : unitLoop map (2^m) n k = some (some u)) : 2^m ∣ u := by
  induction n generalizing k with
  | zero => exact absurd h (by simp [unitLoop])
  | succ n ih =>
    rw [unitLoop] at h
    split at h
    · exact absurd h (by simp)
    · next h0 =>
      split at h
      · exact absurd h (by simp)
      · next h512 =>
        split at h
        · cases h
          have hnat : ((k.toNat : Nat) : Int) = k := Int.toNat_of_nonneg (by omega)
          rw [← hnat] at hk
          exact_mod_cast hk
        · refine ih ?_ h
          unfold i32
          by_cases hm : m ≤ 32
          · have hsum : ((2^m : Nat) : Int) ∣ k + (2^m : Nat) := dvd_add hk dvd_rfl
            have hpow : ((2^m : Nat) : Int) ∣ ((2^32 : Nat) : Int) :=
              Int.natCast_dvd_natCast.mpr (pow_dvd_pow 2 hm)
            rw [Int.bmod_def]
            have hmod : ((2^m : Nat) : Int) ∣ (k + (2^m : Nat)) % ((2^32 : Nat) : Int) :=
              (EuclideanDomain.dvd_mod_iff hpow).mpr hsum
            split
            · exact hmod
            · exact dvd_sub hmod hpow
          · -- the step is 0 as an `int`, and so is `k`
            have hlarge : (512 : Int) < ((2^m : Nat) : Int) := by
              have : 2^32 < 2^m := Nat.pow_lt_pow_right (by decide) (by omega)
              omega
            have hk0 : k = 0 := Int.eq_zero_of_dvd_of_nonneg_of_lt (by omega) (by omega) hk
            have hdvd : ((2^32 : Nat) : Int) ∣ ((2^m : Nat) : Int) :=
              Int.natCast_dvd_natCast.mpr (pow_dvd_pow 2 (by omega))
            have hz : Int.bmod (k + ((2^m : Nat) : Int)) (2^32) = 0 := by
              rw [hk0, Int.zero_add]
              exact Int.bmod_eq_zero_of_dvd hdvd
            rw [hz]
            exact dvd_zero _

theorem roundUp_dvd (a n : Nat) : a ∣ roundUp a n := by
  unfold roundUp
  have h1 : w64 (n + (a - 1)) / a * a ≤ w64 (n + (a - 1)) := Nat.div_mul_le_self _ _
  rw [w64_of_lt (lt_of_le_of_lt h1 (w64_lt _))]
  exact Nat.dvd_mul_left _ _

theorem pow_dvd_w64 (hi : i ≤ 64) (h : 2^i ∣ n) : 2^i ∣ w64 n :=
  (Nat.dvd_mod_iff (pow_dvd_pow 2 hi)).mpr h

theorem Chunk.unitFor_dvd {c : Chunk} (hq : ∃ j, q = 2^j) (hqa : q ≤ 2^i) (hi : i ≤ 64)
    (h : c.unitFor q (2^i) = some k) : 2^i ∣ w64 (c.ptr + k * q) := by
  obtain ⟨j, rfl⟩ := hq
  have hji : j ≤ i := (Nat.pow_le_pow_iff_right (by decide)).mp hqa
  unfold Chunk.unitFor at h
  split at h
  · next hm =>
    rw [Nat.pow_div hji (by decide)] at h
    have hk : 2^(i-j) ∣ k := by
      cases hu : unitLoop c.map (2^(i-j)) 513 0 with
      | none => rw [hu] at h; cases h
      | some o =>
        rw [hu, Option.join_some] at h
        rw [h] at hu
        exact unitLoop_dvd (dvd_zero _) hu
    have hmul : 2^i ∣ k * 2^j := by
      have := Nat.mul_dvd_mul_right hk (2^j)
      rwa [← pow_add, Nat.sub_add_cancel hji] at this
    have hptr : 2^i ∣ c.ptr := by
      have := hm.2.2
      rw [Nat.and_two_pow_sub_one_eq_mod] at this
      exact Nat.dvd_of_mod_eq_zero this
    exact pow_dvd_w64 hi (dvd_add hptr hmul)
  · cases h

theorem foundUnit_dvd (hq : ∃ j, q = 2^j) (hqa : q ≤ 2^i) (hi : i ≤ 64) {o : Option Nat}
    (ho : ∀ x, o = some x → 2^i ∣ x) (h : foundUnit q (2^i) cs o = some p) : 2^i ∣ p := by
  induction cs generalizing o with
  | nil => exact ho p h
  | cons c cs ih =>
    rw [foundUnit] at h
    refine ih ?_ h
    intro x hx
    cases hu : c.unitFor q (2^i) with
    | none =>
      rw [hu] at hx
      exact ho x hx
    | some k =>
      rw [hu] at hx
      cases hx
      exact c.unitFor_dvd hq hqa hi hu

/-! ## a new block -/

def blockPlace (base : Nat) (cs : List Chunk) (q a s : Nat) : Nat :=
  (foundUnit q a cs none).getD
    (if 2097152 ≤ q then roundUp a (chunkPlace base cs a s) else chunkPlace base cs a s)

theorem Take.place {cs1 : List Chunk} {fp : Nat} {effs : List Eff}
    (h : Take base cs q a s spare cs1 fp effs) : fp = blockPlace base cs q a s := by
  unfold blockPlace
  cases h with
  | unit hu hf => rw [hf, Option.getD_some]
  | new hlen hno hf hp => rw [hf, Option.getD_none, hp]

theorem Take.mmaps {cs1 : List Chunk} {fp : Nat} {effs : List Eff}
    (h : Take base cs q a s spare cs1 fp effs) :
    (∀ e ∈ effs, ∃ addr len, e = .mmap addr len) ∧ (spare = true → effs = []) := by
  have hg : ∀ new p, (∀ e ∈ grabEffs new q s p fp spare, ∃ addr len, e = .mmap addr len) ∧
      (spare = true → grabEffs new q s p fp spare = []) := by
    intro new p
    unfold grabEffs
    refine ⟨?_, fun h => if_pos h⟩
    repeat' split
    all_goals simp
  cases h with
  | unit hu hf => exact hg _ _
  | new hlen hno hf hp => exact hg _ _

theorem bztAlloc_place (hbase : base + 4194304 < 2^64) (hs : s ≠ 0)
    (h : bztAlloc mapped (Arena.ofChunks base cs) a 0 s spare = some out) (hret : out.ret ≠ 0) :
    ∃ q effs, quantumOf s = some q ∧ out.ret = blockPlace base cs q (alignOf a q) s ∧
      (∀ e ∈ effs, ∃ addr len, e = .mmap addr len) ∧ (spare = true → effs = []) ∧
      out.effs = mapEffs base cs ++ effs ++ if spare = false then [.memzero out.ret q] else [] := by
  obtain ⟨q, hq, hcase⟩ := bztAlloc_spec hbase hs h
  rcases hcase with ⟨c, -, -, -, h0, -⟩ | ⟨-, -, e⟩ | ⟨cs1, fp, effs, htk, hrest⟩
  · exact absurd rfl h0
  · rw [e] at hret
    exact absurd rfl hret
  · rcases hrest with ⟨-, e⟩ | ⟨-, ⟨-, e⟩ | ⟨n, c, h0, -⟩⟩
    · rw [e] at hret
      exact absurd rfl hret
    · rw [e]
      exact ⟨q, effs, hq, htk.place, htk.mmaps.1, htk.mmaps.2, rfl⟩
    · exact absurd rfl h0

/-- `s` bytes that are mapped and zero -/
def Zeroed (r : Ram UInt8) (p s : Nat) : Prop := ∀ i < s, r (p + i) = some 0

theorem Zeroed.mapped {r : Ram UInt8} (h : Zeroed r p s) : r.Mapped p s := by
  intro i hi
  rw [h i hi]
  rfl

structure NewBlock (a s p : Nat) (r : Ram UInt8) : Prop where
  aligned : a ∣ p
  mapped : r.Mapped p s
  zero : Zeroed r p s

/-- a new chunk of units begins at a multiple of the alignment; with `MAP_SPARE` the memory found is
as it should be -/
def Arena.FreshOk (ar : Arena) (ram : Ram UInt8) (a s : Nat) (spare : Bool) : Prop :=
  ∀ q, quantumOf s = some q →
    (foundUnit q (alignOf a q) ar.chunks none = none → q < 2097152 →
      a ∣ chunkPlace ar.base ar.chunks (alignOf a q) s) ∧
    (spare = true → Zeroed ram (blockPlace ar.base ar.chunks q (alignOf a q) s) s)

theorem alignOf_cases (hk : k < 64) (hq : ∃ j, 3 ≤ j ∧ j < 64 ∧ q = 2^j) :
    ∃ i < 64, alignOf (2^k) q = 2^i ∧ k ≤ i ∧ q ≤ 2^i := by
  obtain ⟨j, -, hj, rfl⟩ := hq
  unfold alignOf
  split
  · next h =>
    exact ⟨j, hj, rfl, ((Nat.pow_lt_pow_iff_right (by decide)).mp h).le, le_rfl⟩
  · next h => exact ⟨k, hk, rfl, le_rfl, not_lt.mp h⟩

theorem blockPlace_aligned (hk : k < 64) (hq : ∃ j, 3 ≤ j ∧ j < 64 ∧ q = 2^j) :
    2^k ∣ blockPlace base cs q (alignOf (2^k) q) s ↔
      (foundUnit q (alignOf (2^k) q) cs none = none → q < 2097152 →
        2^k ∣ chunkPlace base cs (alignOf (2^k) q) s) := by
  obtain ⟨i, hi, ha, hki, hqi⟩ := alignOf_cases hk hq
  obtain ⟨j, -, -, hj⟩ := hq
  rw [ha]
  unfold blockPlace
  cases hf : foundUnit q (2^i) cs none with
  | some p =>
    have hd : 2^i ∣ p := foundUnit_dvd ⟨j, hj⟩ hqi hi.le (fun _ hx => by cases hx) hf
    exact ⟨fun _ hn => absurd hn (by simp), fun _ => (pow_dvd_pow 2 hki).trans hd⟩
  | none =>
    rw [Option.getD_none]
    split
    · next hl =>
      have hd : 2^i ∣ roundUp (2^i) (chunkPlace base cs (2^i) s) := roundUp_dvd _ _
      exact ⟨fun _ _ hlt => absurd hlt (by omega), fun _ => (pow_dvd_pow 2 hki).trans hd⟩
    · next hl => exact ⟨fun h _ _ => h, fun h => h rfl (by omega)⟩

theorem le_roundUp_of_ne (ha : a ≤ 2^64) (hn : n < 2^64) (h0 : roundUp a n ≠ 0) : n ≤ roundUp a n := by
  have hpos : 0 < a := by
    rcases Nat.eq_zero_or_pos a with rfl | h
    · exact absurd rfl h0
    · exact h
  by_cases hov : n + a ≤ 2^64
  · exact le_roundUp hov hpos
  · refine absurd ?_ h0
    have hw : w64 (n + (a - 1)) < a := by
      unfold w64
      omega
    unfold roundUp
    rw [Nat.div_eq_of_lt hw, Nat.zero_mul]
    rfl

theorem runEffs_memzero {f : Nat → UInt8} {r r' : Ram UInt8} {effs : List Eff} {fp len : Nat}
    (h : runEffs f r (effs ++ [.memzero fp len]) = some r') : Zeroed r' fp len := by
  induction effs generalizing r with
  | nil =>
    rw [List.nil_append, runEffs, Option.bind_eq_some_iff] at h
    obtain ⟨r₁, h1, h2⟩ := h
    cases h2
    rw [runEff, Ram.fill] at h1
    split at h1
    · cases h1
      intro i hi
      exact Ram.give_in _ (by omega) (by omega)
    · cases h1
  | cons e effs ih =>
    rw [List.cons_append, runEffs, Option.bind_eq_some_iff] at h
    obtain ⟨r₁, -, h2⟩ := h
    exact ih h2

/-- the mapping of the allocmap is not seen at the place of the first block -/
theorem mapEffs_zeroed {f : Nat → UInt8} {r r' : Ram UInt8} (hbase : base + 4194304 < 2^64)
    (ha : a ≤ 2^64) (hp : blockPlace base cs q a s ≠ 0) (h : runEffs f r (mapEffs base cs) = some r') :
    Zeroed r' (blockPlace base cs q a s) n ↔ Zeroed r (blockPlace base cs q a s) n := by
  unfold mapEffs at h
  split at h
  · next h0 =>
    rw [h0] at hp ⊢
    have hge : base + 4194304 ≤ blockPlace base [] q a s := by
      have hplace : chunkPlace base [] a s = base + 4194304 := rfl
      unfold blockPlace at hp ⊢
      rw [foundUnit, Option.getD_none, hplace] at hp ⊢
      split
      · next hl =>
        rw [if_pos hl] at hp
        exact le_roundUp_of_ne ha hbase hp
      · exact le_rfl
    rw [runEffs_mmap, Option.some.injEq] at h
    have hsame : ∀ i, r' (blockPlace base [] q a s + i) = r (blockPlace base [] q a s + i) := by
      intro i
      rw [← h, w64_of_lt (by omega)]
      refine Ram.give_out (fun hin => ?_)
      have := hin.2
      omega
    unfold Zeroed
    simp only [hsame]
  · cases h
    exact Iff.rfl

/-- after any run: a block that is returned for `aligned_alloc(2^k,s)` is aligned, mapped and zero,
if and only if `FreshOk` holds before the call -/
theorem bzt_new_block {u : RamWorld} {fresh : Nat → UInt8} {r : Ram UInt8}
    (hbase : base + 4194304 < 2^64) (hk : k < 64) (hs : 0 < s)
    (h : Reach RamStep (fun _ _ => True) (RamWorld.start base) u)
    (hout : bztAlloc mapped u.world.arena (2^k) 0 s spare = some out) (hret : out.ret ≠ 0)
    (hr : runEffs fresh u.ram out.effs = some r) :
    NewBlock (2^k) s out.ret r ↔ u.world.arena.FreshOk u.ram (2^k) s spare := by
  obtain ⟨cs, har⟩ := ramRun_shape hbase h
  rw [har] at hout
  obtain ⟨q, effs, hq, hplace, -, hspare, heffs⟩ := bztAlloc_place hbase (by omega) hout hret
  obtain ⟨hsq, hpow⟩ := quantumOf_spec hs hq
  obtain ⟨i, hi, ha, -, -⟩ := alignOf_cases hk hpow
  have hle : alignOf (2^k) q ≤ 2^64 := by
    rw [ha]
    exact Nat.pow_le_pow_right (by decide) hi.le
  have hal : 2^k ∣ blockPlace base cs q (alignOf (2^k) q) s ↔ _ := blockPlace_aligned hk hpow
  rw [← hplace] at hal
  have hok : u.world.arena.FreshOk u.ram (2^k) s spare ↔
      2^k ∣ out.ret ∧ (spare = true → Zeroed u.ram out.ret s) := by
    unfold Arena.FreshOk
    rw [har, Arena.ofChunks_chunks, Arena.ofChunks_base, hal, hplace]
    constructor
    · intro h1
      exact h1 q hq
    · intro h1 q' hq'
      rw [hq, Option.some.injEq] at hq'
      rw [← hq']
      exact h1
  rw [hok]
  cases spare with
  | false =>
    -- the block was cleared
    have hz : Zeroed r out.ret s := by
      rw [heffs, if_pos rfl] at hr
      exact fun j hj => runEffs_memzero hr j (by omega)
    exact ⟨fun hb => ⟨hb.aligned, fun hsp => absurd hsp (by decide)⟩, fun hb => ⟨hb.1, hz.mapped, hz⟩⟩
  | true =>
    -- nothing is mapped but the allocmap
    rw [heffs, if_neg (by decide), hspare rfl, List.append_nil, List.append_nil] at hr
    rw [hplace] at hret
    have hz := mapEffs_zeroed (n := s) hbase hle hret hr
    rw [← hplace] at hz
    exact ⟨fun hb => ⟨hb.aligned, fun _ => hz.mp hb.zero⟩,
      fun hb => ⟨hb.1, (hz.mpr (hb.2 rfl)).mapped, hz.mpr (hb.2 rfl)⟩⟩

theorem bzt_new_block_first : ∃ out r,
    bztAlloc mapped (RamWorld.start 0x100000000).world.arena (2^12) 0 100 false = some out ∧
    runEffs (fun _ => 0xAA) (RamWorld.start 0x100000000).ram out.effs = some r ∧
    NewBlock (2^12) 100 out.ret r := by
  have hsome : (bztAlloc mapped (RamWorld.start 0x100000000).world.arena (2^12) 0 100 false).isSome
      = true := by decide +kernel
  obtain ⟨out, hout⟩ := Option.isSome_iff_exists.mp hsome
  have hret : out.ret = 0x100400000 := by
    have : (bztAlloc mapped (RamWorld.start 0x100000000).world.arena (2^12) 0 100 false).map BztOut.ret
        = some 0x100400000 := by decide +kernel
    rw [hout, Option.map_some, Option.some.injEq] at this
    exact this
  have hruns : (runEffs (fun _ => 0xAA) (RamWorld.start 0x100000000).ram out.effs).isSome = true := by
    rw [← BztOp.effs_alloc hout]
    decide +kernel
  obtain ⟨r, hr⟩ := Option.isSome_iff_exists.mp hruns
  refine ⟨out, r, hout, hr, ?_⟩
  refine (bzt_new_block (by decide) (by decide) (by decide) Reach.refl hout (by rw [hret]; decide) hr).mpr ?_
  intro q hq
  have hq' : quantumOf 100 = some 128 := by decide +kernel
  rw [hq', Option.some.injEq] at hq
  rw [← hq]
  exact ⟨fun _ _ => by decide +kernel, fun hsp => absurd hsp (by decide)⟩

/-- `malloc(8)`, `aligned_alloc(8192,8192)`: the second block is at 0x100401000 -/
theorem bztAlloc_unaligned : Reach RamStep (fun _ _ => True) (RamWorld.start 0x100000000) ramOne ∧
    ∃ out, bztAlloc mapped ramOne.world.arena (2^13) 0 8192 false = some out ∧
      (runEffs (fun _ => 0) ramOne.ram out.effs).isSome = true ∧ out.ret ≠ 0 ∧
      ∀ r, ¬ NewBlock (2^13) 8192 out.ret r := by
  refine ⟨Reach.refl.tail trivial (RamStep.ofAlloc ?_ ?_ ?_), ?_⟩
  · decide
  · decide +kernel
  · decide +kernel
  · have hsome : (bztAlloc mapped ramOne.world.arena (2^13) 0 8192 false).isSome = true := by
      decide +kernel
    obtain ⟨out, hout⟩ := Option.isSome_iff_exists.mp hsome
    have hret : out.ret = 0x100401000 := by
      have : (bztAlloc mapped ramOne.world.arena (2^13) 0 8192 false).map BztOut.ret
          = some 0x100401000 := by decide +kernel
      rw [hout, Option.map_some, Option.some.injEq] at this
      exact this
    refine ⟨out, hout, ?_, by rw [hret]; decide, fun r hb => ?_⟩
    · have heffs : out.effs = [.mmap 0x100401000 8192, .memzero 0x100401000 8192] := by
        rw [← BztOp.effs_alloc hout]
        decide +kernel
      rw [heffs, runEffs, runEff, Option.bind_some, runEffs, runEff,
        Ram.fill_eq 0 (Ram.mapped_give _ _ _ _)]
      rfl
    · have := hb.aligned
      rw [hret] at this
      exact absurd this (by decide)

end OsZ
