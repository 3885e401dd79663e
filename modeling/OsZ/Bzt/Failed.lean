import OsZ.Bzt.Contents

/-!
# Calls in which `mmap` fails

* `failedSite`        the call of `mmap` that fails in a call of `bzt_alloc`, if any;
* `failed_changes`    unless it is that of the first allocmap, a chunk or a bit is left behind;
* `CleanFailure`      ENOMEM, nothing changed, and the calls that follow return mapped memory;
* `bzt_failure`       a failure is clean if and only if it is that of the first allocmap;
* `bztAlloc_phantom`  a chunk that was never mapped serves the next request.
-/

namespace OsZ
variable {base q a s k ptr n : Nat} {cs : List Chunk} {spare : Bool} {mok : Site → Bool} {x : Site}
  {effs : List Eff}

/-! ## the call that fails -/

deriving instance DecidableEq for Site

section
variable (mok : Site → Bool)

def chunkFails (q : Nat) (spare : Bool) : Option Site :=
  if spare = false ∧ q < 4096 ∧ mok .chunk = false then some .chunk else none

/-- in the choice of a chunk; without room for an allocmap `mmap` is not called -/
def chooseFails (ar : Arena) (i : Nat) (r : Scan) (q : Nat) (spare : Bool) : Option Site :=
  match r.ncm with
  | some _ => none
  | none =>
    if r.fc = 0 then
      if ar.count ≤ i then none
      else if mok .newMap = false then some .newMap
      else if (ar.count + 1) * 8 / 4096 ≠ (ar.count + 2) * 8 / 4096 ∧ mok .arenaPage = false then
        some .arenaPage
      else chunkFails mok q spare
    else chunkFails mok q spare

def unitFails (q : Nat) (spare : Bool) : Option Site :=
  if spare = true then none
  else if q < 2097152 then if 4096 ≤ q ∧ mok .unit = false then some .unit else none
  else if mok .large = false then some .large else none

/-- from the choice of a chunk on -/
def allocFails (ar : Arena) (i : Nat) (r : Scan) (q a ptr s : Nat) (spare : Bool) (effs : List Eff) :
    Option Site :=
  match chooseFails mok ar i r q spare with
  | some x => some x
  | none =>
    match choose mok ar i r q a ptr s spare effs with
    | .error _ => none
    | .ok _ => unitFails mok q spare

/-- the first call of `mmap` that fails; there is none after it -/
def failedSite (ar : Arena) (a ptr s : Nat) (spare : Bool) : Option Site :=
  if s = 0 then none
  else
    match quantumOf s with
    | none => none
    | some q =>
      match firstMap mok ar with
      | .error _ => some .firstMap
      | .ok (ar, effs) =>
        match scanMaps ar q (alignOf a q) ptr 262142 1 0
            ⟨w64 (ar.base + 4194304), 0, 0, 0, 0, none, none⟩ with
        | none => none
        | some (i, r) =>
          if q < 2097152 ∧ ptr ≠ 0 ∧ r.same = true then none
          else allocFails mok ar i r q (alignOf a q) ptr s spare effs

end

/-! ## what is left behind -/

theorem firstMap_mok (mok : Site → Bool) (base : Nat) (cs : List Chunk) :
    firstMap mok (Arena.ofChunks base cs) =
      if cs = [] ∧ mok .firstMap = false then .error ⟨Arena.ofChunks base cs, 0, some .ENOMEM, []⟩
      else .ok (Arena.withMap base cs, mapEffs base cs) := by
  cases cs with
  | nil =>
    unfold firstMap
    rw [if_pos (show (Arena.ofChunks base []).count = 0 from rfl)]
    dsimp only
    by_cases h : mok .firstMap = false
    · rw [if_pos h, if_pos ⟨rfl, h⟩]
    · rw [if_neg h, if_neg (fun hc => h hc.2)]
      rfl
  | cons c cs =>
    rw [if_neg (fun hc => List.cons_ne_nil c cs hc.1)]
    rfl

theorem Arena.withMap_ne {cs1 : List Chunk} (h : cs1 ≠ cs) :
    Arena.withMap base cs1 ≠ Arena.ofChunks base cs := by
  intro e
  have hslot := congrArg (fun ar : Arena => ar.slot 1) e
  cases cs with
  | nil => cases hslot
  | cons c cs =>
    rw [Arena.ofChunks_ne (List.cons_ne_nil c cs), Arena.withMap_slot, Arena.withMap_slot,
      Option.some.injEq, AllocMap.mk.injEq] at hslot
    exact h hslot.2

/-- a unit that is not mapped stays marked; the record of a large chunk stays -/
theorem takeUnit_fails {c : Chunk} {j am : Nat} (hc : cs[j]? = some c) (hf : unitFails mok q spare = some x) :
    takeUnit mok ⟨Arena.withMap base cs, am, 1, j, k, effs⟩ q s spare =
      (Arena.withMap base (if q < 2097152 then cs.set j (c.taken k q s) else cs), 0, effs) := by
  unfold unitFails at hf
  unfold takeUnit
  dsimp only
  rw [Arena.withMap_slot]
  dsimp only
  rw [hc]
  dsimp only
  cases spare with
  | true => cases hf
  | false =>
    rw [if_neg (by decide)] at hf
    by_cases hq : q < 2097152
    · rw [if_pos hq] at hf
      split at hf
      · next hu =>
        rw [if_pos hq, if_pos ⟨rfl, hu.1⟩, if_pos hu.2, if_pos hq, Arena.withMap_put]
      · cases hf
    · rw [if_neg hq] at hf
      split at hf
      · next hu => rw [if_neg hq, if_pos rfl, if_pos hu, if_neg hq]
      · cases hf

theorem Chunk.taken_ne {c : Chunk} (hq : q < 2097152) (hb : c.bit k = false) : c.taken k q s ≠ c := by
  intro e
  have hbit : (c.taken k q s).bit k = true := by
    rw [Chunk.taken_small hq]
    dsimp only [Chunk.bit]
    rw [Bitmap.bit_set, decide_eq_true rfl, Bool.true_or]
  rw [e, hb] at hbit
  cases hbit

theorem choose_mok {r : Scan} (hr : Scanned q a ptr 1 cs 0 (scanStart base cs) r) (pre : List Eff) :
    (∃ n k c, UnitAt q a cs n k c ∧ r.ncm = some (1, n, k) ∧
      choose mok (Arena.withMap base cs) 2 r q a ptr s spare pre
        = .ok ⟨Arena.withMap base cs, r.am, 1, n, k, pre⟩) ∨
    (r.ncm = none ∧ 26214 ≤ cs.length ∧ r.fc = 0 ∧
      choose mok (Arena.withMap base cs) 2 r q a ptr s spare pre
        = .error ⟨Arena.withMap base cs, ptr, some .ENOMEM, pre⟩) ∨
    ∃ p, r.ncm = none ∧ r.fc = 1 ∧
      choose mok (Arena.withMap base cs) 2 r q a ptr s spare pre
        = if spare = false ∧ q < 4096 then
            if mok .chunk = false then
              .error ⟨Arena.withMap base (cs ++ [⟨q, p, fun _ => 0⟩]), ptr, some .ENOMEM, pre⟩
            else .ok ⟨Arena.withMap base (cs ++ [⟨q, p, fun _ => 0⟩]), 1, 1, cs.length, 0,
              pre ++ [.mmap p (chunksize q)]⟩
          else .ok ⟨Arena.withMap base (cs ++ [⟨q, p, fun _ => 0⟩]), 1, 1, cs.length, 0, pre⟩ := by
  unfold choose
  have hfc : r.fc = if cs.length < 26214 then 1 else 0 := hr.fc
  rcases hr.ncm with ⟨hn, -, -⟩ | ⟨n, k, c, hn, hu, -⟩
  · have hnone : r.ncm = none := hn
    rw [hnone]
    dsimp only
    by_cases hlen : cs.length < 26214
    · rw [if_pos hlen] at hfc
      obtain ⟨fp, hfp⟩ : ∃ fp, fp = if r.lp ≠ 0 ∧ r.sp ≠ 0 ∧ w64 (r.lp + roundUp 2097152 s) < r.sp ∧
        r.lp &&& (a - 1) = 0 then r.lp else r.fp := ⟨_, rfl⟩
      refine Or.inr (Or.inr ⟨if 2097152 ≤ q then roundUp a fp else fp, rfl, hfc, ?_⟩)
      rw [← hfp, if_neg (by rw [hfc]; decide)]
      unfold addChunk
      rw [hfc, Arena.withMap_slot]
      dsimp only
      rw [Arena.withMap_put]
    · rw [if_neg hlen] at hfc
      refine Or.inr (Or.inl ⟨rfl, by omega, hfc, ?_⟩)
      rw [if_pos hfc]
      unfold newMap
      have hcount : (Arena.withMap base cs).count ≤ 2 ∨ mok .newMap = false := Or.inl (Nat.le_succ 1)
      rw [if_pos hcount]
  · rw [Nat.zero_add] at hn
    refine Or.inl ⟨n, k, c, hu, hn, ?_⟩
    rw [hn]

theorem append_ne (cs : List Chunk) (c : Chunk) : cs ++ [c] ≠ cs := by
  intro e
  have hlen := congrArg List.length e
  simp at hlen

theorem newUnit_fails {p : Nat} (hf : unitFails mok q spare = some x) :
    ∃ cs1, cs1 ≠ cs ∧ takeUnit mok ⟨Arena.withMap base (cs ++ [⟨q, p, fun _ => 0⟩]), 1, 1, cs.length, 0,
      effs⟩ q s spare = (Arena.withMap base cs1, 0, effs) := by
  refine ⟨_, ?_, takeUnit_fails (c := ⟨q, p, fun _ => 0⟩) (by simp) hf⟩
  split
  · rw [List.set_append_right _ _ le_rfl, Nat.sub_self]
    exact append_ne cs _
  · exact append_ne cs _

theorem allocIn_fails {r : Scan} (hr : Scanned q a ptr 1 cs 0 (scanStart base cs) r)
    (hf : allocFails mok (Arena.withMap base cs) 2 r q a ptr s spare effs = some x) :
    (allocIn mok (Arena.withMap base cs) 2 r q a ptr s spare effs).err = some .ENOMEM ∧
      ∃ cs1, cs1 ≠ cs ∧
        (allocIn mok (Arena.withMap base cs) 2 r q a ptr s spare effs).arena = Arena.withMap base cs1 := by
  unfold allocFails at hf
  unfold allocIn
  rcases @choose_mok _ _ _ _ _ _ _ mok r hr effs with
    ⟨n, k, c, hu, hn, hch⟩ | ⟨hn, -, hfc, hch⟩ | ⟨p, hn, hfc, hch⟩
  · -- a unit of a chunk that is there
    have hnof : chooseFails mok (Arena.withMap base cs) 2 r q spare = none := by
      unfold chooseFails
      rw [hn]
    rw [hnof, hch] at hf
    rw [hch]
    dsimp only at hf ⊢
    rw [takeUnit_fails hu.get hf, if_pos hu.small]
    refine ⟨rfl, _, fun e => ?_, rfl⟩
    have hget := congrArg (fun l : List Chunk => l[n]?) e
    have hlt := (List.getElem?_eq_some_iff.mp hu.get).1
    rw [List.getElem?_set_self hlt, hu.get, Option.some.injEq] at hget
    exact Chunk.taken_ne hu.small (unitLoop_some hu.loop).2 hget
  · -- no room for a chunk: `mmap` is not called
    have hnof : chooseFails mok (Arena.withMap base cs) 2 r q spare = none := by
      unfold chooseFails
      rw [hn]
      dsimp only
      rw [if_pos hfc, if_pos (show (Arena.withMap base cs).count ≤ 2 from Nat.le_succ 1)]
    rw [hnof, hch] at hf
    cases hf
  · -- a new chunk is recorded before it is mapped
    have hcf : chooseFails mok (Arena.withMap base cs) 2 r q spare = chunkFails mok q spare := by
      unfold chooseFails
      rw [hn]
      dsimp only
      rw [if_neg (by rw [hfc]; decide)]
    rw [hcf] at hf
    unfold chunkFails at hf
    rw [hch] at hf ⊢
    by_cases hsm : spare = false ∧ q < 4096
    · rw [if_pos hsm] at hf ⊢
      by_cases hm : mok .chunk = false
      · rw [if_pos hm]
        exact ⟨rfl, _, append_ne cs _, rfl⟩
      · rw [if_neg (fun hc => hm hc.2.2), if_neg hm] at hf
        dsimp only at hf
        obtain ⟨cs1, hne, ht⟩ := newUnit_fails hf
        rw [if_neg hm]
        dsimp only
        rw [ht]
        exact ⟨rfl, cs1, hne, rfl⟩
    · rw [if_neg (fun hc => hsm ⟨hc.1, hc.2.1⟩), if_neg hsm] at hf
      dsimp only at hf
      obtain ⟨cs1, hne, ht⟩ := newUnit_fails hf
      rw [if_neg hsm]
      dsimp only
      rw [ht]
      exact ⟨rfl, cs1, hne, rfl⟩

/-- a call in which `mmap` fails reports ENOMEM; the arena is as before only when it was the first
allocmap that could not be mapped -/
theorem failed_changes (hbase : base + 4194304 < 2^64)
    (hf : failedSite mok (Arena.ofChunks base cs) a ptr s spare = some x) :
    ∃ out, bztAlloc mok (Arena.ofChunks base cs) a ptr s spare = some out ∧ out.err = some .ENOMEM ∧
      ((cs = [] ∧ mok .firstMap = false ∧ out = ⟨Arena.ofChunks base cs, 0, some .ENOMEM, []⟩) ∨
        (¬ (cs = [] ∧ mok .firstMap = false) ∧ out.arena ≠ Arena.ofChunks base cs)) := by
  unfold failedSite at hf
  unfold bztAlloc
  by_cases h0 : s = 0
  · rw [if_pos h0] at hf
    cases hf
  rw [if_neg h0] at hf ⊢
  cases hq : quantumOf s with
  | none =>
    rw [hq] at hf
    cases hf
  | some q =>
    rw [hq] at hf
    dsimp only at hf ⊢
    rw [firstMap_mok] at hf ⊢
    by_cases hfirst : cs = [] ∧ mok .firstMap = false
    · rw [if_pos hfirst]
      exact ⟨_, rfl, rfl, Or.inl ⟨hfirst.1, hfirst.2, rfl⟩⟩
    · rw [if_neg hfirst] at hf ⊢
      dsimp only at hf ⊢
      rw [scanMaps_withMap hbase] at hf ⊢
      cases hsc : scanChunks q (alignOf a q) ptr 1 cs 0 (scanStart base cs) with
      | none =>
        rw [hsc] at hf
        cases hf
      | some r =>
        rw [hsc, Option.map_some] at hf
        rw [Option.map_some]
        dsimp only at hf ⊢
        split at hf
        · cases hf
        · next hsame =>
          rw [if_neg hsame]
          obtain ⟨herr, cs1, hne, har⟩ := allocIn_fails (scanChunks_spec hsc) hf
          refine ⟨_, rfl, herr, Or.inr ⟨hfirst, ?_⟩⟩
          rw [har]
          exact Arena.withMap_ne hne

/-! ## runs -/

inductive TryOp where
  | ram (op : RamOp)
  | failed (mok : Site → Bool) (a ptr s : Nat) (spare : Bool)

/-- calls and stores as before, and calls in which `mmap` fails, after which the program has the
blocks it had -/
inductive TryStep : RamWorld → TryOp → RamWorld → Prop
  | ram {u u' : RamWorld} {op : RamOp} (h : RamStep u op u') : TryStep u (.ram op) u'
  | failed {u : RamWorld} {mok : Site → Bool} {a ptr s : Nat} {spare : Bool} {x : Site} {out : BztOut}
      {fresh : Nat → UInt8} {r : Ram UInt8} (hf : failedSite mok u.world.arena a ptr s spare = some x)
      (h : bztAlloc mok u.world.arena a ptr s spare = some out)
      (hr : runEffs fresh u.ram out.effs = some r) :
      TryStep u (.failed mok a ptr s spare) ⟨⟨out.arena, u.world.live⟩, r⟩

/-- the first allocmap is asked for and refused -/
def Arena.NoFirst (ar : Arena) (mok : Site → Bool) : Prop := ar.count = 0 ∧ mok .firstMap = false

def TrySafe (u : RamWorld) : TryOp → Prop
  | .ram op => RamSafe u op
  | .failed mok _ _ _ _ => u.world.arena.NoFirst mok

/-- a call of a later run touches mapped memory only, and the blocks the program has then, the one
returned among them, are mapped -/
def MapsBlocks (v : RamWorld) : Prop :=
  ∀ op w fresh, RamSafe v (.call op) → BztStep v.world op w →
    ∃ r, runEffs fresh v.ram (op.effs v.world) = some r ∧ ∀ b ∈ w.live, r.Mapped b.ptr b.size

structure CleanFailure (u : RamWorld) (out : BztOut) : Prop where
  enomem : out.err = some .ENOMEM
  arena : out.arena = u.world.arena
  memory : ∀ fresh, runEffs fresh u.ram out.effs = some u.ram
  old : ∀ b ∈ u.world.live, ∃ c ∈ out.arena.chunks, c.Holds b
  later : ∀ v, Reach TryStep TrySafe ⟨⟨out.arena, u.world.live⟩, u.ram⟩ v → MapsBlocks v

theorem Arena.noFirst_iff : (Arena.ofChunks base cs).NoFirst mok ↔ cs = [] ∧ mok .firstMap = false := by
  unfold Arena.NoFirst
  cases cs with
  | nil => exact ⟨fun h => ⟨rfl, h.2⟩, fun h => ⟨rfl, h.2⟩⟩
  | cons c cs =>
    constructor
    · rintro ⟨h, -⟩
      rw [Arena.ofChunks_ne (List.cons_ne_nil c cs)] at h
      exact absurd h Nat.one_ne_zero
    · rintro ⟨h, -⟩
      cases h

section
variable {u v : RamWorld}

theorem RamInv.mapsBlocks (hi : RamInv base v cs) (hbase : base + 4194304 < 2^64) (hpage : 4096 ∣ base) :
    MapsBlocks v := by
  intro op w fresh hsafe hstep
  obtain ⟨hs, hc⟩ := hsafe
  rw [hi.bzt.arena, Arena.ofChunks_chunks] at hc
  obtain ⟨cs', har, hed⟩ := hstep.edit hi.bzt.blocks hi.bzt.arena hbase hpage hs
  obtain ⟨r, hr, hm⟩ := hed.memory (f := fresh) hi.bzt.blocks hbase hpage hi.backed hc
  have hinv := hi.bzt.blocks.edit hed
  refine ⟨r, hr, fun b hb => ?_⟩
  obtain ⟨c, hc, hcb⟩ := hinv.held b hb
  have hbk := hm.backed c hc
  exact (hbk.mapped (hinv.ok c hc) hcb).mono le_rfl (Nat.add_le_add_left (hcb.size_le hbk) _)

theorem RamInv.try {v' : RamWorld} {op : TryOp} (hi : RamInv base v cs) (hbase : base + 4194304 < 2^64)
    (hpage : 4096 ∣ base) (hsafe : TrySafe v op) (h : TryStep v op v') : ∃ cs', RamInv base v' cs' := by
  cases h with
  | ram h =>
    cases h with
    | call h hr => exact hi.call hbase hpage hsafe h hr
    | store hb hx => exact ⟨cs, hi.store _⟩
  | @failed mok a ptr s spare x out fresh r hf h hr =>
    have hno : v.world.arena.NoFirst mok := hsafe
    rw [hi.bzt.arena] at hf h
    rw [hi.bzt.arena, Arena.noFirst_iff] at hno
    obtain ⟨out', h', -, hcase⟩ := failed_changes hbase hf
    rw [h, Option.some.injEq] at h'
    rw [← h'] at hcase
    rcases hcase with ⟨-, -, e⟩ | ⟨hn, -⟩
    · rw [e] at hr ⊢
      cases hr
      exact ⟨cs, ⟨rfl, hi.bzt.blocks⟩, hi.backed⟩
    · exact absurd hno hn

theorem RamInv.tries (hi : RamInv base u cs) (hbase : base + 4194304 < 2^64) (hpage : 4096 ∣ base)
    (h : Reach TryStep TrySafe u v) : ∃ cs', RamInv base v cs' := by
  refine h.keeps (I := fun v => ∃ cs, RamInv base v cs) ⟨cs, hi⟩ ?_
  intro v op v' hv hsafe hstep
  obtain ⟨cs, hv⟩ := hv
  exact hv.try hbase hpage hsafe hstep

end

/-- after a run in which only the first allocmap was refused: a failed call is clean if and only if it
is refused again -/
theorem bzt_failure {u : RamWorld} {a ptr s : Nat} {spare : Bool} {mok : Site → Bool} {x : Site}
    (hbase : base + 4194304 < 2^64) (hpage : 4096 ∣ base)
    (h : Reach TryStep TrySafe (RamWorld.start base) u)
    (hf : failedSite mok u.world.arena a ptr s spare = some x) :
    ∃ out, bztAlloc mok u.world.arena a ptr s spare = some out ∧
      (CleanFailure u out ↔ u.world.arena.NoFirst mok) := by
  have hstart : RamInv base (RamWorld.start base) [] :=
    ⟨BztInv.start base, fun c hc => absurd hc (by simp)⟩
  obtain ⟨cs, hi⟩ := hstart.tries hbase hpage h
  have har := hi.bzt.arena
  rw [har] at hf
  obtain ⟨out, hout, herr, hcase⟩ := failed_changes hbase hf
  rw [har, Arena.noFirst_iff]
  refine ⟨out, hout, fun hclean => ?_, fun hno => ?_⟩
  · rcases hcase with ⟨h1, h2, -⟩ | ⟨-, hne⟩
    · exact ⟨h1, h2⟩
    · rw [← har] at hne
      exact absurd hclean.arena hne
  · rcases hcase with ⟨-, -, e⟩ | ⟨hn, -⟩
    · have hsame : out.arena = u.world.arena := by rw [e, har]
      have hback : (⟨⟨out.arena, u.world.live⟩, u.ram⟩ : RamWorld) = u := by rw [hsame]
      refine ⟨herr, hsame, fun fresh => ?_, fun b hb => ?_, fun v hv => ?_⟩
      · rw [e]
        rfl
      · obtain ⟨c, hc, hcb⟩ := hi.bzt.blocks.held b hb
        refine ⟨c, ?_, hcb⟩
        rw [hsame, har, Arena.ofChunks_chunks]
        exact hc
      · rw [hback] at hv
        obtain ⟨cs', hi'⟩ := hi.tries hbase hpage hv
        exact hi'.mapsBlocks hbase hpage
    · exact absurd hno hn

/-- every `mmap` fails -/
def unmapped : Site → Bool := fun _ => false

theorem bzt_failure_first : ∃ out,
    bztAlloc unmapped (RamWorld.start 0x100000000).world.arena 8 0 100 false = some out ∧
      CleanFailure (RamWorld.start 0x100000000) out := by
  have hf : failedSite unmapped (RamWorld.start 0x100000000).world.arena 8 0 100 false
      = some .firstMap := by decide +kernel
  have hbase : 0x100000000 + 4194304 < 2^64 := by decide
  obtain ⟨out, hout, hiff⟩ := bzt_failure hbase (by decide) Reach.refl hf
  exact ⟨out, hout, hiff.mpr ⟨rfl, rfl⟩⟩

/-- the memory of a small chunk cannot be mapped -/
def noChunk : Site → Bool := fun x => decide (x ≠ .chunk)

/-- `malloc(8)` -/
def phantom : BztOut :=
  (bztAlloc noChunk (BztWorld.start 0x100000000).arena 8 0 8 false).getD ⟨⟨0, 0, fun _ => none⟩, 0, none, []⟩

/-- it fails, but the chunk stays; the next `malloc(8)` maps nothing and clears memory that is not
there -/
theorem bztAlloc_phantom :
    failedSite noChunk (RamWorld.start 0x100000000).world.arena 8 0 8 false = some .chunk ∧
    bztAlloc noChunk (RamWorld.start 0x100000000).world.arena 8 0 8 false = some phantom ∧
    phantom.err = some .ENOMEM ∧ phantom.arena.chunks.length = 1 ∧
    (bztAlloc mapped phantom.arena 8 0 8 false).map (fun o => (o.ret, o.err, o.effs))
      = some (0x100400000, none, [.memzero 0x100400000 8]) ∧
    (runEffs (fun _ => 0) (RamWorld.start 0x100000000).ram
      (phantom.effs ++ [.memzero 0x100400000 8])).isSome = false ∧
    ¬ CleanFailure (RamWorld.start 0x100000000) phantom := by
  have hlen : phantom.arena.chunks.length = 1 := by decide +kernel
  refine ⟨by decide +kernel, ?_, by decide +kernel, hlen, by decide +kernel, by decide +kernel,
    fun hc => ?_⟩
  · have hsome : (bztAlloc noChunk (BztWorld.start 0x100000000).arena 8 0 8 false).isSome = true := by
      decide +kernel
    obtain ⟨out, hout⟩ := Option.isSome_iff_exists.mp hsome
    unfold phantom
    rw [hout]
    exact hout
  · rw [hc.arena] at hlen
    exact absurd hlen (by decide +kernel)

end OsZ
