import OsZ.Bzt.Model
import Mathlib.Tactic

/-!
# What one call does to the list of chunks

A second allocmap is never made: behind the search `i` is always larger than the number of
allocmaps, so the branch for it reports ENOMEM.  An arena is therefore given by one list of chunks
(`Arena.ofChunks`), and the two functions edit that list:

* `bztFree_spec`   the chunk of the block is edited by `giveBack`;
* `Take`           the unit or new chunk the search ends with;
* `Grab`           the three ways to get memory: a free unit, a new chunk in the gap behind the
                   allocmap, a new chunk at the top;
* `bztAlloc_spec`  the block is left where it is, the allocmap is full, or memory is grabbed and
                   the old block given back.
-/

namespace OsZ

/-- an arena with one allocmap, and one without -/
def Arena.withMap (base : Nat) (cs : List Chunk) : Arena :=
  ⟨base, 1, Function.update (fun _ => none) 1 (some ⟨w64 (base + 2097152), cs⟩)⟩

def Arena.ofChunks (base : Nat) : List Chunk → Arena
  | [] => ⟨base, 0, fun _ => none⟩
  | c :: cs => Arena.withMap base (c :: cs)

theorem Arena.ofChunks_ne {base : Nat} {cs : List Chunk} (h : cs ≠ []) :
    Arena.ofChunks base cs = Arena.withMap base cs := by
  cases cs with
  | nil => exact absurd rfl h
  | cons c cs => rfl

theorem Arena.withMap_slot (base : Nat) (cs : List Chunk) :
    (Arena.withMap base cs).slot 1 = some ⟨w64 (base + 2097152), cs⟩ := rfl

theorem Arena.withMap_put (base : Nat) (cs cs' : List Chunk) :
    (Arena.withMap base cs).put 1 ⟨w64 (base + 2097152), cs'⟩ = Arena.withMap base cs' := by
  unfold Arena.put Arena.withMap
  rw [Function.update_idem]

/-! ## giving back -/

/-- the chunks after the block `ptr` of chunk `j` was given back -/
def giveBack (m : Nat) (cs : List Chunk) (j ptr : Nat) : List Chunk :=
  match cs[j]? with
  | none => cs
  | some c => if c.last m ptr = true then cs.eraseIdx j else cs.set j (c.cleared ptr)

theorem giveBack_split {m ptr : Nat} {cs : List Chunk} {c : Chunk} {j : Nat} (h : cs[j]? = some c) :
    giveBack m cs j ptr = if c.last m ptr = true then cs.take j ++ cs.drop (j+1)
      else cs.take j ++ c.cleared ptr :: cs.drop (j+1) := by
  obtain ⟨hlt, -⟩ := List.getElem?_eq_some_iff.mp h
  unfold giveBack
  rw [h]
  dsimp only
  split
  · rw [List.eraseIdx_eq_take_drop_succ]
  · rw [List.set_eq_take_append_cons_drop, if_pos hlt]

theorem chunks_split {cs : List Chunk} {c : Chunk} {j : Nat} (h : cs[j]? = some c) :
    cs = cs.take j ++ c :: cs.drop (j+1) := by
  obtain ⟨hlt, rfl⟩ := List.getElem?_eq_some_iff.mp h
  rw [List.getElem_cons_drop, List.take_append_drop]

/-- the memory given back, and the allocmap with its last chunk -/
def unmapAll (m base : Nat) (cs : List Chunk) (j ptr : Nat) (c : Chunk) : List Eff :=
  c.unmaps m ptr ++
    if giveBack m cs j ptr = [] then [.munmap (w64 (base + 2097152)) 2097152] else []

theorem release_spec {m base ptr : Nat} {cs : List Chunk} {c : Chunk} {j : Nat} (h : cs[j]? = some c) :
    release m cs.length (Arena.withMap base cs) 1 j ptr
      = (Arena.ofChunks base (giveBack m cs j ptr), unmapAll m base cs j ptr c) := by
  obtain ⟨hlt, -⟩ := List.getElem?_eq_some_iff.mp h
  have hgb : giveBack m cs j ptr = if c.last m ptr = true then cs.eraseIdx j
      else cs.set j (c.cleared ptr) := by
    unfold giveBack
    rw [h]
  unfold release unmapAll
  rw [Arena.withMap_slot]
  dsimp only
  rw [h]
  dsimp only
  by_cases hl : c.last m ptr = true
  · rw [if_pos hl] at hgb
    -- without its last element, or without element `j`: the same list
    have herase : (if j + 1 < cs.length then (cs.set j (c.cleared ptr)).eraseIdx j
        else (cs.set j (c.cleared ptr)).dropLast) = cs.eraseIdx j := by
      split
      · rw [List.eraseIdx_set_eq]
      · rw [List.dropLast_eq_take, List.length_set, List.take_set, List.eraseIdx_eq_take_drop_succ,
          List.drop_eq_nil_of_le (by omega), List.append_nil, List.set_eq_of_length_le (by simp; omega)]
        congr 1
        omega
    rw [if_neg (by rw [hl]; simp), herase, hgb]
    by_cases he : cs.eraseIdx j = []
    · rw [he, if_pos (show ([] : List Chunk).isEmpty = true from rfl), if_pos rfl]
      congr 1
      unfold Arena.ofChunks Arena.withMap
      congr 1
      rw [Function.update_idem, Function.update_eq_self_iff]
    · rw [if_neg (by simpa using he), if_neg he, List.append_nil, Arena.ofChunks_ne he,
        Arena.withMap_put]
  · rw [if_neg hl] at hgb
    have hne : cs.set j (c.cleared ptr) ≠ [] := by
      intro h0
      have := congrArg List.length h0
      simp at this
      rw [this] at hlt
      exact absurd hlt (Nat.not_lt_zero _)
    rw [if_pos (by simpa using hl), hgb, Arena.withMap_put, if_neg hne, List.append_nil,
      Arena.ofChunks_ne hne]

theorem freeScan_spec {base ptr j n : Nat} {cs : List Chunk} (hne : cs ≠ [])
    (h : cs.findIdx? (fun c => c.hasPtr ptr) = some j) :
    freeScan (Arena.ofChunks base cs) ptr (n+1) 1 0 = some (1, j) := by
  rw [Arena.ofChunks_ne hne, freeScan, if_pos (show 0 < (Arena.withMap base cs).count from Nat.one_pos),
    Arena.withMap_slot]
  dsimp only
  rw [h]

theorem bztFree_spec {ptr : Nat} {cs : List Chunk} {c : Chunk} (base : Nat) (hc : c ∈ cs)
    (hp : c.hasPtr ptr = true) (h0 : ptr ≠ 0) :
    ∃ j c, cs[j]? = some c ∧ c.hasPtr ptr = true ∧
      bztFree (Arena.ofChunks base cs) ptr
        = ⟨Arena.ofChunks base (giveBack (2^64) cs j ptr), 0, none, unmapAll (2^64) base cs j ptr c⟩ := by
  cases hf : cs.findIdx? (fun c => c.hasPtr ptr) with
  | none =>
    rw [List.findIdx?_eq_none_iff] at hf
    have := hf c hc
    rw [hp] at this
    cases this
  | some j =>
    have hne : cs ≠ [] := List.ne_nil_of_mem hc
    obtain ⟨hlt, hpj, -⟩ := List.findIdx?_eq_some_iff_getElem.mp hf
    refine ⟨j, cs[j], List.getElem?_eq_getElem hlt, hpj, ?_⟩
    have hn : (Arena.ofChunks base cs).numchunks 1 = cs.length := by
      rw [Arena.ofChunks_ne hne]; rfl
    unfold bztFree
    rw [if_neg h0, freeScan_spec hne hf]
    dsimp only
    rw [hn, Arena.ofChunks_ne hne, release_spec (List.getElem?_eq_getElem hlt)]

theorem bztFree_null (ar : Arena) : bztFree ar 0 = ⟨ar, 0, none, []⟩ := rfl

/-! ## searching -/

theorem unitLoop_some {map : Nat → BitVec 64} {sf n u : Nat} {k : Int}
    (h : unitLoop map sf n k = some (some u)) : u < 512 ∧ Bitmap.bit map u = false := by
  induction n generalizing k with
  | zero => exact absurd h (by simp [unitLoop])
  | succ n ih =>
    rw [unitLoop] at h
    split at h
    · exact absurd h (by simp)
    · split at h
      · exact absurd h (by simp)
      · split at h
        · next hb =>
          cases h
          exact ⟨by omega, hb⟩
        · exact ih h

theorem unitLoop_none {map : Nat → BitVec 64} {sf n k : Nat} (hk : sf ∣ k)
    (h : unitLoop map sf n k = some none) :
    ∀ u, k ≤ u → u < 512 → sf ∣ u → Bitmap.bit map u = true := by
  induction n generalizing k with
  | zero => exact absurd h (by simp [unitLoop])
  | succ n ih =>
    intro u hu hlt hd
    rw [unitLoop, if_neg (by omega), if_neg (by omega)] at h
    split at h
    · exact absurd h (by simp)
    · next hb =>
      rw [Int.toNat_natCast, Bool.not_eq_false] at hb
      rcases Nat.eq_or_lt_of_le hu with e | e
      · rw [← e]; exact hb
      · -- the next multiple is below 512, so `int` does not overflow
        have hle : k + sf ≤ u := by
          obtain ⟨x, rfl⟩ := hk
          obtain ⟨y, rfl⟩ := hd
          have : x + 1 ≤ y := Nat.succ_le_of_lt (Nat.lt_of_mul_lt_mul_left e)
          calc sf * x + sf = sf * (x + 1) := by ring
            _ ≤ sf * y := Nat.mul_le_mul_left _ this
        have hi : i32 ((k : Int) + sf) = ((k + sf : Nat) : Int) := by
          unfold i32
          rw [Int.bmod_eq_of_le (by omega) (by omega)]
          push_cast
          rfl
        rw [hi] at h
        exact ih (Nat.dvd_add hk (dvd_refl sf)) h u hle hlt hd

/-- no chunk of this quantum and alignment has a unit for the request -/
def NoFree (cs : List Chunk) (q a : Nat) : Prop :=
  ∀ c ∈ cs, c.quantum = q → q < 2097152 → c.ptr &&& (a - 1) = 0 →
    ∀ k < 512, a / q ∣ k → c.bit k = true

/-- the end of the topmost chunk, or `t` -/
def topOf : List Chunk → Nat → Nat
  | [], t => t
  | c :: cs, t => topOf cs (max t c.fin)

theorem le_topOf (cs : List Chunk) (t : Nat) : t ≤ topOf cs t := by
  induction cs generalizing t with
  | nil => exact le_rfl
  | cons c cs ih => exact (le_max_left t c.fin).trans (ih _)

theorem fin_le_topOf {cs : List Chunk} {c : Chunk} (hc : c ∈ cs) (t : Nat) : c.fin ≤ topOf cs t := by
  induction cs generalizing t with
  | nil => cases hc
  | cons x cs ih =>
    rcases List.mem_cons.mp hc with rfl | hc
    · exact (le_max_right _ _).trans (le_topOf cs _)
    · exact ih hc _

theorem topOf_cases (cs : List Chunk) (t : Nat) : topOf cs t = t ∨ ∃ c ∈ cs, topOf cs t = c.fin := by
  induction cs generalizing t with
  | nil => exact Or.inl rfl
  | cons c cs ih =>
    rcases ih (max t c.fin) with e | ⟨x, hx, e⟩
    · rcases max_choice t c.fin with e' | e'
      · exact Or.inl (e.trans e')
      · exact Or.inr ⟨c, List.mem_cons_self .., e.trans e'⟩
    · exact Or.inr ⟨x, List.mem_cons_of_mem _ hx, e⟩

/-- the lowest chunk, or `sp`; 0 is no pointer -/
def lowOf : List Chunk → Nat → Nat
  | [], sp => sp
  | c :: cs, sp => lowOf cs (if sp = 0 ∨ c.ptr < sp then c.ptr else sp)

theorem lowOf_le {cs : List Chunk} (h : ∀ c ∈ cs, c.ptr ≠ 0) {sp : Nat} (h0 : sp ≠ 0) :
    lowOf cs sp ≤ sp := by
  induction cs generalizing sp with
  | nil => exact le_rfl
  | cons c cs ih =>
    have hc := h c (List.mem_cons_self ..)
    refine (ih (fun x hx => h x (List.mem_cons_of_mem _ hx)) ?_).trans ?_
    · split <;> omega
    · split <;> omega

theorem lowOf_le_ptr {cs : List Chunk} (h : ∀ c ∈ cs, c.ptr ≠ 0) {c : Chunk} (hc : c ∈ cs) (sp : Nat) :
    lowOf cs sp ≤ c.ptr := by
  induction cs generalizing sp with
  | nil => cases hc
  | cons x cs ih =>
    have hcs : ∀ y ∈ cs, y.ptr ≠ 0 := fun y hy => h y (List.mem_cons_of_mem _ hy)
    rcases List.mem_cons.mp hc with rfl | hc
    · have h0 := h c (List.mem_cons_self ..)
      refine (lowOf_le hcs ?_).trans ?_
      · split <;> omega
      · split <;> omega
    · exact ih hcs hc _

/-- a unit of the chunk for the request, if the search for one ends -/
def Chunk.unitFor (q a : Nat) (c : Chunk) : Option Nat :=
  if c.quantum = q ∧ q < 2097152 ∧ c.ptr &&& (a - 1) = 0 then (unitLoop c.map (a / q) 513 0).join
  else none

/-- the address of the unit the search ends with: the last chunk with one counts -/
def foundUnit (q a : Nat) : List Chunk → Option Nat → Option Nat
  | [], o => o
  | c :: cs, o =>
    foundUnit q a cs
      (match c.unitFor q a with
        | some k => some (w64 (c.ptr + k * q))
        | none => o)

/-- the unit `ncm` and `sh` stand for -/
structure UnitAt (q a : Nat) (cs : List Chunk) (n k : Nat) (c : Chunk) : Prop where
  get : cs[n]? = some c
  quantum : c.quantum = q
  small : q < 2097152
  aligned : c.ptr &&& (a - 1) = 0
  loop : unitLoop c.map (a / q) 513 0 = some (some k)

/-- what the search leaves in its variables -/
structure Scanned (q a ptr i : Nat) (cs : List Chunk) (j : Nat) (r r' : Scan) : Prop where
  lp : r'.lp = r.lp
  fc : r'.fc = r.fc
  am : r'.am = r.am
  fp : r'.fp = topOf cs r.fp
  sp : r'.sp = lowOf cs r.sp
  ncm : (r'.ncm = r.ncm ∧ NoFree cs q a ∧ ∀ o, foundUnit q a cs o = o) ∨
    ∃ n k c, r'.ncm = some (i, j + n, k) ∧ UnitAt q a cs n k c ∧
      ∀ o, foundUnit q a cs o = some (w64 (c.ptr + k * q))
  ocm : ∀ i' j', r'.ocm = some (i', j') → r.ocm = some (i', j') ∨
    (i' = i ∧ ptr ≠ 0 ∧ ∃ n c, j' = j + n ∧ cs[n]? = some c ∧ c.hasPtr ptr = true)
  noocm : r'.ocm = none → r.ocm = none ∧ (ptr = 0 ∨ ∀ c ∈ cs, c.hasPtr ptr = false)

theorem UnitAt.tail {q a n k : Nat} {x c : Chunk} {cs : List Chunk} (h : UnitAt q a cs n k c) :
    UnitAt q a (x :: cs) (n + 1) k c :=
  ⟨by rw [List.getElem?_cons_succ]; exact h.get, h.quantum, h.small, h.aligned, h.loop⟩

theorem scanChunks_spec {q a ptr i j : Nat} {cs : List Chunk} {r r' : Scan}
    (h : scanChunks q a ptr i cs j r = some r') : Scanned q a ptr i cs j r r' := by
  induction cs generalizing j r with
  | nil =>
    cases h
    exact ⟨rfl, rfl, rfl, rfl, rfl, Or.inl ⟨rfl, fun c hc => absurd hc (by simp), fun _ => rfl⟩,
      fun _ _ h => Or.inl h, fun h => ⟨h, Or.inr (by simp)⟩⟩
  | cons c cs ih =>
    rw [scanChunks] at h
    cases hu : (if c.quantum = q ∧ q < 2097152 ∧ c.ptr &&& (a - 1) = 0 then
        unitLoop c.map (a / q) 513 0 else some none) with
    | none => rw [hu] at h; exact absurd h (by simp)
    | some u =>
      rw [hu] at h
      have ih := ih h
      have hunit : c.unitFor q a = u := by
        unfold Chunk.unitFor
        split at hu
        · next hm => rw [if_pos hm, hu]; rfl
        · next hm => rw [if_neg hm]; exact Option.some.inj hu
      refine ⟨ih.lp, ih.fc, ih.am, ih.fp, ih.sp, ?_, ?_, ?_⟩
      · rcases ih.ncm with ⟨hr, hno, hf⟩ | ⟨n, k, x, hr, hx, hf⟩
        · -- no later chunk has a unit: this one decides
          cases u with
          | none =>
            refine Or.inl ⟨hr, fun x hx hq hsmall hal k hk hd => ?_, fun o => ?_⟩
            · rcases List.mem_cons.mp hx with rfl | hx
              · rw [if_pos ⟨hq, hsmall, hal⟩] at hu
                exact unitLoop_none (dvd_zero _) (by exact_mod_cast hu) k (Nat.zero_le _) hk hd
              · exact hno x hx hq hsmall hal k hk hd
            · rw [foundUnit, hunit]
              exact hf o
          | some v =>
            split at hu
            · next hm =>
              refine Or.inr ⟨0, v, c, hr, ⟨rfl, hm.1, hm.2.1, hm.2.2, hu⟩, fun o => ?_⟩
              rw [foundUnit, hunit]
              exact hf _
            · exact absurd hu (by simp)
        · refine Or.inr ⟨n + 1, k, x, ?_, hx.tail, fun o => ?_⟩
          · rw [hr, Nat.add_assoc, Nat.add_comm 1]
          · rw [foundUnit]
            exact hf _
      · intro i' j' hj
        rcases ih.ocm i' j' hj with hr | ⟨hi, hp, n, x, hj, hx, hpx⟩
        · dsimp only at hr
          split at hr
          · next hm =>
            cases hr
            exact Or.inr ⟨rfl, hm.1, 0, c, rfl, rfl, hm.2⟩
          · exact Or.inl hr
        · exact Or.inr ⟨hi, hp, n + 1, x, by omega, by simpa using hx, hpx⟩
      · intro hn
        obtain ⟨hr, hno⟩ := ih.noocm hn
        dsimp only at hr
        split at hr
        · exact absurd hr (by simp)
        · next hm =>
          refine ⟨hr, ?_⟩
          by_cases hp : ptr = 0
          · exact Or.inl hp
          · refine Or.inr (fun x hx => ?_)
            rcases List.mem_cons.mp hx with rfl | hx
            · rw [← Bool.not_eq_true]
              exact fun hc => hm ⟨hp, hc⟩
            · exact (hno.resolve_left hp) x hx

/-! ## allocating -/

/-- effect of `firstMap` -/
def mapEffs (base : Nat) (cs : List Chunk) : List Eff :=
  if cs = [] then [.mmap (w64 (base + 2097152)) 2097152] else []

/-- the `mmap` of a unit at `fp`, or of a whole chunk at `p` -/
def grabEffs (new : Bool) (q s p fp : Nat) (spare : Bool) : List Eff :=
  if spare = true then []
  else if q < 4096 then if new = true then [.mmap p (chunksize q)] else []
  else if q < 2097152 then [.mmap fp q]
  else [.mmap p (roundUp 2097152 s)]

/-- where a new chunk may go: the gap behind the allocmap, or the top of all chunks -/
def Spot (base : Nat) (cs : List Chunk) (a s p : Nat) : Prop :=
  (p = base + 4194304 ∧ (base + 4194304) &&& (a - 1) = 0 ∧
    ∀ c ∈ cs, w64 (base + 4194304 + roundUp 2097152 s) < c.ptr) ∨
  (base + 4194304 ≤ p ∧ (∀ c ∈ cs, c.fin ≤ p) ∧ (p = base + 4194304 ∨ ∃ c ∈ cs, p = c.fin))

/-- ways to get memory for `s` bytes: the chunks then, the pointer and the effects -/
inductive Grab (base : Nat) (cs : List Chunk) (q a s : Nat) (spare : Bool) :
    List Chunk → Nat → List Eff → Prop
  | unit {n k : Nat} {c : Chunk} (hn : cs[n]? = some c) (hq : c.quantum = q) (hs : q < 2097152)
      (hk : k < 512) (hb : c.bit k = false) :
      Grab base cs q a s spare (cs.set n (c.taken k q s)) (w64 (c.ptr + k * q))
        (grabEffs false q s c.ptr (w64 (c.ptr + k * q)) spare)
  | new {p₀ p : Nat} (hlen : cs.length < 26214) (hno : NoFree cs q a) (hspot : Spot base cs a s p₀)
      (hp : p = if 2097152 ≤ q then roundUp a p₀ else p₀) :
      Grab base cs q a s spare (cs ++ [(⟨q, p, fun _ => 0⟩ : Chunk).taken 0 q s]) p
        (grabEffs true q s p p spare)

/-- where a new chunk goes -/
def chunkPlace (base : Nat) (cs : List Chunk) (a s : Nat) : Nat :=
  if lowOf cs 0 ≠ 0 ∧ w64 (base + 4194304 + roundUp 2097152 s) < lowOf cs 0 ∧
      (base + 4194304) &&& (a - 1) = 0 then base + 4194304
  else topOf cs (base + 4194304)

theorem chunkPlace_spot {base a s : Nat} {cs : List Chunk} (hptr : ∀ c ∈ cs, c.ptr ≠ 0) :
    Spot base cs a s (chunkPlace base cs a s) := by
  unfold chunkPlace
  split
  · next hg => exact Or.inl ⟨rfl, hg.2.2, fun c hc => lt_of_lt_of_le hg.2.1 (lowOf_le_ptr hptr hc 0)⟩
  · exact Or.inr ⟨le_topOf cs _, fun c hc => fin_le_topOf hc _, topOf_cases cs _⟩

theorem chunkPlace_lt {base a s : Nat} {cs : List Chunk} (hbase : base + 4194304 < 2^64) :
    chunkPlace base cs a s < 2^64 := by
  unfold chunkPlace
  split
  · exact hbase
  · rcases topOf_cases cs (base + 4194304) with e | ⟨c, -, e⟩
    · rw [e]; exact hbase
    · rw [e]; exact w64_lt _

/-- the unit that is taken, or the new chunk -/
inductive Take (base : Nat) (cs : List Chunk) (q a s : Nat) (spare : Bool) :
    List Chunk → Nat → List Eff → Prop
  | unit {n k : Nat} {c : Chunk} (hu : UnitAt q a cs n k c)
      (hf : foundUnit q a cs none = some (w64 (c.ptr + k * q))) :
      Take base cs q a s spare (cs.set n (c.taken k q s)) (w64 (c.ptr + k * q))
        (grabEffs false q s c.ptr (w64 (c.ptr + k * q)) spare)
  | new {p : Nat} (hlen : cs.length < 26214) (hno : NoFree cs q a) (hf : foundUnit q a cs none = none)
      (hp : p = if 2097152 ≤ q then roundUp a (chunkPlace base cs a s) else chunkPlace base cs a s) :
      Take base cs q a s spare (cs ++ [(⟨q, p, fun _ => 0⟩ : Chunk).taken 0 q s]) p
        (grabEffs true q s p p spare)

theorem Take.grab {base q a s fp : Nat} {cs cs1 : List Chunk} {spare : Bool} {effs : List Eff}
    (h : Take base cs q a s spare cs1 fp effs) (hptr : ∀ c ∈ cs, c.ptr ≠ 0) :
    Grab base cs q a s spare cs1 fp effs := by
  cases h with
  | unit hu hf =>
    obtain ⟨hk, hb⟩ := unitLoop_some hu.loop
    exact Grab.unit hu.get hu.quantum hu.small hk hb
  | new hlen hno hf hp => exact Grab.new hlen hno (chunkPlace_spot hptr) hp

theorem Take.ne_nil {base q a s fp : Nat} {cs cs1 : List Chunk} {spare : Bool} {effs : List Eff}
    (h : Take base cs q a s spare cs1 fp effs) : cs1 ≠ [] := by
  cases h with
  | unit hu hf =>
    have hlt := (List.getElem?_eq_some_iff.mp hu.get).1
    rw [← List.length_pos_iff, List.length_set]
    omega
  | new hlen hno hf hp => simp

theorem firstMap_ofChunks (base : Nat) (cs : List Chunk) :
    firstMap mapped (Arena.ofChunks base cs) = .ok (Arena.withMap base cs, mapEffs base cs) := by
  cases cs with
  | nil => rfl
  | cons c cs => rfl

/-- the variables before the first chunk is looked at -/
def scanStart (base : Nat) (cs : List Chunk) : Scan :=
  ⟨base + 4194304, 0, base + 4194304, if cs.length < 26214 then 1 else 0, 1, none, none⟩

theorem scanMaps_withMap {base q a ptr n : Nat} {cs : List Chunk} (hbase : base + 4194304 < 2^64) :
    scanMaps (Arena.withMap base cs) q a ptr (n+2) 1 0
        ⟨w64 ((Arena.withMap base cs).base + 4194304), 0, 0, 0, 0, none, none⟩
      = (scanChunks q a ptr 1 cs 0 (scanStart base cs)).map (fun r => (2, r)) := by
  have e1 : w64 (base + 4194304) = base + 4194304 := w64_of_lt hbase
  have e2 : w64 (w64 (base + 2097152) + 2097152) = base + 4194304 := by
    unfold w64
    omega
  have h1 : (0 : Nat) < (Arena.withMap base cs).count := Nat.one_pos
  have h2 : ¬ (0 + 1 < (Arena.withMap base cs).count) := Nat.lt_irrefl 1
  have hb : (Arena.withMap base cs).base = base := rfl
  rw [scanMaps, if_pos h1, Arena.withMap_slot, hb]
  dsimp only
  rw [e1, e2, max_self, if_pos (Or.inl rfl)]
  simp only [true_and]
  unfold scanStart
  generalize scanChunks q a ptr 1 cs 0 _ = x
  cases x with
  | none => simp only [Option.map_none]
  | some r => simp only [scanMaps, if_neg h2, Option.map_some]

theorem takeUnit_spec {base q s j k : Nat} {cs : List Chunk} {c : Chunk} {effs : List Eff} {am : Nat}
    {spare : Bool} (h : cs[j]? = some c) (hq : c.quantum = q) :
    takeUnit mapped ⟨Arena.withMap base cs, am, 1, j, k, effs⟩ q s spare
      = (Arena.withMap base (cs.set j (c.taken k q s)),
          if q < 2097152 then w64 (c.ptr + k * q) else c.ptr,
          effs ++ if spare = true then [] else if q < 4096 then []
            else if q < 2097152 then [.mmap (w64 (c.ptr + k * q)) q]
            else [.mmap c.ptr (roundUp 2097152 s)]) := by
  unfold takeUnit
  dsimp only
  rw [Arena.withMap_slot]
  dsimp only
  rw [h]
  dsimp only
  rw [Arena.withMap_put, hq]
  cases spare with
  | true => by_cases h1 : q < 2097152 <;> simp [h1]
  | false =>
    by_cases h1 : q < 2097152
    · by_cases h2 : q < 4096
      · simp [h1, h2, Nat.not_le.mpr h2]
      · simp [h1, h2, Nat.not_lt.mp h2, mapped]
    · simp [h1, show ¬ q < 4096 by omega, mapped]

theorem choose_take_spec {base q a ptr : Nat} {cs : List Chunk} {r : Scan} (s : Nat) (spare : Bool)
    (pre : List Eff) (hbase : base + 4194304 < 2^64)
    (hr : Scanned q a ptr 1 cs 0 (scanStart base cs) r) :
    (26214 ≤ cs.length ∧ NoFree cs q a ∧
      choose mapped (Arena.withMap base cs) 2 r q a ptr s spare pre
        = .error ⟨Arena.withMap base cs, ptr, some .ENOMEM, pre⟩) ∨
    ∃ p cs1 fp effs, Take base cs q a s spare cs1 fp effs ∧
      choose mapped (Arena.withMap base cs) 2 r q a ptr s spare pre = .ok p ∧ p.am = 1 ∧
      takeUnit mapped p q s spare = (Arena.withMap base cs1, fp, pre ++ effs) ∧
      ∀ n, (∀ k, r.ncm ≠ some (1, n, k)) → n < cs.length → cs1[n]? = cs[n]? := by
  unfold choose
  rcases hr.ncm with ⟨hn, hno, hf⟩ | ⟨n, k, c, hn, hu, hf⟩
  · rw [hn]
    have hlp : r.lp = base + 4194304 := hr.lp
    have hfc : r.fc = if cs.length < 26214 then 1 else 0 := hr.fc
    have hfp : r.fp = topOf cs (base + 4194304) := hr.fp
    have hsp : r.sp = lowOf cs 0 := hr.sp
    have hnone : (scanStart base cs).ncm = none := rfl
    rw [hnone]
    dsimp only
    by_cases hlen : cs.length < 26214
    · rw [if_pos hlen] at hfc
      have hplace : (if r.lp ≠ 0 ∧ r.sp ≠ 0 ∧ w64 (r.lp + roundUp 2097152 s) < r.sp ∧
          r.lp &&& (a - 1) = 0 then r.lp else r.fp) = chunkPlace base cs a s := by
        have h0 : base + 4194304 ≠ 0 := by omega
        unfold chunkPlace
        rw [hlp, hfp, hsp]
        simp only [ne_eq, h0, not_false_eq_true, true_and]
      rw [hplace]
      have hplt : chunkPlace base cs a s < 2^64 := chunkPlace_lt hbase
      set p := if 2097152 ≤ q then roundUp a (chunkPlace base cs a s) else chunkPlace base cs a s with hp
      have hlast : (cs ++ [(⟨q, p, fun _ => 0⟩ : Chunk)])[cs.length]? = some ⟨q, p, fun _ => 0⟩ := by
        simp
      have hset : (cs ++ [(⟨q, p, fun _ => 0⟩ : Chunk)]).set cs.length
          ((⟨q, p, fun _ => 0⟩ : Chunk).taken 0 q s)
          = cs ++ [(⟨q, p, fun _ => 0⟩ : Chunk).taken 0 q s] := by
        simp
      have hw : q < 2097152 → w64 p = p := fun hq => by rw [hp, if_neg (by omega), w64_of_lt hplt]
      have hptr : (if q < 2097152 then w64 (p + 0 * q) else p) = p := by
        split
        · next hq => rw [Nat.zero_mul, Nat.add_zero, hw hq]
        · rfl
      rw [if_neg (by rw [hfc]; decide)]
      unfold addChunk
      rw [hfc, Arena.withMap_slot]
      dsimp only
      rw [← hp, Arena.withMap_put]
      have hkeep : ∀ n, (∀ k, (none : Option (Nat × Nat × Nat)) ≠ some (1, n, k)) → n < cs.length →
          (cs ++ [(⟨q, p, fun _ => 0⟩ : Chunk).taken 0 q s])[n]? = cs[n]? :=
        fun n _ hlt => List.getElem?_append_left hlt
      by_cases hsm : spare = false ∧ q < 4096
      · rw [if_pos hsm, if_neg (show ¬ mapped .chunk = false by simp [mapped])]
        refine Or.inr ⟨_, _, _, _, Take.new hlen hno (hf none) hp, rfl, rfl, ?_, hkeep⟩
        rw [takeUnit_spec hlast rfl, hset]
        dsimp only
        rw [hptr]
        simp [grabEffs, hsm.1, hsm.2]
      · rw [if_neg hsm]
        refine Or.inr ⟨_, _, _, _, Take.new hlen hno (hf none) hp, rfl, rfl, ?_, hkeep⟩
        rw [takeUnit_spec hlast rfl, hset]
        dsimp only
        rw [hptr]
        cases spare with
        | true => simp [grabEffs]
        | false =>
          have hq : ¬ q < 4096 := fun h => hsm ⟨rfl, h⟩
          by_cases hq' : q < 2097152
          · simp [grabEffs, hq, hq', hw hq']
          · simp [grabEffs, hq, hq']
    · rw [if_neg hlen] at hfc
      refine Or.inl ⟨by omega, hno, ?_⟩
      rw [if_pos hfc]
      rfl
  · rw [Nat.zero_add] at hn
    rw [hn]
    refine Or.inr ⟨_, _, _, _, Take.unit hu (hf none), rfl, hr.am, ?_, fun m hm hlt => ?_⟩
    · rw [takeUnit_spec hu.get hu.quantum, if_pos hu.small]
      congr 3
    · have hne : n ≠ m := fun e => hm k (by rw [e])
      exact List.getElem?_set_ne hne

/-- what is written to the new block -/
def fillEffs (fp ptr oq q : Nat) (spare : Bool) : List Eff :=
  if spare = false then .memcpy fp ptr oq :: if oq < q then [.memzero (w64 (fp + oq)) (q - oq)] else []
  else []

theorem Scan.same_iff {r : Scan} :
    r.same = true ↔ ∃ i j k, r.ncm = some (i, j, k) ∧ r.ocm = some (i, j) := by
  unfold Scan.same
  cases hn : r.ncm with
  | none => simp
  | some x =>
    cases ho : r.ocm with
    | none => simp
    | some y =>
      obtain ⟨i, j, k⟩ := x
      obtain ⟨i', j'⟩ := y
      simp only [decide_eq_true_eq, Option.some.injEq, Prod.mk.injEq]
      constructor
      · rintro ⟨rfl, rfl⟩
        exact ⟨i, j, k, ⟨rfl, rfl, rfl⟩, rfl, rfl⟩
      · rintro ⟨i1, j1, k1, ⟨rfl, rfl, rfl⟩, rfl, rfl⟩
        exact ⟨rfl, rfl⟩

theorem bztAlloc_spec {base a ptr s : Nat} {cs : List Chunk} {spare : Bool} {out : BztOut}
    (hbase : base + 4194304 < 2^64) (hs : s ≠ 0)
    (h : bztAlloc mapped (Arena.ofChunks base cs) a ptr s spare = some out) :
    ∃ q, quantumOf s = some q ∧
      ((∃ c ∈ cs, c.quantum = q ∧ q < 2097152 ∧ ptr ≠ 0 ∧ c.hasPtr ptr = true ∧
          out = ⟨Arena.ofChunks base cs, ptr, none, []⟩) ∨
        (26214 ≤ cs.length ∧ NoFree cs q (alignOf a q) ∧
          out = ⟨Arena.ofChunks base cs, ptr, some .ENOMEM, []⟩) ∨
        ∃ cs1 fp effs, Take base cs q (alignOf a q) s spare cs1 fp effs ∧
          ((fp = 0 ∧ out = ⟨Arena.ofChunks base cs1, ptr, some .ENOMEM, mapEffs base cs ++ effs⟩) ∨ fp ≠ 0 ∧
            (((ptr = 0 ∨ ∀ c ∈ cs, c.hasPtr ptr = false) ∧
              out = ⟨Arena.ofChunks base cs1, fp, none,
                mapEffs base cs ++ effs ++ if spare = false then [.memzero fp q] else []⟩) ∨
            ∃ n c, ptr ≠ 0 ∧ cs[n]? = some c ∧ cs1[n]? = some c ∧ c.hasPtr ptr = true ∧
              out = ⟨Arena.ofChunks base (giveBack (2^32) cs1 n ptr), fp, none,
                effs ++ fillEffs fp ptr c.quantum q spare ++ unmapAll (2^32) base cs1 n ptr c⟩))) := by
  unfold bztAlloc at h
  rw [if_neg hs] at h
  cases hq : quantumOf s with
  | none => rw [hq] at h; exact absurd h (by simp)
  | some q =>
    refine ⟨q, rfl, ?_⟩
    rw [hq] at h
    dsimp only at h
    rw [firstMap_ofChunks] at h
    dsimp only at h
    rw [scanMaps_withMap hbase] at h
    cases hsc : scanChunks q (alignOf a q) ptr 1 cs 0 (scanStart base cs) with
    | none => rw [hsc] at h; exact absurd h (by simp)
    | some r =>
      have hr := scanChunks_spec hsc
      rw [hsc] at h
      simp only [Option.map_some] at h
      have hold : ∀ i j, r.ocm = some (i, j) → i = 1 ∧ ptr ≠ 0 ∧ ∃ c, cs[j]? = some c ∧ c.hasPtr ptr = true := by
        intro i j hij
        rcases hr.ocm i j hij with h0 | ⟨hi, hp, n, c, hj, hc, hpc⟩
        · exact absurd h0 (by simp [scanStart])
        · rw [Nat.zero_add] at hj
          exact ⟨hi, hp, c, hj ▸ hc, hpc⟩
      have hpre : cs ≠ [] → mapEffs base cs = [] := fun hne => if_neg hne
      by_cases hsame : q < 2097152 ∧ ptr ≠ 0 ∧ r.same = true
      · rw [if_pos hsame, Option.some.injEq] at h
        obtain ⟨i, j, k, hn, ho⟩ := Scan.same_iff.mp hsame.2.2
        obtain ⟨hi, -, c, hc, hpc⟩ := hold i j ho
        have hne : cs ≠ [] := List.ne_nil_of_mem (List.mem_of_getElem? hc)
        refine Or.inl ⟨c, List.mem_of_getElem? hc, ?_, hsame.1, hsame.2.1, hpc, ?_⟩
        · rcases hr.ncm with ⟨h0, -⟩ | ⟨n, k', c', hn', hu, -⟩
          · rw [hn] at h0
            exact absurd h0 (by simp [scanStart])
          · rw [hn, Nat.zero_add, Option.some.injEq, Prod.mk.injEq, Prod.mk.injEq] at hn'
            have hc' := hu.get
            rw [← hn'.2.1, hc, Option.some.injEq] at hc'
            rw [hc']
            exact hu.quantum
        · rw [← h, hpre hne, Arena.ofChunks_ne hne]
      · rw [if_neg hsame, Option.some.injEq] at h
        refine Or.inr ?_
        rcases choose_take_spec s spare (mapEffs base cs) hbase hr with
          ⟨hlen, hno, he⟩ | ⟨p, cs1, fp, effs, htk, hp, ham, htake, hkeep⟩
        · refine Or.inl ⟨hlen, hno, ?_⟩
          have hne : cs ≠ [] := by rintro rfl; exact absurd hlen (by simp)
          unfold allocIn at h
          rw [he] at h
          rw [← h, hpre hne, Arena.ofChunks_ne hne]
        · refine Or.inr ⟨cs1, fp, effs, htk, ?_⟩
          have hne1 : cs1 ≠ [] := htk.ne_nil
          unfold allocIn at h
          rw [hp] at h
          dsimp only at h
          rw [htake] at h
          dsimp only at h
          by_cases h0 : fp = 0
          · rw [if_pos h0] at h
            exact Or.inl ⟨h0, by rw [← h, Arena.ofChunks_ne hne1]⟩
          · rw [if_neg h0] at h
            refine Or.inr ⟨h0, ?_⟩
            cases ho : r.ocm with
            | none =>
              rw [ho] at h
              obtain ⟨-, hnone⟩ := hr.noocm ho
              exact Or.inl ⟨hnone, by rw [← h, Arena.ofChunks_ne hne1]⟩
            | some x =>
              obtain ⟨oi, oj⟩ := x
              obtain ⟨rfl, hp0, c, hc, hpc⟩ := hold oi oj ho
              have hlt : oj < cs.length := (List.getElem?_eq_some_iff.mp hc).1
              have hne : cs ≠ [] := List.ne_nil_of_mem (List.mem_of_getElem? hc)
              -- the old block is in another chunk than the new one
              have hc1 : cs1[oj]? = some c := by
                rw [hkeep oj (fun k hk => ?_) hlt, hc]
                have hq : q < 2097152 := by
                  rcases hr.ncm with ⟨h1, -⟩ | ⟨n, k', c', -, hu, -⟩
                  · rw [hk] at h1
                    exact absurd h1 (by simp [scanStart])
                  · exact hu.small
                exact hsame ⟨hq, hp0, Scan.same_iff.mpr ⟨1, oj, k, hk, ho⟩⟩
              have hoq : (Arena.withMap base cs1).quantum 1 oj = c.quantum := by
                unfold Arena.quantum
                rw [Arena.withMap_slot, Option.bind_some, hc1]
                rfl
              have hlen1 : (Arena.withMap base cs1).numchunks p.am = cs1.length := by rw [ham]; rfl
              rw [ho] at h
              dsimp only at h
              rw [hoq, hlen1, release_spec hc1, hpre hne, List.nil_append] at h
              exact Or.inr ⟨oj, c, hp0, hc, hc1, hpc, h.symm⟩

end OsZ
