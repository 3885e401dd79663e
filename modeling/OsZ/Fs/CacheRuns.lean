import OsZ.Fs.Freeing

/-!
# Runs of the block cache

* `cache_chains`   in every run of safe calls the chains are lists that end with NULL, with each block
                   in the chain of its sector and no two blocks of one device and sector, and only
                   `cache_freeblocks` for the device of a block takes it out of the cache;
* `cache_get_exact`  after such a run `cache_getblock` answers with the data stored last, or asks the
                   driver for the block, if and only if the chain of the block is not empty.
-/

namespace OsZ
open Function (update update_of_ne update_self)

section
variable {s s' : Cache} {L L' : Nat → List Nat} {i j l c x y fd lsn fuel : Nat}

/-! ## calls that do not change the chains -/

structure SameBlocks (s s' : Cache) : Prop where
  node : s'.node = s.node
  line : s'.line = s.line
  lines : s'.cachelines = s.cachelines
  nfcb : s'.nfcb = s.nfcb
  fcb : s'.fcb = s.fcb
  live : s'.live = s.live

theorem SameBlocks.next (h : SameBlocks s s') : s'.next = s.next := by
  funext x
  rw [Cache.next, h.node, Cache.next]

theorem Holds.same (h : Holds s L) (hs : SameBlocks s s') : Holds s' L := by
  refine h.congr hs.lines hs.nfcb hs.next hs.line (fun x => ?_) (fun x hx => ?_) ?_
  · rw [Cache.key, hs.node, Cache.key]
  · rw [hs.live]; exact hx
  · rw [hs.live]; exact h.once

theorem flushBlk_same {t : Cache} (h : SameBlocks s t) (p c : Nat) : SameBlocks s (flushBlk p t c) := by
  unfold flushBlk
  split
  · exact ⟨h.node, h.line, h.lines, h.nfcb, h.fcb, h.live⟩
  · exact h

theorem flushLine_same {t t' : Cache} {p : Nat} (h : SameBlocks s t) (hf : flushLine fuel p t i = some t') :
    SameBlocks s t' := by
  obtain ⟨r, -, rfl⟩ := Option.map_eq_some_iff.mp hf
  clear hf
  induction r generalizing t with
  | nil => exact h
  | cons c r ih => exact ih (flushBlk_same h p c)

theorem cacheFlush_same (hf : cacheFlush fuel s = some s') : SameBlocks s s' := by
  refine foldlM_keeps (fun t ht p _ t' hp => ?_) ?_ hf
  · exact foldlM_keeps (fun u hu i _ u' hi => flushLine_same hu hi) ht hp
  · exact ⟨rfl, rfl, rfl, rfl, rfl, rfl⟩

theorem cacheFlush_ends (h : Holds s L) (hf : ∀ j < s.cachelines, (L j).length ≤ fuel) :
    ∃ s', cacheFlush fuel s = some s' := by
  have hline : ∀ p t, SameBlocks s t → ∀ i ∈ List.range t.cachelines,
      ∃ t', flushLine fuel p t i = some t' ∧ SameBlocks s t' := by
    intro p t ht i hi
    rw [List.mem_range, ht.lines] at hi
    have hw := (h.chain i hi).walk_eq (hf i hi)
    have hl : flushLine fuel p t i = some ((L i).foldl (flushBlk p) t) := by
      rw [flushLine, ht.next, ht.line, hw]
      rfl
    exact ⟨_, hl, flushLine_same ht hl⟩
  have hprio : ∀ t, SameBlocks s t → ∀ p ∈ [1, 2, 3, 4],
      ∃ t', (List.range t.cachelines).foldlM (flushLine fuel p) t = some t' ∧ SameBlocks s t' := by
    intro t ht p _
    refine foldlM_ends (fun u hu i hi => hline p u hu i ?_) ht
    rw [hu.lines, ← ht.lines]
    exact hi
  have hstart : SameBlocks s { s with inflush := 0 } := ⟨rfl, rfl, rfl, rfl, rfl, rfl⟩
  obtain ⟨s', hs', -⟩ := foldlM_ends hprio hstart
  exact ⟨s', hs'⟩

theorem Holds.clear {r : Bool} (h : Holds s L) (hg : cacheCleardirty fuel s fd lsn = some (s', r)) :
    Holds s' L ∧ s'.cachelines = s.cachelines ∧ s'.live = s.live ∧ s'.fcb = s.fcb ∧
      (∀ x, s'.key x = s.key x) ∧ ∀ x, (s'.node x).blk = (s.node x).blk := by
  unfold cacheCleardirty at hg
  by_cases h1 : s.Refused fd lsn ∨ s.line (s.slot lsn) = 0
  · rw [if_pos h1] at hg
    cases hg
    exact ⟨h, rfl, rfl, rfl, fun _ => rfl, fun _ => rfl⟩
  · rw [if_neg h1] at hg
    cases hs : SList.search s.next (s.isBlock fd lsn) fuel 0 (s.line (s.slot lsn)) with
    | none => rw [hs] at hg; cases hg
    | some o =>
      rw [hs] at hg
      rcases SList.search_cases (h.chain _ (h.slot_lt lsn)) hs with ⟨rfl, -⟩ | ⟨A, c, B, -, -, hc, rfl⟩
      · cases hg
        exact ⟨h.congr rfl rfl rfl rfl (fun _ => rfl) (fun _ hx => hx) h.once, rfl, rfl, rfl, fun _ => rfl,
          fun _ => rfl⟩
      · have hk := Cache.isBlock_iff.mp hc
        have hfd : cacheFd (s.node c).fd = fd := (Prod.mk.inj hk).1
        cases hg
        obtain ⟨f, hf⟩ : ∃ f, f = update s.node c { s.node c with fd := cacheFd fd } := ⟨_, rfl⟩
        have hfc : f c = { s.node c with fd := cacheFd fd } := by rw [hf, update_self]
        have hfx : ∀ x, x ≠ c → f x = s.node x := fun x hx => by rw [hf, update_of_ne hx]
        have hlt : fd < 2^60 := by rw [← hfd]; exact cacheFd_lt _
        have hkey : ∀ x, Cache.key { s with node := f } x = s.key x := by
          intro x
          show (cacheFd (f x).fd, (f x).lsn) = (cacheFd (s.node x).fd, (s.node x).lsn)
          rcases eq_or_ne x c with rfl | hx
          · rw [hfc, hfd, cacheFd_of_lt hlt, cacheFd_of_lt hlt]
          · rw [hfx x hx]
        have hnext : Cache.next { s with node := f } = s.next := by
          funext x
          show (f x).next = (s.node x).next
          rcases eq_or_ne x c with rfl | hx
          · rw [hfc]
          · rw [hfx x hx]
        rw [hf] at hkey hnext
        refine ⟨h.congr rfl rfl hnext rfl hkey (fun _ hx => hx) h.once, rfl, rfl, rfl, hkey, fun x => ?_⟩
        rcases eq_or_ne x c with rfl | hx
        · simp
        · simp [hx]

theorem Holds.free {needed cap cnt : Nat} (h : Holds s L) (hsafe : CacheOp.Safe s (.free fd needed cap))
    (hg : cacheFreeblocks fuel s fd needed cap = some (s', cnt)) : ∃ L', Frees fd s s' L L' := by
  unfold cacheFreeblocks at hg
  split at hg
  · cases hg
    exact ⟨L, Frees.refl h⟩
  · rcases hsafe with ⟨h512, hfit⟩ | hno
    · -- the failsafe branch is not taken
      have hcap : ∀ j < s.cachelines, 2 * ((L j).length + 1) ≤ cap :=
        fun j hj => hfit j hj _ (h.chain j hj)
      rw [if_neg (by omega)] at hg
      have hfs := (freeLines_fits fuel fd needed s.cachelines 512 0 h le_rfl hcap).1
      cases hl : freeLines fuel fd needed cap s.cachelines 512 s 0 with
      | hangs => rw [hl] at hg; cases hg
      | failsafe t n => exact absurd hl (hfs t n)
      | done t n =>
        rw [hl] at hg
        cases hg
        exact freeLines_frees fuel fd needed cap s.cachelines 512 0 h le_rfl hl
    · have hnone : NoneOf fd s L := fun j hj x hx => hno x (h.cached_iff.mpr ⟨j, hj, hx⟩)
      have hfs := (failsafeLines_none fuel needed s.cachelines 0 h le_rfl hnone).1
      split at hg
      · cases hfs _ hg
        exact ⟨L, Frees.refl h⟩
      · rcases freeLines_none fuel needed cap s.cachelines 512 0 h le_rfl
          hnone with e | e | ⟨e, -⟩ <;> rw [e] at hg
        · cases hg
          exact ⟨L, Frees.refl h⟩
        · cases hfs _ hg
          exact ⟨L, Frees.refl h⟩
        · cases hg

/-! ## the calls return -/

theorem chains_bounded (s : Cache) (L : Nat → List Nat) : ∃ n, ∀ j < s.cachelines, (L j).length ≤ n :=
  ⟨(Finset.range s.cachelines).sup (fun j => (L j).length), fun _ hj =>
    Finset.le_sup (f := fun j => (L j).length) (Finset.mem_range.mpr hj)⟩

theorem Holds.get_ends (h : Holds s L) (hf : ∀ j < s.cachelines, (L j).length ≤ fuel) (fd lsn : Nat) :
    ∃ s' r, cacheGetblock fuel s fd lsn = some (s', r) := by
  unfold cacheGetblock
  by_cases h1 : s.Refused fd lsn ∨ s.line (s.slot lsn) = 0
  · exact ⟨_, _, if_pos h1⟩
  · by_cases h2 : s.Outside fd lsn
    · exact ⟨_, _, (if_neg h1).trans (if_pos h2)⟩
    · obtain ⟨o, ho⟩ := SList.search_total (q := s.isBlock fd lsn) (k := 0) (h.chain _ (h.slot_lt lsn))
        (hf _ (h.slot_lt lsn))
      dsimp only
      rw [if_neg h1, if_neg h2, ho]
      rcases o with _ | ⟨l, c⟩
      · exact ⟨_, _, rfl⟩
      · exact ⟨_, _, rfl⟩

theorem Holds.set_ends (h : Holds s L) (hf : ∀ j < s.cachelines, (L j).length ≤ fuel) (fd lsn : Nat)
    (blk : BlkData) (prio nc : Nat) (nb : Bool) :
    ∃ s' r, cacheSetblock fuel s fd lsn blk prio nc nb = some (s', r) := by
  unfold cacheSetblock
  by_cases h1 : s.Refused fd lsn
  · exact ⟨_, _, if_pos h1⟩
  · by_cases h2 : (s.fcb fd).blksize ≤ 1
    · exact ⟨_, _, (if_neg h1).trans (if_pos h2)⟩
    · by_cases h3 : s.Outside fd lsn
      · exact ⟨_, _, (if_neg h1).trans ((if_neg h2).trans (if_pos h3))⟩
      · obtain ⟨o, ho⟩ := SList.search_total (q := s.isClean fd lsn) (k := 0) (h.chain _ (h.slot_lt lsn))
          (hf _ (h.slot_lt lsn))
        dsimp only
        rw [if_neg h1, if_neg h2, if_neg h3, ho]
        rcases o with _ | ⟨l, c⟩
        · by_cases h4 : nc = 0
          · exact ⟨_, _, if_pos h4⟩
          · by_cases h5 : nb = false
            · exact ⟨_, _, (if_neg h4).trans (if_pos h5)⟩
            · exact ⟨_, _, (if_neg h4).trans (if_neg h5)⟩
        · exact ⟨_, _, rfl⟩

theorem Holds.clear_ends (h : Holds s L) (hf : ∀ j < s.cachelines, (L j).length ≤ fuel) (fd lsn : Nat) :
    ∃ s' r, cacheCleardirty fuel s fd lsn = some (s', r) := by
  unfold cacheCleardirty
  by_cases h1 : s.Refused fd lsn ∨ s.line (s.slot lsn) = 0
  · exact ⟨_, _, if_pos h1⟩
  · obtain ⟨o, ho⟩ := SList.search_total (q := s.isBlock fd lsn) (k := 0) (h.chain _ (h.slot_lt lsn))
      (hf _ (h.slot_lt lsn))
    dsimp only
    rw [if_neg h1, ho]
    exact ⟨_, _, rfl⟩

theorem Holds.free_ends {needed cap : Nat} (h : Holds s L) (hsafe : CacheOp.Safe s (.free fd needed cap))
    (hf : ∀ j < s.cachelines, (L j).length ≤ fuel) :
    ∃ s' cnt, cacheFreeblocks fuel s fd needed cap = some (s', cnt) := by
  unfold cacheFreeblocks
  split
  · exact ⟨_, _, rfl⟩
  · rcases hsafe with ⟨h512, hfit⟩ | hno
    · have hcap : ∀ j < s.cachelines, 2 * ((L j).length + 1) ≤ cap :=
        fun j hj => hfit j hj _ (h.chain j hj)
      obtain ⟨t, n, e⟩ := (freeLines_fits fuel fd needed s.cachelines 512 0 h le_rfl hcap).2 hf
      rw [if_neg (by omega), e]
      exact ⟨_, _, rfl⟩
    · have hnone : NoneOf fd s L := fun j hj x hx => hno x (h.cached_iff.mpr ⟨j, hj, hx⟩)
      have hfs := (failsafeLines_none fuel needed s.cachelines 0 h le_rfl hnone).2 hf
      split
      · exact ⟨_, _, hfs⟩
      · rcases freeLines_none fuel needed cap s.cachelines 512 0 h le_rfl
          hnone with e | e | ⟨-, j, hj, hlt⟩
        · rw [e]; exact ⟨_, _, rfl⟩
        · rw [e]; exact ⟨_, _, hfs⟩
        · exact absurd (hf j hj) (by omega)

/-! ## every run -/

/-- `cache_init()`: the chains are empty -/
structure Cache.Init (s : Cache) : Prop where
  pos : 0 < s.cachelines
  files : s.nfcb ≤ 2^60
  line : ∀ j, s.line j = 0
  live : s.live = []

theorem Cache.Init.holds (h : s.Init) : Holds s (fun _ => []) := by
  refine ⟨⟨?_, ?_, ?_, ?_, ?_, ?_⟩, ?_⟩
  · exact h.pos
  · exact h.files
  · exact fun j _ => h.line j
  · exact fun j _ x hx => absurd hx List.not_mem_nil
  · exact fun j _ x hx => absurd hx List.not_mem_nil
  · rw [h.live]; exact List.nodup_nil
  · exact fun j _ x hx => absurd hx List.not_mem_nil

/-- the chains end with NULL, each block is in the chain of its sector, and there is one block for a
device and a sector -/
structure CacheOk (s : Cache) : Prop where
  chains : ∀ j < s.cachelines, ∃ l, SList s.next (s.line j) l ∧ l.Nodup ∧
    ∀ x ∈ l, (s.node x).lsn % s.cachelines = j
  uniq : ∀ x y, s.Cached x → s.Cached y → s.key x = s.key y → x = y

theorem Holds.ok (h : Holds s L) : CacheOk s := by
  constructor
  · exact fun j hj => ⟨L j, h.chain j hj, (h.chain j hj).nodup, h.slot j hj⟩
  · intro x y hx hy hk
    obtain ⟨i, hi, hx⟩ := h.cached_iff.mp hx
    obtain ⟨j, hj, hy⟩ := h.cached_iff.mp hy
    exact h.uniq_all hi hj hx hy hk

/-- the call is `cache_freeblocks` for the device `fd` -/
def CacheOp.FreesDev (fd : Nat) : CacheOp → Prop
  | .free f _ _ => f = fd
  | _ => False

/-- `malloc` does not hand out a block that is in use -/
def CacheOp.Fresh (s : Cache) : CacheOp → Prop
  | .set _ _ _ _ nc _ => nc ∉ s.live
  | _ => True

theorem Holds.step {op : CacheOp} (h : Holds s L) (hsafe : op.Safe s) (hs : CacheStep s op s') :
    ∃ L', Holds s' L' ∧ s'.cachelines = s.cachelines ∧
      ∀ j < s.cachelines, ∀ x ∈ L j, op.FreesDev (s.key x).1 ∨ (x ∈ L' j ∧ s'.key x = s.key x) := by
  cases hs with
  | get hg =>
    obtain ⟨L', hf⟩ := h.toChains.get hsafe hg
    exact ⟨L', hf.holds h, hf.lines, fun j _ x hx => Or.inr ⟨(hf.mem j x).mpr hx, (hf.node x).key⟩⟩
  | set hn hg =>
    obtain ⟨hl, -, ⟨-, h', hnode⟩ | ⟨-, L', c, h', hp, -⟩⟩ := h.set hsafe hn hg
    · refine ⟨L, h', hl, fun j _ x hx => Or.inr ⟨hx, ?_⟩⟩
      rw [Cache.key, hnode, Cache.key]
    · exact ⟨L', h', hl, fun j hj x hx => Or.inr ⟨(hp.mem_iff j x).mpr (Or.inl hx), hp.key_old hj hx⟩⟩
  | clear hg =>
    obtain ⟨h', hl, -, -, hk, -⟩ := h.clear hg
    exact ⟨L, h', hl, fun j _ x hx => Or.inr ⟨hx, hk x⟩⟩
  | flush hg =>
    have hb := cacheFlush_same hg
    refine ⟨L, h.same hb, hb.lines, fun j _ x hx => Or.inr ⟨hx, ?_⟩⟩
    rw [Cache.key, hb.node, Cache.key]
  | @free _ _ fd _ _ _ hg =>
    obtain ⟨L', hf⟩ := h.free hsafe hg
    refine ⟨L', hf.holds, hf.lines, fun j hj x hx => ?_⟩
    by_cases hfd : cacheFd (s.node x).fd = fd
    · exact Or.inl hfd.symm
    · exact Or.inr ⟨hf.keep j hj x hx hfd, (hf.node x).key⟩

theorem Holds.step_ends {op : CacheOp} (h : Holds s L) (hsafe : op.Safe s) (hfresh : op.Fresh s) :
    ∃ s', CacheStep s op s' := by
  obtain ⟨n, hn⟩ := chains_bounded s L
  cases op with
  | get fd lsn =>
    obtain ⟨s', r, e⟩ := h.get_ends hn fd lsn
    exact ⟨s', .get e⟩
  | set fd lsn blk prio nc nb =>
    obtain ⟨s', r, e⟩ := h.set_ends hn fd lsn blk prio nc nb
    exact ⟨s', .set hfresh e⟩
  | clear fd lsn =>
    obtain ⟨s', r, e⟩ := h.clear_ends hn fd lsn
    exact ⟨s', .clear e⟩
  | flush =>
    obtain ⟨s', e⟩ := cacheFlush_ends h hn
    exact ⟨s', .flush e⟩
  | free fd needed cap =>
    obtain ⟨s', cnt, e⟩ := h.free_ends hsafe hn
    exact ⟨s', .free e⟩

theorem Holds.run {s0 : Cache} (h0 : s0.Init) (hr : Reach CacheStep (fun s op => op.Safe s) s0 s) :
    ∃ L, Holds s L := by
  refine hr.keeps (I := fun s => ∃ L, Holds s L) ⟨_, h0.holds⟩ ?_
  rintro u op u' ⟨L, h⟩ hsafe hs
  obtain ⟨L', h', -⟩ := h.step hsafe hs
  exact ⟨L', h'⟩

/-- in every state that safe calls lead to, the chains are in order, and every safe call returns and
keeps each block that is cached unless it is `cache_freeblocks` for the block's device -/
theorem cache_chains {s0 s : Cache} (h0 : s0.Init) (hr : Reach CacheStep (fun s op => op.Safe s) s0 s) :
    CacheOk s ∧ ∀ op : CacheOp, op.Safe s → op.Fresh s → (∃ s', CacheStep s op s') ∧
      ∀ s', CacheStep s op s' → CacheOk s' ∧
        ∀ x, s.Cached x → op.FreesDev (s.key x).1 ∨ (s'.Cached x ∧ s'.key x = s.key x) := by
  obtain ⟨L, h⟩ := Holds.run h0 hr
  refine ⟨h.ok, fun op hsafe hfresh => ⟨h.step_ends hsafe hfresh, fun s' hs => ?_⟩⟩
  obtain ⟨L', h', hl, hm⟩ := h.step hsafe hs
  refine ⟨h'.ok, fun x hx => ?_⟩
  obtain ⟨j, hj, hx⟩ := h.cached_iff.mp hx
  exact (hm j hj x hx).imp_right (fun hk => ⟨h'.cached_iff.mpr ⟨j, by rw [hl]; exact hj, hk.1⟩, hk.2⟩)

/-- one device of 64 blocks, nothing cached -/
def demoCache : Cache where
  fcb _ := ⟨.device, 0, 512, 32768⟩
  nfcb := 1
  dev _ := ⟨0, 1, 0, 0, 0, 0⟩
  ndev := 1
  devRecent := 1
  pid := 2
  cachelines := 16
  node _ := ⟨0, 0, fun _ => 0, 0⟩
  line _ := 0
  live := []
  inflush := 0
  ackdelayed := false
  errno := none
  sent := []

theorem demoCache_init : demoCache.Init := ⟨by decide, by decide, fun _ => rfl, rfl⟩

theorem demoCache_safe (blk : BlkData) : CacheOp.Safe demoCache (.set 0 3 blk 1 1 true) :=
  ⟨fun h => absurd rfl h, fun ⟨_, hx, _⟩ => by cases hx with
    | head h => exact absurd rfl h
    | next _ h => exact absurd rfl h⟩

theorem cache_chains_demo : ∃ s, CacheStep demoCache (.set 0 3 (fun _ => 7) 1 1 true) s ∧ CacheOk s := by
  have h := (cache_chains demoCache_init .refl).2 _ (demoCache_safe (fun _ => 7)) List.not_mem_nil
  obtain ⟨s, hs⟩ := h.1
  exact ⟨s, hs, (h.2 s hs).1⟩

/-- reading another block of a chain whose first block is its own successor does not return -/
theorem get_hangs (h1 : ¬ (s.Refused fd lsn ∨ s.line (s.slot lsn) = 0)) (h2 : ¬ s.Outside fd lsn)
    (he : s.next (s.line (s.slot lsn)) = s.line (s.slot lsn))
    (hq : s.isBlock fd lsn (s.line (s.slot lsn)) = false) (fuel : Nat) :
    cacheGetblock fuel s fd lsn = none := by
  have h0 : s.line (s.slot lsn) ≠ 0 := fun e => h1 (Or.inr e)
  unfold cacheGetblock
  dsimp only
  rw [if_neg h1, if_neg h2, SList.search_loop h0 he hq]

/-- a block is stored and read back: it becomes its own successor, the chain has no end, and reading
another block of the same chain does not return, whatever the number of rounds -/
theorem cache_hit_loops : ∃ s1 s2, cacheSetblock 1 demoCache 0 0 (fun _ => 7) 0 1 true = some (s1, true) ∧
    cacheGetblock 1 s1 0 0 = some (s2, some (s1.node 1).blk) ∧ (∀ l, ¬ SList s2.next (s2.line 0) l) ∧
    ∀ fuel, cacheGetblock fuel s2 0 16 = none := by
  exact ⟨_, _, rfl, rfl, fun l h => h.next_ne_self (by decide) rfl, get_hangs (by decide) (by decide) rfl rfl⟩

/-! ## what was stored -/

/-- the data stored last for a device and a sector, since it was freed -/
abbrev Hist := Nat × Nat → Option BlkData

open Classical in
/-- the blocks that are freed are forgotten -/
noncomputable def Hist.forget (M : Hist) (s s' : Cache) : Hist := fun k =>
  if ∃ x, s.Cached x ∧ x ∉ s'.live ∧ s.key x = k then none else M k

/-- a call, and what is stored afterwards -/
inductive HistStep : Cache × Hist → CacheOp → Cache × Hist → Prop
  | get {s s' : Cache} {M : Hist} {fd lsn : Nat} (h : CacheStep s (.get fd lsn) s') :
      HistStep (s, M) (.get fd lsn) (s', M)
  | stored {s s' : Cache} {M : Hist} {fuel fd lsn prio nc : Nat} {blk : BlkData} {nb : Bool}
      (hn : nc ∉ s.live) (h : cacheSetblock fuel s fd lsn blk prio nc nb = some (s', true)) :
      HistStep (s, M) (.set fd lsn blk prio nc nb) (s', update M (fd, lsn) (some blk))
  | failed {s s' : Cache} {M : Hist} {fuel fd lsn prio nc : Nat} {blk : BlkData} {nb : Bool}
      (hn : nc ∉ s.live) (h : cacheSetblock fuel s fd lsn blk prio nc nb = some (s', false)) :
      HistStep (s, M) (.set fd lsn blk prio nc nb) (s', M)
  | clear {s s' : Cache} {M : Hist} {fd lsn : Nat} (h : CacheStep s (.clear fd lsn) s') :
      HistStep (s, M) (.clear fd lsn) (s', M)
  | flush {s s' : Cache} {M : Hist} (h : CacheStep s .flush s') : HistStep (s, M) .flush (s', M)
  | free {s s' : Cache} {M : Hist} {fd needed cap : Nat} (h : CacheStep s (.free fd needed cap) s') :
      HistStep (s, M) (.free fd needed cap) (s', M.forget s s')

/-- the chains hold what was stored, and nothing else -/
structure Tracks (s : Cache) (L : Nat → List Nat) (M : Hist) : Prop where
  data : ∀ j < s.cachelines, ∀ x ∈ L j, ∃ d, M (s.key x) = some d ∧
    ∀ i < (s.fcb (s.key x).1).blksize, (s.node x).blk i = d i
  found : ∀ k d, M k = some d → ∃ j < s.cachelines, ∃ x ∈ L j, s.key x = k

namespace Tracks
variable {M : Hist}

theorem congr (h : Tracks s L M) (hl : s'.cachelines = s.cachelines) (hm : ∀ j x, x ∈ L' j ↔ x ∈ L j)
    (hk : ∀ x, s'.key x = s.key x) (hb : ∀ x, (s'.node x).blk = (s.node x).blk) (hf : s'.fcb = s.fcb) :
    Tracks s' L' M := by
  constructor
  · intro j hj x hx
    rw [hl] at hj
    rw [hk, hb, hf]
    exact h.data j hj x ((hm j x).mp hx)
  · intro k d hM
    obtain ⟨j, hj, x, hx, e⟩ := h.found k d hM
    exact ⟨j, by rw [hl]; exact hj, x, (hm j x).mpr hx, by rw [hk]; exact e⟩

theorem stored {blk : BlkData} {prio : Nat} (h : Tracks s L M) (hl : s'.cachelines = s.cachelines)
    (hslot : s.slot lsn < s.cachelines) (hf : s'.fcb = s.fcb) (hp : Placed s s' L L' fd lsn blk prio c)
    (hold : ∀ j < s.cachelines, ∀ x ∈ L j, s.key x = (fd, lsn) → x = c) :
    Tracks s' L' (update M (fd, lsn) (some blk)) := by
  constructor
  · intro j hj x hx
    rw [hl] at hj
    rcases eq_or_ne x c with rfl | hxc
    · rw [hp.key_self, update_self, hf]
      exact ⟨blk, rfl, hp.data⟩
    · have hx' := ((hp.mem_iff j x).mp hx).resolve_right (fun e => hxc e.1)
      have hne : s.key x ≠ (fd, lsn) := fun e => hxc (hold j hj x hx' e)
      rw [(hp.rest x hxc).key, update_of_ne hne, hf, (hp.rest x hxc).2.2]
      exact h.data j hj x hx'
  · intro k d hM
    rw [hl]
    rcases eq_or_ne k (fd, lsn) with rfl | hk
    · exact ⟨_, hslot, c, hp.mem, hp.key_self⟩
    · rw [update_of_ne hk] at hM
      obtain ⟨j, hj, x, hx, e⟩ := h.found k d hM
      exact ⟨j, hj, x, (hp.mem_iff j x).mpr (Or.inl hx), (hp.key_old hj hx).trans e⟩

theorem freed (h : Tracks s L M) (hh : Holds s L) (hf : Frees fd s s' L L') :
    Tracks s' L' (M.forget s s') := by
  have hkey : ∀ x, s'.key x = s.key x := fun x => (hf.node x).key
  constructor
  · intro j hj x hx
    rw [hf.lines] at hj
    have hx' := hf.sub j hj x hx
    have hno : ¬ ∃ y, s.Cached y ∧ y ∉ s'.live ∧ s.key y = s.key x := by
      rintro ⟨y, hy, hlive, e⟩
      obtain ⟨i, hi, hy⟩ := hh.cached_iff.mp hy
      obtain rfl := hh.uniq_all hi hj hy hx' e
      exact hlive ((hf.gone j hj y hx').mpr hx)
    rw [hkey, (hf.node x).2.2, hf.fcb.1, Hist.forget, if_neg hno]
    exact h.data j hj x hx'
  · intro k d hM
    rw [Hist.forget] at hM
    split at hM
    · cases hM
    · next hno =>
      obtain ⟨j, hj, x, hx, e⟩ := h.found k d hM
      refine ⟨j, by rw [hf.lines]; exact hj, x, ?_, (hkey x).trans e⟩
      by_contra hx'
      exact hno ⟨x, hh.cached_iff.mpr ⟨j, hj, hx⟩, fun hl => hx' ((hf.gone j hj x hx).mp hl), e⟩

end Tracks

theorem Tracks.step {M M' : Hist} {op : CacheOp} (hh : Holds s L) (h : Tracks s L M) (hsafe : op.Safe s)
    (hs : HistStep (s, M) op (s', M')) : ∃ L', Holds s' L' ∧ Tracks s' L' M' := by
  cases hs with
  | get hs =>
    cases hs with | get hg =>
    obtain ⟨L', hf⟩ := hh.toChains.get hsafe hg
    exact ⟨L', hf.holds hh, h.congr hf.lines hf.mem (fun x => (hf.node x).key) (fun x => (hf.node x).2.2)
      hf.fcb⟩
  | stored hn hg =>
    obtain ⟨hl, hf, ⟨e, -⟩ | ⟨-, L', c, h', hp, hold⟩⟩ := hh.set hsafe hn hg
    · cases e
    · exact ⟨L', h', h.stored hl (hh.slot_lt _) hf hp hold⟩
  | failed hn hg =>
    obtain ⟨hl, hf, ⟨-, h', hnode⟩ | ⟨e, -⟩⟩ := hh.set hsafe hn hg
    · refine ⟨L, h', h.congr hl (fun _ _ => Iff.rfl) (fun x => ?_) (fun x => ?_) hf⟩
      · rw [Cache.key, hnode, Cache.key]
      · rw [hnode]
    · cases e
  | clear hs =>
    cases hs with | clear hg =>
    obtain ⟨h', hl, -, hf, hk, hb⟩ := hh.clear hg
    exact ⟨L, h', h.congr hl (fun _ _ => Iff.rfl) hk hb hf⟩
  | flush hs =>
    cases hs with | flush hg =>
    have hb := cacheFlush_same hg
    refine ⟨L, hh.same hb, h.congr hb.lines (fun _ _ => Iff.rfl) (fun x => ?_) (fun x => ?_) hb.fcb⟩
    · rw [Cache.key, hb.node, Cache.key]
    · rw [hb.node]
  | free hs =>
    cases hs with | free hg =>
    obtain ⟨L', hf⟩ := hh.free hsafe hg
    exact ⟨L', hf.holds, h.freed hh hf⟩

/-- `cache_getblock` answers with the data stored last and sends nothing, or asks the driver for the
block and suspends the caller when there is none -/
def GetOk (s : Cache) (M : Hist) (fd lsn : Nat) : Prop :=
  ∃ fuel s' r, cacheGetblock fuel s fd lsn = some (s', r) ∧
    match M (fd, lsn) with
    | some d => (∃ b, r = some b ∧ ∀ i < (s.fcb fd).blksize, b i = d i) ∧ s'.sent = s.sent ∧
        s'.ackdelayed = s.ackdelayed
    | none => r = none ∧ s'.ackdelayed = true ∧
        ∃ bs, (s.fcb fd).blksize ≤ bs ∧ s'.sent = s.sent ++ [.drvRead (s.dev (s.fcb fd).inode).drivertask
          (s.dev (s.fcb fd).inode).device lsn bs s.pid (s.fcb fd).inode]

theorem Tracks.getOk {M : Hist} (hh : Holds s L) (h : Tracks s L M) (hv : ¬ s.Refused fd lsn)
    (hin : ¬ s.Outside fd lsn) (h0 : s.line (s.slot lsn) ≠ 0) : GetOk s M fd lsn := by
  obtain ⟨n, hn⟩ := chains_bounded s L
  obtain ⟨s', r, hg⟩ := hh.get_ends hn fd lsn
  have hj := hh.slot_lt lsn
  refine ⟨n, s', r, hg, ?_⟩
  rcases get_cases hh.toChains hg with ⟨hx | hx, -⟩ | ⟨-, ⟨hx, -⟩ |
    ⟨-, ⟨A, c, B, he, -, hc, rfl, rfl⟩ | ⟨hno, rfl, rfl⟩⟩⟩
  · exact absurd hx hv
  · exact absurd hx h0
  · exact absurd hx hin
  · obtain ⟨d, hd, hb⟩ := h.data _ hj c (by rw [he]; simp)
    rw [hc] at hd hb
    rw [hd]
    exact ⟨⟨_, rfl, hb⟩, Cache.toFront_rest.2.2.2.2.1, Cache.toFront_rest.2.2.2.2.2⟩
  · cases hM : M (fd, lsn) with
    | none =>
      refine ⟨rfl, rfl, _, ?_, rfl⟩
      split
      · omega
      · exact le_rfl
    | some d =>
      obtain ⟨j, hj', x, hx, e⟩ := h.found _ d hM
      obtain rfl := hh.key_slot hj' hx e
      exact absurd e (hno x hx)

theorem get_empty (h : s.line (s.slot lsn) = 0) (fuel : Nat) :
    cacheGetblock fuel s fd lsn = some (s, none) := if_pos (Or.inr h)

theorem cache_get_exact {s0 s : Cache} {M : Hist} {fd lsn : Nat} (h0 : s0.Init)
    (hr : Reach HistStep (fun x op => op.Safe x.1) (s0, fun _ => none) (s, M)) (hfd : fd < s.nfcb)
    (hdev : (s.fcb fd).type = .device) (hlsn : lsn ≠ minus1)
    (hin : (lsn + 1) * (s.fcb fd).blksize ≤ (s.fcb fd).filesize) :
    GetOk s M fd lsn ↔ s.line (s.slot lsn) ≠ 0 := by
  have hinv : ∃ L, Holds s L ∧ Tracks s L M := by
    refine hr.keeps (I := fun x => ∃ L, Holds x.1 L ∧ Tracks x.1 L x.2) ⟨_, h0.holds, ?_, ?_⟩ ?_
    · exact fun j _ x hx => absurd hx List.not_mem_nil
    · exact fun k d e => by cases e
    · rintro ⟨u, N⟩ op ⟨u', N'⟩ ⟨L, hh, ht⟩ hsafe hs
      exact ht.step hh hsafe hs
  obtain ⟨L, hh, ht⟩ := hinv
  have hv : ¬ s.Refused fd lsn := by
    rintro (e | e | e | e)
    · have := hh.files
      rw [e, minus1] at hfd
      omega
    · omega
    · exact hlsn e
    · exact e hdev
  have ho : ¬ s.Outside fd lsn := by
    have := Nat.mod_le ((lsn + 1) * (s.fcb fd).blksize) (2^64)
    unfold Cache.Outside w64
    omega
  constructor
  · -- a call that finds the chain empty does nothing
    rintro ⟨fuel, s', r, hg, hok⟩ he
    rw [get_empty he] at hg
    cases hg
    cases hM : M (fd, lsn) with
    | none =>
      rw [hM] at hok
      obtain ⟨-, -, bs, -, e⟩ := hok
      exact absurd (congrArg List.length e) (by simp)
    | some d =>
      rw [hM] at hok
      obtain ⟨⟨b, e, -⟩, -⟩ := hok
      cases e
  · exact ht.getOk hh hv ho

theorem cache_get_exact_demo : ∃ s M, Reach HistStep (fun x op => op.Safe x.1) (demoCache, fun _ => none)
    (s, M) ∧ GetOk s M 0 19 :=
  ⟨_, _, Reach.refl.tail (demoCache_safe (fun _ => 7)) (@HistStep.stored _ _ _ 1 _ _ _ _ _ _ List.not_mem_nil rfl),
    (cache_get_exact demoCache_init
      (Reach.refl.tail (demoCache_safe (fun _ => 7)) (@HistStep.stored _ _ _ 1 _ _ _ _ _ _ List.not_mem_nil rfl))
      (by decide) rfl (by decide) (by decide)).mpr (by decide)⟩

/-- nothing is cached yet: the call answers NULL and sends no request -/
theorem miss_not_requested : ¬ GetOk demoCache (fun _ => none) 0 0 ∧
    ∀ fuel, cacheGetblock fuel demoCache 0 0 = some (demoCache, none) := by
  refine ⟨?_, get_empty rfl⟩
  rintro ⟨fuel, s', r, hg, -, -, bs, -, e⟩
  rw [get_empty rfl] at hg
  cases hg
  exact absurd (congrArg List.length e) (by simp)

end

end OsZ
