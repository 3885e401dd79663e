import OsZ.Fs.CacheRuns

/-!
# Writing out the block cache

`cache_setblock` stores `prio*0xF` in the upper four bits of `fd`, which is `15, 14, 13, 12` for the
priorities 1 to 4.  `cache_flush` looks for blocks with `1, 2, 3, 4` there.

* `Stock`               the priorities of the blocks, for chains of any shape;
* `Cache.NothingDue.flush_idle`  then `cache_flush` sends nothing;
* `cache_flush_exact`   so it writes out what is dirty if and only if nothing is.
-/

namespace OsZ
open Function (update update_eq_self_iff update_of_ne update_self)

/-- the priorities of `cache.h` -/
inductive BlkPrio where
  | notDirty
  | crit
  | data
  | mapping
  | metadata
  deriving DecidableEq

def BlkPrio.val : BlkPrio → Nat
  | .notDirty => 0
  | .crit => 1
  | .data => 2
  | .mapping => 3
  | .metadata => 4

theorem BlkPrio.packed_notMem (p : BlkPrio) : p.val * 15 % 16 ∉ [1, 2, 3, 4] := by
  cases p <;> decide

/-- a call of `cache_setblock`, and the priority with which each block was stored; a call that returns
true puts the block in front of its chain -/
inductive StoreStep : Cache × (Nat → BlkPrio) → CacheOp → Cache × (Nat → BlkPrio) → Prop
  | stored {s s' : Cache} {P : Nat → BlkPrio} {fuel fd lsn nc : Nat} {prio : BlkPrio} {blk : BlkData}
      {nb : Bool} (hn : nc ∉ s.live)
      (h : cacheSetblock fuel s fd lsn blk prio.val nc nb = some (s', true)) :
      StoreStep (s, P) (.set fd lsn blk prio.val nc nb)
        (s', update P (s'.line (s.slot lsn)) prio)
  | failed {s s' : Cache} {P : Nat → BlkPrio} {fuel fd lsn nc : Nat} {prio : BlkPrio} {blk : BlkData}
      {nb : Bool} (hn : nc ∉ s.live)
      (h : cacheSetblock fuel s fd lsn blk prio.val nc nb = some (s', false)) :
      StoreStep (s, P) (.set fd lsn blk prio.val nc nb) (s', P)

/-- `cache_flush` sends one message for each dirty block, ordered by the priorities with which the
blocks were stored, and counts them -/
def FlushSends (s : Cache) (P : Nat → BlkPrio) : Prop :=
  ∃ (fuel : Nat) (s' : Cache) (order : List Nat), cacheFlush fuel s = some s' ∧ order.Nodup ∧
    (∀ x, x ∈ order ↔ s.Cached x ∧ P x ≠ .notDirty) ∧ s'.sent = s.sent ++ order.map (flushMsg s) ∧
    order.Pairwise (fun x y => (P x).val ≤ (P y).val) ∧ s'.inflush = order.length

section
variable {s s' : Cache} {P : Nat → BlkPrio} {S : Set Nat} {j l c x fd lsn fuel : Nat}

/-! ## the priorities -/

theorem Cache.placed_line {prio : Nat} {blk : BlkData} :
    ((s.toFront j l c).fill c fd prio blk).line = update s.line j c := Cache.toFront_line

/-- the blocks `S` and their links; a chain may have a cycle -/
structure Stock (s : Cache) (P : Nat → BlkPrio) (S : Set Nat) : Prop where
  files : s.nfcb ≤ 2^60
  line : ∀ j, s.line j = 0 ∨ s.line j ∈ S
  next : ∀ x ∈ S, s.next x = 0 ∨ s.next x ∈ S
  prio : ∀ x ∈ S, cachePrio (s.node x).fd = (P x).val * 15 % 16
  live : ∀ x ∈ S, x ∈ s.live

namespace Stock

theorem congr (h : Stock s P S) (hf : s'.nfcb = s.nfcb) (hl : s'.line = s.line)
    (hn : ∀ x ∈ S, s'.node x = s.node x) (hlive : ∀ x ∈ s.live, x ∈ s'.live) : Stock s' P S := by
  constructor
  · rw [hf]; exact h.files
  · rw [hl]; exact h.line
  · intro x hx
    rw [Cache.next, hn x hx]
    exact h.next x hx
  · intro x hx
    rw [hn x hx]
    exact h.prio x hx
  · exact fun x hx => hlive x (h.live x hx)

theorem place {prio : BlkPrio} {blk : BlkData} (h : Stock s P S) (hfd : fd < 2^60)
    (hc : l ≠ 0 → c ∈ S) (hlive : c ∈ s.live) :
    Stock ((s.toFront j l c).fill c fd prio.val blk) (update P c prio) (insert c S) := by
  obtain ⟨-, r2, r3, -⟩ := Cache.toFront_rest (s := s) (j := j) (l := l) (c := c)
  constructor
  · exact r2.trans_le h.files
  · intro i
    rw [Cache.placed_line]
    rcases eq_or_ne i j with rfl | hi
    · rw [update_self]
      exact Or.inr (Set.mem_insert ..)
    · rw [update_of_ne hi]
      exact (h.line i).imp_right (Set.mem_insert_of_mem _)
  · intro x hx
    rw [Cache.fill_next]
    have hnext : ∀ y ∈ S, s.next y = 0 ∨ s.next y ∈ insert c S :=
      fun y hy => (h.next y hy).imp_right (Set.mem_insert_of_mem _)
    have hline : s.line j = 0 ∨ s.line j ∈ insert c S := (h.line j).imp_right (Set.mem_insert_of_mem _)
    rcases eq_or_ne l 0 with rfl | hl
    · rw [Cache.toFront_next_new]
      rcases eq_or_ne x c with rfl | hxc
      · rw [update_self]; exact hline
      · rw [update_of_ne hxc]; exact hnext x (hx.resolve_left hxc)
    · rw [Cache.toFront_next_hit hl]
      rcases eq_or_ne x c with rfl | hxc
      · rw [update_self]; exact hline
      · rw [update_of_ne hxc]
        rcases eq_or_ne x l with rfl | hxl
        · rw [update_self]; exact hnext c (hc hl)
        · rw [update_of_ne hxl]; exact hnext x (hx.resolve_left hxc)
  · intro x hx
    rcases eq_or_ne x c with rfl | hxc
    · rw [update_self]
      simp only [Cache.fill, update_self]
      exact cachePrio_packPrio hfd _
    · rw [update_of_ne hxc, Cache.fill_node_of_ne hxc, Cache.toFront_node.1]
      exact h.prio x (hx.resolve_left hxc)
  · intro x hx
    show x ∈ (s.toFront j l c).live
    rw [r3]
    rcases hx with rfl | hx
    · exact hlive
    · exact h.live x hx

theorem step {P' : Nat → BlkPrio} {op : CacheOp} (h : Stock s P S) (hs : StoreStep (s, P) op (s', P')) :
    ∃ S', Stock s' P' S' := by
  cases hs with
  | @failed _ _ _ _ _ _ nc _ _ _ hn hg =>
    rcases set_inv hg with ⟨-, rfl | rfl⟩ | ⟨-, ⟨l, c, -, -, e⟩ | ⟨-, -, ⟨-, rfl, -⟩ | ⟨-, e, -⟩⟩⟩
    · exact ⟨S, h⟩
    · exact ⟨S, h.congr rfl rfl (fun _ _ => rfl) (fun _ hx => hx)⟩
    · cases e
    · exact ⟨S, h.congr rfl rfl (fun _ _ => rfl) (fun _ hx => List.mem_cons_of_mem _ hx)⟩
    · cases e
  | @stored _ _ _ _ fd lsn nc prio blk nb hn hg =>
    rcases set_inv hg with ⟨e, -⟩ | ⟨hv, ⟨l, c, hf, rfl, -⟩ | ⟨-, -, ⟨-, -, e⟩ | ⟨-, -, rfl⟩⟩⟩
    · cases e
    · have hfd := lt_of_lt_of_le (Cache.Refused.lt_of_not hv) h.files
      have hc := (SList.search_closed h.next (h.line _) (Or.inl rfl) hf).1
      rw [Cache.placed_line, update_self]
      exact ⟨_, h.place hfd (fun _ => hc) (h.live c hc)⟩
    · cases e
    · have hfd := lt_of_lt_of_le (Cache.Refused.lt_of_not hv) h.files
      obtain ⟨t, ht⟩ : ∃ t : Cache, t = { s with
        live := nc :: s.live
        node := update s.node nc ⟨fd, lsn, fun _ => 0, (s.node nc).next⟩ } := ⟨_, rfl⟩
      rw [← ht]
      have hS : Stock t P S := by
        refine h.congr (by rw [ht]) (by rw [ht]) (fun x hx => ?_) (fun x hx => ?_)
        · have hx' : x ≠ nc := fun e => hn (e ▸ h.live x hx)
          rw [ht]
          exact update_of_ne hx' ..
        · rw [ht]
          exact List.mem_cons_of_mem _ hx
      rw [Cache.placed_line, update_self]
      exact ⟨_, hS.place hfd (fun e => absurd rfl e) (by rw [ht]; exact List.mem_cons_self ..)⟩

end Stock

/-! ## nothing is sent -/

/-- no block has a priority that `cache_flush` looks for -/
def Cache.NothingDue (s : Cache) : Prop := ∀ x, s.Cached x → cachePrio (s.node x).fd ∉ [1, 2, 3, 4]

namespace Cache.NothingDue

theorem flushLine_idle {p : Nat} (h : s.NothingDue) (hp : p ∈ [1, 2, 3, 4]) (hj : j < s.cachelines)
    (hl : flushLine fuel p s j = some s') : s' = s := by
  obtain ⟨r, hr, rfl⟩ := Option.map_eq_some_iff.mp hl
  have hch := SList.of_walk hr
  have hne : ∀ x ∈ r, cachePrio (s.node x).fd ≠ p :=
    fun x hx e => h x ⟨j, hj, hch.mem_iff.mp hx⟩ (e ▸ hp)
  clear hl hr hch
  induction r with
  | nil => rfl
  | cons x r ih =>
    rw [List.foldl_cons, flushBlk, if_neg (hne x (List.mem_cons_self ..))]
    exact ih (fun y hy => hne y (List.mem_cons_of_mem _ hy))

/-- `cache_flush` returns if and only if the chains end, and sends nothing then -/
theorem flush_idle (h : s.NothingDue) :
    cacheFlush fuel s = some s' ↔ s' = { s with inflush := 0 } ∧
      ∀ j < s.cachelines, ∃ r, SList.walk s.next fuel (s.line j) = some r := by
  obtain ⟨t, ht⟩ : ∃ t : Cache, t = { s with inflush := 0 } := ⟨_, rfl⟩
  have e1 : t.next = s.next := by funext x; rw [Cache.next, ht, Cache.next]
  have e2 : t.line = s.line := by rw [ht]
  have e3 : t.cachelines = s.cachelines := by rw [ht]
  have hd : t.NothingDue := by
    rw [ht]
    exact h
  have hline : ∀ p ∈ [1, 2, 3, 4], ∀ u, (List.range t.cachelines).foldlM (flushLine fuel p) t = some u ↔
      u = t ∧ ∀ j ∈ List.range t.cachelines, flushLine fuel p t j = some t :=
    fun p hp u => foldlM_idle (fun j hj u hu => hd.flushLine_idle hp (List.mem_range.mp hj) hu)
  have hwalk : ∀ p ∈ [1, 2, 3, 4], ∀ j < t.cachelines, flushLine fuel p t j = some t ↔
      ∃ r, SList.walk t.next fuel (t.line j) = some r := by
    intro p hp j hj
    constructor
    · intro e
      obtain ⟨r, hr, -⟩ := Option.map_eq_some_iff.mp e
      exact ⟨r, hr⟩
    · rintro ⟨r, hr⟩
      have e : flushLine fuel p t j = some (r.foldl (flushBlk p) t) := by rw [flushLine, hr]; rfl
      rw [e, hd.flushLine_idle hp hj e]
  rw [cacheFlush, ← ht, foldlM_idle (fun p hp u hu => ((hline p hp u).mp hu).1)]
  refine and_congr_right (fun _ => ?_)
  rw [← e1, ← e2, ← e3]
  constructor
  · intro hall j hj
    have h1 := ((hline 1 (by decide) t).mp (hall 1 (by decide))).2 j (List.mem_range.mpr hj)
    exact (hwalk 1 (by decide) j hj).mp h1
  · intro hall p hp
    refine (hline p hp t).mpr ⟨rfl, fun j hj => ?_⟩
    have hj' := List.mem_range.mp hj
    exact (hwalk p hp j hj').mpr (hall j hj')

end Cache.NothingDue

namespace Stock

theorem nothingDue (h : Stock s P S) : s.NothingDue := by
  rintro x ⟨j, -, hx⟩
  rw [h.prio x (hx.closed h.next (h.line j))]
  exact (P x).packed_notMem

theorem init (h : s.Init) : Stock s (fun _ => .notDirty) ∅ :=
  ⟨h.files, fun j => Or.inl (h.line j), fun x hx => absurd hx (Set.notMem_empty x),
    fun x hx => absurd hx (Set.notMem_empty x), fun x hx => absurd hx (Set.notMem_empty x)⟩

theorem flushSends_iff (h : Stock s P S) : FlushSends s P ↔
    (∀ j < s.cachelines, ∃ r, SList s.next (s.line j) r) ∧ ∀ x, s.Cached x → P x = .notDirty := by
  constructor
  · rintro ⟨fuel, s', order, hf, -, hmem, hsent, -⟩
    obtain ⟨rfl, hw⟩ := h.nothingDue.flush_idle.mp hf
    refine ⟨fun j hj => ?_, fun x hx => ?_⟩
    · obtain ⟨r, hr⟩ := hw j hj
      exact ⟨r, SList.of_walk hr⟩
    · have hnil : order = [] := List.map_eq_nil_iff.mp (List.self_eq_append_right.mp hsent)
      by_contra hd
      have hx' := (hmem x).mpr ⟨hx, hd⟩
      rw [hnil] at hx'
      exact List.not_mem_nil hx'
  · rintro ⟨hch, hclean⟩
    choose! L hL using hch
    obtain ⟨n, hn⟩ := chains_bounded s L
    have hf := h.nothingDue.flush_idle.mpr ⟨rfl, fun j hj => ⟨L j, (hL j hj).walk_eq (hn j hj)⟩⟩
    refine ⟨n, _, [], hf, List.nodup_nil, fun x => ?_, (List.append_nil _).symm, List.Pairwise.nil, rfl⟩
    simp only [List.not_mem_nil, false_iff, not_and, not_not]
    exact hclean x

end Stock

/-- whatever was stored, `cache_flush` does its task if and only if no chain has a cycle and no block is
dirty -/
theorem cache_flush_exact {s0 s : Cache} {P : Nat → BlkPrio} (h0 : s0.Init)
    (hr : Reach StoreStep (fun _ _ => True) (s0, fun _ => .notDirty) (s, P)) :
    FlushSends s P ↔ (∀ j < s.cachelines, ∃ r, SList s.next (s.line j) r) ∧
      ∀ x, s.Cached x → P x = .notDirty := by
  have hinv : ∃ S, Stock s P S := by
    refine hr.keeps (I := fun y => ∃ S, Stock y.1 y.2 S) ⟨∅, Stock.init h0⟩ ?_
    rintro ⟨u, Q⟩ op ⟨u', Q'⟩ ⟨S, h⟩ - hs
    exact h.step hs
  obtain ⟨S, h⟩ := hinv
  exact h.flushSends_iff

theorem cache_flush_exact_demo : ∃ s P, Reach StoreStep (fun _ _ => True) (demoCache, fun _ => .notDirty)
    (s, P) ∧ s.Cached 1 ∧ FlushSends s P := by
  have hs : ∃ s P, StoreStep (demoCache, fun _ => .notDirty) (.set 0 3 (fun _ => 7) 0 1 true) (s, P) ∧
      s.Cached 1 ∧ (∀ j < s.cachelines, ∃ r, SList s.next (s.line j) r) ∧ ∀ x, P x = .notDirty := by
    refine ⟨_, _, @StoreStep.stored _ _ _ 1 _ _ _ .notDirty _ _ List.not_mem_nil rfl, ⟨3, by decide, .head (by decide)⟩,
      fun j hj => ?_, fun x => ?_⟩
    · rcases eq_or_ne j 3 with rfl | h3
      · exact ⟨[1], rfl, by decide, rfl⟩
      · refine ⟨[], ?_⟩
        rw [Cache.placed_line]
        exact update_of_ne h3 ..
    · rw [update_eq_self_iff.mpr rfl]
  obtain ⟨s, P, hs, hc, hch, hP⟩ := hs
  have hr := Reach.refl.tail (C := fun _ _ => True) trivial hs
  exact ⟨s, P, hr, hc, (cache_flush_exact demoCache_init hr).mpr ⟨hch, fun x _ => hP x⟩⟩

/-- a dirty block is stored: `cache_flush` returns, but it has sent nothing and counts nothing -/
theorem dirty_not_flushed : ∃ s s' P, StoreStep (demoCache, fun _ => .notDirty)
    (.set 0 3 (fun _ => 7) BlkPrio.crit.val 1 true) (s, P) ∧ s.Cached 1 ∧ P 1 = .crit ∧
    cacheFlush 1 s = some s' ∧ s'.sent = [] ∧ s'.inflush = 0 ∧ ¬ FlushSends s P := by
  have hs : ∃ s s' P, StoreStep (demoCache, fun _ => .notDirty)
      (.set 0 3 (fun _ => 7) BlkPrio.crit.val 1 true) (s, P) ∧ s.Cached 1 ∧ P 1 = .crit ∧
      cacheFlush 1 s = some s' ∧ s'.sent = [] ∧ s'.inflush = 0 :=
    ⟨_, _, _, @StoreStep.stored _ _ _ 1 _ _ _ _ _ _ List.not_mem_nil rfl, ⟨3, by decide, .head (by decide)⟩, rfl, rfl,
      rfl, rfl⟩
  obtain ⟨s, s', P, hs, hc, hP, hrest⟩ := hs
  obtain ⟨S, hS⟩ := (Stock.init demoCache_init).step hs
  refine ⟨s, s', P, hs, hc, hP, hrest.1, hrest.2.1, hrest.2.2, fun hf => ?_⟩
  have hclean := (hS.flushSends_iff.mp hf).2 1 hc
  rw [hP] at hclean
  cases hclean

end

end OsZ
