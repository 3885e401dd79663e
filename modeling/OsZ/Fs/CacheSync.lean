import OsZ.Fs.CacheFlush

/-!
# The block cache and the drivers

File systems store blocks and read them, drivers answer requests, and the messages between them may be
delayed for any time.

* `SyncStep`        one step of the system: a call of a file system, a message that the FS task handles,
                    or a request that a driver serves;
* `SyncOp.Ordered`  the condition on a step;
* `no_lost_write`   in every run of such steps a dirty block stays in the cache, and reading gives the
                    data of the last dirty write.

A reply to a request that was sent before a dirty write is stored as a block of its own, in front of the
dirty one (`stale_reply`).
-/

namespace OsZ
open Function (update update_of_ne update_self)

/-- the cache, the devices and the messages that are on their way; requests to the drivers are in
`cache.sent` -/
structure Sync where
  cache : Cache
  disk : Nat × Nat → BlkData
  /-- `SYS_setblock(fcbdev,lsn,blk)` -/
  replies : List (Nat × Nat × BlkData)
  /-- `SYS_ackblock(dev,lsn)` -/
  acks : List (Nat × Nat)
  nomem : Bool
  /-- the data of the last dirty write -/
  last : Hist

inductive SyncOp where
  /-- `writeblock(fd,lsn,blk,prio)` on a device -/
  | write (fd lsn : Nat) (blk : BlkData) (prio : BlkPrio) (nc : Nat) (nb : Bool)
  | get (fd lsn : Nat)
  /-- a driver reads a block -/
  | drvRead
  /-- the FS task handles `SYS_setblock` -/
  | setblock (fd lsn : Nat) (nc : Nat) (nb : Bool)
  /-- `cache_flush()`; `nomem` when it is called for lack of memory -/
  | flush (nomem : Bool)
  /-- a driver writes a block -/
  | drvWrite
  /-- the FS task handles `SYS_ackblock` -/
  | ackblock

/-- the handler of `SYS_ackblock` -/
def ackBlock (fuel cap : Nat) (u : Sync) (k lsn : Nat) : Option Sync :=
  if k = minus1 ∨ u.cache.ndev ≤ k ∨ (u.cache.fcb (u.cache.dev k).fid).blksize ≤ 1 then some u
  else
    match cacheCleardirty fuel u.cache k lsn with
    | none => none
    | some (s, r) =>
      if r && u.nomem then (cacheFree fuel cap s).map (fun s => { u with cache := s, nomem := false })
      else some { u with cache := s }

/-- the block is stored with the priority `prio` -/
def Sync.stored (u : Sync) (s' : Cache) (r : Bool) (fd lsn : Nat) (blk : BlkData) (prio : BlkPrio) : Sync :=
  { u with
    cache := s'
    last := if r ∧ prio ≠ .notDirty then update u.last (fd, lsn) (some blk) else u.last }

inductive SyncStep : Sync → SyncOp → Sync → Prop
  | write {u : Sync} {s' : Cache} {fuel fd lsn nc : Nat} {blk : BlkData} {prio : BlkPrio} {nb r : Bool}
      (h : cacheSetblock fuel u.cache fd lsn blk prio.val nc nb = some (s', r)) (hn : nc ∉ u.cache.live) :
      SyncStep u (.write fd lsn blk prio nc nb) (u.stored s' r fd lsn blk prio)
  | get {u : Sync} {s' : Cache} {fuel fd lsn : Nat} {r : Option BlkData}
      (h : cacheGetblock fuel u.cache fd lsn = some (s', r)) :
      SyncStep u (.get fd lsn) { u with cache := s' }
  | drvRead {u : Sync} {A B : List CacheMsg} {task device lsn bs pid k : Nat}
      (h : u.cache.sent = A ++ .drvRead task device lsn bs pid k :: B) :
      SyncStep u .drvRead { u with
        cache := { u.cache with sent := A ++ B }
        replies := ((u.cache.dev k).fid, lsn, u.disk ((u.cache.dev k).fid, lsn)) :: u.replies }
  | setblock {u : Sync} {s' : Cache} {A B : List (Nat × Nat × BlkData)} {fuel fd lsn nc : Nat} {blk : BlkData}
      {nb r : Bool} (hm : u.replies = A ++ (fd, lsn, blk) :: B)
      (h : cacheSetblock fuel u.cache fd lsn blk BlkPrio.notDirty.val nc nb = some (s', r))
      (hn : nc ∉ u.cache.live) :
      SyncStep u (.setblock fd lsn nc nb)
        { u.stored s' r fd lsn blk .notDirty with replies := A ++ B }
  | flush {u : Sync} {s' : Cache} {fuel : Nat} {low : Bool} (h : cacheFlush fuel u.cache = some s') :
      SyncStep u (.flush low) { u with cache := s', nomem := u.nomem || low }
  | drvWrite {u : Sync} {A B : List CacheMsg} {task bs device fd lsn k pid : Nat} {blk : BlkData}
      (h : u.cache.sent = A ++ .drvWrite task blk bs device fd lsn k pid :: B) :
      SyncStep u .drvWrite { u with
        cache := { u.cache with sent := A ++ B }
        disk := update u.disk (fd, lsn) (fun i => if i < bs then blk i else u.disk (fd, lsn) i)
        acks := (k, lsn) :: u.acks }
  | ackblock {u u' : Sync} {A B : List (Nat × Nat)} {fuel cap k lsn : Nat} (hm : u.acks = A ++ (k, lsn) :: B)
      (h : ackBlock fuel cap { u with acks := A ++ B } k lsn = some u') : SyncStep u .ackblock u'

/-! ## the property -/

def Cache.Dirty (s : Cache) (x : Nat) : Prop := cachePrio (s.node x).fd ≠ 0

def Cache.DirtyAt (s : Cache) (fd lsn : Nat) : Prop := ∃ x, s.Cached x ∧ s.key x = (fd, lsn) ∧ s.Dirty x

/-- what `cache_getblock` returns is not older than the last dirty write -/
def Sync.ReadsLast (u : Sync) : Prop :=
  ∀ fuel fd lsn s' b d, u.last (fd, lsn) = some d → cacheGetblock fuel u.cache fd lsn = some (s', some b) →
    ∀ i < (u.cache.fcb fd).blksize, b i = d i

/-- a dirty block stays, or its device holds the data of the last dirty write -/
def Sync.NoLoss (u u' : Sync) : Prop :=
  ∀ x, u.cache.Cached x → u.cache.Dirty x → (u'.cache.Cached x ∧ SameBlk u.cache u'.cache x) ∨
    ∀ d, u.last (u.cache.key x) = some d → ∀ i < (u.cache.fcb (u.cache.key x).1).blksize,
      u'.disk (u.cache.key x) i = d i

/-- the condition on a step: a block that is found is not the first one of its chain, and a block that is
cached dirty is not stored clean -/
def SyncOp.Ordered (u : Sync) : SyncOp → Prop
  | .write fd lsn _ prio _ _ =>
    (u.cache.line (u.cache.slot lsn) ≠ 0 → u.cache.isClean fd lsn (u.cache.line (u.cache.slot lsn)) = false) ∧
    (prio = .notDirty → ¬ u.cache.DirtyAt fd lsn)
  | .setblock fd lsn _ _ =>
    (u.cache.line (u.cache.slot lsn) ≠ 0 → u.cache.isClean fd lsn (u.cache.line (u.cache.slot lsn)) = false) ∧
    ¬ u.cache.DirtyAt fd lsn
  | .get fd lsn => CacheOp.Safe u.cache (.get fd lsn)
  | _ => True

/-- nothing is cached and no message is on its way -/
structure Sync.Init (u : Sync) : Prop where
  cache : u.cache.Init
  sent : u.cache.sent = []
  acks : u.acks = []
  last : ∀ k, u.last k = none

section
variable {u u' : Sync} {L L' : Nat → List Nat} {j x c fd lsn : Nat} {blk : BlkData} {prio : BlkPrio}

/-! ## the invariant -/

structure SyncInv (u : Sync) (L : Nat → List Nat) : Prop where
  chains : Chains u.cache L
  prio : ∀ j < u.cache.cachelines, ∀ x ∈ L j, cachePrio (u.cache.node x).fd ∉ [1, 2, 3, 4]
  /-- the first block of its chain for the device and sector is dirty and holds the data -/
  last : ∀ fd lsn d, u.last (fd, lsn) = some d → ∃ c, (L (u.cache.slot lsn)).find? (u.cache.isBlock fd lsn) = some c ∧
    u.cache.Dirty c ∧ ∀ i < (u.cache.fcb fd).blksize, (u.cache.node c).blk i = d i
  sent : ∀ m ∈ u.cache.sent, ∀ task blk bs device fd lsn k pid,
    m ≠ .drvWrite task blk bs device fd lsn k pid
  acks : u.acks = []

def KeepsDirty (u u' : Sync) (L L' : Nat → List Nat) : Prop :=
  ∀ j < u.cache.cachelines, ∀ x ∈ L j, u.cache.Dirty x → x ∈ L' j ∧ SameBlk u.cache u'.cache x

theorem SyncInv.init (h : u.Init) : SyncInv u (fun _ => []) := by
  constructor
  · exact h.cache.holds.toChains
  · exact fun j _ x hx => absurd hx List.not_mem_nil
  · intro fd lsn d e
    rw [h.last] at e
    cases e
  · rw [h.sent]
    exact fun m hm => absurd hm List.not_mem_nil
  · exact h.acks

theorem SyncInv.congr (h : SyncInv u L) (hl : u'.cache.cachelines = u.cache.cachelines)
    (hf : u'.cache.nfcb = u.cache.nfcb) (hfcb : u'.cache.fcb = u.cache.fcb) (hn : u'.cache.node = u.cache.node)
    (hc : u'.cache.line = u.cache.line) (hlive : ∀ x ∈ u.cache.live, x ∈ u'.cache.live)
    (honce : u'.cache.live.Nodup) (hlast : u'.last = u.last) (hsent : ∀ m ∈ u'.cache.sent, m ∈ u.cache.sent)
    (hacks : u'.acks = []) : SyncInv u' L := by
  have hnext : u'.cache.next = u.cache.next := by
    funext x
    rw [Cache.next, hn, Cache.next]
  have hblock : ∀ f n, u'.cache.isBlock f n = u.cache.isBlock f n := by
    intro f n
    funext x
    rw [Cache.isBlock, hn, Cache.isBlock]
  constructor
  · exact h.chains.congr hl hf hnext hc (fun _ _ x _ => by rw [hn]) hlive honce
  · rw [hl, hn]
    exact h.prio
  · intro fd lsn d e
    rw [hlast] at e
    obtain ⟨c, h1, h2, h3⟩ := h.last fd lsn d e
    refine ⟨c, ?_, ?_, ?_⟩
    · rw [hblock, Cache.slot, hl]; exact h1
    · rw [Cache.Dirty, hn]; exact h2
    · rw [hn, hfcb]; exact h3
  · exact fun m hm => h.sent m (hsent m hm)
  · exact hacks

/-! ## the steps -/

theorem BlkPrio.packed_ne (p : BlkPrio) (h : p ≠ .notDirty) : p.val * 15 % 16 ≠ 0 := by
  cases p
  · exact absurd rfl h
  all_goals decide

section
variable {s s' : Cache} {f n p : Nat}

theorem Placed.find_self (hp : Placed s s' L L' fd lsn blk p c) :
    (L' (s.slot lsn)).find? (s'.isBlock fd lsn) = some c := by
  obtain ⟨R, rfl, -⟩ := hp.front
  rw [update_self, List.find?_cons_of_pos (Cache.isBlock_iff.mpr hp.key_self)]

theorem Placed.find_other (h : Chains s L) (hp : Placed s s' L L' fd lsn blk p c) (hne : (f, n) ≠ (fd, lsn)) :
    (L' (s.slot n)).find? (s'.isBlock f n) = (L (s.slot n)).find? (s.isBlock f n) := by
  have hkey : ∀ j < s.cachelines, ∀ x ∈ L j, s'.isBlock f n x = s.isBlock f n x := by
    intro j hj x hx
    rw [Bool.eq_iff_iff, Cache.isBlock_iff, Cache.isBlock_iff, hp.key_old hj hx]
  have hc : ¬ s'.isBlock f n c = true := fun e => hne ((Cache.isBlock_iff.mp e).symm.trans hp.key_self)
  obtain ⟨R, rfl, hR⟩ := hp.front
  rcases eq_or_ne (s.slot n) (s.slot lsn) with e | e
  · have hj := h.slot_lt lsn
    rw [e, update_self, List.find?_cons_of_neg hc, ← List.find?_congr (hkey _ hj)]
    rcases hR with ⟨A, B, he, rfl, -⟩ | ⟨rfl, -⟩
    · rw [he, List.find?_append, List.find?_append, List.find?_cons_of_neg hc]
    · rfl
  · rw [update_of_ne e]
    exact List.find?_congr (hkey _ (h.slot_lt n))

end

theorem SyncInv.set {s' : Cache} {fuel nc : Nat} {nb r : Bool} (prio : BlkPrio) (h : SyncInv u L)
    (hhead : u.cache.line (u.cache.slot lsn) ≠ 0 →
      u.cache.isClean fd lsn (u.cache.line (u.cache.slot lsn)) = false)
    (hclean : prio = .notDirty → ¬ u.cache.DirtyAt fd lsn) (hn : nc ∉ u.cache.live)
    (hg : cacheSetblock fuel u.cache fd lsn blk prio.val nc nb = some (s', r)) :
    ∃ L', SyncInv (u.stored s' r fd lsn blk prio) L' ∧
      KeepsDirty u (u.stored s' r fd lsn blk prio) L L' := by
  obtain ⟨hl, hf, hnf, hsent, hr⟩ := h.chains.set hhead hn hg
  have hslot : ∀ n, s'.slot n = u.cache.slot n := fun n => by rw [Cache.slot, hl, Cache.slot]
  rcases hr with ⟨rfl, hch, hnode⟩ | ⟨rfl, L', c, hch, hp, -⟩
  · have hblock : ∀ f n, s'.isBlock f n = u.cache.isBlock f n := by
      intro f n
      funext x
      rw [Cache.isBlock, hnode, Cache.isBlock]
    refine ⟨L, ⟨hch, ?_, ?_, ?_, h.acks⟩, fun j hj x hx _ => ⟨hx, ?_⟩⟩
    · show ∀ j < s'.cachelines, ∀ x ∈ L j, cachePrio (s'.node x).fd ∉ [1, 2, 3, 4]
      rw [hl, hnode]
      exact h.prio
    · intro f n d e
      obtain ⟨c, h1, h2, h3⟩ := h.last f n d e
      refine ⟨c, ?_, ?_, ?_⟩
      · show (L (s'.slot n)).find? (s'.isBlock f n) = some c
        rw [hblock, hslot]
        exact h1
      · show cachePrio (s'.node c).fd ≠ 0
        rw [hnode]
        exact h2
      · show ∀ i < (s'.fcb f).blksize, (s'.node c).blk i = d i
        rw [hnode, hf]
        exact h3
    · show ∀ m ∈ s'.sent, _
      rw [hsent]
      exact h.sent
    · show SameBlk u.cache s' x
      rw [SameBlk, hnode]
      exact ⟨rfl, rfl, rfl⟩
  · have hcp : cachePrio (s'.node c).fd = prio.val * 15 % 16 := by
      rw [hp.packed, cachePrio_packPrio hp.file]
    refine ⟨L', ⟨hch, ?_, ?_, ?_, h.acks⟩, fun j hj x hx hd => ⟨(hp.mem_iff j x).mpr (Or.inl hx), ?_⟩⟩
    · show ∀ j < s'.cachelines, ∀ x ∈ L' j, cachePrio (s'.node x).fd ∉ [1, 2, 3, 4]
      intro j hj x hx
      rw [hl] at hj
      rcases eq_or_ne x c with rfl | hxc
      · rw [hcp]
        exact prio.packed_notMem
      · rw [(hp.rest x hxc).1]
        exact h.prio j hj x (((hp.mem_iff j x).mp hx).resolve_right (fun e => hxc e.1))
    · intro f n d e
      show ∃ y, (L' (s'.slot n)).find? (s'.isBlock f n) = some y ∧ cachePrio (s'.node y).fd ≠ 0 ∧
        ∀ i < (s'.fcb f).blksize, (s'.node y).blk i = d i
      rw [hslot, hf]
      -- data of an earlier write: its block is dirty, so it is not the one that was placed
      have hold : (f, n) ≠ (fd, lsn) → u.last (f, n) = some d →
        ∃ y, (L' (u.cache.slot n)).find? (s'.isBlock f n) = some y ∧
          cachePrio (s'.node y).fd ≠ 0 ∧ ∀ i < (u.cache.fcb f).blksize, (s'.node y).blk i = d i := by
        intro hne e
        obtain ⟨y, h1, h2, h3⟩ := h.last f n d e
        have hy : y ≠ c := hp.dirty_ne (h.chains.slot_lt n) (List.mem_of_find?_eq_some h1) h2
        refine ⟨y, ?_, ?_, ?_⟩
        · rw [hp.find_other h.chains hne]
          exact h1
        · rw [(hp.rest y hy).1]
          exact h2
        · rw [(hp.rest y hy).2.2]
          exact h3
      by_cases hd : prio = .notDirty
      · have e' : u.last (f, n) = some d := by
          simpa [Sync.stored, hd] using e
        refine hold (fun ek => ?_) e'
        -- the last write would still be in the cache, dirty
        obtain ⟨y, h1, h2, -⟩ := h.last f n d e'
        have hy := List.mem_of_find?_eq_some h1
        cases ek
        exact hclean hd ⟨y, h.chains.cached_iff.mpr ⟨_, h.chains.slot_lt _, hy⟩,
          Cache.isBlock_iff.mp (List.find?_some h1), h2⟩
      · have e' : update u.last (fd, lsn) (some blk) (f, n) = some d := by
          simpa [Sync.stored, hd] using e
        rcases eq_or_ne (f, n) (fd, lsn) with ek | ek
        · rw [ek, update_self] at e'
          cases e'
          cases ek
          exact ⟨c, hp.find_self, by rw [hcp]; exact prio.packed_ne hd, hp.data⟩
        · rw [update_of_ne ek] at e'
          exact hold ek e'
    · show ∀ m ∈ s'.sent, _
      rw [hsent]
      exact h.sent
    · exact hp.rest x (hp.dirty_ne hj hx hd)

theorem SyncInv.step {op : SyncOp} (h : SyncInv u L) (ho : op.Ordered u) (hs : SyncStep u op u') :
    ∃ L', SyncInv u' L' ∧ u'.cache.cachelines = u.cache.cachelines ∧ KeepsDirty u u' L L' := by
  have hsame : ∀ j < u.cache.cachelines, ∀ x ∈ L j, u.cache.Dirty x → x ∈ L j ∧ SameBlk u.cache u.cache x :=
    fun _ _ _ hx _ => ⟨hx, .refl⟩
  cases hs with
  | write hg hn =>
    obtain ⟨L', h1, h2⟩ := h.set _ ho.1 ho.2 hn hg
    exact ⟨L', h1, (h.chains.set ho.1 hn hg).1, h2⟩
  | setblock hm hg hn =>
    obtain ⟨L', h1, h2⟩ := SyncInv.set .notDirty h ho.1 (fun _ => ho.2) hn hg
    exact ⟨L', ⟨h1.chains, h1.prio, h1.last, h1.sent, h1.acks⟩, (h.chains.set ho.1 hn hg).1, h2⟩
  | @get s' _ _ _ _ hg =>
    obtain ⟨L', hf⟩ := h.chains.get ho hg
    have hblock : ∀ f n, s'.isBlock f n = u.cache.isBlock f n := by
      intro f n
      funext x
      rw [Bool.eq_iff_iff, Cache.isBlock_iff, Cache.isBlock_iff, (hf.node x).key]
    refine ⟨L', ⟨hf.chains, ?_, ?_, ?_, h.acks⟩, hf.lines, fun j _ x hx _ => ⟨(hf.mem j x).mpr hx, hf.node x⟩⟩
    · intro j hj x hx
      show cachePrio (s'.node x).fd ∉ _
      rw [(hf.node x).1]
      exact h.prio j (hf.lines ▸ hj) x ((hf.mem j x).mp hx)
    · intro f n d e
      obtain ⟨c, h1, h2, h3⟩ := h.last f n d e
      refine ⟨c, ?_, ?_, ?_⟩
      · show (L' (s'.slot n)).find? (s'.isBlock f n) = some c
        rw [hblock, hf.first, Cache.slot, hf.lines]
        exact h1
      · show cachePrio (s'.node c).fd ≠ 0
        rw [(hf.node c).1]
        exact h2
      · show ∀ i < (s'.fcb f).blksize, (s'.node c).blk i = d i
        rw [hf.fcb, (hf.node c).2.2]
        exact h3
    · intro m hm
      rcases hf.sent m hm with hm | ⟨_, _, _, _, _, _, rfl⟩
      · exact h.sent m hm
      · intros
        exact fun e => by cases e
  | drvRead hm =>
    refine ⟨L, h.congr rfl rfl rfl rfl rfl (fun _ hx => hx) h.chains.once rfl (fun m hx => ?_) h.acks, rfl, hsame⟩
    rw [hm]
    rcases List.mem_append.mp hx with hx | hx
    · exact List.mem_append_left _ hx
    · exact List.mem_append_right _ (List.mem_cons_of_mem _ hx)
  | flush hg =>
    have hdue : u.cache.NothingDue := by
      intro x hx
      obtain ⟨j, hj, hx⟩ := h.chains.cached_iff.mp hx
      exact h.prio j hj x hx
    obtain ⟨rfl, -⟩ := hdue.flush_idle.mp hg
    exact ⟨L, h.congr rfl rfl rfl rfl rfl (fun _ hx => hx) h.chains.once rfl (fun _ hm => hm) h.acks, rfl, hsame⟩
  | drvWrite hm =>
    have hno := h.sent
    rw [hm] at hno
    exact absurd rfl (hno _ (List.mem_append_right _ (List.mem_cons_self ..)) _ _ _ _ _ _ _ _)
  | ackblock hm _ =>
    rw [h.acks] at hm
    exact absurd hm (by simp)

theorem SyncInv.readsLast (h : SyncInv u L) : u.ReadsLast := by
  intro fuel fd lsn s' b d e hg
  obtain ⟨c, h1, -, h3⟩ := h.last fd lsn d e
  rcases get_cases h.chains hg with ⟨-, -, e⟩ | ⟨-, ⟨-, -, e⟩ | ⟨-, ⟨A, c', B, he, hA, hc', -, e⟩ | ⟨-, e, -⟩⟩⟩
  · cases e
  · cases e
  · have hfind : (L (u.cache.slot lsn)).find? (u.cache.isBlock fd lsn) = some c' := by
      rw [he, List.find?_append, List.find?_eq_none.mpr (fun x hx hb => hA x hx (Cache.isBlock_iff.mp hb)),
        List.find?_cons_of_pos (Cache.isBlock_iff.mpr hc')]
      rfl
    rw [h1] at hfind
    cases hfind
    cases e
    exact h3
  · cases e

/-- in every run of ordered steps, reading gives the data of the last dirty write, and a dirty block
leaves the cache or becomes clean only if its device holds that data -/
theorem no_lost_write {u0 u : Sync} (h0 : u0.Init) (hr : Reach SyncStep (fun u op => op.Ordered u) u0 u) :
    u.ReadsLast ∧ ∀ op u', SyncOp.Ordered u op → SyncStep u op u' → u.NoLoss u' ∧ u'.ReadsLast := by
  have hinv : ∃ L, SyncInv u L := by
    refine hr.keeps (I := fun u => ∃ L, SyncInv u L) ⟨_, .init h0⟩ ?_
    rintro v op v' ⟨L, h⟩ ho hs
    obtain ⟨L', h', -⟩ := h.step ho hs
    exact ⟨L', h'⟩
  obtain ⟨L, h⟩ := hinv
  refine ⟨h.readsLast, fun op u' ho hs => ?_⟩
  obtain ⟨L', h', hl, hk⟩ := h.step ho hs
  refine ⟨fun x hx hd => Or.inl ?_, h'.readsLast⟩
  obtain ⟨j, hj, hx⟩ := h.chains.cached_iff.mp hx
  obtain ⟨h1, h2⟩ := hk j hj x hx hd
  exact ⟨h'.chains.cached_iff.mpr ⟨j, hl ▸ hj, h1⟩, h2⟩

/-- the empty cache and a device full of zeros -/
def demoSync : Sync := ⟨demoCache, fun _ _ => 0, [], [], false, fun _ => none⟩

theorem demoSync_init : demoSync.Init := ⟨demoCache_init, rfl, rfl, fun _ => rfl⟩

theorem no_lost_write_demo : ∃ u, SyncStep demoSync (.write 0 3 (fun _ => 9) .crit 1 true) u ∧
    u.last (0, 3) = some (fun _ => 9) ∧ u.ReadsLast := by
  have hs : ∃ u, SyncStep demoSync (.write 0 3 (fun _ => 9) .crit 1 true) u ∧ u.last (0, 3) = some (fun _ => 9) :=
    ⟨_, @SyncStep.write _ _ 1 _ _ _ _ _ _ _ rfl (by decide), rfl⟩
  obtain ⟨u, hs, hl⟩ := hs
  have ho : SyncOp.Ordered demoSync (.write 0 3 (fun _ => 9) .crit 1 true) :=
    ⟨fun h => absurd rfl h, fun e => by cases e⟩
  exact ⟨u, hs, hl, ((no_lost_write demoSync_init .refl).2 _ u ho hs).2⟩

/-- block 16 is written, block 0 is asked for and the driver answers; then block 0 is written, and the
answer comes in.  Reading block 0 gives what the device had before. -/
theorem stale_reply : ∃ u, Reach SyncStep (fun _ _ => True) demoSync u ∧
    u.last (0, 0) = some (fun _ => 9) ∧ (∃ s' b, cacheGetblock 1 u.cache 0 0 = some (s', some b) ∧ b 0 = 0) ∧
    ¬ u.ReadsLast := by
  have hs : ∃ u1 u2 u3 u4 u5 s' b, SyncStep demoSync (.write 0 16 (fun _ => 5) .crit 1 true) u1 ∧
      SyncStep u1 (.get 0 0) u2 ∧ SyncStep u2 .drvRead u3 ∧
      SyncStep u3 (.write 0 0 (fun _ => 9) .crit 2 true) u4 ∧ SyncStep u4 (.setblock 0 0 3 true) u5 ∧
      u5.last (0, 0) = some (fun _ => 9) ∧ (u5.cache.fcb 0).blksize = 512 ∧
      cacheGetblock 1 u5.cache 0 0 = some (s', some b) ∧ b 0 = 0 :=
    ⟨_, _, _, _, _, _, _, @SyncStep.write _ _ 1 _ _ _ _ _ _ _ rfl (by decide), @SyncStep.get _ _ 1 _ _ _ rfl,
      .drvRead (A := []) (B := []) rfl, @SyncStep.write _ _ 1 _ _ _ _ _ _ _ rfl (by decide),
      @SyncStep.setblock _ _ [] [] 2 _ _ _ _ _ _ rfl rfl (by decide), rfl, rfl, rfl, rfl⟩
  obtain ⟨u1, u2, u3, u4, u, s', b, h1, h2, h3, h4, h5, hl, hbs, hg, hb⟩ := hs
  have hr := ((((Reach.refl.tail (C := fun _ _ => True) trivial h1).tail trivial h2).tail trivial h3).tail
    trivial h4).tail trivial h5
  refine ⟨u, hr, hl, ⟨s', b, hg, hb⟩, fun h => ?_⟩
  have h0 := h 1 0 0 s' b _ hl hg 0 (by rw [hbs]; decide)
  rw [hb] at h0
  cases h0

end

end OsZ
