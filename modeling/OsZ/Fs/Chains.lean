import OsZ.Fs.Cache

/-!
# The chains of the block cache

* `Chains s L`       the chains of the cache are the lists `L`, each block is in the chain of its sector;
* `Holds s L`        and no two blocks have the same device and sector;
* `CacheOp.Safe`     the condition on a call;
* `get_cases`, `set_inv`  how a call can go;
* `Chains.get`, `Chains.set`, `Holds.set`  what it does to the chains (`Fronted`, `Placed`).

A call is not safe when the block is the first one of its chain: `l` is NULL then, the block is not
unlinked, and `c->next=cache[j]` makes it its own successor.  `cache_setblock` compares the packed
`fd`, so it does not find a dirty block and adds a second one.
-/

namespace OsZ
open Function (update update_of_ne update_self)

/-! ## small facts -/

theorem cacheFd_lt (x : Nat) : cacheFd x < 2^60 := Nat.mod_lt _ (by norm_num)

theorem cacheFd_of_lt {x : Nat} (h : x < 2^60) : cacheFd x = x := Nat.mod_eq_of_lt h

theorem packPrio_eq {fd : Nat} (h : fd < 2^60) (prio : Nat) :
    packPrio fd prio = 2^60 * (prio * 15 % 16) + fd := by
  have e : w64 (prio * 15 * 2^60) = 2^60 * (prio * 15 % 16) := by
    unfold w64
    omega
  rw [packPrio, e, Nat.or_comm, ← Nat.two_pow_add_eq_or_of_lt h]

theorem cacheFd_packPrio {fd : Nat} (h : fd < 2^60) (prio : Nat) : cacheFd (packPrio fd prio) = fd := by
  rw [packPrio_eq h, cacheFd, Nat.mul_add_mod, Nat.mod_eq_of_lt h]

theorem cachePrio_packPrio {fd : Nat} (h : fd < 2^60) (prio : Nat) :
    cachePrio (packPrio fd prio) = prio * 15 % 16 := by
  rw [packPrio_eq h, cachePrio, Nat.mul_add_div (by norm_num), Nat.div_eq_of_lt h, Nat.add_zero]

namespace Cache
variable {s : Cache} {j l c x y fd prio : Nat} {blk : BlkData}

def key (s : Cache) (x : Nat) : Nat × Nat := (cacheFd (s.node x).fd, (s.node x).lsn)

def Cached (s : Cache) (x : Nat) : Prop := ∃ j < s.cachelines, Chained s.next (s.line j) x

theorem isBlock_iff {lsn : Nat} : s.isBlock fd lsn c = true ↔ s.key c = (fd, lsn) := by
  simp [isBlock, key]

theorem isClean_iff {lsn : Nat} :
    s.isClean fd lsn c = true ↔ (s.node c).fd = fd ∧ (s.node c).lsn = lsn := by
  simp [isClean]

theorem setNext_next : (s.setNext x y).next = update s.next x y := by
  funext z
  rcases eq_or_ne z x with rfl | h
  · simp [setNext, next]
  · simp [setNext, next, h]

theorem setNext_lsn : ((s.setNext x y).node c).lsn = (s.node c).lsn := by
  rcases eq_or_ne c x with rfl | h
  · simp [setNext]
  · simp [setNext, h]

theorem setNext_fd : ((s.setNext x y).node c).fd = (s.node c).fd := by
  rcases eq_or_ne c x with rfl | h
  · simp [setNext]
  · simp [setNext, h]

theorem setNext_blk : ((s.setNext x y).node c).blk = (s.node c).blk := by
  rcases eq_or_ne c x with rfl | h
  · simp [setNext]
  · simp [setNext, h]

theorem toFront_next_hit (h : l ≠ 0) :
    (s.toFront j l c).next = update (update s.next l (s.next c)) c (s.line j) := by
  simp only [toFront, ne_eq, h, not_false_eq_true, if_true]
  exact setNext_next.trans (by rw [setNext_next]; rfl)

theorem toFront_next_new : (s.toFront j 0 c).next = update s.next c (s.line j) := by
  simp only [toFront, ne_eq, not_true_eq_false, if_false]
  exact setNext_next

theorem toFront_line : (s.toFront j l c).line = update s.line j c := by
  by_cases h : l = 0 <;> simp [toFront, h, setNext]

theorem toFront_node : ((s.toFront j l c).node x).fd = (s.node x).fd ∧
    ((s.toFront j l c).node x).lsn = (s.node x).lsn ∧ ((s.toFront j l c).node x).blk = (s.node x).blk := by
  by_cases h : l = 0
  · simp only [toFront, h, ne_eq, not_true_eq_false, if_false]
    exact ⟨setNext_fd, setNext_lsn, setNext_blk⟩
  · simp only [toFront, h, ne_eq, not_false_eq_true, if_true]
    exact ⟨setNext_fd.trans setNext_fd, setNext_lsn.trans setNext_lsn, setNext_blk.trans setNext_blk⟩

theorem toFront_rest : (s.toFront j l c).cachelines = s.cachelines ∧ (s.toFront j l c).nfcb = s.nfcb ∧
    (s.toFront j l c).live = s.live ∧ (s.toFront j l c).fcb = s.fcb ∧ (s.toFront j l c).sent = s.sent ∧
    (s.toFront j l c).ackdelayed = s.ackdelayed := by
  by_cases h : l = 0 <;> simp [toFront, h, setNext]

theorem fill_next : (s.fill c fd prio blk).next = s.next := by
  funext z
  rcases eq_or_ne z c with rfl | h
  · simp [fill, next]
  · simp [fill, next, h]

theorem fill_node_of_ne (h : x ≠ c) : (s.fill c fd prio blk).node x = s.node x := by
  simp [fill, h]

theorem fill_lsn : ((s.fill c fd prio blk).node x).lsn = (s.node x).lsn := by
  rcases eq_or_ne x c with rfl | h
  · simp [fill]
  · rw [fill_node_of_ne h]

end Cache

def SameBlk (s s' : Cache) (x : Nat) : Prop :=
  (s'.node x).fd = (s.node x).fd ∧ (s'.node x).lsn = (s.node x).lsn ∧ (s'.node x).blk = (s.node x).blk

theorem SameBlk.refl {s : Cache} {x : Nat} : SameBlk s s x := ⟨rfl, rfl, rfl⟩

theorem SameBlk.key {s s' : Cache} {x : Nat} (h : SameBlk s s' x) : s'.key x = s.key x := by
  rw [Cache.key, h.1, h.2.1, Cache.key]

/-! ## the chains as lists -/

/-- the chains of the cache are the lists `L` -/
structure Chains (s : Cache) (L : Nat → List Nat) : Prop where
  pos : 0 < s.cachelines
  files : s.nfcb ≤ 2^60
  chain : ∀ j < s.cachelines, SList s.next (s.line j) (L j)
  slot : ∀ j < s.cachelines, ∀ x ∈ L j, (s.node x).lsn % s.cachelines = j
  live : ∀ j < s.cachelines, ∀ x ∈ L j, x ∈ s.live
  once : s.live.Nodup

/-- and no two blocks have the same device and sector -/
structure Holds (s : Cache) (L : Nat → List Nat) : Prop extends Chains s L where
  uniq : ∀ j < s.cachelines, ∀ x ∈ L j, ∀ y ∈ L j, s.key x = s.key y → x = y

section
variable {s s' : Cache} {L L' : Nat → List Nat} {i j l c x y fd lsn : Nat} {A B : List Nat}

namespace Chains

theorem slot_lt (h : Chains s L) (lsn : Nat) : s.slot lsn < s.cachelines := Nat.mod_lt _ h.pos

theorem cached_iff (h : Chains s L) : s.Cached x ↔ ∃ j < s.cachelines, x ∈ L j := by
  constructor
  · rintro ⟨j, hj, hx⟩
    exact ⟨j, hj, (h.chain j hj).mem_iff.mpr hx⟩
  · rintro ⟨j, hj, hx⟩
    exact ⟨j, hj, (h.chain j hj).mem_iff.mp hx⟩

theorem line_eq (h : Chains s L) (hi : i < s.cachelines) (hj : j < s.cachelines) (hx : x ∈ L i)
    (hy : x ∈ L j) : i = j := (h.slot i hi x hx).symm.trans (h.slot j hj x hy)

theorem key_slot (h : Chains s L) (hj : j < s.cachelines) (hx : x ∈ L j) (hk : s.key x = (fd, lsn)) :
    j = s.slot lsn := by
  rw [← h.slot j hj x hx, show (s.node x).lsn = lsn from (Prod.mk.inj hk).2]
  rfl

theorem congr (h : Chains s L) (hl : s'.cachelines = s.cachelines) (hf : s'.nfcb = s.nfcb)
    (hn : s'.next = s.next) (hc : s'.line = s.line)
    (hs : ∀ j < s.cachelines, ∀ x ∈ L j, (s'.node x).lsn = (s.node x).lsn)
    (hlive : ∀ x ∈ s.live, x ∈ s'.live) (honce : s'.live.Nodup) : Chains s' L := by
  constructor
  · rw [hl]; exact h.pos
  · rw [hf]; exact h.files
  · rw [hl, hn, hc]; exact h.chain
  · intro j hj x hx
    rw [hl] at hj ⊢
    rw [hs j hj x hx]
    exact h.slot j hj x hx
  · rw [hl]
    exact fun j hj x hx => hlive x (h.live j hj x hx)
  · exact honce

theorem toFront (h : Chains s L) (hj : j < s.cachelines) (he : L j = A ++ l :: c :: B) :
    Chains (s.toFront j l c) (update L j (c :: (A ++ l :: B))) := by
  have hc := h.chain j hj
  rw [he] at hc
  have hl0 : l ≠ 0 := hc.ne_zero (by simp)
  have hcl : c ≠ l := by
    intro e
    have hnd := (List.nodup_append.mp hc.nodup).2.1
    exact (List.nodup_cons.mp hnd).1 (by simp [e])
  obtain ⟨r1, r2, r3, -⟩ := Cache.toFront_rest (s := s) (j := j) (l := l) (c := c)
  have hnext : ∀ y, y ≠ l → y ≠ c → (s.toFront j l c).next y = s.next y := by
    intro y h1 h2
    rw [Cache.toFront_next_hit hl0, update_of_ne h2, update_of_ne h1]
  have hin : ∀ i, ∀ x ∈ update L j (c :: (A ++ l :: B)) i, x ∈ L i := by
    intro i x hx
    rcases eq_or_ne i j with rfl | hij
    · rw [update_self] at hx
      rw [he]
      simp only [List.mem_cons, List.mem_append] at hx ⊢
      tauto
    · rwa [update_of_ne hij] at hx
  constructor
  · rw [r1]; exact h.pos
  · rw [r2]; exact h.files
  · intro i hi
    rw [r1] at hi
    rw [Cache.toFront_line]
    rcases eq_or_ne i j with rfl | hij
    · rw [update_self, update_self]
      refine hc.fronted ?_ ?_ hnext
      · rw [Cache.toFront_next_hit hl0, update_of_ne hcl.symm, update_self]
      · rw [Cache.toFront_next_hit hl0, update_self]
    · rw [update_of_ne hij, update_of_ne hij]
      refine (h.chain i hi).frame (fun x hx => hnext x ?_ ?_)
      · rintro rfl
        exact hij (h.line_eq hi hj hx (by rw [he]; simp))
      · rintro rfl
        exact hij (h.line_eq hi hj hx (by rw [he]; simp))
  · intro i hi x hx
    rw [r1] at hi ⊢
    rw [Cache.toFront_node.2.1]
    exact h.slot i hi x (hin i x hx)
  · intro i hi x hx
    rw [r1] at hi
    rw [r3]
    exact h.live i hi x (hin i x hx)
  · rw [r3]; exact h.once

theorem push (h : Chains s L) (hj : j < s.cachelines) (h0 : c ≠ 0) (hc : ∀ i < s.cachelines, c ∉ L i)
    (hs : (s.node c).lsn % s.cachelines = j) (hl : c ∈ s.live) :
    Chains (s.toFront j 0 c) (update L j (c :: L j)) := by
  obtain ⟨r1, r2, r3, -⟩ := Cache.toFront_rest (s := s) (j := j) (l := 0) (c := c)
  have hnext : ∀ y, y ≠ c → (s.toFront j 0 c).next y = s.next y := by
    intro y h1
    rw [Cache.toFront_next_new, update_of_ne h1]
  have hin : ∀ i, ∀ x ∈ update L j (c :: L j) i, (x = c ∧ i = j) ∨ x ∈ L i := by
    intro i x hx
    rcases eq_or_ne i j with rfl | hij
    · rw [update_self] at hx
      exact (List.mem_cons.mp hx).imp_left (fun e => ⟨e, rfl⟩)
    · rw [update_of_ne hij] at hx
      exact Or.inr hx
  constructor
  · rw [r1]; exact h.pos
  · rw [r2]; exact h.files
  · intro i hi
    rw [r1] at hi
    rw [Cache.toFront_line]
    rcases eq_or_ne i j with rfl | hij
    · rw [update_self, update_self]
      refine (h.chain i hi).pushed (hc i hi) h0 ?_ hnext
      rw [Cache.toFront_next_new, update_self]
    · rw [update_of_ne hij, update_of_ne hij]
      exact (h.chain i hi).frame (fun x hx => hnext x (fun e => hc i hi (e ▸ hx)))
  · intro i hi x hx
    rw [r1] at hi ⊢
    rw [Cache.toFront_node.2.1]
    rcases hin i x hx with ⟨rfl, rfl⟩ | hx
    · exact hs
    · exact h.slot i hi x hx
  · intro i hi x hx
    rw [r1] at hi
    rw [r3]
    rcases hin i x hx with ⟨rfl, rfl⟩ | hx
    · exact hl
    · exact h.live i hi x hx
  · rw [r3]; exact h.once

theorem fill (h : Chains s L) (fd prio : Nat) (blk : BlkData) : Chains (s.fill c fd prio blk) L :=
  h.congr rfl rfl Cache.fill_next rfl (fun _ _ _ _ => Cache.fill_lsn) (fun _ hx => hx) h.once

end Chains

namespace Holds

theorem uniq_all (h : Holds s L) (hi : i < s.cachelines) (hj : j < s.cachelines) (hx : x ∈ L i)
    (hy : y ∈ L j) (hk : s.key x = s.key y) : x = y := by
  have e : i = j := (h.key_slot hi hx hk).trans (h.key_slot hj hy rfl).symm
  subst e
  exact h.uniq i hi x hx y hy hk

theorem congr (h : Holds s L) (hl : s'.cachelines = s.cachelines) (hf : s'.nfcb = s.nfcb)
    (hn : s'.next = s.next) (hc : s'.line = s.line) (hk : ∀ x, s'.key x = s.key x)
    (hlive : ∀ x ∈ s.live, x ∈ s'.live) (honce : s'.live.Nodup) : Holds s' L := by
  refine ⟨h.toChains.congr hl hf hn hc (fun _ _ x _ => (Prod.mk.inj (hk x)).2) hlive honce, ?_⟩
  intro j hj x hx y hy e
  rw [hl] at hj
  rw [hk, hk] at e
  exact h.uniq j hj x hx y hy e

end Holds

/-! ## what the calls do -/

theorem get_cases {fuel : Nat} {r : Option BlkData} (h : Chains s L)
    (hg : cacheGetblock fuel s fd lsn = some (s', r)) :
    ((s.Refused fd lsn ∨ s.line (s.slot lsn) = 0) ∧ s' = s ∧ r = none) ∨
    (¬ (s.Refused fd lsn ∨ s.line (s.slot lsn) = 0) ∧
      ((s.Outside fd lsn ∧ s' = s.seterr .EFAULT ∧ r = none) ∨
      (¬ s.Outside fd lsn ∧
        ((∃ A c B, L (s.slot lsn) = A ++ c :: B ∧ (∀ x ∈ A, s.key x ≠ (fd, lsn)) ∧ s.key c = (fd, lsn) ∧
          s' = s.toFront (s.slot lsn) (A.getLast?.getD 0) c ∧ r = some (s.node c).blk) ∨
        ((∀ x ∈ L (s.slot lsn), s.key x ≠ (fd, lsn)) ∧ r = none ∧
          s' = { s with
            sent := s.sent ++ [.drvRead (s.dev (s.fcb fd).inode).drivertask
              (s.dev (s.fcb fd).inode).device lsn
              (if lsn = 0 ∧ (s.fcb fd).blksize < bufsiz then bufsiz else (s.fcb fd).blksize) s.pid
              (s.fcb fd).inode]
            ackdelayed := true }))))) := by
  unfold cacheGetblock at hg
  by_cases h1 : s.Refused fd lsn ∨ s.line (s.slot lsn) = 0
  · rw [if_pos h1] at hg
    cases hg
    exact Or.inl ⟨h1, rfl, rfl⟩
  · rw [if_neg h1] at hg
    refine Or.inr ⟨h1, ?_⟩
    by_cases h2 : s.Outside fd lsn
    · rw [if_pos h2] at hg
      cases hg
      exact Or.inl ⟨h2, rfl, rfl⟩
    · rw [if_neg h2] at hg
      refine Or.inr ⟨h2, ?_⟩
      cases hs : SList.search s.next (s.isBlock fd lsn) fuel 0 (s.line (s.slot lsn)) with
      | none => rw [hs] at hg; cases hg
      | some o =>
        rw [hs] at hg
        have hq : ∀ x, s.isBlock fd lsn x = false → s.key x ≠ (fd, lsn) := fun x hx e => by
          rw [Cache.isBlock_iff.mpr e] at hx
          cases hx
        rcases SList.search_cases (h.chain _ (h.slot_lt lsn)) hs with
          ⟨rfl, hall⟩ | ⟨A, c, B, he, hA, hc, rfl⟩
        · cases hg
          exact Or.inr ⟨fun x hx => hq x (hall x hx), rfl, rfl⟩
        · cases hg
          exact Or.inl ⟨A, c, B, he, fun x hx => hq x (hA x hx), Cache.isBlock_iff.mp hc, rfl, rfl⟩

/-- the ways a call of `cache_setblock` can go, whatever the chains look like -/
theorem set_inv {fuel prio nc : Nat} {nb r : Bool} {blk : BlkData}
    (hg : cacheSetblock fuel s fd lsn blk prio nc nb = some (s', r)) :
    (r = false ∧ (s' = s ∨ s' = s.seterr .EFAULT)) ∨
    (¬ s.Refused fd lsn ∧
      ((∃ l c, SList.search s.next (s.isClean fd lsn) fuel 0 (s.line (s.slot lsn)) = some (some (l, c)) ∧
          s' = (s.toFront (s.slot lsn) l c).fill c fd prio blk ∧ r = true) ∨
      (SList.search s.next (s.isClean fd lsn) fuel 0 (s.line (s.slot lsn)) = some none ∧ nc ≠ 0 ∧
        ((nb = false ∧ s' = { s with live := nc :: s.live } ∧ r = false) ∨
        (nb = true ∧ r = true ∧ s' = (Cache.toFront { s with
            live := nc :: s.live
            node := update s.node nc ⟨fd, lsn, fun _ => 0, (s.node nc).next⟩ }
          (s.slot lsn) 0 nc).fill nc fd prio blk))))) := by
  unfold cacheSetblock at hg
  by_cases h1 : s.Refused fd lsn
  · rw [if_pos h1] at hg
    cases hg
    exact Or.inl ⟨rfl, Or.inl rfl⟩
  · rw [if_neg h1] at hg
    by_cases h2 : (s.fcb fd).blksize ≤ 1
    · rw [if_pos h2] at hg
      cases hg
      exact Or.inl ⟨rfl, Or.inl rfl⟩
    · rw [if_neg h2] at hg
      by_cases h3 : s.Outside fd lsn
      · rw [if_pos h3] at hg
        cases hg
        exact Or.inl ⟨rfl, Or.inr rfl⟩
      · rw [if_neg h3] at hg
        cases hs : SList.search s.next (s.isClean fd lsn) fuel 0 (s.line (s.slot lsn)) with
        | none => rw [hs] at hg; cases hg
        | some o =>
          rw [hs] at hg
          cases o with
          | some x =>
            cases hg
            exact Or.inr ⟨h1, Or.inl ⟨_, _, rfl, rfl, rfl⟩⟩
          | none =>
            dsimp only at hg
            by_cases h4 : nc = 0
            · rw [if_pos h4] at hg
              cases hg
              exact Or.inl ⟨rfl, Or.inl rfl⟩
            · rw [if_neg h4] at hg
              refine Or.inr ⟨h1, Or.inr ⟨rfl, h4, ?_⟩⟩
              cases nb with
              | false => cases hg; exact Or.inl ⟨rfl, rfl, rfl⟩
              | true => cases hg; exact Or.inr ⟨rfl, rfl, rfl⟩

theorem Chains.search_clean {fuel : Nat} {o : Option (Nat × Nat)} (h : Chains s L)
    (hs : SList.search s.next (s.isClean fd lsn) fuel 0 (s.line (s.slot lsn)) = some o) :
    (o = none ∧ ∀ x ∈ L (s.slot lsn), ¬ ((s.node x).fd = fd ∧ (s.node x).lsn = lsn)) ∨
    ∃ A c B, L (s.slot lsn) = A ++ c :: B ∧ (s.node c).fd = fd ∧ (s.node c).lsn = lsn ∧
      o = some (A.getLast?.getD 0, c) := by
  rcases SList.search_cases (h.chain _ (h.slot_lt lsn)) hs with ⟨rfl, hall⟩ | ⟨A, c, B, he, -, hc, rfl⟩
  · refine Or.inl ⟨rfl, fun x hx e => ?_⟩
    have hx' := hall x hx
    rw [Cache.isClean_iff.mpr e] at hx'
    cases hx'
  · obtain ⟨e1, e2⟩ := Cache.isClean_iff.mp hc
    exact Or.inr ⟨A, c, B, he, e1, e2, rfl⟩

/-! ## runs -/

/-- a call; `nc`, `nb` and `cap` say what memory there is -/
inductive CacheOp where
  | get (fd lsn : Nat)
  | set (fd lsn : Nat) (blk : BlkData) (prio nc : Nat) (nb : Bool)
  | clear (fd lsn : Nat)
  | flush
  | free (fd needed cap : Nat)

/-- one call that returns; `malloc` does not hand out a block that is in use -/
inductive CacheStep : Cache → CacheOp → Cache → Prop
  | get {s s' : Cache} {fuel fd lsn : Nat} {r : Option BlkData}
      (h : cacheGetblock fuel s fd lsn = some (s', r)) : CacheStep s (.get fd lsn) s'
  | set {s s' : Cache} {fuel fd lsn prio nc : Nat} {blk : BlkData} {nb r : Bool} (hn : nc ∉ s.live)
      (h : cacheSetblock fuel s fd lsn blk prio nc nb = some (s', r)) :
      CacheStep s (.set fd lsn blk prio nc nb) s'
  | clear {s s' : Cache} {fuel fd lsn : Nat} {r : Bool}
      (h : cacheCleardirty fuel s fd lsn = some (s', r)) : CacheStep s (.clear fd lsn) s'
  | flush {s s' : Cache} {fuel : Nat} (h : cacheFlush fuel s = some s') : CacheStep s .flush s'
  | free {s s' : Cache} {fuel fd needed cap cnt : Nat}
      (h : cacheFreeblocks fuel s fd needed cap = some (s', cnt)) : CacheStep s (.free fd needed cap) s'

/-- the index of `cache_freeblocks` fits into the memory that there is -/
def IndexFits (s : Cache) (cap : Nat) : Prop :=
  512 ≤ cap ∧ ∀ j < s.cachelines, ∀ l, SList s.next (s.line j) l → 2 * (l.length + 1) ≤ cap

def CacheOp.Safe (s : Cache) : CacheOp → Prop
  | .get fd lsn => s.line (s.slot lsn) ≠ 0 → s.isBlock fd lsn (s.line (s.slot lsn)) = false
  | .set fd lsn _ _ nc nb =>
    (s.line (s.slot lsn) ≠ 0 → s.isClean fd lsn (s.line (s.slot lsn)) = false) ∧
    ((∃ x, Chained s.next (s.line (s.slot lsn)) x ∧ s.isBlock fd lsn x = true ∧
      s.isClean fd lsn x = false) → nc = 0 ∨ nb = false)
  | .free fd _ cap => IndexFits s cap ∨ ∀ x, s.Cached x → cacheFd (s.node x).fd ≠ fd
  | _ => True
/-- a block moved to the front of its chain, or nothing happened to the chains -/
structure Fronted (s s' : Cache) (L L' : Nat → List Nat) : Prop where
  chains : Chains s' L'
  lines : s'.cachelines = s.cachelines
  mem : ∀ j x, x ∈ L' j ↔ x ∈ L j
  /-- the first block of a device and sector is the same -/
  first : ∀ j f n, (L' j).find? (s.isBlock f n) = (L j).find? (s.isBlock f n)
  node : ∀ x, SameBlk s s' x
  live : s'.live = s.live
  fcb : s'.fcb = s.fcb
  /-- only requests to read may be sent -/
  sent : ∀ m ∈ s'.sent, m ∈ s.sent ∨ ∃ task device lsn bs pid k, m = .drvRead task device lsn bs pid k

theorem Fronted.refl (h : Chains s L) : Fronted s s L L :=
  ⟨h, rfl, fun _ _ => Iff.rfl, fun _ _ _ => rfl, fun _ => .refl, rfl, rfl, fun _ hm => Or.inl hm⟩

/-- the first block of a kind moves to the front: the first block of any kind stays the first -/
theorem find_fronted {q : Nat → Bool} (B : List Nat) (q' : Nat → Bool) (hA : ∀ x ∈ A, q x = false) (hc : q c = true)
    (hq : q' c = true → q' = q) : (c :: (A ++ B)).find? q' = (A ++ c :: B).find? q' := by
  by_cases h : q' c = true
  · obtain rfl := hq h
    rw [List.find?_cons_of_pos h, List.find?_append, List.find?_eq_none.mpr (fun x hx => by simp [hA x hx]),
      List.find?_cons_of_pos h]
    rfl
  · rw [List.find?_cons_of_neg h, List.find?_append, List.find?_append, List.find?_cons_of_neg h]

theorem Chains.get {fuel : Nat} {r : Option BlkData} (h : Chains s L)
    (hsafe : CacheOp.Safe s (.get fd lsn)) (hg : cacheGetblock fuel s fd lsn = some (s', r)) :
    ∃ L', Fronted s s' L L' := by
  rcases get_cases h hg with ⟨-, rfl, -⟩ | ⟨h0, ⟨-, rfl, -⟩ | ⟨-, ⟨A, c, B, he, hA, hc, rfl, -⟩ | ⟨-, -, rfl⟩⟩⟩
  · exact ⟨L, .refl h⟩
  · exact ⟨L, h.congr rfl rfl rfl rfl (fun _ _ _ _ => rfl) (fun _ hx => hx) h.once, rfl, fun _ _ => Iff.rfl,
      fun _ _ _ => rfl, fun _ => .refl, rfl, rfl, fun _ hm => Or.inl hm⟩
  · have hch := h.chain _ (h.slot_lt lsn)
    rcases List.eq_nil_or_concat A with rfl | ⟨A, l, rfl⟩
    · -- the block would be the first one
      rw [he, List.nil_append] at hch
      have hne : s.line (s.slot lsn) ≠ 0 := fun e => h0 (Or.inr e)
      have hs := hsafe hne
      rw [hch.head_eq, Cache.isBlock_iff.mpr hc] at hs
      cases hs
    · have e : (A.concat l).getLast?.getD 0 = l := by simp
      rw [List.concat_eq_append] at he hA
      have he' := he
      rw [List.append_assoc] at he
      rw [e]
      obtain ⟨r1, r2, r3, r4, r5, -⟩ := Cache.toFront_rest (s := s) (j := s.slot lsn) (l := l) (c := c)
      refine ⟨_, h.toFront (h.slot_lt lsn) he, r1, fun j x => ?_, fun j f n => ?_, fun x => Cache.toFront_node, r3,
        r4, fun m hm => Or.inl (r5 ▸ hm)⟩
      · rcases eq_or_ne j (s.slot lsn) with rfl | hj
        · rw [update_self, he]
          simp only [List.mem_cons, List.mem_append, List.singleton_append]
          tauto
        · rw [update_of_ne hj]
      · rcases eq_or_ne j (s.slot lsn) with rfl | hj
        · have hA' : ∀ x ∈ A ++ [l], s.isBlock fd lsn x = false := fun x hx => by
            rw [← Bool.not_eq_true]
            exact fun hb => hA x hx (Cache.isBlock_iff.mp hb)
          have hf := find_fronted B (s.isBlock f n) hA' (Cache.isBlock_iff.mpr hc) (fun hb => by
            have e := (Cache.isBlock_iff.mp hb).symm.trans hc
            cases e
            rfl)
          rw [update_self, he', ← hf, List.append_assoc, List.singleton_append]
        · rw [update_of_ne hj]
  · refine ⟨L, h.congr rfl rfl rfl rfl (fun _ _ _ _ => rfl) (fun _ hx => hx) h.once, rfl, fun _ _ => Iff.rfl,
      fun _ _ _ => rfl, fun _ => .refl, rfl, rfl, fun m hm => ?_⟩
    rcases List.mem_append.mp hm with hm | hm
    · exact Or.inl hm
    · exact Or.inr ⟨_, _, _, _, _, _, List.mem_singleton.mp hm⟩

theorem Fronted.holds (h : Holds s L) (hf : Fronted s s' L L') : Holds s' L' := by
  refine ⟨hf.chains, fun j hj x hx y hy e => ?_⟩
  rw [hf.lines] at hj
  rw [(hf.node x).key, (hf.node y).key] at e
  exact h.uniq j hj x ((hf.mem j x).mp hx) y ((hf.mem j y).mp hy) e

/-! ## storing a block -/

/-- a successful `cache_setblock`: `c` is a clean block of the device and sector that was not the first
of its chain, or a new block; it is the first one now and holds the data -/
structure Placed (s s' : Cache) (L L' : Nat → List Nat) (fd lsn : Nat) (blk : BlkData) (prio c : Nat) :
    Prop where
  front : ∃ R, L' = update L (s.slot lsn) (c :: R) ∧
    ((∃ A B, L (s.slot lsn) = A ++ c :: B ∧ R = A ++ B ∧ (s.node c).fd = fd ∧ (s.node c).lsn = lsn) ∨
      (R = L (s.slot lsn) ∧ (∀ j < s.cachelines, c ∉ L j) ∧
        ∀ x ∈ L (s.slot lsn), ¬ ((s.node x).fd = fd ∧ (s.node x).lsn = lsn)))
  packed : (s'.node c).fd = packPrio fd prio
  sector : (s'.node c).lsn = lsn
  data : ∀ i < (s.fcb fd).blksize, (s'.node c).blk i = blk i
  rest : ∀ x, x ≠ c → SameBlk s s' x
  file : fd < 2^60

namespace Placed
variable {prio : Nat} {blk : BlkData}

theorem mem (h : Placed s s' L L' fd lsn blk prio c) : c ∈ L' (s.slot lsn) := by
  obtain ⟨R, rfl, -⟩ := h.front
  rw [update_self]
  exact List.mem_cons_self ..

theorem mem_iff (h : Placed s s' L L' fd lsn blk prio c) (j x : Nat) :
    x ∈ L' j ↔ x ∈ L j ∨ (x = c ∧ j = s.slot lsn) := by
  obtain ⟨R, rfl, hR⟩ := h.front
  rcases eq_or_ne j (s.slot lsn) with rfl | hj
  · rw [update_self]
    rcases hR with ⟨A, B, he, rfl, -⟩ | ⟨rfl, -⟩
    · rw [he]
      simp only [List.mem_cons, List.mem_append]
      tauto
    · simp only [List.mem_cons]
      tauto
  · rw [update_of_ne hj]
    tauto

theorem key_self (h : Placed s s' L L' fd lsn blk prio c) : s'.key c = (fd, lsn) := by
  rw [Cache.key, h.packed, h.sector, cacheFd_packPrio h.file]

theorem key_old (h : Placed s s' L L' fd lsn blk prio c) (hj : j < s.cachelines) (hx : x ∈ L j) :
    s'.key x = s.key x := by
  rcases eq_or_ne x c with rfl | hxc
  · obtain ⟨R, -, ⟨A, B, -, -, h1, h2⟩ | ⟨-, hno, -⟩⟩ := h.front
    · rw [h.key_self, Cache.key, h1, h2, cacheFd_of_lt h.file]
    · exact absurd hx (hno j hj)
  · exact (h.rest x hxc).key

theorem dirty_ne (h : Placed s s' L L' fd lsn blk prio c) (hj : j < s.cachelines) (hx : x ∈ L j)
    (hd : cachePrio (s.node x).fd ≠ 0) : x ≠ c := by
  rintro rfl
  obtain ⟨R, -, ⟨A, B, -, -, h1, -⟩ | ⟨-, hno, -⟩⟩ := h.front
  · exact hd (by rw [h1]; exact Nat.div_eq_of_lt h.file)
  · exact hno j hj hx

end Placed

theorem Cache.Refused.lt_of_not (h : ¬ s.Refused fd lsn) : fd < s.nfcb := by
  by_contra hge
  exact h (Or.inr (Or.inl (by omega)))

theorem Chains.set_hit (prio : Nat) (blk : BlkData) (h : Chains s L) (hlt : fd < 2^60)
    (he : L (s.slot lsn) = A ++ l :: c :: B) (hfd : (s.node c).fd = fd) (hlsn : (s.node c).lsn = lsn) :
    ∃ L', Chains ((s.toFront (s.slot lsn) l c).fill c fd prio blk) L' ∧
      Placed s ((s.toFront (s.slot lsn) l c).fill c fd prio blk) L L' fd lsn blk prio c := by
  have hnode := fun x => Cache.toFront_node (s := s) (j := s.slot lsn) (l := l) (c := c) (x := x)
  have r4 := (Cache.toFront_rest (s := s) (j := s.slot lsn) (l := l) (c := c)).2.2.2.1
  refine ⟨_, (h.toFront (h.slot_lt lsn) he).fill fd prio blk, ?_⟩
  constructor
  · refine ⟨_, rfl, Or.inl ⟨A ++ [l], B, ?_, ?_, hfd, hlsn⟩⟩
    · rw [he, List.append_assoc, List.singleton_append]
    · rw [List.append_assoc, List.singleton_append]
  · simp [Cache.fill]
  · rw [Cache.fill_lsn, (hnode c).2.1, hlsn]
  · intro i hi
    simp [Cache.fill, r4, hi]
  · intro x hx
    rw [SameBlk, Cache.fill_node_of_ne hx]
    exact hnode x
  · exact hlt

theorem Chains.set_new {nc : Nat} (prio : Nat) (blk : BlkData) (h : Chains s L) (hlt : fd < 2^60) (h0 : nc ≠ 0)
    (hn : nc ∉ s.live) (hno : ∀ x ∈ L (s.slot lsn), ¬ ((s.node x).fd = fd ∧ (s.node x).lsn = lsn)) {t : Cache}
    (ht : t = { s with
      live := nc :: s.live
      node := update s.node nc ⟨fd, lsn, fun _ => 0, (s.node nc).next⟩ }) :
    ∃ L', Chains ((t.toFront (s.slot lsn) 0 nc).fill nc fd prio blk) L' ∧
      Placed s ((t.toFront (s.slot lsn) 0 nc).fill nc fd prio blk) L L' fd lsn blk prio nc := by
  have hout : ∀ i < s.cachelines, nc ∉ L i := fun i hi hx => hn (h.live i hi nc hx)
  have htn : ∀ x, x ≠ nc → t.node x = s.node x := by
    intro x hx
    rw [ht]
    exact update_of_ne hx ..
  have htc : t.node nc = ⟨fd, lsn, fun _ => 0, (s.node nc).next⟩ := by
    rw [ht]
    exact update_self ..
  have htnext : t.next = s.next := by
    funext x
    rcases eq_or_ne x nc with rfl | hx
    · rw [Cache.next, htc, Cache.next]
    · rw [Cache.next, htn x hx, Cache.next]
  have e1 : t.cachelines = s.cachelines := by rw [ht]
  have e4 : t.live = nc :: s.live := by rw [ht]
  have e5 : t.fcb = s.fcb := by rw [ht]
  have hlive : ∀ x ∈ s.live, x ∈ t.live := fun x hx => by rw [e4]; exact List.mem_cons_of_mem _ hx
  have honce : t.live.Nodup := by rw [e4]; exact List.nodup_cons.mpr ⟨hn, h.once⟩
  have ht' : Chains t L := by
    refine h.congr e1 (by rw [ht]) htnext (by rw [ht]) (fun j hj x hx => ?_) hlive honce
    rw [htn x (fun e => hout j hj (e ▸ hx))]
  have hp : Chains (t.toFront (s.slot lsn) 0 nc) (update L (s.slot lsn) (nc :: L (s.slot lsn))) := by
    refine ht'.push (by rw [e1]; exact h.slot_lt lsn) h0 (by rw [e1]; exact hout) ?_ ?_
    · rw [htc, e1]; rfl
    · rw [e4]; exact List.mem_cons_self ..
  have hnode := fun x => Cache.toFront_node (s := t) (j := s.slot lsn) (l := 0) (c := nc) (x := x)
  have r4 := (Cache.toFront_rest (s := t) (j := s.slot lsn) (l := 0) (c := nc)).2.2.2.1
  refine ⟨_, hp.fill fd prio blk, ?_⟩
  constructor
  · exact ⟨_, rfl, Or.inr ⟨rfl, hout, hno⟩⟩
  · simp [Cache.fill]
  · rw [Cache.fill_lsn, (hnode nc).2.1, htc]
  · intro i hi
    simp [Cache.fill, r4, e5, hi]
  · intro x hx
    rw [SameBlk, Cache.fill_node_of_ne hx, (hnode x).1, (hnode x).2.1, (hnode x).2.2, htn x hx]
    exact ⟨rfl, rfl, rfl⟩
  · exact hlt

theorem Chains.set {fuel prio nc : Nat} {nb r : Bool} {blk : BlkData} (h : Chains s L)
    (hsafe : s.line (s.slot lsn) ≠ 0 → s.isClean fd lsn (s.line (s.slot lsn)) = false) (hn : nc ∉ s.live)
    (hg : cacheSetblock fuel s fd lsn blk prio nc nb = some (s', r)) :
    s'.cachelines = s.cachelines ∧ s'.fcb = s.fcb ∧ s'.nfcb = s.nfcb ∧ s'.sent = s.sent ∧
      ((r = false ∧ Chains s' L ∧ s'.node = s.node) ∨
      (r = true ∧ ∃ L' c, Chains s' L' ∧ Placed s s' L L' fd lsn blk prio c ∧
        (c ∈ L (s.slot lsn) ∨ (nc ≠ 0 ∧ nb = true)))) := by
  rcases set_inv hg with ⟨rfl, rfl | rfl⟩ | ⟨v1, ⟨l, c, hs, rfl, rfl⟩ |
    ⟨hs, h0, ⟨-, rfl, rfl⟩ | ⟨rfl, rfl, rfl⟩⟩⟩
  · exact ⟨rfl, rfl, rfl, rfl, Or.inl ⟨rfl, h, rfl⟩⟩
  · exact ⟨rfl, rfl, rfl, rfl, Or.inl ⟨rfl, h.congr rfl rfl rfl rfl (fun _ _ _ _ => rfl) (fun _ hx => hx) h.once,
      rfl⟩⟩
  · have hch := h.chain _ (h.slot_lt lsn)
    have hlt : fd < 2^60 := lt_of_lt_of_le (Cache.Refused.lt_of_not v1) h.files
    obtain ⟨A, c, B, he, hfd, hlsn, e0⟩ := (h.search_clean hs).resolve_left (fun e => by cases e.1)
    cases e0
    rcases List.eq_nil_or_concat A with rfl | ⟨A, l, rfl⟩
    · -- the block would be the first one
      rw [he, List.nil_append] at hch
      have hs := hsafe (by rw [hch.head_eq]; exact hch.ne_zero (List.mem_cons_self ..))
      rw [hch.head_eq, Cache.isClean_iff.mpr ⟨hfd, hlsn⟩] at hs
      cases hs
    · have e : (A.concat l).getLast?.getD 0 = l := by simp
      have hc : c ∈ L (s.slot lsn) := by rw [he]; simp
      rw [List.concat_eq_append, List.append_assoc] at he
      rw [e]
      obtain ⟨L', h1, h2⟩ := h.set_hit prio blk hlt he hfd hlsn
      obtain ⟨r1, r2, r3, r4, r5, -⟩ := Cache.toFront_rest (s := s) (j := s.slot lsn) (l := l) (c := c)
      exact ⟨r1, r4, r2, r5, Or.inr ⟨rfl, L', c, h1, h2, Or.inl hc⟩⟩
  · exact ⟨rfl, rfl, rfl, rfl, Or.inl ⟨rfl, h.congr rfl rfl rfl rfl (fun _ _ _ _ => rfl)
      (fun _ hx => List.mem_cons_of_mem _ hx) (List.nodup_cons.mpr ⟨hn, h.once⟩), rfl⟩⟩
  · have hlt : fd < 2^60 := lt_of_lt_of_le (Cache.Refused.lt_of_not v1) h.files
    have hno : ∀ x ∈ L (s.slot lsn), ¬ ((s.node x).fd = fd ∧ (s.node x).lsn = lsn) := by
      rcases h.search_clean hs with ⟨-, hno⟩ | ⟨A, c, B, -, -, -, e⟩
      · exact hno
      · cases e
    obtain ⟨t, ht⟩ : ∃ t : Cache, t = { s with
      live := nc :: s.live
      node := update s.node nc ⟨fd, lsn, fun _ => 0, (s.node nc).next⟩ } := ⟨_, rfl⟩
    obtain ⟨L', h1, h2⟩ := h.set_new prio blk hlt h0 hn hno ht
    obtain ⟨r1, r2, r3, r4, r5, -⟩ := Cache.toFront_rest (s := t) (j := s.slot lsn) (l := 0) (c := nc)
    rw [← ht]
    exact ⟨r1.trans (by rw [ht]), r4.trans (by rw [ht]), r2.trans (by rw [ht]), r5.trans (by rw [ht]),
      Or.inr ⟨rfl, L', nc, h1, h2, Or.inr ⟨h0, rfl⟩⟩⟩

/-- no other block has the key: a dirty one is excluded, a clean one would have been found -/
theorem Placed.old {prio nc : Nat} {nb : Bool} {blk : BlkData} (h : Holds s L)
    (hp : Placed s s' L L' fd lsn blk prio c) (hc : c ∈ L (s.slot lsn) ∨ (nc ≠ 0 ∧ nb = true))
    (hsafe : CacheOp.Safe s (.set fd lsn blk prio nc nb)) (hj : j < s.cachelines) (hx : x ∈ L j)
    (hk : s.key x = (fd, lsn)) : x = c := by
  obtain rfl := h.key_slot hj hx hk
  obtain ⟨R, -, ⟨A, B, he, -, h1, h2⟩ | ⟨-, hout, hno⟩⟩ := hp.front
  · refine h.uniq _ hj x hx c (by rw [he]; simp) (hk.trans ?_)
    rw [Cache.key, h1, h2, cacheFd_of_lt hp.file]
  · have hnew := hc.resolve_left (hout _ hj)
    have hd := hsafe.2 ⟨x, (h.chain _ hj).mem_iff.mp hx, Cache.isBlock_iff.mpr hk, by
      rw [← Bool.not_eq_true]
      exact fun hb => hno x hx (Cache.isClean_iff.mp hb)⟩
    rcases hd with e | e
    · exact absurd e hnew.1
    · rw [hnew.2] at e
      cases e

theorem Holds.set {fuel prio nc : Nat} {nb r : Bool} {blk : BlkData} (h : Holds s L)
    (hsafe : CacheOp.Safe s (.set fd lsn blk prio nc nb)) (hn : nc ∉ s.live)
    (hg : cacheSetblock fuel s fd lsn blk prio nc nb = some (s', r)) :
    s'.cachelines = s.cachelines ∧ s'.fcb = s.fcb ∧
      ((r = false ∧ Holds s' L ∧ s'.node = s.node) ∨
      (r = true ∧ ∃ L' c, Holds s' L' ∧ Placed s s' L L' fd lsn blk prio c ∧
        ∀ j < s.cachelines, ∀ x ∈ L j, s.key x = (fd, lsn) → x = c)) := by
  obtain ⟨hl, hf, -, -, hr⟩ := h.toChains.set hsafe.1 hn hg
  refine ⟨hl, hf, ?_⟩
  rcases hr with ⟨rfl, hch, hnode⟩ | ⟨rfl, L', c, hch, hp, hc⟩
  · refine Or.inl ⟨rfl, ⟨hch, fun j hj x hx y hy e => ?_⟩, hnode⟩
    rw [hl] at hj
    rw [Cache.key, Cache.key, hnode] at e
    exact h.uniq j hj x hx y hy e
  · have hold : ∀ j < s.cachelines, ∀ x ∈ L j, s.key x = (fd, lsn) → x = c :=
      fun j hj x hx hk => hp.old h hc hsafe hj hx hk
    refine Or.inr ⟨rfl, L', c, ⟨hch, fun j hj x hx y hy e => ?_⟩, hp, hold⟩
    rw [hl] at hj
    rcases (hp.mem_iff j x).mp hx with hx | ⟨rfl, -⟩ <;> rcases (hp.mem_iff j y).mp hy with hy | ⟨rfl, -⟩
    · rw [hp.key_old hj hx, hp.key_old hj hy] at e
      exact h.uniq j hj x hx y hy e
    · rw [hp.key_old hj hx, hp.key_self] at e
      exact hold j hj x hx e
    · rw [hp.key_old hj hy, hp.key_self] at e
      exact (hold j hj y hy e.symm).symm
    · rfl

end

end OsZ
