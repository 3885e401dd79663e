import OsZ.Fs.Chains

/-!
# Freeing blocks of the cache

* `Frees fd s s' L L'`   blocks of the device `fd` were unlinked and freed, the others stay;
* `freeFrom_frees`       the loop over the index of one chain;
* `freeLines_frees`      the pass over all chains;
* `freeLines_fits`       which is completed when the index fits into the memory;
* `freeLines_none`, `failsafeLines_none`  a device that has no block in the cache.
-/

namespace OsZ
open Function (update update_of_ne update_self)

section
variable {s s' : Cache} {L L' : Nat → List Nat} {i j l c x y fd lsn : Nat} {A B : List Nat}

theorem Holds.cut (h : Holds s L) (hj : j < s.cachelines) (hc : c ∈ L j) (hB : ∀ x, x ∈ B → x ∈ L j ∧ x ≠ c)
    (hn : s'.nfcb = s.nfcb) (hl : s'.cachelines = s.cachelines)
    (hk : ∀ x, s'.key x = s.key x) (hlive : s'.live = s.live.erase c)
    (hchain : SList s'.next (s'.line j) B)
    (hrest : ∀ i < s.cachelines, i ≠ j → SList s'.next (s'.line i) (L i)) :
    Holds s' (update L j B) := by
  have hin : ∀ i < s.cachelines, ∀ x ∈ update L j B i, x ∈ L i ∧ x ≠ c := by
    intro i hi x hx
    rcases eq_or_ne i j with rfl | hij
    · rw [update_self] at hx
      exact hB x hx
    · rw [update_of_ne hij] at hx
      exact ⟨hx, fun e => hij (h.line_eq hi hj hx (e ▸ hc))⟩
  refine ⟨⟨?_, ?_, ?_, ?_, ?_, ?_⟩, ?_⟩
  · rw [hl]; exact h.pos
  · rw [hn]; exact h.files
  · intro i hi
    rw [hl] at hi
    rcases eq_or_ne i j with rfl | hij
    · rw [update_self]; exact hchain
    · rw [update_of_ne hij]; exact hrest i hi hij
  · intro i hi x hx
    rw [hl] at hi ⊢
    rw [show (s'.node x).lsn = (s.node x).lsn from (Prod.mk.inj (hk x)).2]
    exact h.slot i hi x (hin i hi x hx).1
  · intro i hi x hx
    rw [hl] at hi
    rw [hlive]
    exact (List.mem_erase_of_ne (hin i hi x hx).2).mpr (h.live i hi x (hin i hi x hx).1)
  · rw [hlive]
    exact h.once.erase c
  · intro i hi x hx y hy e
    rw [hl] at hi
    rw [hk, hk] at e
    exact h.uniq i hi x (hin i hi x hx).1 y (hin i hi y hy).1 e

/-- what freeing blocks of the device `fd` does -/
structure Frees (fd : Nat) (s s' : Cache) (L L' : Nat → List Nat) : Prop where
  holds : Holds s' L'
  lines : s'.cachelines = s.cachelines
  sub : ∀ j < s.cachelines, ∀ x ∈ L' j, x ∈ L j
  keep : ∀ j < s.cachelines, ∀ x ∈ L j, cacheFd (s.node x).fd ≠ fd → x ∈ L' j
  len : ∀ j < s.cachelines, (L' j).length ≤ (L j).length
  node : ∀ x, SameBlk s s' x
  /-- the blocks that are freed are those that left the chains -/
  gone : ∀ j < s.cachelines, ∀ x ∈ L j, x ∈ s'.live ↔ x ∈ L' j
  shrink : ∀ x, x ∈ s'.live → x ∈ s.live
  fcb : s'.fcb = s.fcb ∧ s'.nfcb = s.nfcb
  sent : s'.sent = s.sent

namespace Frees

theorem refl (h : Holds s L) : Frees fd s s L L :=
  ⟨h, rfl, fun _ _ _ hx => hx, fun _ _ _ hx _ => hx, fun _ _ => le_rfl, fun _ => .refl,
    fun j hj x hx => ⟨fun _ => hx, fun _ => h.live j hj x hx⟩, fun _ hx => hx, ⟨rfl, rfl⟩, rfl⟩

theorem trans {t : Cache} {M : Nat → List Nat} (h1 : Frees fd s s' L L') (h2 : Frees fd s' t L' M) :
    Frees fd s t L M := by
  have e := h1.lines
  constructor
  · exact h2.holds
  · exact h2.lines.trans h1.lines
  · exact fun j hj x hx => h1.sub j hj x (h2.sub j (by rw [e]; exact hj) x hx)
  · intro j hj x hx hne
    refine h2.keep j (by rw [e]; exact hj) x (h1.keep j hj x hx hne) ?_
    rw [(h1.node x).1]
    exact hne
  · exact fun j hj => (h2.len j (by rw [e]; exact hj)).trans (h1.len j hj)
  · intro x
    obtain ⟨a1, a2, a3⟩ := h1.node x
    obtain ⟨b1, b2, b3⟩ := h2.node x
    exact ⟨b1.trans a1, b2.trans a2, b3.trans a3⟩
  · intro j hj x hx
    constructor
    · intro ht
      have hx' := (h1.gone j hj x hx).mp (h2.shrink x ht)
      exact (h2.gone j (by rw [e]; exact hj) x hx').mp ht
    · intro hm
      exact h2.holds.live j (by rw [h2.lines, e]; exact hj) x hm
  · exact fun x hx => h1.shrink x (h2.shrink x hx)
  · exact ⟨h2.fcb.1.trans h1.fcb.1, h2.fcb.2.trans h1.fcb.2⟩
  · exact h2.sent.trans h1.sent

end Frees

theorem Frees.one (h : Holds s L) (hj : j < s.cachelines) (hc : c ∈ L j) (hfd : cacheFd (s.node c).fd = fd)
    (hB : ∀ x, x ∈ B ↔ x ∈ L j ∧ x ≠ c) (hlen : B.length ≤ (L j).length) (hn : s'.nfcb = s.nfcb)
      (hl : s'.cachelines = s.cachelines)
    (hnode : ∀ x, SameBlk s s' x) (hlive : s'.live = s.live.erase c) (hf : s'.fcb = s.fcb)
    (hs : s'.sent = s.sent) (hchain : SList s'.next (s'.line j) B)
    (hrest : ∀ i < s.cachelines, i ≠ j → SList s'.next (s'.line i) (L i)) :
    Frees fd s s' L (update L j B) := by
  constructor
  · exact h.cut hj hc (fun x hx => (hB x).mp hx) hn hl (fun x => (hnode x).key) hlive hchain hrest
  · exact hl
  · intro i _ x hx
    rcases eq_or_ne i j with rfl | hij
    · rw [update_self] at hx
      exact ((hB x).mp hx).1
    · rwa [update_of_ne hij] at hx
  · intro i hi x hx hne
    rcases eq_or_ne i j with rfl | hij
    · rw [update_self]
      exact (hB x).mpr ⟨hx, fun e => hne (e ▸ hfd)⟩
    · rwa [update_of_ne hij]
  · intro i _
    rcases eq_or_ne i j with rfl | hij
    · rw [update_self]; exact hlen
    · rw [update_of_ne hij]
  · exact hnode
  · intro i hi x hx
    rw [hlive]
    rcases eq_or_ne i j with rfl | hij
    · rw [update_self, hB, h.once.mem_erase_iff]
      exact ⟨fun hm => ⟨hx, hm.1⟩, fun hm => ⟨hm.2, h.live i hi x hx⟩⟩
    · rw [update_of_ne hij, h.once.mem_erase_iff]
      exact ⟨fun _ => hx, fun _ => ⟨fun e => hij (h.line_eq hi hj hx (e ▸ hc)), h.live i hi x hx⟩⟩
  · intro x hx
    rw [hlive] at hx
    exact List.mem_of_mem_erase hx
  · exact ⟨hf, hn⟩
  · exact hs

/-- the loop over the index: the blocks behind the current one are as they will be, those before it
as they were -/
theorem freeFrom_frees {r K : List Nat} (i cnt : Nat) (h : Holds s L) (hj : j < s.cachelines)
    (he : L j = r.take i ++ K) (hi : i ≤ r.length) :
    ∃ L', Frees fd s (freeFrom fd j r i (s, cnt)).1 L L' := by
  induction i generalizing s L K cnt with
  | zero => exact ⟨L, Frees.refl h⟩
  | succ i ih =>
    rw [freeFrom]
    have hlt : i < r.length := hi
    have hc : r.getD i 0 = r[i] := by simp [hlt]
    have htake : r.take (i + 1) = r.take i ++ [r.getD i 0] := by
      rw [hc, List.take_append_getElem hlt]
    obtain ⟨c, hce⟩ : ∃ c, c = r.getD i 0 := ⟨_, rfl⟩
    rw [htake, ← hce, List.append_assoc, List.singleton_append] at he
    have hch := h.chain j hj
    have hcin : c ∈ L j := by rw [he]; simp
    have hnd := hch.nodup
    rw [he] at hnd
    have hB : ∀ x, x ∈ r.take i ++ K ↔ x ∈ L j ∧ x ≠ c := by
      intro x
      rw [he]
      have h1 := (List.nodup_append.mp hnd).2.2
      have h2 := (List.nodup_cons.mp (List.nodup_append.mp hnd).2.1).1
      simp only [List.mem_append, List.mem_cons]
      constructor
      · rintro (hx | hx)
        · exact ⟨Or.inl hx, fun e => h1 x hx c (List.mem_cons_self ..) e⟩
        · exact ⟨Or.inr (Or.inr hx), fun e => h2 (e ▸ hx)⟩
      · rintro ⟨hx | hx | hx, hne⟩
        · exact Or.inl hx
        · exact absurd hx hne
        · exact Or.inr hx
    have hlen : (r.take i ++ K).length ≤ (L j).length := by rw [he]; simp
    dsimp only
    rw [← hce]
    split
    · exact ⟨L, Frees.refl h⟩
    · split
      · next hfd =>
        have hstep : Frees fd s ((if 0 < i then s.setNext (r.getD (i - 1) 0) (s.next c)
            else { s with line := update s.line j (s.next c) }).drop c) L
            (update L j (r.take i ++ K)) := by
          rcases Nat.eq_zero_or_pos i with rfl | hpos
          · rw [if_neg (by omega)]
            rw [List.take_zero, List.nil_append] at he hB hlen ⊢
            rw [he] at hch
            refine Frees.one h hj hcin hfd hB hlen rfl rfl (fun x => ⟨rfl, rfl, rfl⟩) rfl rfl rfl ?_ ?_
            · show SList s.next (update s.line j (s.next c) j) K
              rw [update_self]
              exact hch.2.2
            · intro i hi hij
              show SList s.next (update s.line j (s.next c) i) (L i)
              rw [update_of_ne hij]
              exact h.chain i hi
          · rw [if_pos hpos]
            have hlt' : i - 1 < r.length := by omega
            obtain ⟨a, hae⟩ : ∃ a, a = r.getD (i - 1) 0 := ⟨_, rfl⟩
            have htake' : r.take i = r.take (i - 1) ++ [a] := by
              have e1 : r.getD (i - 1) 0 = r[i - 1] := by simp [hlt']
              rw [hae, e1, List.take_append_getElem hlt', show i - 1 + 1 = i by omega]
            rw [← hae]
            have he' : L j = r.take (i - 1) ++ a :: c :: K := by
              rw [he, htake', List.append_assoc, List.singleton_append]
            have hain : a ∈ L j := by rw [he']; simp
            refine Frees.one h hj hcin hfd hB hlen rfl rfl
              (fun x => ⟨Cache.setNext_fd, Cache.setNext_lsn, Cache.setNext_blk⟩) rfl rfl rfl ?_ ?_
            · show SList (s.setNext a (s.next c)).next (s.line j) _
              rw [htake', List.append_assoc, List.singleton_append, Cache.setNext_next]
              rw [he'] at hch
              refine hch.removed (update_self ..) (fun y hy _ => update_of_ne hy ..)
            · intro i hi hij
              show SList (s.setNext a (s.next c)).next (s.line i) _
              rw [Cache.setNext_next]
              refine (h.chain i hi).frame (fun x hx => update_of_ne ?_ ..)
              rintro rfl
              exact hij (h.line_eq hi hj hx hain)
        obtain ⟨L', hL'⟩ := ih (cnt + 1) hstep.holds (by rw [hstep.lines]; exact hj)
          (by rw [update_self]) (by omega)
        exact ⟨L', hstep.trans hL'⟩
      · exact ih cnt h hj he (by omega)

theorem of_buildIndex {next : Nat → Nat} {cap n k k' : Nat} {r : List Nat}
    (h : buildIndex next cap n i k c = some (some (r, k'))) : SList next c r := by
  induction n generalizing i k c r with
  | zero =>
    rw [buildIndex] at h
    split at h
    · next h0 => cases h; exact h0
    · cases h
  | succ n ih =>
    rw [buildIndex] at h
    split at h
    · next h0 => cases h; exact h0
    · next h0 =>
      have hcons : ∀ o : Option (Option (List Nat × Nat)),
          o.map (Option.map (fun r => (c :: r.1, r.2))) = some (some (r, k')) →
          ∃ r', o = some (some (r', k')) ∧ r = c :: r' := by
        intro o ho
        obtain ⟨o', rfl, ho'⟩ := Option.map_eq_some_iff.mp ho
        obtain ⟨x, rfl, hx⟩ := Option.map_eq_some_iff.mp ho'
        cases hx
        exact ⟨_, rfl, rfl⟩
      split at h
      · obtain ⟨r', hr', rfl⟩ := hcons _ h
        exact ⟨rfl, h0, ih hr'⟩
      · split at h
        · obtain ⟨r', hr', rfl⟩ := hcons _ h
          exact ⟨rfl, h0, ih hr'⟩
        · cases h

theorem freeFrom_line {cap n k k' : Nat} {r : List Nat} (fd cnt : Nat) (h : Holds s L) (hj : j < s.cachelines)
    (hb : buildIndex s.next cap n 0 k (s.line j) = some (some (r, k'))) :
    ∃ L', Frees fd s (freeFrom fd j r r.length (s, cnt)).1 L L' := by
  have hr : r = L j := (of_buildIndex hb).unique (h.chain j hj)
  exact freeFrom_frees (K := []) r.length cnt h hj (by rw [List.take_length, hr, List.append_nil]) le_rfl

theorem freeLines_frees (fuel fd needed cap m k cnt : Nat) (h : Holds s L) (hm : m ≤ s.cachelines) {t : Cache} {n : Nat}
    (hd : freeLines fuel fd needed cap m k s cnt = .done t n) : ∃ L', Frees fd s t L L' := by
  induction m generalizing s L k cnt with
  | zero =>
    cases hd
    exact ⟨L, Frees.refl h⟩
  | succ m ih =>
    rw [freeLines] at hd
    split at hd
    · cases hb : buildIndex s.next cap fuel 0 k (s.line m) with
      | none =>
        rw [hb] at hd
        cases hd
      | some o =>
        rw [hb] at hd
        cases o with
        | none => cases hd
        | some x =>
          obtain ⟨r, k'⟩ := x
          obtain ⟨L1, h1⟩ := freeFrom_line fd cnt h hm hb
          obtain ⟨L2, h2⟩ := ih k' _ h1.holds (by rw [h1.lines]; omega) hd
          exact ⟨L2, h1.trans h2⟩
    · cases hd
      exact ⟨L, Frees.refl h⟩

theorem buildIndex_fits {next : Nat → Nat} {cap : Nat} (n k : Nat) {r : List Nat} (h : SList next c r)
    (hcap : 2 * (i + r.length + 1) ≤ cap) :
    buildIndex next cap n i k c ≠ some none ∧
      (r.length ≤ n → ∃ k', buildIndex next cap n i k c = some (some (r, k'))) := by
  induction r generalizing i k c n with
  | nil =>
    have h0 : c = 0 := h
    cases n <;> simp [buildIndex, h0]
  | cons x r ih =>
    obtain ⟨rfl, h0, h⟩ := h
    rw [List.length_cons] at hcap
    cases n with
    | zero =>
      rw [buildIndex, if_neg h0]
      exact ⟨by simp, fun hn => by simp at hn⟩
    | succ n =>
      have hmap : ∀ o : Option (Option (List Nat × Nat)), o ≠ some none →
          o.map (Option.map (fun r => (c :: r.1, r.2))) ≠ some none := by
        intro o ho e
        obtain ⟨o', rfl, ho'⟩ := Option.map_eq_some_iff.mp e
        rw [Option.map_eq_none_iff] at ho'
        exact ho (by rw [ho'])
      rw [buildIndex, if_neg h0]
      split
      · obtain ⟨h1, h2⟩ := ih (i := i + 1) n k h (by omega)
        refine ⟨hmap _ h1, fun hn => ?_⟩
        obtain ⟨k', hk'⟩ := h2 (by simpa using hn)
        exact ⟨k', by rw [hk']; rfl⟩
      · rw [if_pos (by omega)]
        obtain ⟨h1, h2⟩ := ih (i := i + 1) n (2 * k) h (by omega)
        refine ⟨hmap _ h1, fun hn => ?_⟩
        obtain ⟨k', hk'⟩ := h2 (by simpa using hn)
        exact ⟨k', by rw [hk']; rfl⟩

theorem freeLines_fits (fuel fd needed m k cnt : Nat) {cap : Nat} (h : Holds s L) (hm : m ≤ s.cachelines)
    (hcap : ∀ j < s.cachelines, 2 * ((L j).length + 1) ≤ cap) :
    (∀ t n, freeLines fuel fd needed cap m k s cnt ≠ .failsafe t n) ∧
    ((∀ j < s.cachelines, (L j).length ≤ fuel) → ∃ t n, freeLines fuel fd needed cap m k s cnt = .done t n) := by
  induction m generalizing s L k cnt with
  | zero => exact ⟨fun t n e => (by cases e), fun _ => ⟨s, cnt, rfl⟩⟩
  | succ m ih =>
    rw [freeLines]
    split
    · have hcap0 : 2 * (0 + (L m).length + 1) ≤ cap := by
        rw [Nat.zero_add]
        exact hcap m hm
      obtain ⟨b1, b2⟩ := buildIndex_fits fuel k (h.chain m hm) hcap0
      cases hb : buildIndex s.next cap fuel 0 k (s.line m) with
      | none =>
        refine ⟨fun t n e => (by cases e), fun hf => ?_⟩
        obtain ⟨k', hk'⟩ := b2 (hf m hm)
        rw [hb] at hk'
        cases hk'
      | some o =>
        cases o with
        | none => exact absurd hb b1
        | some x =>
          obtain ⟨r, k'⟩ := x
          obtain ⟨L1, h1⟩ := freeFrom_line fd cnt h hm hb
          obtain ⟨i1, i2⟩ := ih k' (freeFrom fd m r r.length (s, cnt)).2 h1.holds
            (by rw [h1.lines]; omega)
            (fun j hj => by
              rw [h1.lines] at hj
              have := hcap j hj
              have := h1.len j hj
              omega)
          refine ⟨i1, fun hf => i2 (fun j hj => ?_)⟩
          rw [h1.lines] at hj
          exact (h1.len j hj).trans (hf j hj)
    · exact ⟨fun t n e => (by cases e), fun _ => ⟨s, cnt, rfl⟩⟩

/-! ## freeing the blocks of a device that has none -/

theorem freeFrom_none {r : List Nat} (i cnt : Nat) (hi : i ≤ r.length)
    (hr : ∀ x ∈ r, cacheFd (s.node x).fd ≠ fd) : freeFrom fd j r i (s, cnt) = (s, cnt) := by
  induction i with
  | zero => rfl
  | succ i ih =>
    have hlt : i < r.length := hi
    have hc : r.getD i 0 = r[i] := by simp [hlt]
    rw [freeFrom]
    split
    · rfl
    · dsimp only
      rw [if_neg (by rw [hc]; exact hr _ (List.getElem_mem hlt))]
      exact ih (by omega)

/-- no block of the device `fd` is in a chain -/
def NoneOf (fd : Nat) (s : Cache) (L : Nat → List Nat) : Prop :=
  ∀ j < s.cachelines, ∀ x ∈ L j, cacheFd (s.node x).fd ≠ fd

theorem buildIndex_ends {next : Nat → Nat} {cap n k : Nat} {r : List Nat} (h : SList next c r)
    (hn : r.length ≤ n) : buildIndex next cap n i k c ≠ none := by
  induction r generalizing i k c n with
  | nil =>
    have h0 : c = 0 := h
    cases n <;> simp [buildIndex, h0]
  | cons x r ih =>
    obtain ⟨rfl, h0, h⟩ := h
    cases n with
    | zero => simp at hn
    | succ n =>
      have hn' : r.length ≤ n := by simpa using hn
      rw [buildIndex, if_neg h0]
      split
      · rw [ne_eq, Option.map_eq_none_iff]
        exact ih h hn'
      · split
        · rw [ne_eq, Option.map_eq_none_iff]
          exact ih h hn'
        · simp

theorem freeLines_none (fuel needed cap m k cnt : Nat) (h : Holds s L) (hm : m ≤ s.cachelines)
    (hno : NoneOf fd s L) : freeLines fuel fd needed cap m k s cnt = .done s cnt ∨
      freeLines fuel fd needed cap m k s cnt = .failsafe s cnt ∨
      (freeLines fuel fd needed cap m k s cnt = .hangs ∧ ∃ j < s.cachelines, fuel < (L j).length) := by
  induction m generalizing k with
  | zero => exact Or.inl rfl
  | succ m ih =>
    rw [freeLines]
    split
    · cases hb : buildIndex s.next cap fuel 0 k (s.line m) with
      | none =>
        refine Or.inr (Or.inr ⟨rfl, m, hm, ?_⟩)
        by_contra hle
        exact buildIndex_ends (h.chain m hm) (by omega) hb
      | some o =>
        cases o with
        | none => exact Or.inr (Or.inl rfl)
        | some x =>
          obtain ⟨r, k'⟩ := x
          have hr : r = L m := (of_buildIndex hb).unique (h.chain m hm)
          dsimp only
          rw [freeFrom_none r.length cnt le_rfl (by rw [hr]; exact hno m hm)]
          exact ih k' (by omega)
    · exact Or.inl rfl

theorem failsafeLine_none {r : List Nat} (n l cnt : Nat) (h : SList s.next c r)
    (hr : ∀ x ∈ r, cacheFd (s.node x).fd ≠ fd) :
    (∀ y, failsafeLine fd n l c (s, cnt) = some y → y = (s, cnt)) ∧
      (r.length ≤ n → failsafeLine fd n l c (s, cnt) = some (s, cnt)) := by
  induction r generalizing c l n with
  | nil =>
    have h0 : c = 0 := h
    cases n <;> simp [failsafeLine, h0]
  | cons x r ih =>
    obtain ⟨rfl, h0, h⟩ := h
    cases n with
    | zero =>
      rw [failsafeLine, if_neg h0]
      exact ⟨fun y e => (by cases e), fun hn => by simp at hn⟩
    | succ n =>
      rw [failsafeLine, if_neg h0, if_neg (hr c (List.mem_cons_self ..))]
      obtain ⟨h1, h2⟩ := ih n c h (fun y hy => hr y (List.mem_cons_of_mem _ hy))
      exact ⟨h1, fun hn => h2 (by simpa using hn)⟩

theorem failsafeLines_none (fuel needed m cnt : Nat) (h : Holds s L) (hm : m ≤ s.cachelines)
    (hno : NoneOf fd s L) : (∀ y, failsafeLines fuel fd needed m (s, cnt) = some y → y = (s, cnt)) ∧
      ((∀ j < s.cachelines, (L j).length ≤ fuel) →
        failsafeLines fuel fd needed m (s, cnt) = some (s, cnt)) := by
  induction m with
  | zero => exact ⟨fun y e => (by cases e; rfl), fun _ => rfl⟩
  | succ m ih =>
    obtain ⟨i1, i2⟩ := ih (by omega)
    obtain ⟨f1, f2⟩ := failsafeLine_none fuel (s.line m) cnt (h.chain m hm) (hno m hm)
    rw [failsafeLines]
    split
    · refine ⟨fun y e => ?_, fun hf => ?_⟩
      · cases hl : failsafeLine fd fuel (s.line m) (s.line m) (s, cnt) with
        | none =>
          dsimp only at e
          rw [hl] at e
          cases e
        | some y' =>
          obtain rfl := f1 y' hl
          dsimp only at e
          rw [hl] at e
          exact i1 y e
      · dsimp only
        rw [f2 (hf m hm)]
        exact i2 hf
    · exact ⟨fun y e => (by cases e; rfl), fun _ => rfl⟩

end

end OsZ
