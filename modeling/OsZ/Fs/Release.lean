import OsZ.Fs.Slots
import Mathlib.Algebra.BigOperators.Group.Finset.Basic
import Mathlib.Algebra.Order.BigOperators.Group.Finset

/-!
# Deleting file control blocks

`fcb_del` gives back one reference; the entry is deleted with its last one, and a union then gives
back the references to its members.  `fcb_free` deletes all entries that nothing refers to.

* `FileState.Live`, `liveSet`  the entries in use;
* `freePass_spec`      one round of `fcb_free`;
* `fcb_free_iff`       it ends with the right table if and only if `FreeEnds`;
* `released`           the references that are given back with a set of entries;
* `Walk`               an unfinished call of `fcb_del`: the entries begun and done, and what is pending;
* `fcb_del_iff`        the call is right if and only if the counts are not exceeded (`Enough`).
-/

namespace OsZ
open Function (update update_apply update_eq_self update_of_ne update_self)
variable {s t : FileState} {i j idx : Nat}

/-! ## entries in use -/

def FileState.Live (s : FileState) (i : Nat) : Prop := i < s.nfcb ∧ (s.fcb i).abspath.isSome = true

instance (s : FileState) (i : Nat) : Decidable (s.Live i) :=
  inferInstanceAs (Decidable (_ ∧ _))

def FileState.liveSet (s : FileState) : Finset Nat := (Finset.range s.nfcb).filter s.Live

theorem mem_liveSet : i ∈ s.liveSet ↔ s.Live i := by
  unfold FileState.liveSet
  rw [Finset.mem_filter, Finset.mem_range]
  exact ⟨fun h => h.2, fun h => ⟨h.1, h⟩⟩

theorem lt_lastUsed {p : Nat → Bool} {n : Nat} (hi : i < n) (hp : p i = true) : i < lastUsed p n := by
  induction n with
  | zero => omega
  | succ n ih =>
    unfold lastUsed
    split
    · exact hi
    · next hn =>
      apply ih
      rcases Nat.lt_succ_iff_lt_or_eq.mp hi with h | rfl
      · exact h
      · exact absurd hp hn

theorem lastUsed_used {p : Nat → Bool} {n m : Nat} (h : lastUsed p n = m + 1) : p m = true := by
  induction n with
  | zero => cases h
  | succ n ih =>
    unfold lastUsed at h
    split at h
    · next hn =>
      obtain rfl : n = m := by omega
      exact hn
    · exact ih h

theorem dropFcb_fcb (s : FileState) (idx i : Nat) :
    (s.dropFcb idx).fcb i = if i = idx then { s.fcb idx with abspath := none, unionlist := [] } else s.fcb i := by
  show update s.fcb idx _ i = _
  rw [update_apply]

theorem dropFcb_path (s : FileState) (idx i : Nat) :
    ((s.dropFcb idx).fcb i).abspath.isSome = true ↔ (s.fcb i).abspath.isSome = true ∧ i ≠ idx := by
  rw [dropFcb_fcb]
  split
  · next h => simp [h]
  · next h => simp [h]

theorem dropFcb_nfcb (s : FileState) (idx : Nat) :
    (s.dropFcb idx).nfcb = lastUsed (fun i => ((s.dropFcb idx).fcb i).abspath.isSome) s.nfcb := rfl

theorem live_dropFcb : (s.dropFcb idx).Live i ↔ s.Live i ∧ i ≠ idx := by
  unfold FileState.Live
  rw [dropFcb_path]
  constructor
  · rintro ⟨h, hp, hne⟩
    exact ⟨⟨h.trans_le (lastUsed_le _ _), hp⟩, hne⟩
  · rintro ⟨⟨h, hp⟩, hne⟩
    refine ⟨?_, hp, hne⟩
    rw [dropFcb_nfcb]
    exact lt_lastUsed h ((dropFcb_path s idx i).mpr ⟨hp, hne⟩)

theorem dropFcb_last {m : Nat} (h : (s.dropFcb idx).nfcb = m + 1) : (s.dropFcb idx).Live m :=
  ⟨by omega, lastUsed_used (p := fun i => ((s.dropFcb idx).fcb i).abspath.isSome) h⟩

theorem liveSet_dropFcb : (s.dropFcb idx).liveSet = s.liveSet.erase idx := by
  ext i
  rw [mem_liveSet, Finset.mem_erase, mem_liveSet, live_dropFcb]
  exact and_comm

theorem fcbDel_unused (n : Nat) (hl : s.Live i) (h0 : s.nopen i = 0) (hu : (s.fcb i).type ≠ .union) :
    fcbDel (n + 1) s i = some (s.dropFcb i) := by
  have hm : (s.fcb i).members = [] := if_neg hu
  have hsome : (s.fcb i).abspath ≠ none := Option.isSome_iff_ne_none.mp hl.2
  have hself : update s.nopen i (s.nopen i - 1) = s.nopen := by
    have h1 : s.nopen i - 1 = s.nopen i := by omega
    rw [h1, update_eq_self]
  unfold fcbDel
  rw [if_neg (by rintro (h | h); exacts [absurd hl.1 (by omega), hsome h])]
  dsimp only
  rw [hself, if_pos h0, hm]
  rfl

theorem fcbDel_empty (n : Nat) (h : ¬ s.Live i) : fcbDel (n + 1) s i = some s := by
  unfold fcbDel
  rw [if_pos]
  unfold FileState.Live at h
  rw [not_and_or, Bool.not_eq_true, Option.isSome_eq_false_iff, Option.isNone_iff_eq_none] at h
  exact h.imp Nat.le_of_not_lt id

/-- an entry loses one reference, and is deleted with the last one if it is no union -/
theorem fcbDel_lone (n : Nat) (hu : (s.fcb idx).type ≠ .union ∨ 2 ≤ s.nopen idx) : ∃ t,
    fcbDel (n + 1) s idx = some t ∧ (∀ i, t.Live i ↔ s.Live i ∧ (i = idx → 2 ≤ s.nopen idx)) ∧
    ∀ i, t.fcb i = if i = idx ∧ s.Live idx ∧ s.nopen idx < 2
      then { s.fcb idx with abspath := none, unionlist := [] } else s.fcb i := by
  by_cases hl : s.Live idx
  · have hsome : (s.fcb idx).abspath ≠ none := Option.isSome_iff_ne_none.mp hl.2
    unfold fcbDel
    rw [if_neg (by rintro (h | h); exacts [absurd hl.1 (by omega), hsome h])]
    dsimp only
    split
    · next h0 =>
      rw [update_self] at h0
      have hm : (s.fcb idx).members = [] := if_neg (hu.resolve_right (by omega))
      rw [hm]
      refine ⟨_, rfl, fun i => live_dropFcb.trans (and_congr Iff.rfl ?_), fun i => ?_⟩
      · exact ⟨fun hi h => absurd h hi, fun h hi => by have := h hi; omega⟩
      · rw [dropFcb_fcb]
        refine if_congr ⟨fun hi => ⟨hi, hl, by omega⟩, fun hi => hi.1⟩ rfl rfl
    · next h0 =>
      rw [update_self] at h0
      exact ⟨_, rfl, fun i => ⟨fun h => ⟨h, fun _ => by omega⟩, fun h => h.1⟩,
        fun i => (if_neg (fun hi => by omega)).symm⟩
  · refine ⟨s, fcbDel_empty n hl, fun i => ⟨fun h => ⟨h, fun hi => ?_⟩, fun h => h.1⟩,
      fun i => (if_neg (fun hi => hl hi.2.1)).symm⟩
    rw [hi] at h
    exact absurd h hl

/-! ## one round of `fcb_free` -/

def NoUnions (s : FileState) : Prop := ∀ i, s.Live i → (s.fcb i).type ≠ .union

/-- the table when the entries before `i` were visited -/
structure Swept (s : FileState) (i : Nat) (t : FileState) : Prop where
  nopen : t.nopen = s.nopen
  excl : t.excl = s.excl
  nfcb_le : t.nfcb ≤ s.nfcb
  live : ∀ j, t.Live j ↔ s.Live j ∧ ¬ (s.nopen j = 0 ∧ j < i)
  same : ∀ j, t.Live j → t.fcb j = s.fcb j ∧ t.filesize j = s.filesize j
  files : t.nfiles = t.liveSet.card
  idle : (∀ j < i, s.Live j → s.nopen j ≠ 0) → t = s
  cut : (∃ j < i, s.Live j ∧ s.nopen j = 0) → ∀ m, t.nfcb = m + 1 → t.Live m

theorem Swept.start (hf : s.nfiles = s.liveSet.card) : Swept s 0 s where
  nopen := rfl
  excl := rfl
  nfcb_le := le_rfl
  live j := by simp
  same _ _ := ⟨rfl, rfl⟩
  files := hf
  idle _ := rfl
  cut := by
    rintro ⟨j, hj, -⟩
    omega

theorem Swept.whole (h : Swept s i t) (hi : t.nfcb ≤ i) : Swept s s.nfcb t := by
  have hlate : ∀ j, s.Live j → s.nopen j = 0 → j < i := by
    intro j hl h0
    by_contra hc
    have hj := ((h.live j).mpr ⟨hl, fun hj => hc hj.2⟩).1
    omega
  refine ⟨h.nopen, h.excl, h.nfcb_le, fun j => ?_, h.same, h.files, fun hz => ?_, ?_⟩
  · rw [h.live]
    constructor
    · rintro ⟨hl, hn⟩
      exact ⟨hl, fun hj => hn ⟨hj.1, hlate j hl hj.1⟩⟩
    · rintro ⟨hl, hn⟩
      exact ⟨hl, fun hj => hn ⟨hj.1, hl.1⟩⟩
  · exact h.idle (fun j _ hl => hz j hl.1 hl)
  · rintro ⟨j, -, hl, h0⟩
    exact h.cut ⟨j, hlate j hl h0, hl, h0⟩

theorem Swept.skip (h : Swept s i t) (h0 : ¬ (s.Live i ∧ s.nopen i = 0)) : Swept s (i + 1) t := by
  have hne : ∀ j, s.Live j → s.nopen j = 0 → j < i + 1 → j < i := by
    intro j hl hj hlt
    rcases Nat.lt_succ_iff_lt_or_eq.mp hlt with h | rfl
    · exact h
    · exact absurd ⟨hl, hj⟩ h0
  refine ⟨h.nopen, h.excl, h.nfcb_le, fun j => ?_, h.same, h.files, fun hz => ?_, ?_⟩
  · rw [h.live]
    constructor
    · rintro ⟨hl, hn⟩
      exact ⟨hl, fun hj => hn ⟨hj.1, hne j hl hj.1 hj.2⟩⟩
    · rintro ⟨hl, hn⟩
      exact ⟨hl, fun hj => hn ⟨hj.1, hj.2.trans (Nat.lt_succ_self i)⟩⟩
  · exact h.idle (fun j hj => hz j (hj.trans (Nat.lt_succ_self i)))
  · rintro ⟨j, hj, hl, hz⟩
    exact h.cut ⟨j, hne j hl hz hj, hl, hz⟩

theorem Swept.drop (h : Swept s i t) (hl : t.Live i) (h0 : s.nopen i = 0) (hn : s.nfcb < 2^64) :
    Swept s (i + 1) (t.dropFcb i) := by
  have hsl : s.Live i := ((h.live i).mp hl).1
  refine ⟨h.nopen, h.excl, (lastUsed_le _ _).trans h.nfcb_le, fun j => ?_, fun j hj => ?_, ?_, fun hz => ?_,
    fun _ m hm => dropFcb_last hm⟩
  · rw [live_dropFcb, h.live]
    constructor
    · rintro ⟨⟨hjl, hz⟩, hne⟩
      exact ⟨hjl, fun hj => hz ⟨hj.1, by omega⟩⟩
    · rintro ⟨hjl, hz⟩
      refine ⟨⟨hjl, fun hj => hz ⟨hj.1, by omega⟩⟩, ?_⟩
      rintro rfl
      exact hz ⟨h0, Nat.lt_succ_self j⟩
  · obtain ⟨hj, hne⟩ := live_dropFcb.mp hj
    obtain ⟨hfcb, hsize⟩ := h.same j hj
    refine ⟨?_, ?_⟩
    · rw [dropFcb_fcb, if_neg hne, hfcb]
    · show update t.filesize i 0 j = _
      rw [update_of_ne hne, hsize]
  · have hpos : 0 < t.liveSet.card := Finset.card_pos.mpr ⟨i, mem_liveSet.mpr hl⟩
    have hle : t.liveSet.card ≤ s.liveSet.card := by
      apply Finset.card_le_card
      intro j hj
      exact mem_liveSet.mpr ((h.live j).mp (mem_liveSet.mp hj)).1
    have hcard : s.liveSet.card ≤ s.nfcb := by
      have hf := Finset.card_filter_le (Finset.range s.nfcb) s.Live
      rwa [Finset.card_range] at hf
    show sub64 t.nfiles 1 = _
    rw [liveSet_dropFcb, Finset.card_erase_of_mem (mem_liveSet.mpr hl), h.files,
      sub64_of_le (by omega) (by omega)]
  · exact absurd h0 (hz i (Nat.lt_succ_self i) hsl)

section
variable {fuel n : Nat} {was : Bool}

/-- `was` tells that an entry of the table had no references -/
theorem freePass_spec (fuel : Nat) (was : Bool) (hu : NoUnions s) (hn : s.nfcb < 2^64) (h : Swept s i t)
    (hi : s.nfcb ≤ i + n) :
    ∃ t' was', freePass (fuel + 1) n i t was = some (t', was') ∧ Swept s s.nfcb t' ∧
      (was' = true ↔ was = true ∨ ∃ j, i ≤ j ∧ j < t.nfcb ∧ s.nopen j = 0) := by
  have hdone : ∀ {i : Nat} {t : FileState} {was : Bool}, Swept s i t → t.nfcb ≤ i →
      Swept s s.nfcb t ∧ (was = true ↔ was = true ∨ ∃ j, i ≤ j ∧ j < t.nfcb ∧ s.nopen j = 0) := by
    intro i t was h hend
    refine ⟨h.whole hend, Or.inl, ?_⟩
    rintro (hw | ⟨j, hij, hj, -⟩)
    · exact hw
    · omega
  induction n generalizing i t was with
  | zero => exact ⟨t, was, rfl, hdone h (h.nfcb_le.trans hi)⟩
  | succ n ih =>
    rw [freePass]
    by_cases hend : t.nfcb ≤ i
    · rw [if_pos hend]
      exact ⟨t, was, rfl, hdone h hend⟩
    rw [if_neg hend, h.nopen]
    by_cases h0 : s.nopen i = 0
    · -- the entry is deleted, or it was empty
      rw [if_pos h0]
      have hexists : ∃ j, i ≤ j ∧ j < t.nfcb ∧ s.nopen j = 0 := ⟨i, le_rfl, by omega, h0⟩
      have hnext : ∃ t1, fcbDel (fuel + 1) t i = some t1 ∧ Swept s (i + 1) t1 := by
        by_cases hl : t.Live i
        · refine ⟨_, fcbDel_unused fuel hl (by rw [h.nopen, h0]) ?_, h.drop hl h0 hn⟩
          rw [(h.same i hl).1]
          exact hu i ((h.live i).mp hl).1
        · refine ⟨t, fcbDel_empty fuel hl, h.skip ?_⟩
          rintro ⟨hsl, -⟩
          exact hl ((h.live i).mpr ⟨hsl, fun hi => Nat.lt_irrefl i hi.2⟩)
      obtain ⟨t1, hdel, hsw⟩ := hnext
      rw [hdel, Option.bind_some]
      obtain ⟨t', was', hrun, hsw', hwas⟩ := ih true hsw (by omega)
      exact ⟨t', was', hrun, hsw', by simp [hwas, hexists]⟩
    · rw [if_neg h0]
      obtain ⟨t', was', hrun, hsw', hwas⟩ := ih was (h.skip (fun hl => h0 hl.2)) (by omega)
      refine ⟨t', was', hrun, hsw', ?_⟩
      rw [hwas]
      constructor
      · rintro (hw | ⟨j, hij, hj, hz⟩)
        · exact Or.inl hw
        · exact Or.inr ⟨j, by omega, hj, hz⟩
      · rintro (hw | ⟨j, hij, hj, hz⟩)
        · exact Or.inl hw
        · refine Or.inr ⟨j, ?_, hj, hz⟩
          rcases Nat.eq_or_lt_of_le hij with rfl | hlt
          · exact absurd hz h0
          · exact hlt

end

/-! ## `fcb_free` -/

/-- the entries without references are deleted, the others are as before, and `nfiles` counts them -/
structure UsedOnly (s t : FileState) : Prop where
  removed : ∀ i, s.Live i → s.nopen i = 0 → ¬ t.Live i
  kept : ∀ i, s.Live i → s.nopen i ≠ 0 →
    t.Live i ∧ t.fcb i = s.fcb i ∧ t.filesize i = s.filesize i ∧ t.nopen i = s.nopen i ∧ t.excl i = s.excl i
  files : t.nfiles = t.liveSet.card

theorem Swept.usedOnly (h : Swept s s.nfcb t) : UsedOnly s t where
  removed i hl h0 ht := ((h.live i).mp ht).2 ⟨h0, hl.1⟩
  kept i hl h0 := by
    have ht : t.Live i := (h.live i).mpr ⟨hl, fun hi => h0 hi.1⟩
    exact ⟨ht, (h.same i ht).1, (h.same i ht).2, by rw [h.nopen], by rw [h.excl]⟩
  files := h.files

/-- every slot with the count 0 is behind the last entry with references, and one of them is in use if
there are any -/
structure FreeEnds (s : FileState) : Prop where
  behind : ∀ i j, i < s.nfcb → s.nopen i = 0 → s.Live j → s.nopen j ≠ 0 → j < i
  used : (∃ i < s.nfcb, s.nopen i = 0) → ∃ i, s.Live i ∧ s.nopen i = 0

section
variable {fuel n : Nat}

/-- a slot that is not in use and has the count 0 is met in every round -/
theorem fcbFree_stuck (hu : NoUnions s) (hn : s.nfcb < 2^64) (hf : s.nfiles = s.liveSet.card)
    (hl : ∀ i, s.Live i → s.nopen i ≠ 0) (h0 : ∃ i < s.nfcb, s.nopen i = 0) : fcbFree (fuel + 1) n s = none := by
  induction n with
  | zero => rfl
  | succ n ih =>
    obtain ⟨t, was, hrun, hsw, hwas⟩ :=
      freePass_spec fuel false hu hn (Swept.start hf) (Nat.zero_add s.nfcb).ge
    obtain ⟨i, hi, hz⟩ := h0
    have hwas : was = true := hwas.mpr (Or.inr ⟨i, Nat.zero_le i, hi, hz⟩)
    have hts : t = s := hsw.idle (fun j _ hj => hl j hj)
    rw [fcbFree, hrun, Option.bind_some, hwas, if_pos rfl, hts]
    exact ih

theorem freePass_zero {was : Bool} {r : FileState × Bool} (h : freePass 0 n i s was = some r) (hi : s.nfcb ≤ i + n) :
    ∀ j, i ≤ j → j < s.nfcb → s.nopen j ≠ 0 := by
  induction n generalizing i was with
  | zero =>
    intro j hij hj
    omega
  | succ n ih =>
    rw [freePass] at h
    split at h
    · intro j hij hj
      omega
    · split at h
      · cases h
      · next h0 =>
        intro j hij hj
        rcases Nat.eq_or_lt_of_le hij with rfl | hlt
        · exact h0
        · exact ih h (by omega) j hlt hj

end

/-- `fcb_free` of a table without unions ends, deletes the entries without references and keeps the
others, if and only if no slot with the count 0 lies in front of an entry with references, and not all
of those slots are empty. -/
theorem fcb_free_iff (s : FileState) (hu : NoUnions s) (hn : s.nfcb < 2^64) (hf : s.nfiles = s.liveSet.card) :
    (∃ fuel n t, fcbFree fuel n s = some t ∧ UsedOnly s t) ↔ FreeEnds s := by
  have hnone : (∀ j < s.nfcb, s.nopen j ≠ 0) → FreeEnds s := by
    intro h
    refine ⟨fun i j hi h0 => absurd h0 (h i hi), ?_⟩
    rintro ⟨i, hi, h0⟩
    exact absurd h0 (h i hi)
  constructor
  · rintro ⟨fuel, n, t, hrun, -⟩
    cases n with
    | zero => cases hrun
    | succ n =>
      rw [fcbFree] at hrun
      cases fuel with
      | zero =>
        obtain ⟨r, hr, -⟩ := Option.bind_eq_some_iff.mp hrun
        exact hnone (fun j hj => freePass_zero hr (Nat.zero_add s.nfcb).ge j (Nat.zero_le j) hj)
      | succ fuel =>
        obtain ⟨u, was, hpass, hsw, hwas⟩ :=
          freePass_spec fuel false hu hn (Swept.start hf) (Nat.zero_add s.nfcb).ge
        rw [hpass, Option.bind_some] at hrun
        by_cases hzero : ∃ i < s.nfcb, s.nopen i = 0
        · -- the second round meets no slot with the count 0
          obtain ⟨i, hi, hz⟩ := hzero
          rw [if_pos (hwas.mpr (Or.inr ⟨i, Nat.zero_le i, hi, hz⟩))] at hrun
          have hused : ∀ j < u.nfcb, s.nopen j ≠ 0 := by
            intro j hj h0
            have hstuck : fcbFree (fuel + 1) n u = none := by
              refine fcbFree_stuck (fun k hk => ?_) (hsw.nfcb_le.trans_lt hn) hsw.files (fun k hk h0 => ?_)
                ⟨j, hj, by rw [hsw.nopen, h0]⟩
              · rw [(hsw.same k hk).1]
                exact hu k ((hsw.live k).mp hk).1
              · rw [hsw.nopen] at h0
                exact ((hsw.live k).mp hk).2 ⟨h0, ((hsw.live k).mp hk).1.1⟩
            rw [hstuck] at hrun
            cases hrun
          refine ⟨fun k j hk h0 hl hj => ?_, fun _ => ?_⟩
          · have hjl : u.Live j := (hsw.live j).mpr ⟨hl, fun h => hj h.1⟩
            by_contra hc
            have hju := hjl.1
            exact hused k (by omega) h0
          · by_contra hc
            push Not at hc
            rw [hsw.idle (fun j _ hl => hc j hl)] at hused
            exact hused i hi hz
        · push Not at hzero
          exact hnone hzero
  · intro hc
    obtain ⟨u, was, hpass, hsw, hwas⟩ :=
      freePass_spec 0 false hu hn (Swept.start hf) (Nat.zero_add s.nfcb).ge
    by_cases hzero : ∃ i < s.nfcb, s.nopen i = 0
    · obtain ⟨i, hl, hz⟩ := hc.used hzero
      have hwas : was = true := hwas.mpr (Or.inr ⟨i, Nat.zero_le i, hl.1, hz⟩)
      have hused : ∀ j < u.nfcb, u.nopen j ≠ 0 := by
        intro j hj h0
        rw [hsw.nopen] at h0
        obtain ⟨m, hm⟩ : ∃ m, u.nfcb = m + 1 := ⟨u.nfcb - 1, by omega⟩
        obtain ⟨hml, hmn⟩ := (hsw.live m).mp (hsw.cut ⟨i, hl.1, hl, hz⟩ m hm)
        have hlt := hc.behind j m (hj.trans_le hsw.nfcb_le) h0 hml (fun h => hmn ⟨h, hml.1⟩)
        omega
      have hu' : NoUnions u := by
        intro k hk
        rw [(hsw.same k hk).1]
        exact hu k ((hsw.live k).mp hk).1
      obtain ⟨t, was', hpass', hsw', hwas'⟩ := freePass_spec 0 false hu'
        (hsw.nfcb_le.trans_lt hn) (Swept.start hsw.files) (Nat.zero_add u.nfcb).ge
      have hfalse : was' = false := by
        by_contra h
        rw [Bool.not_eq_false] at h
        rcases hwas'.mp h with h | ⟨j, -, hj, h0⟩
        · cases h
        · exact hused j hj h0
      have htu : t = u := hsw'.idle (fun j hj _ => hused j hj)
      refine ⟨1, 2, u, ?_, hsw.usedOnly⟩
      rw [fcbFree, hpass, Option.bind_some, hwas, if_pos rfl, fcbFree, hpass', Option.bind_some, hfalse,
        if_neg Bool.false_ne_true, htu]
    · have hfalse : was = false := by
        by_contra h
        rw [Bool.not_eq_false] at h
        rcases hwas.mp h with h | ⟨j, -, hj, h0⟩
        · cases h
        · exact hzero ⟨j, hj, h0⟩
      refine ⟨1, 1, u, ?_, hsw.usedOnly⟩
      rw [fcbFree, hpass, Option.bind_some, hfalse, if_neg Bool.false_ne_true]

/-- a table by its slots: whether it is in use, the count, and the members of a union -/
def fcbTable (l : List (Bool × Nat × List Nat)) : FileState where
  toVfsState := { demoFiles.toVfsState with
    nfcb := l.length
    fcb := fun i =>
      let f := l.getD i (false, 0, [])
      { demoFiles.fcb 0 with
        abspath := if f.1 then some "/" else none
        type := if f.2.2 = [] then .regDir else .union
        unionlist := f.2.2 } }
  nopen := fun i => (l.getD i (false, 0, [])).2.1
  excl := fun _ => false
  nfiles := l.countP (·.1)
  tableAt := fun _ => 0

theorem fcb_free_iff_table : ∃ fuel n t, fcbFree fuel n (fcbTable [(true, 1, []), (true, 0, [])]) = some t ∧
    UsedOnly (fcbTable [(true, 1, []), (true, 0, [])]) t := by
  refine (fcb_free_iff _ (fun i hl => ?_) (by decide) (by decide)).mpr ⟨fun i j hi h0 hl hj => ?_, fun _ => ?_⟩
  · have hi : i < 2 := hl.1
    interval_cases i <;> decide
  · change i < 2 at hi
    have hj2 : j < 2 := hl.1
    interval_cases i <;> interval_cases j <;> revert h0 hj <;> decide
  · exact ⟨1, by decide, by decide⟩

/-- an empty slot in front of an open file -/
theorem fcbFree_hangs : (fcbTable [(false, 0, []), (true, 1, [])]).Live 1 ∧
    ∀ fuel n, fcbFree fuel n (fcbTable [(false, 0, []), (true, 1, [])]) = none := by
  refine ⟨by decide, fun fuel n => ?_⟩
  cases fuel with
  | zero => cases n <;> rfl
  | succ fuel =>
    refine fcbFree_stuck (fun i hl => ?_) (by decide) (by decide) (fun i hl => ?_) ⟨0, by decide, by decide⟩
    · have hi : i < 2 := hl.1
      interval_cases i <;> decide
    · have hi : i < 2 := hl.1
      interval_cases i <;> revert hl <;> decide

/-! ## references that are given back -/

/-- the reference of the caller, and those of the deleted entries `F` to their members -/
def released (s : FileState) (idx : Nat) (F : Finset Nat) (e : Nat) : Nat :=
  (if e = idx then 1 else 0) + ∑ u ∈ F, ((s.fcb u).members.filter (· ≠ u)).count e

theorem released_mono (s : FileState) (idx : Nat) {F F' : Finset Nat} (h : F ⊆ F')
    (e : Nat) : released s idx F e ≤ released s idx F' e :=
  Nat.add_le_add_left (Finset.sum_le_sum_of_subset h) _

theorem released_insert {F : Finset Nat} {u : Nat} (h : u ∉ F) (e : Nat) :
    released s idx (insert u F) e = ((s.fcb u).members.filter (· ≠ u)).count e + released s idx F e := by
  unfold released
  rw [Finset.sum_insert h]
  omega

/-- wherever the tables are, the call returns, takes the released references from the counts, and deletes the
entries whose last reference was released -/
def DelOk (s : FileState) (idx : Nat) : Prop :=
  ∀ a, ∃ fuel t, fcbDel fuel { s with tableAt := a } idx = some t ∧ ∀ e, s.Live e →
    (t.nopen e : Int) = s.nopen e - released s idx (s.liveSet \ t.liveSet) e ∧
    (¬ t.Live e ↔ 0 < released s idx (s.liveSet \ t.liveSet) e ∧ t.nopen e = 0)

/-- the set has every entry whose references it releases, and releases no reference that is not counted -/
def Covers (s : FileState) (idx : Nat) (F : Finset Nat) : Prop := ∀ e, s.Live e →
  released s idx F e ≤ s.nopen e ∧ (0 < released s idx F e → released s idx F e = s.nopen e → e ∈ F)

/-- the table is not cut before `idx` is deleted: no other entry is, or the last slot is in use and stays so -/
def Uncut (s : FileState) (idx : Nat) (F : Finset Nat) : Prop :=
  (∀ e ∈ F, s.Live e → e = idx) ∨ ∀ m, s.nfcb = m + 1 → s.Live m ∧ (m ∈ F → m = idx)

def Enough (s : FileState) (idx : Nat) : Prop := ∃ F, Covers s idx F ∧ Uncut s idx F

/-- the state inside a call: the entries `A` have lost their last reference, of which `D` are deleted,
`x` counts the references taken and `W` are those still to be taken -/
structure Walk (s : FileState) (idx : Nat) (F : Finset Nat) (t : FileState) (A D : Finset Nat) (x : Nat → Nat)
    (W : List Nat) : Prop where
  done : D ⊆ A
  sub : A ⊆ F
  begun : ∀ e ∈ A, s.Live e ∧ t.nopen e = 0 ∧ s.nopen e ≠ 0
  live : ∀ e, t.Live e ↔ s.Live e ∧ e ∉ D
  same : ∀ e, e ∉ D → t.fcb e = s.fcb e
  count : ∀ e, s.Live e → t.nopen e + x e = s.nopen e
  pending : ∀ e, x e + W.count e = released s idx A e
  zero : ∀ e, s.Live e → t.nopen e = 0 → s.nopen e ≠ 0 → e ∈ A
  place : t.tableAt = s.tableAt
  size : Uncut s idx F → idx ∉ D → t.nfcb = s.nfcb

section
variable {F A D : Finset Nat} {x : Nat → Nat} {W : List Nat} {e : Nat}

theorem taken_count (x : Nat → Nat) (e : Nat) (W : List Nat) (i : Nat) :
    update x e (x e + 1) i + W.count i = x i + (e :: W).count i := by
  rw [update_apply, List.count_cons]
  by_cases hie : i = e
  · subst hie
    rw [if_pos rfl, if_pos (beq_self_eq_true i)]
    omega
  · rw [if_neg hie, if_neg (by rw [beq_iff_eq]; exact Ne.symm hie), Nat.add_zero]

namespace Walk

theorem start (s : FileState) (idx : Nat) (F : Finset Nat) : Walk s idx F s ∅ ∅ (fun _ => 0) [idx] where
  done := Finset.Subset.refl _
  sub := Finset.empty_subset F
  begun e he := absurd he (Finset.notMem_empty e)
  live e := ⟨fun h => ⟨h, Finset.notMem_empty e⟩, fun h => h.1⟩
  same _ _ := rfl
  count _ _ := Nat.add_zero _
  pending e := by
    have hc := taken_count (fun _ => 0) idx [] e
    unfold released
    rw [Finset.sum_empty, ← hc, update_apply]
    rfl
  zero e _ h0 hne := absurd h0 hne
  place := rfl
  size _ _ := rfl

theorem skip (h : Walk s idx F t A D x (e :: W)) (hl : ¬ s.Live e) :
    Walk s idx F t A D (update x e (x e + 1)) W where
  done := h.done
  sub := h.sub
  begun := h.begun
  live := h.live
  same := h.same
  count i hi := by
    have hne : i ≠ e := by
      rintro rfl
      exact hl hi
    rw [update_of_ne hne]
    exact h.count i hi
  pending i := by rw [taken_count, h.pending]
  zero := h.zero
  place := h.place
  size := h.size

theorem counted (h : Walk s idx F t A D x (e :: W)) (hF : released s idx F e ≤ s.nopen e) (hl : s.Live e) :
    e ∉ A ∧ 1 ≤ t.nopen e ∧ x e + 1 + W.count e = released s idx A e ∧ released s idx A e ≤ s.nopen e := by
  have hp := h.pending e
  rw [List.count_cons_self] at hp
  have hle := (released_mono s idx h.sub e).trans hF
  have hc := h.count e hl
  refine ⟨fun he => ?_, by omega, by omega, hle⟩
  have h0 := (h.begun e he).2.1
  omega

theorem count_down (h : Walk s idx F t A D x (e :: W)) (h1 : 1 ≤ t.nopen e) (i : Nat) (hi : s.Live i) :
    update t.nopen e (t.nopen e - 1) i + update x e (x e + 1) i = s.nopen i := by
  have hc := h.count i hi
  rw [update_apply, update_apply]
  by_cases hie : i = e
  · subst hie
    rw [if_pos rfl, if_pos rfl]
    omega
  · rw [if_neg hie, if_neg hie, hc]

theorem take (h : Walk s idx F t A D x (e :: W)) (hF : released s idx F e ≤ s.nopen e) (hl : s.Live e)
    (hne : t.nopen e - 1 ≠ 0) :
    Walk s idx F { t with nopen := update t.nopen e (t.nopen e - 1) } A D
      (update x e (x e + 1)) W := by
  obtain ⟨heA, h1, -, -⟩ := h.counted hF hl
  refine ⟨h.done, h.sub, fun i hi => ?_, h.live, h.same, h.count_down h1, fun i => ?_, fun i hi h0 hs => ?_,
    h.place, h.size⟩
  · have hie : i ≠ e := fun hie => heA (hie ▸ hi)
    show _ ∧ update t.nopen e _ i = 0 ∧ _
    rw [update_of_ne hie]
    exact h.begun i hi
  · rw [taken_count, h.pending]
  · change update t.nopen e _ i = 0 at h0
    by_cases hie : i = e
    · subst hie
      rw [update_self] at h0
      exact absurd h0 hne
    · rw [update_of_ne hie] at h0
      exact h.zero i hi h0 hs

theorem take_last (h : Walk s idx F t A D x (e :: W))
    (hF : released s idx F e ≤ s.nopen e ∧ (0 < released s idx F e → released s idx F e = s.nopen e → e ∈ F))
    (hl : s.Live e) (h0 : t.nopen e - 1 = 0) :
    Walk s idx F { t with nopen := update t.nopen e (t.nopen e - 1) } (insert e A) D
      (update x e (x e + 1)) ((s.fcb e).members.filter (· ≠ e) ++ W) := by
  obtain ⟨heA, h1, hx, hle⟩ := h.counted hF.1 hl
  have hc := h.count e hl
  have hmono := released_mono s idx h.sub e
  have heF : e ∈ F := hF.2 (by omega) (by omega)
  refine ⟨h.done.trans (Finset.subset_insert e A), Finset.insert_subset heF h.sub, fun i hi => ?_, h.live, h.same,
    h.count_down h1, fun i => ?_, fun i hi hz hs => ?_, h.place, h.size⟩
  · show _ ∧ update t.nopen e _ i = 0 ∧ _
    rcases Finset.mem_insert.mp hi with rfl | hi
    · rw [update_self]
      exact ⟨hl, h0, by omega⟩
    · have hie : i ≠ e := fun hie => heA (hie ▸ hi)
      rw [update_of_ne hie]
      exact h.begun i hi
  · rw [released_insert heA, List.count_append, ← h.pending i, ← taken_count]
    omega
  · change update t.nopen e _ i = 0 at hz
    by_cases hie : i = e
    · exact Finset.mem_insert.mpr (Or.inl hie)
    · rw [update_of_ne hie] at hz
      exact Finset.mem_insert_of_mem (h.zero i hi hz hs)

theorem finish (h : Walk s idx F t A D x W) (he : e ∈ A) : Walk s idx F (t.dropFcb e) A (insert e D) x W := by
  refine ⟨Finset.insert_subset he h.done, h.sub, h.begun, fun i => ?_, fun i hi => ?_, h.count, h.pending, h.zero,
    h.place, fun hk hi => ?_⟩
  · rw [live_dropFcb, h.live, Finset.mem_insert]
    tauto
  · rw [Finset.mem_insert, not_or] at hi
    rw [dropFcb_fcb, if_neg hi.1]
    exact h.same i hi.2
  · rw [Finset.mem_insert, not_or] at hi
    have hsize := h.size hk hi.2
    rcases hk with hk | hk
    · exact absurd (hk e (h.sub he) (h.begun e he).1).symm hi.1
    · -- the last slot is in use
      rw [← hsize]
      refine Nat.le_antisymm (lastUsed_le _ _) (show t.nfcb ≤ (t.dropFcb e).nfcb from ?_)
      match hn : t.nfcb with
      | 0 => exact Nat.zero_le _
      | m + 1 =>
        obtain ⟨hl, hm⟩ := hk m (hsize.symm.trans hn)
        have hmF : m ∉ F ∨ m = idx := by
          by_cases hc : m ∈ F
          · exact .inr (hm hc)
          · exact .inl hc
        have hlive : (t.dropFcb e).Live m := by
          refine live_dropFcb.mpr ⟨(h.live m).mpr ⟨hl, fun hd => ?_⟩, fun hme => ?_⟩
          · rcases hmF with hc | rfl
            · exact hc (h.sub (h.done hd))
            · exact hi.2 hd
          · rcases hmF with hc | rfl
            · exact hc (hme ▸ h.sub he)
            · exact hi.1 hme
        exact hlive.1

end Walk

/-- every call inside takes one reference, and all entries that it begins are deleted -/
theorem fcbDel_walk {n : Nat} (hF : Covers s idx F) (hk : Uncut s idx F)
    (h : Walk s idx F t A D x (e :: W)) (hn : F.card < A.card + n) (hidx : idx ∉ D ∧ (idx ∈ A ∨ e = idx)) :
    ∃ t' A' D' x', fcbDel n t e = some t' ∧ Walk s idx F t' A' D' x' W ∧ A ⊆ A' ∧ A' \ D' = A \ D := by
  induction n generalizing t A D x e W with
  | zero =>
    have hc := Finset.card_le_card h.sub
    omega
  | succ n ih =>
    by_cases hl : s.Live e
    swap
    · have hlt : ¬ t.Live e := fun ht => hl ((h.live e).mp ht).1
      exact ⟨t, A, D, _, fcbDel_empty n hlt, h.skip hl, Finset.Subset.refl A, rfl⟩
    obtain ⟨heA, h1, -, -⟩ := h.counted (hF e hl).1 hl
    have heD : e ∉ D := fun hd => heA (h.done hd)
    have hlt : t.Live e := (h.live e).mpr ⟨hl, heD⟩
    have hpath : (t.fcb e).abspath ≠ none := Option.isSome_iff_ne_none.mp hlt.2
    rw [fcbDel, if_neg (by rintro (hc | hc); exacts [absurd hlt.1 (by omega), hpath hc])]
    have hself : update t.nopen e (t.nopen e - 1) e = t.nopen e - 1 := update_self ..
    by_cases h0 : t.nopen e - 1 = 0
    swap
    · rw [if_neg (show ¬ update t.nopen e (t.nopen e - 1) e = 0 by rwa [hself])]
      exact ⟨_, A, D, _, rfl, h.take (hF e hl).1 hl h0, Finset.Subset.refl A, rfl⟩
    rw [if_pos (show update t.nopen e (t.nopen e - 1) e = 0 by rwa [hself]), h.same e heD]
    have hlast := h.take_last (hF e hl) hl h0
    -- the members are released one after the other
    have hfold : ∀ (ms : List Nat) (u : FileState) (B E : Finset Nat) (y : Nat → Nat),
        Walk s idx F u B E y (ms.filter (· ≠ e) ++ W) → insert e A ⊆ B → idx ∈ B \ E →
        ∃ t' A' D' x', ms.foldlM (fun u m => if e ≠ m then (fcbDel n u m).filter t.pinned else some u) u = some t' ∧
          Walk s idx F t' A' D' x' W ∧ B ⊆ A' ∧ A' \ D' = B \ E := by
      intro ms
      induction ms with
      | nil =>
        intro u B E y hw _ _
        exact ⟨u, B, E, y, rfl, hw, Finset.Subset.refl B, rfl⟩
      | cons m ms ihm =>
        intro u B E y hw hB hi
        rw [List.foldlM_cons]
        by_cases hm : m = e
        · rw [List.filter_cons_of_neg (by simp [hm])] at hw
          rw [if_neg (by simp [hm])]
          exact ihm u B E y hw hB hi
        · rw [List.filter_cons_of_pos (by simp [hm]), List.cons_append] at hw
          have hcard : F.card < B.card + n := by
            have hins := Finset.card_insert_of_notMem heA
            have hle := Finset.card_le_card hB
            omega
          obtain ⟨hiB, hiE⟩ := Finset.mem_sdiff.mp hi
          obtain ⟨u1, B1, E1, y1, hdel, hw1, hB1, hE1⟩ := ih hw hcard ⟨hiE, .inl hiB⟩
          have hi1 : idx ∈ B1 \ E1 := hE1 ▸ hi
          -- `idx` is still in use, so the table was not cut
          have hpin : t.pinned u1 = true := by
            unfold FileState.pinned
            rw [hw1.place, h.place, hw1.size hk (Finset.mem_sdiff.mp hi1).2, h.size hk hidx.1, beq_self_eq_true]
          rw [if_pos (Ne.symm hm), hdel, Option.filter_some, if_pos hpin]
          obtain ⟨t', A', D', x', hrun, hw', hA', hD'⟩ := ihm u1 B1 E1 y1 hw1 (hB.trans hB1) hi1
          exact ⟨t', A', D', x', hrun, hw', hB1.trans hA', hD'.trans hE1⟩
    have hbegun : idx ∈ insert e A \ D := by
      refine Finset.mem_sdiff.mpr ⟨?_, hidx.1⟩
      rcases hidx.2 with hi | rfl
      · exact Finset.mem_insert_of_mem hi
      · exact Finset.mem_insert_self e A
    obtain ⟨t', A', D', x', hrun, hw, hA, hD⟩ := hfold _ _ _ _ _ hlast (Finset.Subset.refl _) hbegun
    have he' : e ∈ A' := hA (Finset.mem_insert_self e A)
    refine ⟨_, A', insert e D', x', by rw [hrun]; rfl, hw.finish he', (Finset.subset_insert e A).trans hA, ?_⟩
    have hne : e ∉ A \ D := fun hd => heA (Finset.mem_sdiff.mp hd).1
    rw [Finset.sdiff_insert, hD, Finset.insert_sdiff_of_notMem _ heD, Finset.erase_insert hne]

end

/-- a call that deletes anything cuts the table behind the last entry -/
theorem fcbDel_cut {n : Nat} (h : fcbDel n s idx = some t) :
    (t.liveSet = s.liveSet ∧ t.nfcb = s.nfcb) ∨ ∀ m, t.nfcb = m + 1 → t.Live m := by
  cases n with
  | zero => cases h
  | succ n =>
    unfold fcbDel at h
    split at h
    · cases h
      exact .inl ⟨rfl, rfl⟩
    · dsimp only at h
      split at h
      · obtain ⟨u, -, rfl⟩ := Option.map_eq_some_iff.mp h
        exact .inr fun m => dropFcb_last
      · cases h
        exact .inl ⟨rfl, rfl⟩

theorem fcbDel_place {n : Nat} (h : fcbDel n s idx = some t) : t.tableAt = s.tableAt := by
  induction n generalizing s t idx with
  | zero => cases h
  | succ n ih =>
    unfold fcbDel at h
    split at h
    · cases h
      rfl
    · dsimp only at h
      split at h
      · obtain ⟨u, hu, rfl⟩ := Option.map_eq_some_iff.mp h
        have h0 : ({ s with nopen := update s.nopen idx (s.nopen idx - 1) } : FileState).tableAt = s.tableAt := rfl
        show u.tableAt = s.tableAt
        refine foldlM_keeps (I := fun u : FileState => u.tableAt = s.tableAt) (fun u hu m _ u' hu' => ?_) h0 hu
        split at hu'
        · exact (ih (Option.filter_eq_some_iff.mp hu').1).trans hu
        · cases hu'
          exact hu
      · cases h
        rfl

/-- if every table has another place, a call that returns did not cut the table before its own entry was deleted -/
theorem fcbDel_uncut {n : Nat} (hid : s.tableAt = id) (h : fcbDel n s idx = some t) :
    Uncut s idx (s.liveSet \ t.liveSet) := by
  have hnone : t.liveSet = s.liveSet → Uncut s idx (s.liveSet \ t.liveSet) := by
    intro hl
    rw [hl, Finset.sdiff_self]
    exact .inl fun e he => absurd he (Finset.notMem_empty e)
  cases n with
  | zero => cases h
  | succ n =>
    unfold fcbDel at h
    split at h
    · cases h
      exact hnone rfl
    · dsimp only at h
      split at h
      swap
      · cases h
        exact hnone rfl
      obtain ⟨u, hu, rfl⟩ := Option.map_eq_some_iff.mp h
      -- before the entry itself is deleted, the table has its size
      have hmid : (u.tableAt = id ∧ u.nfcb = s.nfcb) ∧ (u.liveSet = s.liveSet ∨ ∀ m, u.nfcb = m + 1 → u.Live m) := by
        let I (u : FileState) := (u.tableAt = id ∧ u.nfcb = s.nfcb) ∧
          (u.liveSet = s.liveSet ∨ ∀ m, u.nfcb = m + 1 → u.Live m)
        have h0 : I { s with nopen := update s.nopen idx (s.nopen idx - 1) } := ⟨⟨hid, rfl⟩, .inl rfl⟩
        refine foldlM_keeps (I := I) (fun u hu m _ u' hu' => ?_) h0 hu
        split at hu'
        · obtain ⟨hdel, hpin⟩ := Option.filter_eq_some_iff.mp hu'
          have hplace := (fcbDel_place hdel).trans hu.1.1
          unfold FileState.pinned at hpin
          rw [beq_iff_eq, hplace, hid] at hpin
          refine ⟨⟨hplace, hpin⟩, ?_⟩
          rcases fcbDel_cut hdel with ⟨hl, hn⟩ | hlast
          · rcases hu.2 with h0 | h0
            · exact .inl (hl.trans h0)
            · refine .inr fun m hm => ?_
              have := mem_liveSet.mpr (h0 m (hn.symm.trans hm))
              rw [← hl] at this
              exact mem_liveSet.mp this
          · exact .inr hlast
        · cases hu'
          exact hu
      rw [liveSet_dropFcb]
      rcases hmid.2 with hl | hlast
      · refine .inl fun e he hle => ?_
        obtain ⟨-, hn⟩ := Finset.mem_sdiff.mp he
        by_contra hne
        exact hn (Finset.mem_erase.mpr ⟨hne, hl ▸ mem_liveSet.mpr hle⟩)
      · refine .inr fun m hm => ?_
        have hul := hlast m (hmid.1.2.trans hm)
        have hd : Drops s u := members_drops (fun _ _ _ => fcbDel_drops) hu
        refine ⟨⟨by omega, ?_⟩, fun hm' => ?_⟩
        · rcases hd.path m with he | he
          · rw [← he]
            exact hul.2
          · have := hul.2
            rw [he] at this
            cases this
        · by_contra hne
          exact (Finset.mem_sdiff.mp hm').2 (Finset.mem_erase.mpr ⟨hne, mem_liveSet.mpr hul⟩)

/-- `fcb_del` ends, takes every released reference from its count and deletes the entries that lost
their last one, if and only if the counts cover the references that are released and the table is not
cut inside of the call. -/
theorem fcb_del_iff (s : FileState) (idx : Nat) : DelOk s idx ↔ Enough s idx := by
  constructor
  · intro h
    obtain ⟨fuel, t, hrun, h⟩ := h id
    refine ⟨s.liveSet \ t.liveSet, fun e hl => ?_, fcbDel_uncut (s := { s with tableAt := id }) rfl hrun⟩
    obtain ⟨hcount, hfree⟩ := h e hl
    refine ⟨by omega, fun hpos heq => ?_⟩
    rw [Finset.mem_sdiff, mem_liveSet, mem_liveSet]
    exact ⟨hl, hfree.mpr ⟨hpos, by omega⟩⟩
  · rintro ⟨F, hF, hk⟩ a
    obtain ⟨t, A, D, x, hrun, hw, -, hAD⟩ :=
      fcbDel_walk (s := { s with tableAt := a }) hF hk (Walk.start _ idx F)
        (show F.card < (∅ : Finset Nat).card + (F.card + 1) by
          rw [Finset.card_empty]
          omega) ⟨Finset.notMem_empty idx, .inr rfl⟩
    have hDA : D = A := by
      apply Finset.Subset.antisymm hw.done
      rw [← Finset.sdiff_eq_empty_iff_subset, hAD]
      rfl
    subst hDA
    have hfreed : s.liveSet \ t.liveSet = D := by
      ext e
      rw [Finset.mem_sdiff, mem_liveSet, mem_liveSet, hw.live]
      constructor
      · rintro ⟨hl, hn⟩
        by_contra hc
        exact hn ⟨hl, hc⟩
      · intro he
        exact ⟨(hw.begun e he).1, fun h => h.2 he⟩
    refine ⟨F.card + 1, t, hrun, fun e hl => ?_⟩
    have hx : x e = released s idx D e := hw.pending e
    have hc : t.nopen e + x e = s.nopen e := hw.count e hl
    rw [hfreed, hw.live]
    refine ⟨by omega, ?_, ?_⟩
    · intro h
      have he : e ∈ D := by
        by_contra hc
        exact h ⟨hl, hc⟩
      have hz : t.nopen e = 0 ∧ s.nopen e ≠ 0 := (hw.begun e he).2
      exact ⟨by omega, hz.1⟩
    · rintro ⟨hpos, h0⟩ h
      exact h.2 (hw.zero e hl h0 (show s.nopen e ≠ 0 by omega))

/-- a call that is still busy with the only member of a union -/
theorem fcbDel_waits {n m : Nat} (hl : s.Live idx) (h0 : s.nopen idx ≤ 1) (hm : (s.fcb idx).members = [m])
    (hne : idx ≠ m)
    (h : fcbDel n { s with nopen := update s.nopen idx (s.nopen idx - 1) } m = none) :
    fcbDel (n + 1) s idx = none := by
  have hpath : (s.fcb idx).abspath ≠ none := Option.isSome_iff_ne_none.mp hl.2
  have hzero : update s.nopen idx (s.nopen idx - 1) idx = 0 := by
    rw [update_self]
    omega
  rw [fcbDel, if_neg (by rintro (hc | hc); exacts [absurd hl.1 (by omega), hpath hc]), if_pos hzero, hm,
    List.foldlM_cons, if_pos hne, h]
  rfl

/-- two unions that are members of each other -/
def crossed : FileState := fcbTable [(true, 1, []), (true, 1, [2]), (true, 1, [1])]

/-- with one reference each, which is not that of the other union, none of the calls ends -/
theorem fcbDel_crossed : crossed.Live 1 ∧ ∀ fuel, fcbDel fuel crossed 1 = none := by
  have hall : ∀ fuel (u : FileState), u.fcb = crossed.fcb → u.nfcb = 3 → u.nopen 1 ≤ 1 → u.nopen 2 ≤ 1 →
      fcbDel fuel u 1 = none ∧ fcbDel fuel u 2 = none := by
    intro fuel
    induction fuel with
    | zero => exact fun _ _ _ _ _ => ⟨rfl, rfl⟩
    | succ n ih =>
      intro u hf hn h1 h2
      have hlive : ∀ i, i = 1 ∨ i = 2 → u.Live i := by
        rintro i (rfl | rfl)
        · exact ⟨by omega, by rw [hf]; decide⟩
        · exact ⟨by omega, by rw [hf]; decide⟩
      have hdown : ∀ i j, u.nopen j ≤ 1 → update u.nopen i (u.nopen i - 1) j ≤ 1 := by
        intro i j hj
        rw [update_apply]
        split
        · next h =>
          rw [← h]
          omega
        · exact hj
      refine ⟨fcbDel_waits (m := 2) (hlive 1 (Or.inl rfl)) h1 (by rw [hf]; decide) (by decide) ?_,
        fcbDel_waits (m := 1) (hlive 2 (Or.inr rfl)) h2 (by rw [hf]; decide) (by decide) ?_⟩
      · exact (ih { u with nopen := update u.nopen 1 (u.nopen 1 - 1) } hf hn (hdown 1 1 h1) (hdown 1 2 h2)).2
      · exact (ih { u with nopen := update u.nopen 2 (u.nopen 2 - 1) } hf hn (hdown 2 1 h1) (hdown 2 2 h2)).1
  exact ⟨by decide, fun fuel => (hall fuel crossed rfl rfl (by decide) (by decide)).1⟩

end OsZ
