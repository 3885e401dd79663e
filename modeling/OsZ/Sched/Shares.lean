import OsZ.Base.Radix
import OsZ.Sched.Queues

/-!
# Shares of the levels

With static queues the cursors of the levels 0 to 6 are a counter in a mixed radix: the digit of a
level is the number of its tasks from the cursor to the end of the queue, and `sched_pick` counts
down.

* `digit s Q i`, `pos n d i`  the digit of a level, and the place in the queue of its next task;
* `scan_borrow`               one pass over the levels is `Radix.borrow`;
* `found_digit`               the task at the cursor is picked, the digit is one less;
* `Picks`, `schedPick_picks`  what one call does;
* `PickRun`                   calls between which the queues stay as they are;
* `sched_shares`              how often, and in which order, the tasks are picked;
* `sched_serves`              the processor idles only when no task can run.
-/

namespace OsZ
open Function (update update_eq_self update_of_ne update_self)
open Radix

def count (Q : QName → List Nat) (i : Nat) : Nat := (Q (.active i)).length

def digit (s : Core) (Q : QName → List Nat) (i : Nat) : Nat :=
  if s.ccb.crActive i = 0 then 0 else count Q i - (Q (.active i)).idxOf (s.ccb.crActive i)

def pos (n d : Nat → Nat) (i : Nat) : Nat := if d i = 0 then 0 else n i - d i

/-- the levels that are picked before `PRI_IDLE` -/
def levels : List Nat := [0, 1, 2, 3, 4, 5, 6]

section
variable {s s' : Core} {tasks : List Nat} {Q : QName → List Nat} {i p : Nat}
  {allowed : Core → Nat → Event → Bool}

theorem digit_le (s : Core) (Q : QName → List Nat) (i : Nat) : digit s Q i ≤ count Q i := by
  unfold digit
  split_ifs
  · exact Nat.zero_le _
  · exact Nat.sub_le _ _

theorem digit_setCursor (s : Core) (Q : QName → List Nat) (i p : Nat) :
    digit (s.setCursor i p) Q = update (digit s Q) i
      (if p = 0 then 0 else count Q i - (Q (.active i)).idxOf p) := by
  funext j
  unfold digit
  show (if update s.ccb.crActive i p j = 0 then 0 else _ -
    (Q (.active j)).idxOf (update s.ccb.crActive i p j)) = _
  by_cases hj : j = i
  · subst hj
    rw [update_self, update_self]
  · rw [update_of_ne hj, update_of_ne hj]

theorem digit_cursor_ne (h : Queues s tasks Q) (hc : s.ccb.crActive i ≠ 0) :
    digit s Q i = count Q i - (Q (.active i)).idxOf (s.ccb.crActive i) ∧
      (Q (.active i)).idxOf (s.ccb.crActive i) < count Q i := by
  have hm := (h.cursor i).resolve_left hc
  exact ⟨if_neg hc, List.idxOf_lt_length_of_mem hm⟩

theorem digit_eq_zero (h : Queues s tasks Q) : digit s Q i = 0 ↔ s.ccb.crActive i = 0 := by
  constructor
  · intro h0
    by_contra hc
    obtain ⟨h1, h2⟩ := digit_cursor_ne h hc
    omega
  · exact fun hc => if_pos hc

/-! ## one pass -/

theorem scan_borrow (h : Queues s tasks Q) (l : List Nat) (b : Bool) :
    (pickScan s l b).2.2 = (borrow (count Q) l (digit s Q)).2 ∧
      digit (pickScan s l b).1 Q = (borrow (count Q) l (digit s Q)).1 := by
  induction l generalizing s b with
  | nil => exact ⟨rfl, rfl⟩
  | cons i l ih =>
    unfold pickScan borrow
    by_cases h1 : s.ccb.hdActive i = 0
    · -- an empty level is a place with the digit 0 only
      have hQ : Q (.active i) = [] := (h.list (.active i)).eq_nil_iff.mp h1
      have hn : count Q i = 0 := by
        unfold count
        rw [hQ]
        rfl
      have hd : digit s Q i = 0 := Nat.le_zero.mp (hn ▸ digit_le s Q i)
      have hup : update (digit s Q) i (count Q i) = digit s Q := by
        rw [hn, ← hd, update_eq_self]
      rw [if_pos h1, if_pos hd, hup]
      exact ih h b
    · rw [if_neg h1]
      by_cases h2 : s.ccb.crActive i = 0
      · have hhd : s.ccb.hdActive i ∈ Q (.active i) := (h.list (.active i)).head_mem h1
        have hidx : (Q (.active i)).idxOf (s.ccb.hdActive i) = 0 := by
          have hh : s.ccb.hdActive i = (Q (.active i)).headD 0 := (h.list (.active i)).head
          rw [hh]
          cases hQ : Q (.active i) with
          | nil =>
            rw [hQ] at hhd
            cases hhd
          | cons x q => exact List.idxOf_cons_self
        rw [if_pos h2, if_pos ((digit_eq_zero h).mpr h2)]
        have := ih (h.setCursor (i := i) (h.head_mem (.active i))) true
        rw [digit_setCursor] at this
        show _ ∧ _
        rw [show s.ccb.head (.active i) = s.ccb.hdActive i from rfl, if_neg h1, hidx,
          Nat.sub_zero] at this
        exact this
      · rw [if_neg h2, if_neg (fun e => h2 ((digit_eq_zero h).mp e))]
        exact ⟨rfl, rfl⟩

theorem digit_congr (h : s'.ccb.crActive = s.ccb.crActive) : digit s' Q = digit s Q := by
  funext j
  unfold digit
  rw [h]

theorem found_digit (h : Queues s tasks Q) (hc : s.ccb.crActive i ≠ 0) :
    digit (pickFound s i).1 Q = update (digit s Q) i (digit s Q i - 1) ∧
      (Q (.active i))[pos (count Q) (digit s Q) i]? = some (s.ccb.crActive i) := by
  have hm := (h.cursor i).resolve_left hc
  obtain ⟨hd, hk⟩ := digit_cursor_ne h hc
  obtain ⟨k, hke⟩ : ∃ k, k = (Q (.active i)).idxOf (s.ccb.crActive i) := ⟨_, rfl⟩
  rw [← hke] at hd hk
  have hget : (Q (.active i))[k]? = some (s.ccb.crActive i) := by
    rw [hke]
    exact List.getElem?_idxOf hm
  refine ⟨?_, ?_⟩
  · obtain ⟨m, he, -⟩ := Queues.pickFound_eq (h.isTask hm).isPid
    rw [he]
    refine (digit_congr (s := s.setCursor i (s.tcbs (s.ccb.crActive i)).next) rfl).trans ?_
    rw [digit_setCursor]
    congr 1
    have hnext := (h.list (.active i)).next_get hget
    rw [hnext, hd]
    by_cases hlt : k + 1 < count Q i
    · have hl : k + 1 < (Q (.active i)).length := hlt
      rw [List.getElem?_eq_getElem hl, Option.getD_some,
        if_neg ((h.list (.active i)).ne_zero (List.getElem_mem hl)),
        (h.list (.active i)).nodup.idxOf_getElem]
      omega
    · rw [List.getElem?_eq_none (by unfold count at hlt; omega), Option.getD_none, if_pos rfl]
      omega
  · unfold pos
    rw [if_neg (by omega), hd, show count Q i - (count Q i - k) = k by omega]
    exact hget

/-! ## one call -/

/-- `s'` is the state after a task has been picked; `w` is the counter before -/
structure Picks (s s' : Core) (Q : QName → List Nat) (w i : Nat) : Prop where
  level : i ∈ levels
  low : low (count Q) levels w = some (i, count Q i - pos (count Q) (digit s Q) i)
  task : (Q (.active i))[pos (count Q) (digit s Q) i]? = some (s'.win .tmpmap)
  val : val (count Q) (digit s' Q) levels + 1 = w
  next : pos (count Q) (digit s' Q) i = (pos (count Q) (digit s Q) i + 1) % count Q i
  others : ∀ j ≠ i, pos (count Q) (digit s' Q) j = pos (count Q) (digit s Q) j

theorem pos_borrow (n d : Nat → Nat) (l : List Nat) (j : Nat) :
    pos n (borrow n l d).1 j = pos n d j := by
  unfold pos
  obtain h | ⟨h1, h2⟩ := borrow_digit n l d j
  · rw [h]
  · rw [h1, h2, if_pos rfl]
    split_ifs
    · rfl
    · exact Nat.sub_self _

theorem pass_picks (h : Queues s tasks Q) {b : Bool} (hs : (pickScan s levels b).2.2 = some i) :
    Picks s (pickFound (pickScan s levels b).1 i).1 Q (val (count Q) (digit s Q) levels) i := by
  obtain ⟨h1, h2⟩ := scan_borrow h levels b
  have hu := h.scan levels b
  have hc := Queues.scan_some hs
  obtain ⟨hi, hd, hB, hlow, hval⟩ := borrow_some (l := levels) (by decide)
    (fun j _ => digit_le s Q j) (h1 ▸ hs)
  obtain ⟨hf, ht⟩ := found_digit hu hc
  rw [h2, hB] at hf
  rw [h2, pos_borrow] at ht
  have hle := digit_le s Q i
  have hpos : pos (count Q) (digit s Q) i = count Q i - digit s Q i := if_neg hd
  refine ⟨hi, ?_, ?_, ?_, ?_, fun j hj => ?_⟩
  · rw [hlow, hpos, show count Q i - (count Q i - digit s Q i) = digit s Q i by omega]
  · obtain ⟨m, he, -⟩ := Queues.pickFound_eq (hu.isTask ((hu.cursor i).resolve_left hc)).isPid
    rw [ht, he]
    simp [Core.setCursor, Core.kmap]
  · rw [hf]
    exact hval
  · -- after the last task of the level comes the first one
    rw [hf, hpos]
    unfold pos
    rw [update_self]
    by_cases hlast : digit s Q i = 1
    · rw [if_pos (by omega), hlast, show count Q i - 1 + 1 = count Q i by omega, Nat.mod_self]
    · rw [if_neg (by omega), Nat.mod_eq_of_lt (by omega)]
      omega
  · rw [hf]
    unfold pos
    rw [update_of_ne hj]
    exact pos_borrow (count Q) (digit s Q) levels j

theorem pickScan_nonempty {l : List Nat} {b : Bool} (hi : i ∈ l) (hh : s.ccb.hdActive i ≠ 0)
    (hn : (pickScan s l b).2.2 = none) : (pickScan s l b).2.1 = true := by
  -- `nonempty` is never reset
  have hstay : ∀ (l : List Nat) (s : Core), (pickScan s l true).2.1 = true := by
    intro l
    induction l with
    | nil => exact fun _ => rfl
    | cons j l ih =>
      intro s
      unfold pickScan
      split_ifs
      · exact ih s
      · exact ih _
      · rfl
  induction l generalizing b with
  | nil => cases hi
  | cons j l ih =>
    unfold pickScan at hn ⊢
    by_cases h1 : s.ccb.hdActive j = 0
    · rw [if_pos h1] at hn ⊢
      refine ih ((List.mem_cons.mp hi).resolve_left (fun e => hh ?_)) hn
      rw [e]
      exact h1
    · rw [if_neg h1] at hn ⊢
      by_cases h2 : s.ccb.crActive j = 0
      · rw [if_pos h2]
        exact hstay l _
      · rw [if_neg h2] at hn
        cases hn

theorem schedPick_picks (h : Queues s tasks Q) (hne : ∃ i ∈ levels, Q (.active i) ≠ []) {r : Nat}
    (hp : schedPick allowed s = some (s', r)) :
    Queues s' tasks Q ∧ r = (s'.tcbs (s'.win .tmpmap)).memroot ∧
    ∃ i, Picks s s' Q (if val (count Q) (digit s Q) levels = 0 then size (count Q) levels - 1
      else val (count Q) (digit s Q) levels) i := by
  -- what holds of a pass that ends at `found:`
  have hfound : ∀ u : Core, Queues u tasks Q → ∀ b i, (pickScan u levels b).2.2 = some i →
      pickFound (pickScan u levels b).1 i = (s', r) → Queues s' tasks Q ∧
        r = (s'.tcbs (s'.win .tmpmap)).memroot ∧
        Picks u s' Q (val (count Q) (digit u Q) levels) i := by
    intro u hu b i hs he
    have hv := hu.scan levels b
    have hc := Queues.scan_some hs
    obtain ⟨m, hm, -⟩ := Queues.pickFound_eq (hv.isTask ((hv.cursor i).resolve_left hc)).isPid
    have hP := pass_picks hu hs
    have hq := hv.found hc
    rw [he] at hP hq hm
    refine ⟨hq, ?_, hP⟩
    obtain ⟨h1, h2⟩ := Prod.mk.inj hm
    rw [h1, h2]
    simp [Core.setCursor, Core.kmap]
  unfold schedPick pickAgain at hp
  obtain ⟨hb1, hb2⟩ := scan_borrow h levels false
  have hscan := h.scan levels false
  cases hs : (pickScan s levels false).2.2 with
  | some i =>
    have he : pickFound (pickScan s levels false).1 i = (s', r) := by
      have hx : pickScan s [0, 1, 2, 3, 4, 5, 6] false =
        ((pickScan s levels false).1, (pickScan s levels false).2.1, some i) := by rw [← hs]; rfl
      rw [hx] at hp
      exact Option.some.inj hp
    obtain ⟨hq, hr, hP⟩ := hfound s h false i hs he
    have hlow := hP.low
    have hv : val (count Q) (digit s Q) levels ≠ 0 := by
      intro e
      rw [e, low_zero] at hlow
      cases hlow
    rw [if_neg hv]
    exact ⟨hq, hr, i, hP⟩
  | none =>
    obtain ⟨j, hj, hQj⟩ := hne
    have hhd : s.ccb.hdActive j ≠ 0 := fun e => hQj ((h.list (.active j)).eq_nil_iff.mp e)
    have hnb := pickScan_nonempty hj hhd hs
    obtain ⟨u, hu⟩ : ∃ u, u = (pickScan s levels false).1 := ⟨_, rfl⟩
    rw [← hu] at hscan hb2
    -- all digits were 0 and are the greatest ones now
    obtain ⟨hz, hfull⟩ := borrow_none (by decide) (hb1 ▸ hs)
    rw [← hb2] at hfull
    have hx : pickScan s [0, 1, 2, 3, 4, 5, 6] false = (u, true, none) := by
      rw [hu, ← hnb, ← hs]
      rfl
    rw [hx] at hp
    dsimp only at hp
    have hcu : u.ccb.crActive j ≠ 0 := by
      intro e
      have h0 := (digit_eq_zero hscan).mpr e
      rw [hfull j hj] at h0
      exact hQj (List.eq_nil_of_length_eq_zero h0)
    have huhd : u.ccb.hdActive j ≠ 0 := fun e => hQj ((hscan.list (.active j)).eq_nil_iff.mp e)
    obtain ⟨i, hsi⟩ := Option.isSome_iff_exists.mp (pickScan_found (b := true) hj huhd hcu)
    have he : pickFound (pickScan u levels true).1 i = (s', r) := by
      unfold pickAgain at hp
      have hy : pickScan u [0, 1, 2, 3, 4, 5, 6] true =
        ((pickScan u levels true).1, (pickScan u levels true).2.1, some i) := by rw [← hsi]; rfl
      rw [hy] at hp
      exact Option.some.inj hp
    obtain ⟨hq, hr, hP⟩ := hfound u hscan true i hsi he
    have hpos : ∀ j, pos (count Q) (digit u Q) j = pos (count Q) (digit s Q) j := by
      intro j
      rw [hb2]
      exact pos_borrow (count Q) (digit s Q) levels j
    have hval : val (count Q) (digit u Q) levels = size (count Q) levels - 1 := by
      rw [← val_full hfull]
      rfl
    rw [if_pos hz, ← hval]
    refine ⟨hq, hr, i, hP.level, ?_, ?_, hP.val, ?_, fun j hj => ?_⟩
    · rw [← hpos]
      exact hP.low
    · rw [← hpos]
      exact hP.task
    · rw [← hpos]
      exact hP.next
    · rw [← hpos]
      exact hP.others j hj

theorem levels_split {i : Nat} (hi : i < 7) :
    levels = List.range i ++ i :: List.range' (i+1) (6 - i) := by
  interval_cases i <;> rfl

theorem size_range' (n : Nat → Nat) (a k : Nat) :
    size n (List.range' a k) = ∏ j ∈ Finset.Ico a (a + k), (n j + 1) := by
  induction k generalizing a with
  | zero => simp [size]
  | succ k ih =>
    have hlt : a < a + (k + 1) := by omega
    rw [List.range'_succ, size_cons, ih, show a + 1 + k = a + (k + 1) by omega,
      Finset.prod_eq_prod_Ico_succ_bot hlt]

theorem size_levels (n : Nat → Nat) : size n levels = ∏ j ∈ Finset.range 7, (n j + 1) := by
  rw [show levels = List.range' 0 7 from rfl, size_range', Nat.zero_add, Finset.range_eq_Ico]

/-! ## runs -/

/-- calls of `sched_pick` in the states `u t`, with the results `v t` and `r t`; the queues stay as
they are in between -/
structure PickRun (allowed : Core → Nat → Event → Bool) (tasks : List Nat) (u v : Nat → Core)
    (r : Nat → Nat) : Prop where
  pick : ∀ t, schedPick allowed (u t) = some (v t, r t)
  static : ∀ t, SchedStep allowed ⟨v t, tasks⟩ .other ⟨u (t+1), tasks⟩

theorem static_keeps (hs : SchedStep allowed ⟨s, tasks⟩ .other ⟨s', tasks⟩)
    (h : Queues s tasks Q) : Queues s' tasks Q ∧ digit s' Q = digit s Q := by
  cases hs with
  | other ht hh hb hc ha hi =>
    refine ⟨h.frame ht (fun q => ?_) (fun i => ?_) ha hi, digit_congr hc⟩
    · cases q with
      | active i => exact congrFun hh i
      | blocked => exact hb
    · rw [hc]
      exact h.cursor i

/-- the counter, with its greatest value in place of 0 -/
def counter (Q : QName → List Nat) (s : Core) : Nat :=
  if val (count Q) (digit s Q) levels = 0 then size (count Q) levels - 1
  else val (count Q) (digit s Q) levels

namespace PickRun
variable {u v : Nat → Core} {r : Nat → Nat} (hr : PickRun allowed tasks u v r)
  (h : Queues (u 0) tasks Q) (hne : ∃ i ∈ levels, Q (.active i) ≠ [])
include hr h hne

theorem queues (t : Nat) : Queues (u t) tasks Q := by
  induction t with
  | zero => exact h
  | succ t ih =>
    exact (static_keeps (hr.static t) (schedPick_picks ih hne (hr.pick t)).1).1

theorem picks (t : Nat) : ∃ i, Picks (u t) (v t) Q (counter Q (u t)) i :=
  (schedPick_picks (hr.queues h hne t) hne (hr.pick t)).2.2

theorem digit_succ (t : Nat) : digit (u (t+1)) Q = digit (v t) Q :=
  (static_keeps (hr.static t) (schedPick_picks (hr.queues h hne t) hne (hr.pick t)).1).2

theorem counter_pos (t : Nat) : 0 < counter Q (u t) := by
  obtain ⟨i, hP⟩ := hr.picks h hne t
  have := hP.val
  omega

theorem counter_succ (t : Nat) : counter Q (u (t+1)) =
    if counter Q (u t) = 1 then size (count Q) levels - 1 else counter Q (u t) - 1 := by
  obtain ⟨i, hP⟩ := hr.picks h hne t
  have hv := hP.val
  rw [← hr.digit_succ h hne t] at hv
  rw [counter]
  by_cases h1 : counter Q (u t) = 1
  · rw [if_pos h1, if_pos (by omega)]
  · rw [if_neg h1, if_neg (by omega)]
    omega

theorem picked_iff {i k x : Nat} (hk : (Q (.active i))[k]? = some x) (t : Nat) :
    (v t).win .tmpmap = x ↔
      low (count Q) levels (counter Q (u t)) = some (i, count Q i - k) := by
  have hq := hr.queues h hne t
  obtain ⟨j, hP⟩ := hr.picks h hne t
  obtain ⟨hkl, hkx⟩ := List.getElem?_eq_some_iff.mp hk
  obtain ⟨hpl, hpx⟩ := List.getElem?_eq_some_iff.mp hP.task
  rw [hP.low]
  constructor
  · intro hx
    have hj : QName.active j = .active i := by
      refine hq.same_home (x := x) ?_ (hkx ▸ List.getElem_mem hkl)
      rw [← hx, ← hpx]
      exact List.getElem_mem hpl
    obtain rfl := QName.active.inj hj
    have hpk : pos (count Q) (digit (u t) Q) j = k :=
      ((hq.list (.active j)).nodup.getElem_inj_iff).mp (hpx.trans (hx.trans hkx.symm))
    rw [hpk]
  · intro hlow
    obtain ⟨hj, he⟩ := Prod.mk.inj (Option.some.inj hlow)
    subst hj
    have hpk : pos (count Q) (digit (u t) Q) j = k := by
      unfold count at he hpl ⊢
      omega
    have := hP.task
    rw [hpk, hk] at this
    exact (Option.some.inj this).symm

theorem pos_stays {i : Nat} (t m : Nat)
    (hno : ∀ j, t ≤ j → j < t + m → (v j).win .tmpmap ∉ Q (.active i)) :
    pos (count Q) (digit (u (t + m)) Q) i = pos (count Q) (digit (u t) Q) i := by
  induction m with
  | zero => rfl
  | succ m ih =>
    obtain ⟨j, hP⟩ := hr.picks h hne (t + m)
    have hji : i ≠ j := by
      rintro rfl
      exact hno (t + m) (by omega) (by omega) (List.mem_of_getElem? hP.task)
    rw [← ih (fun j h1 h2 => hno j h1 (by omega)), ← hP.others i hji]
    exact congrArg (fun d => pos (count Q) d i) (hr.digit_succ h hne (t + m))

theorem card_picked {i x : Nat} (hi : i < 7) (hx : x ∈ Q (.active i)) (a : Nat) :
    ((Finset.Ico a (a + (size (count Q) levels - 1))).filter
      (fun t => (v t).win .tmpmap = x)).card = size (count Q) (List.range' (i+1) (6 - i)) := by
  obtain ⟨k, hk⟩ := List.getElem?_of_mem hx
  have hkl : k < count Q i := (List.getElem?_eq_some_iff.mp hk).1
  have hle : counter Q (u 0) ≤ size (count Q) levels - 1 := by
    have hv := val_lt (n := count Q) (d := digit (u 0) Q) (l := levels) (fun j _ => digit_le _ _ _)
    unfold counter
    split_ifs
    · exact le_rfl
    · exact Nat.le_sub_one_of_lt hv
  have h0 : ¬low (count Q) levels 0 = some (i, count Q i - k) := by
    rw [low_zero]
    exact fun e => nomatch e
  have hc := card_window (W := fun t => counter Q (u t)) (hr.counter_pos h hne 0) hle
    (hr.counter_succ h hne)
    (fun w => low (count Q) levels w = some (i, count Q i - k)) h0 a
  rw [Finset.filter_congr (fun t _ => hr.picked_iff h hne hk t), hc,
    Nat.sub_add_cancel (size_pos _ _), levels_split hi]
  have hb : i ∉ List.range i := fun hm => absurd (List.mem_range.mp hm) (lt_irrefl i)
  have ha : i ∉ List.range' (i+1) (6 - i) := fun hm => by
    have := (List.mem_range'_1.mp hm).1
    omega
  exact card_low hb ha (by omega) (by omega)

theorem at_pos {i t : Nat} (hx : (v t).win .tmpmap ∈ Q (.active i)) :
    (Q (.active i))[pos (count Q) (digit (u t) Q) i]? = some ((v t).win .tmpmap) ∧
      pos (count Q) (digit (u (t+1)) Q) i = (pos (count Q) (digit (u t) Q) i + 1) % count Q i := by
  obtain ⟨j, hP⟩ := hr.picks h hne t
  have hj := (hr.queues h hne t).same_home (List.mem_of_getElem? hP.task) hx
  obtain rfl := QName.active.inj hj
  refine ⟨hP.task, ?_⟩
  rw [hr.digit_succ h hne t]
  exact hP.next

theorem order {i t t' k : Nat} (ht : t < t') (hk : (Q (.active i))[k]? = some ((v t).win .tmpmap))
    (hx : (v t').win .tmpmap ∈ Q (.active i))
    (hno : ∀ j, t < j → j < t' → (v j).win .tmpmap ∉ Q (.active i)) :
    (Q (.active i))[(k + 1) % count Q i]? = some ((v t').win .tmpmap) := by
  obtain ⟨m, rfl⟩ : ∃ m, t' = t + 1 + m := ⟨t' - (t + 1), by omega⟩
  obtain ⟨h1, h2⟩ := hr.at_pos h hne (List.mem_of_getElem? hk)
  obtain ⟨h3, -⟩ := hr.at_pos h hne hx
  have hpk : pos (count Q) (digit (u t) Q) i = k := by
    obtain ⟨ha, hax⟩ := List.getElem?_eq_some_iff.mp h1
    obtain ⟨hb, hbx⟩ := List.getElem?_eq_some_iff.mp hk
    exact (((hr.queues h hne t).list (.active i)).nodup.getElem_inj_iff).mp (hax.trans hbx.symm)
  rw [hr.pos_stays h hne (t + 1) m (fun j h4 h5 => hno j (by omega) h5), h2, hpk] at h3
  exact h3

end PickRun
/-- **Shares.**  In as many calls as the counter has values, less one, every task of the level `i` is
picked as often as the levels behind it have states; tasks of one level take turns in the order of
the queue, and no task of `PRI_IDLE` is picked. -/
theorem sched_shares {u v : Nat → Core} {r : Nat → Nat} (hr : PickRun allowed tasks u v r)
    (h : Queues (u 0) tasks Q) (hne : ∃ i < 7, Q (.active i) ≠ []) :
    (∀ t, r t = ((v t).tcbs ((v t).win .tmpmap)).memroot) ∧
    (∀ i < 7, ∀ x ∈ Q (.active i), ∀ a,
      ((Finset.Ico a (a + (∏ j ∈ Finset.range 7, ((Q (.active j)).length + 1) - 1))).filter
        (fun t => (v t).win .tmpmap = x)).card =
          ∏ j ∈ Finset.Ico (i+1) 7, ((Q (.active j)).length + 1)) ∧
    (∀ i < 7, ∀ t t' k, t < t' → (Q (.active i))[k]? = some ((v t).win .tmpmap) →
      (v t').win .tmpmap ∈ Q (.active i) →
      (∀ j, t < j → j < t' → (v j).win .tmpmap ∉ Q (.active i)) →
      (Q (.active i))[(k + 1) % (Q (.active i)).length]? = some ((v t').win .tmpmap)) ∧
    ∀ t, (v t).win .tmpmap ∉ Q (.active 7) := by
  have hlev : ∀ i, i < 7 → i ∈ levels := by
    intro i hi
    interval_cases i <;> decide
  replace hne : ∃ i ∈ levels, Q (.active i) ≠ [] := by
    obtain ⟨i, hi, hQ⟩ := hne
    exact ⟨i, hlev i hi, hQ⟩
  refine ⟨fun t => ?_, fun i hi x hx a => ?_, fun i hi t t' k ht hk hx hno => ?_, fun t hx => ?_⟩
  · exact (schedPick_picks (hr.queues h hne t) hne (hr.pick t)).2.1
  · have hc := hr.card_picked h hne hi hx a
    rw [size_levels, size_range', show i + 1 + (6 - i) = 7 by omega] at hc
    exact hc
  · exact hr.order h hne ht hk hx hno
  · obtain ⟨i, hP⟩ := hr.picks h hne t
    have h7 := (hr.queues h hne t).same_home (List.mem_of_getElem? hP.task) hx
    have hl := hP.level
    rw [QName.active.inj h7] at hl
    exact absurd hl (by decide)

/-- one call after the other -/
def pickIter (allowed : Core → Nat → Event → Bool) (s : Core) : Nat → Core
  | 0 => s
  | t+1 => ((schedPick allowed (pickIter allowed s t)).map Prod.fst).getD s

theorem pickRun_iter (allowed : Core → Nat → Event → Bool) (s : Core) (tasks : List Nat) :
    PickRun allowed tasks (pickIter allowed s) (fun t => pickIter allowed s (t+1))
      (fun t => ((schedPick allowed (pickIter allowed s t)).map Prod.snd).getD 0) := by
  refine ⟨fun t => ?_, fun t => .other (fun _ _ => Tcb.Same.refl _) rfl rfl rfl rfl rfl⟩
  obtain ⟨⟨s', m⟩, hp⟩ := Option.isSome_iff_exists.mp (schedPick_isSome allowed (pickIter allowed s t))
  show _ = some (((schedPick allowed (pickIter allowed s t)).map Prod.fst).getD s, _)
  rw [hp]
  rfl

/-- the two tasks of one level are picked once in two calls each -/
theorem sched_shares_demo : ∃ (u v : Nat → Core) (r : Nat → Nat) (Q : QName → List Nat),
    PickRun (fun _ _ _ => true) [6, 5] u v r ∧ Queues (u 0) [6, 5] Q ∧ Q (.active 3) = [6, 5] ∧
    ∀ a, ((Finset.Ico a (a + 2)).filter (fun t => (v t).win .tmpmap = 5)).card = 1 := by
  have hr := pickRun_iter (fun _ _ _ => true) demoPair [6, 5]
  have hm := (sched_shares hr demoPair_queues ⟨3, by decide, by decide⟩).2.1 3 (by decide) 5
    (by decide)
  exact ⟨_, _, _, _, hr, demoPair_queues, rfl, hm⟩

/-! ## the idle task -/

/-- a running task, or the idle task if there is none -/
def Serves (tasks : List Nat) (s : Core) (m : Nat) : Prop :=
  (∃ p ∈ tasks, (s.tcbs p).state = .running ∧ m = (s.tcbs p).memroot) ∨
    m = s.idleMapping ∧ ∀ p ∈ tasks, (s.tcbs p).state ≠ .running

theorem Queues.mem_active (h : Queues s tasks Q) :
    p ∈ Q (.active i) ↔ p ∈ tasks ∧ (s.tcbs p).state = .running ∧ (s.tcbs p).priority = i := by
  rw [h.home]
  unfold Tcb.home
  split <;> simp [*]

theorem Queues.found_serves {m : Nat} (h : Queues s tasks Q) (hc : s.ccb.crActive i ≠ 0)
    (hp : (s', m) = pickFound s i) : Serves tasks s' m := by
  have hm := (h.cursor i).resolve_left hc
  obtain ⟨n, he, -⟩ := Queues.pickFound_eq (h.isTask hm).isPid
  obtain ⟨ht, hr, -⟩ := h.mem_active.mp hm
  rw [he] at hp
  cases hp
  exact Or.inl ⟨_, ht, hr, rfl⟩

/-- **The processor idles only when no task can run**, after every run -/
theorem sched_serves {a b : SchedWorld} (h0 : a.Start)
    (h : Reach (SchedStep allowed) (fun _ _ => True) a b) (hf : b.core.idleFirst = false) :
    ∃ s m, schedPick allowed b.core = some (s, m) ∧ Serves b.tasks s m := by
  obtain ⟨Q, hq⟩ : ∃ Q, Queues b.core b.tasks Q := h.keeps ⟨_, h0.queues⟩ (fun _ _ _ hi _ hs => hs.queues hi)
  obtain ⟨⟨s, m⟩, hp⟩ := Option.isSome_iff_exists.mp (schedPick_isSome allowed b.core)
  refine ⟨s, m, hp, ?_⟩
  by_cases hne : ∃ i ∈ levels, Q (.active i) ≠ []
  · obtain ⟨hs, rfl, i, hP⟩ := schedPick_picks hq hne hp
    obtain ⟨ht, hr, -⟩ := hs.mem_active.mp (List.mem_of_getElem? hP.task)
    exact Or.inl ⟨_, ht, hr, rfl⟩
  obtain ⟨u, c, hu, he, ⟨i, hi, hr⟩ | hr⟩ := Queues.pickAgain_cases (P := fun u => Queues u b.tasks Q)
    (fun _ l b hu => hu.scan l b) hq hp
  · exact hu.found_serves hi hr
  · unfold pickIdle at hr
    split at hr
    · next hd =>
      dsimp only at hr
      rw [if_neg (by simp [he, hf])] at hr
      cases hr
      refine Or.inr ⟨rfl, fun p hp hr => ?_⟩
      -- the queue of a running task is not empty
      have hm := hu.mem_active.mpr ⟨hp, hr, rfl⟩
      have h7 : (u.tcbs p).priority = 7 := by
        by_contra h7
        refine hne ⟨_, ?_, List.ne_nil_of_mem hm⟩
        have := (hu.task p hp).priority
        simp only [levels, List.mem_cons]
        omega
      rw [h7, (hu.list (.active 7)).eq_nil_iff.mp hd] at hm
      cases hm
    · next hd =>
      split at hr
      · refine (hu.setCursor (hu.head_mem (.active 7))).found_serves ?_ hr
        simpa [Core.setCursor, Ccb.head] using hd
      · next hc => exact hu.found_serves hc hr

theorem sched_serves_demo : ∃ s m,
    schedPick (fun _ _ _ => true) (schedAdd demoCore .bssEnd) = some (s, m) ∧ Serves [5] s m :=
  sched_serves demoStart
    (Reach.refl.tail (a := .add .bssEnd) trivial (.add List.not_mem_nil demoCore_isTask rfl)) (by decide)

end
end OsZ
