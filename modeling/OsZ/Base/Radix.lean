import Mathlib.Algebra.BigOperators.Group.List.Basic
import Mathlib.Data.Nat.Periodic
import Mathlib.Tactic

/-!
# Counting down in a mixed radix

The places are the numbers of a list `l`, the lowest one first; the digit of the place `i` goes from
0 to `n i`.

* `size n l`, `val n d l`  how many numbers there are, and the number with the digits `d`;
* `borrow n l d`           zeros become greatest digits, up to the first digit that is not 0;
* `low n l v`              place and value of the lowest digit of `v` that is not 0;
* `borrow_some`            `borrow` finds that digit, and one less there is the number before;
* `card_low`               how many numbers have a given lowest digit;
* `card_window`            a counter that goes down from `m` to 1 and starts again takes every value
                           once in `m` steps.
-/

namespace OsZ.Radix
variable {n d d' : Nat → Nat} {l a b : List Nat} {i j e m : Nat}

def size (n : Nat → Nat) (l : List Nat) : Nat := (l.map (fun i => n i + 1)).prod

def val (n d : Nat → Nat) : List Nat → Nat
  | [] => 0
  | i :: l => d i + (n i + 1) * val n d l

def borrow (n : Nat → Nat) : List Nat → (Nat → Nat) → (Nat → Nat) × Option Nat
  | [], d => (d, none)
  | i :: l, d => if d i = 0 then borrow n l (Function.update d i (n i)) else (d, some i)

def low (n : Nat → Nat) : List Nat → Nat → Option (Nat × Nat)
  | [], _ => none
  | i :: l, v => if v % (n i + 1) = 0 then low n l (v / (n i + 1)) else some (i, v % (n i + 1))

theorem size_cons : size n (i :: l) = (n i + 1) * size n l := List.prod_cons

theorem size_pos (n : Nat → Nat) (l : List Nat) : 0 < size n l := by
  induction l with
  | nil => exact Nat.one_pos
  | cons i l ih =>
    rw [size_cons]
    positivity

theorem val_cons : val n d (i :: l) = d i + (n i + 1) * val n d l := rfl

theorem val_congr (h : ∀ i ∈ l, d' i = d i) : val n d' l = val n d l := by
  induction l with
  | nil => rfl
  | cons i l ih =>
    unfold val
    rw [h i (List.mem_cons_self ..), ih (fun j hj => h j (List.mem_cons_of_mem _ hj))]

theorem val_update (hi : i ∉ l) (x : Nat) : val n (Function.update d i x) l = val n d l :=
  val_congr (fun j hj => Function.update_of_ne (fun e : j = i => hi (e ▸ hj)) ..)

theorem val_lt (h : ∀ i ∈ l, d i ≤ n i) : val n d l < size n l := by
  induction l with
  | nil => exact Nat.one_pos
  | cons i l ih =>
    have h1 := ih (fun j hj => h j (List.mem_cons_of_mem _ hj))
    have h2 := h i (List.mem_cons_self ..)
    rw [size_cons]
    calc d i + (n i + 1) * val n d l < (n i + 1) + (n i + 1) * val n d l := by omega
      _ = (n i + 1) * (val n d l + 1) := by ring
      _ ≤ (n i + 1) * size n l := Nat.mul_le_mul_left _ h1

theorem val_full (h : ∀ i ∈ l, d i = n i) : val n d l + 1 = size n l := by
  induction l with
  | nil => rfl
  | cons i l ih =>
    rw [size_cons, ← ih (fun j hj => h j (List.mem_cons_of_mem _ hj)), val_cons,
      h i (List.mem_cons_self ..)]
    ring

/-! ## borrowing -/

theorem borrow_off (hj : j ∉ l) : (borrow n l d).1 j = d j := by
  induction l generalizing d with
  | nil => rfl
  | cons i l ih =>
    have h1 : j ≠ i := fun e => hj (e ▸ List.mem_cons_self ..)
    have h2 : j ∉ l := fun h => hj (List.mem_cons_of_mem _ h)
    unfold borrow
    split_ifs
    · rw [ih h2, Function.update_of_ne h1]
    · rfl

theorem borrow_digit (n : Nat → Nat) (l : List Nat) (d : Nat → Nat) (j : Nat) :
    (borrow n l d).1 j = d j ∨ d j = 0 ∧ (borrow n l d).1 j = n j := by
  induction l generalizing d with
  | nil => exact Or.inl rfl
  | cons i l ih =>
    unfold borrow
    split_ifs with h
    · obtain h1 | h1 := ih (Function.update d i (n i))
      · rw [h1, Function.update_apply]
        split_ifs with hj
        · rw [hj]
          exact Or.inr ⟨h, rfl⟩
        · exact Or.inl rfl
      · by_cases hj : j = i
        · rw [hj] at h1 ⊢
          exact Or.inr ⟨h, h1.2⟩
        · rw [Function.update_of_ne hj] at h1
          exact Or.inr h1
    · exact Or.inl rfl

theorem borrow_none (hl : l.Nodup) (h : (borrow n l d).2 = none) :
    val n d l = 0 ∧ ∀ i ∈ l, (borrow n l d).1 i = n i := by
  induction l generalizing d with
  | nil => exact ⟨rfl, fun i hi => (List.not_mem_nil hi).elim⟩
  | cons i l ih =>
    obtain ⟨hil, hl⟩ := List.nodup_cons.mp hl
    unfold borrow at h ⊢
    by_cases h0 : d i = 0
    · rw [if_pos h0] at h ⊢
      obtain ⟨h1, h2⟩ := ih hl h
      rw [val_update hil] at h1
      refine ⟨?_, fun j hj => ?_⟩
      · rw [val_cons, h0, h1, Nat.mul_zero]
      · obtain rfl | hj := List.mem_cons.mp hj
        · rw [borrow_off hil, Function.update_self]
        · exact h2 j hj
    · rw [if_neg h0] at h
      cases h

theorem borrow_some (hl : l.Nodup) (hd : ∀ i ∈ l, d i ≤ n i) (h : (borrow n l d).2 = some i) :
    i ∈ l ∧ d i ≠ 0 ∧ (borrow n l d).1 i = d i ∧ low n l (val n d l) = some (i, d i) ∧
      val n (Function.update (borrow n l d).1 i (d i - 1)) l + 1 = val n d l := by
  induction l generalizing d with
  | nil => cases h
  | cons j l ih =>
    obtain ⟨hjl, hl⟩ := List.nodup_cons.mp hl
    have hdj := hd j (List.mem_cons_self ..)
    unfold borrow at h ⊢
    by_cases h0 : d j = 0
    · rw [if_pos h0] at h ⊢
      have hup : ∀ k ∈ l, Function.update d j (n j) k = d k :=
        fun k hk => Function.update_of_ne (fun e : k = j => hjl (e ▸ hk)) ..
      obtain ⟨h1, h2, h3, h4, h5⟩ := ih hl
        (fun k hk => by rw [hup k hk]; exact hd k (List.mem_cons_of_mem _ hk)) h
      have hij : j ≠ i := fun e => hjl (e ▸ h1)
      rw [hup i h1] at h2 h3 h4 h5
      rw [val_update hjl] at h4 h5
      refine ⟨List.mem_cons_of_mem _ h1, h2, h3, ?_, ?_⟩
      · rw [val_cons]
        unfold low
        rw [h0, Nat.zero_add, if_pos (Nat.mul_mod_right ..),
          Nat.mul_div_cancel_left _ (Nat.succ_pos _)]
        exact h4
      · rw [val_cons, Function.update_of_ne hij, borrow_off hjl, Function.update_self, val_cons, h0,
          ← h5]
        ring
    · rw [if_neg h0] at h ⊢
      obtain rfl := Option.some.inj h
      refine ⟨List.mem_cons_self .., h0, rfl, ?_, ?_⟩
      · have hm : (d j + (n j + 1) * val n d l) % (n j + 1) = d j := by
          rw [Nat.add_mul_mod_self_left, Nat.mod_eq_of_lt (by omega)]
        rw [val_cons]
        unfold low
        rw [hm, if_neg h0]
      · dsimp only
        rw [val_cons, Function.update_self, val_update hjl, val_cons]
        omega

/-! ## counting -/

theorem low_mem {v : Nat} (h : low n l v = some (i, e)) : i ∈ l := by
  induction l generalizing v with
  | nil => cases h
  | cons j l ih =>
    unfold low at h
    split_ifs at h with h0
    · exact List.mem_cons_of_mem _ (ih h)
    · rw [← (Prod.mk.inj (Option.some.inj h)).1]
      exact List.mem_cons_self ..

theorem low_zero (n : Nat → Nat) (l : List Nat) : low n l 0 = none := by
  induction l with
  | nil => rfl
  | cons i l ih =>
    unfold low
    rw [if_pos (Nat.zero_mod _), Nat.zero_div]
    exact ih

theorem card_digit {c s : Nat} (hc : c < m) (p : Nat → Prop) [DecidablePred p] :
    ((Finset.range (m * s)).filter (fun v => v % m = c ∧ p (v / m))).card =
      ((Finset.range s).filter p).card := by
  have hm : 0 < m := by omega
  have him : (Finset.range (m * s)).filter (fun v => v % m = c ∧ p (v / m)) =
      ((Finset.range s).filter p).image (fun u => c + m * u) := by
    ext v
    simp only [Finset.mem_filter, Finset.mem_range, Finset.mem_image]
    constructor
    · rintro ⟨h1, h2, h3⟩
      refine ⟨v / m, ⟨Nat.div_lt_of_lt_mul h1, h3⟩, ?_⟩
      rw [← h2]
      exact Nat.mod_add_div v m
    · rintro ⟨u, ⟨h1, h2⟩, rfl⟩
      refine ⟨?_, ?_, ?_⟩
      · calc c + m * u < m + m * u := by omega
          _ = m * (u + 1) := by ring
          _ ≤ m * s := Nat.mul_le_mul_left _ h1
      · rw [Nat.add_mul_mod_self_left, Nat.mod_eq_of_lt hc]
      · rw [Nat.add_mul_div_left _ _ hm, Nat.div_eq_of_lt hc, Nat.zero_add]
        exact h2
  rw [him]
  refine Finset.card_image_of_injective _ (fun x y hxy => ?_)
  have : m * x = m * y := by
    have : c + m * x = c + m * y := hxy
    omega
  exact Nat.eq_of_mul_eq_mul_left hm this

theorem card_low (ha : i ∉ a) (hb : i ∉ b) (he : e ≠ 0) (hen : e ≤ n i) :
    ((Finset.range (size n (a ++ i :: b))).filter
      (fun v => low n (a ++ i :: b) v = some (i, e))).card = size n b := by
  induction a with
  | nil =>
    rw [List.nil_append, size_cons]
    have hp : ∀ v, low n (i :: b) v = some (i, e) ↔ v % (n i + 1) = e ∧ True := by
      intro v
      unfold low
      split_ifs with h0
      · refine ⟨fun h => absurd (low_mem h) hb, fun h => absurd (h.1.symm.trans h0) he⟩
      · rw [Option.some.injEq, Prod.mk.injEq]
        tauto
    simp only [hp]
    rw [card_digit (by omega) (fun _ => True), Finset.filter_true, Finset.card_range]
  | cons j a ih =>
    have hij : i ≠ j := fun h => ha (h ▸ List.mem_cons_self ..)
    rw [List.cons_append, size_cons]
    have hp : ∀ v, low n (j :: (a ++ i :: b)) v = some (i, e) ↔
        v % (n j + 1) = 0 ∧ low n (a ++ i :: b) (v / (n j + 1)) = some (i, e) := by
      intro v
      rw [low]
      split_ifs with h0
      · exact ⟨fun h => ⟨h0, h⟩, fun h => h.2⟩
      · refine ⟨fun h => ?_, fun h => absurd h.1 h0⟩
        exact absurd (Prod.mk.inj (Option.some.inj h)).1.symm hij
    simp only [hp]
    rw [card_digit (by omega) (fun v => low n (a ++ i :: b) v = some (i, e))]
    exact ih (fun h => ha (List.mem_cons_of_mem _ h))

/-! ## a counter that starts again -/

theorem window_eq {W : Nat → Nat} (h0 : 0 < W 0) (hm : W 0 ≤ m)
    (hs : ∀ t, W (t+1) = if W t = 1 then m else W t - 1) (t : Nat) :
    W t = m - (t + (m - W 0)) % m := by
  induction t with
  | zero =>
    rw [Nat.zero_add, Nat.mod_eq_of_lt (by omega)]
    omega
  | succ t ih =>
    have hlt : (t + (m - W 0)) % m < m := Nat.mod_lt _ (by omega)
    rw [hs, ih, show t + 1 + (m - W 0) = t + (m - W 0) + 1 by omega]
    have e : (t + (m - W 0) + 1) % m = ((t + (m - W 0)) % m + 1) % m := (Nat.mod_add_mod ..).symm
    by_cases h1 : (t + (m - W 0)) % m + 1 = m
    · rw [if_pos (by omega), e, h1, Nat.mod_self]
      rfl
    · have e' : ((t + (m - W 0)) % m + 1) % m = (t + (m - W 0)) % m + 1 :=
        Nat.mod_eq_of_lt (by omega)
      rw [if_neg (by omega), e, e']
      omega

theorem card_window {W : Nat → Nat} (h0 : 0 < W 0) (hm : W 0 ≤ m)
    (hs : ∀ t, W (t+1) = if W t = 1 then m else W t - 1) (p : Nat → Prop) [DecidablePred p]
    (hp : ¬p 0) (s : Nat) : ((Finset.Ico s (s + m)).filter (fun t => p (W t))).card =
      ((Finset.range (m + 1)).filter p).card := by
  have hw := window_eq h0 hm hs
  have hper : Function.Periodic (fun t => p (W t)) m := by
    intro t
    show p (W (t + m)) = p (W t)
    rw [hw, hw t, show t + m + (m - W 0) = t + (m - W 0) + m by omega, Nat.add_mod_right]
  -- all windows count the same, so take the one that starts when the counter does
  rw [Nat.filter_Ico_card_eq_of_periodic s m _ hper,
    ← Nat.filter_Ico_card_eq_of_periodic (W 0) m _ hper]
  have hw' : ∀ t, W 0 ≤ t → t < W 0 + m → W t = W 0 + m - t := by
    intro t h1 h2
    rw [hw t, show t + (m - W 0) = (t - W 0) + m by omega, Nat.add_mod_right,
      Nat.mod_eq_of_lt (by omega)]
    omega
  refine Finset.card_nbij' (fun t => W 0 + m - t) (fun v => W 0 + m - v) ?_ ?_ ?_ ?_
  · intro t ht
    simp only [Finset.mem_coe, Finset.mem_filter, Finset.mem_Ico, Finset.mem_range] at ht ⊢
    rw [hw' t ht.1.1 ht.1.2] at ht
    exact ⟨by omega, ht.2⟩
  · intro v hv
    simp only [Finset.mem_coe, Finset.mem_filter, Finset.mem_Ico, Finset.mem_range] at hv ⊢
    have hv0 : v ≠ 0 := fun e => hp (e ▸ hv.2)
    rw [hw' (W 0 + m - v) (by omega) (by omega), show W 0 + m - (W 0 + m - v) = v by omega]
    exact ⟨by omega, hv.2⟩
  · intro t ht
    simp only [Finset.mem_coe, Finset.mem_filter, Finset.mem_Ico] at ht
    show W 0 + m - (W 0 + m - t) = t
    omega
  · intro v hv
    simp only [Finset.mem_coe, Finset.mem_filter, Finset.mem_range] at hv
    show W 0 + m - (W 0 + m - v) = v
    omega

end OsZ.Radix
