import Mathlib.Data.List.Basic
import Mathlib.Tactic

/-!
# Rings

A sequence is written into the slots 1, ..., n-1, round and round; slot 0 is not used.  One slot
stays free, so the last n-2 elements at most are kept.

* `slot n i`       the slot of element `i`;
* `nextSlot`       the slot after a slot;
* `Ring`           the elements of `l` from `t` on are in the store, between two slots;
* `Ring.push`, `Ring.drop`, `Ring.head`  an element is written, the oldest one is dropped or read;
* `Ring.contents`  what is in the ring.
-/

namespace OsZ

def slot (n i : Nat) : Nat := i % (n - 1) + 1

def nextSlot (n i : Nat) : Nat := if i + 1 = n then 1 else i + 1

/-- the number of slots from `a` to `b` -/
def slotDist (n a b : Nat) : Nat := if a ≤ b then b - a else b + (n - 1) - a

structure Ring {α : Type*} (n : Nat) (store : Nat → α) (b a : Nat) (l : List α) (t : Nat) : Prop where
  size : 3 ≤ n
  start : b = slot n l.length
  fin : a = slot n t
  le : t ≤ l.length
  cap : l.length ≤ t + (n - 2)
  holds : ∀ i x, t ≤ i → l[i]? = some x → store (slot n i) = x

section
variable {α : Type*} {n i j a b t : Nat} {store store' : Nat → α} {l : List α} {x : α}

theorem slot_pos (n i : Nat) : 1 ≤ slot n i := Nat.le_add_left 1 _

theorem slot_lt (hn : 3 ≤ n) (i : Nat) : slot n i < n := by
  have h := Nat.mod_lt i (show 0 < n - 1 by omega)
  unfold slot
  omega

theorem slot_succ (hn : 3 ≤ n) (i : Nat) : slot n (i + 1) = nextSlot n (slot n i) := by
  have h := Nat.mod_lt i (show 0 < n - 1 by omega)
  have h1 : 1 % (n - 1) = 1 := Nat.mod_eq_of_lt (by omega)
  unfold slot nextSlot
  rw [Nat.add_mod, h1]
  split_ifs with he
  · rw [show i % (n - 1) + 1 = n - 1 by omega, Nat.mod_self]
  · rw [Nat.mod_eq_of_lt (by omega)]

theorem slot_inj (hij : i ≤ j) (hj : j < i + (n - 1)) (h : slot n i = slot n j) :
    i = j := by
  have hm : (j - i) % (n - 1) = 0 :=
    (Nat.modEq_iff_dvd' hij).mp (show i % (n - 1) = j % (n - 1) by unfold slot at h; omega) |>
      Nat.mod_eq_zero_of_dvd
  rw [Nat.mod_eq_of_lt (by omega)] at hm
  omega

namespace Ring

theorem empty_iff (h : Ring n store b a l t) : a = b ↔ l.length = t := by
  have hn := h.size
  have hle := h.le
  have hcap := h.cap
  rw [h.start, h.fin]
  constructor
  · intro e
    exact (slot_inj hle (by omega) e).symm
  · rintro rfl
    rfl

theorem full_iff (h : Ring n store b a l t) : nextSlot n b = a ↔ l.length = t + (n - 2) := by
  have hn := h.size
  have hle := h.le
  have hcap := h.cap
  rw [h.start, h.fin, ← slot_succ hn]
  constructor
  · intro e
    by_contra hne
    have := slot_inj (show t ≤ l.length + 1 by omega) (by omega) e.symm
    omega
  · intro e
    rw [e, show t + (n - 2) + 1 = t + (n - 1) by omega]
    unfold slot
    rw [Nat.add_mod_right]

theorem push (h : Ring n store b a l t) (hf : l.length < t + (n - 2)) (hx : store' b = x)
    (hs : ∀ j, 1 ≤ j → j ≠ b → store' j = store j) :
    Ring n store' (nextSlot n b) a (l ++ [x]) t := by
  have hn := h.size
  have hle := h.le
  refine ⟨hn, ?_, h.fin, by simp; omega, by simp; omega, fun i y hi hy => ?_⟩
  · rw [h.start, List.length_append, List.length_singleton, slot_succ hn]
  · obtain hlt | hge := Nat.lt_or_ge i l.length
    · rw [List.getElem?_append_left hlt] at hy
      rw [hs _ (slot_pos n i), h.holds i y hi hy]
      rw [h.start]
      exact fun e => absurd (slot_inj hlt.le (by omega) e) (by omega)
    · have hi' : i = l.length := by
        have := (List.getElem?_eq_some_iff.mp hy).1
        simp at this
        omega
      subst hi'
      rw [List.getElem?_append_right le_rfl, Nat.sub_self] at hy
      rw [← h.start, hx]
      exact Option.some.inj hy

theorem drop (h : Ring n store b a l t) (ht : t < l.length) :
    Ring n store b (nextSlot n a) l (t + 1) := by
  have hcap := h.cap
  refine ⟨h.size, h.start, ?_, ht, by omega, fun i x hi hx => h.holds i x (by omega) hx⟩
  rw [h.fin, slot_succ h.size]

theorem head (h : Ring n store b a l t) (ht : t < l.length) : l[t]? = some (store a) := by
  have hx := List.getElem?_eq_getElem ht
  rw [hx, h.fin, h.holds t _ le_rfl hx]

theorem dist (h : Ring n store b a l t) : slotDist n a b = l.length - t := by
  have hn := h.size
  have hle := h.le
  have hcap := h.cap
  rw [h.start, h.fin]
  obtain ⟨k, hk⟩ : ∃ k, l.length = t + k := ⟨l.length - t, by omega⟩
  have hmod : (t + k) % (n - 1) = if t % (n - 1) + k < n - 1 then t % (n - 1) + k
      else t % (n - 1) + k - (n - 1) := by
    have h1 := Nat.mod_lt t (show 0 < n - 1 by omega)
    rw [Nat.add_mod, Nat.mod_eq_of_lt (show k < n - 1 by omega)]
    split_ifs with h2
    · exact Nat.mod_eq_of_lt h2
    · rw [Nat.mod_eq_sub_mod (by omega), Nat.mod_eq_of_lt (by omega)]
  have h1 := Nat.mod_lt t (show 0 < n - 1 by omega)
  unfold slotDist slot
  rw [hk, hmod]
  split_ifs <;> omega

theorem contents (h : Ring n store b a l t) :
    (List.range (slotDist n a b)).map (fun j => store (slot n (a - 1 + j))) = l.drop t := by
  have hle := h.le
  rw [h.dist]
  refine List.ext_getElem? (fun k => ?_)
  rw [List.getElem?_drop, List.getElem?_map]
  obtain hk | hk := Nat.lt_or_ge k (l.length - t)
  · have hs : slot n (a - 1 + k) = slot n (t + k) := by
      rw [h.fin]
      unfold slot
      rw [Nat.add_sub_cancel, Nat.mod_add_mod]
    have hx := List.getElem?_eq_getElem (show t + k < l.length by omega)
    rw [List.getElem?_range hk, Option.map_some, hs, hx, h.holds (t + k) _ (by omega) hx]
  · rw [List.getElem?_eq_none (by simpa using hk), List.getElem?_eq_none (by omega), Option.map_none]

end Ring
end
end OsZ
