import Mathlib

/-!
# Memory with unmapped addresses

A `Ram β` has a cell at each address, `none` where no memory is mapped.  Accesses to such addresses
fail.

* `Ram.give`, `Ram.drop`  memory is mapped, with the contents `f`, and unmapped;
* `Ram.fill`              `len` cells are set to `v`;
* `Ram.copy`              `len` cells are copied, in ascending order;
* `Ram.Mapped`            a range of addresses that can be accessed.
-/

namespace OsZ

abbrev Ram (β : Type*) := Nat → Option β

namespace Ram
variable {β : Type*} {r r' : Ram β} {lo len x : Nat}

def Mapped (r : Ram β) (lo len : Nat) : Prop := ∀ i < len, (r (lo + i)).isSome = true

instance (r : Ram β) (lo len : Nat) : Decidable (r.Mapped lo len) :=
  inferInstanceAs (Decidable (∀ i < len, (r (lo + i)).isSome = true))

def give (f : Nat → β) (lo len : Nat) (r : Ram β) : Ram β :=
  fun x => if lo ≤ x ∧ x < lo + len then some (f x) else r x

def drop (lo len : Nat) (r : Ram β) : Ram β := fun x => if lo ≤ x ∧ x < lo + len then none else r x

def fill (v : β) (lo len : Nat) (r : Ram β) : Option (Ram β) :=
  if r.Mapped lo len then some (r.give (fun _ => v) lo len) else none

def copyUp (dst src : Nat) : Nat → Ram β → Ram β
  | 0, r => r
  | n+1, r => Function.update (copyUp dst src n r) (dst + n) (copyUp dst src n r (src + n))

def copy (dst src len : Nat) (r : Ram β) : Option (Ram β) :=
  if r.Mapped src len ∧ r.Mapped dst len then some (copyUp dst src len r) else none

/-! ## contents -/

theorem give_in (f : Nat → β) (h1 : lo ≤ x) (h2 : x < lo + len) : give f lo len r x = some (f x) :=
  if_pos ⟨h1, h2⟩

theorem give_out {f : Nat → β} (h : x ∉ Set.Ico lo (lo + len)) : give f lo len r x = r x := if_neg h

theorem drop_out (h : x ∉ Set.Ico lo (lo + len)) : drop lo len r x = r x := if_neg h

theorem fill_eq (v : β) (h : r.Mapped lo len) : fill v lo len r = some (r.give (fun _ => v) lo len) :=
  if_pos h

theorem copyUp_out {dst src n : Nat} (h : x ∉ Set.Ico dst (dst + n)) : copyUp dst src n r x = r x := by
  induction n with
  | zero => rfl
  | succ n ih =>
    have hx : x ≠ dst + n := by
      rintro rfl
      exact h ⟨by omega, by omega⟩
    rw [copyUp, Function.update_of_ne hx]
    refine ih (fun hin => h ⟨hin.1, ?_⟩)
    have := hin.2
    omega

theorem copyUp_in {dst src n i : Nat} (hd : Disjoint (Set.Ico dst (dst + n)) (Set.Ico src (src + n)))
    (hi : i < n) : copyUp dst src n r (dst + i) = r (src + i) := by
  induction n with
  | zero => omega
  | succ n ih =>
    have hd' : Disjoint (Set.Ico dst (dst + n)) (Set.Ico src (src + n)) :=
      hd.mono (Set.Ico_subset_Ico_right (by omega)) (Set.Ico_subset_Ico_right (by omega))
    rw [copyUp]
    by_cases e : i = n
    · rw [e, Function.update_self]
      refine copyUp_out (fun hin => ?_)
      exact Set.disjoint_left.mp hd ⟨hin.1, by have := hin.2; omega⟩ ⟨by omega, by omega⟩
    · rw [Function.update_of_ne (by omega)]
      exact ih hd' (by omega)

/-! ## mapped ranges -/

theorem Mapped.mono {lo' len' : Nat} (h : r.Mapped lo len) (h1 : lo ≤ lo') (h2 : lo' + len' ≤ lo + len) :
    r.Mapped lo' len' := by
  intro i hi
  have := h (lo' - lo + i) (by omega)
  rwa [show lo + (lo' - lo + i) = lo' + i by omega] at this

theorem Mapped.congr (h : r.Mapped lo len)
    (hr : ∀ x, lo ≤ x → x < lo + len → (r x).isSome = true → (r' x).isSome = true) :
    r'.Mapped lo len := fun i hi => hr (lo + i) (by omega) (by omega) (h i hi)

theorem mapped_give (f : Nat → β) (lo len : Nat) (r : Ram β) : (give f lo len r).Mapped lo len := by
  intro i hi
  rw [give_in f (by omega) (by omega)]
  rfl

theorem isSome_give {f : Nat → β} (h : (r x).isSome = true) : (give f lo len r x).isSome = true := by
  unfold give
  split
  · rfl
  · exact h

theorem isSome_copyUp {dst src n : Nat} (hs : r.Mapped src n) (hd : r.Mapped dst n)
    (h : (r x).isSome = true) : (copyUp dst src n r x).isSome = true := by
  induction n generalizing x with
  | zero => exact h
  | succ n ih =>
    have hs' : r.Mapped src n := hs.mono le_rfl (by omega)
    have hd' : r.Mapped dst n := hd.mono le_rfl (by omega)
    rw [copyUp]
    by_cases e : x = dst + n
    · rw [e, Function.update_self]
      exact ih hs' hd' (hs n (by omega))
    · rw [Function.update_of_ne e]
      exact ih hs' hd' h

end Ram
end OsZ
