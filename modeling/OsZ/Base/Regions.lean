import Mathlib

/-!
# Lists of disjoint regions

A table whose entries occupy regions of memory: `f x` is the region of the entry `x`.

* `cover f l`    what the entries of `l` occupy together;
* `Apart f l`    the entries of `l` occupy pairwise disjoint regions;
* `Apart.replace`, `Apart.add`, `Apart.drop`  how a table may be edited.
-/

namespace OsZ
variable {α β : Type*} {f : α → Set β} {l r m : List α} {x y : α}

def cover (f : α → Set β) (l : List α) : Set β := {p | ∃ x ∈ l, p ∈ f x}

theorem cover_nil : cover f [] = ∅ := by simp [cover]

theorem cover_cons : cover f (x :: l) = f x ∪ cover f l := by
  ext p
  simp [cover]

theorem cover_append : cover f (l ++ r) = cover f l ∪ cover f r := by
  ext p
  simp only [cover, List.mem_append, Set.mem_ofPred_eq, Set.mem_union, or_and_right, exists_or]

theorem subset_cover (h : x ∈ l) : f x ⊆ cover f l := fun _ hp => ⟨x, h, hp⟩

def Apart (f : α → Set β) (l : List α) : Prop := l.Pairwise (fun x y => Disjoint (f x) (f y))

namespace Apart

theorem nil : Apart f [] := List.Pairwise.nil

theorem single : Apart f [x] := List.pairwise_singleton _ _

theorem pair (h : Disjoint (f x) (f y)) : Apart f [x, y] := by
  refine List.pairwise_cons.mpr ⟨fun z hz => ?_, List.pairwise_singleton _ _⟩
  rw [List.mem_singleton] at hz
  rw [hz]
  exact h

theorem eq_of_mem {p : β} (h : Apart f l) (hx : x ∈ l) (hy : y ∈ l) (hpx : p ∈ f x) (hpy : p ∈ f y) :
    x = y := by
  induction l with
  | nil => exact absurd hx (by simp)
  | cons z l ih =>
    obtain ⟨hz, hl⟩ := List.pairwise_cons.mp h
    rcases List.mem_cons.mp hx with ex | hx'
    · rcases List.mem_cons.mp hy with ey | hy'
      · rw [ex, ey]
      · rw [ex] at hpx
        exact absurd hpy (Set.disjoint_left.mp (hz y hy') hpx)
    · rcases List.mem_cons.mp hy with ey | hy'
      · rw [ey] at hpy
        exact absurd hpx (Set.disjoint_left.mp (hz x hx') hpy)
      · exact ih hl hx' hy'

theorem rest (h : Apart f (l ++ x :: r)) : Disjoint (cover f (l ++ r)) (f x) := by
  unfold Apart at h
  rw [List.pairwise_append, List.pairwise_cons] at h
  obtain ⟨-, ⟨hx, -⟩, hlr⟩ := h
  rw [Set.disjoint_left]
  rintro p ⟨y, hy, hp⟩ hpx
  rcases List.mem_append.mp hy with hy | hy
  · exact Set.disjoint_left.mp (hlr y hy x (List.mem_cons_self ..)) hp hpx
  · exact Set.disjoint_left.mp (hx y hy) hpx hp

/-- one entry replaced by entries inside its region and a set `X` that no other entry touches -/
theorem replace {X : Set β} (h : Apart f (l ++ x :: r)) (hm : Apart f m)
    (hsub : cover f m ⊆ f x ∪ X) (hX : Disjoint (cover f (l ++ r)) X) : Apart f (l ++ (m ++ r)) := by
  unfold Apart at *
  rw [List.pairwise_append, List.pairwise_cons] at h
  obtain ⟨hl, ⟨hx, hr⟩, hlr⟩ := h
  have hmid : ∀ y ∈ m, ∀ z ∈ l ++ r, Disjoint (f z) (f x) → Disjoint (f y) (f z) := by
    intro y hy z hz hzx
    have h1 : f y ⊆ f x ∪ X := (subset_cover hy).trans hsub
    have h2 : Disjoint (f z) X := hX.mono_left (subset_cover hz)
    exact ((hzx.union_right h2).symm).mono_left h1
  rw [List.pairwise_append, List.pairwise_append]
  refine ⟨hl, ⟨hm, hr, fun y hy z hz => ?_⟩, fun y hy z hz => ?_⟩
  · exact hmid y hy z (List.mem_append_right _ hz) (hx z hz).symm
  · rcases List.mem_append.mp hz with hz | hz
    · exact (hmid z hz y (List.mem_append_left _ hy) (hlr y hy x (List.mem_cons_self ..))).symm
    · exact hlr y hy z (List.mem_cons_of_mem _ hz)

theorem add (h : Apart f l) (hx : Disjoint (cover f l) (f x)) : Apart f (l ++ [x]) := by
  refine List.pairwise_append.mpr ⟨h, List.pairwise_singleton _ _, fun y hy z hz => ?_⟩
  rw [List.mem_singleton] at hz
  rw [hz]
  exact hx.mono_left (subset_cover hy)

theorem drop (h : Apart f (l ++ x :: r)) : Apart f (l ++ r) :=
  List.Pairwise.sublist ((List.sublist_cons_self x r).append_left l) h

end Apart
end OsZ
