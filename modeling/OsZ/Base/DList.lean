import Mathlib.Data.List.Nodup
import Mathlib.Tactic

/-!
# Doubly linked lists

Nodes are numbers, 0 is no node; `next` and `prev` are the link fields of the nodes.

* `DList next prev hd l`  `l` are the nodes of the list that starts at `hd`: every node is linked to
                          the next and to the previous one, the ends are 0, no node occurs twice;
* `DList.frame`           lists depend on the fields of their nodes only;
* `DList.pushed`          a node becomes the first one;
* `DList.unlinked`        the neighbours of a node are linked to each other;
* `DList.next_get`        walking along the list.
-/

namespace OsZ

/-- `l` are linked nodes between the nodes `pr` and `nx` -/
def Seg (next prev : Nat → Nat) (pr : Nat) : List Nat → Nat → Prop
  | [], _ => True
  | x :: l, nx => prev x = pr ∧ next x = l.headD nx ∧ Seg next prev x l nx

structure DList (next prev : Nat → Nat) (hd : Nat) (l : List Nat) : Prop where
  head : hd = l.headD 0
  nodup : l.Nodup
  nonzero : 0 ∉ l
  seg : Seg next prev 0 l 0

section
variable {next prev next' prev' : Nat → Nat} {pr nx pr' nx' hd p x y : Nat} {l a b : List Nat}

theorem seg_cons : Seg next prev pr (x :: l) nx ↔
    prev x = pr ∧ next x = l.headD nx ∧ Seg next prev x l nx := Iff.rfl

theorem getLastD_mem (x : Nat) (l : List Nat) (d : Nat) : (x :: l).getLastD d ∈ x :: l := by
  rw [List.getLastD_cons, ← List.getLast_eq_getLastD]
  exact List.getLast_mem (List.cons_ne_nil x l)

theorem Seg.congr (h : Seg next prev pr l nx) (hn : ∀ x ∈ l, next' x = next x)
    (hp : ∀ x ∈ l, prev' x = prev x) : Seg next' prev' pr l nx := by
  induction l generalizing pr with
  | nil => trivial
  | cons x l ih =>
    obtain ⟨h1, h2, h3⟩ := h
    refine ⟨?_, ?_, ih h3 (fun y hy => hn y (by simp [hy])) (fun y hy => hp y (by simp [hy]))⟩
    · rw [hp x (by simp), h1]
    · rw [hn x (by simp), h2]

theorem seg_append : Seg next prev pr (a ++ x :: b) nx ↔
    Seg next prev pr a x ∧ prev x = a.getLastD pr ∧ next x = b.headD nx ∧ Seg next prev x b nx := by
  induction a generalizing pr with
  | nil =>
    rw [List.nil_append, seg_cons]
    exact ⟨fun h => ⟨trivial, h⟩, fun h => h.2⟩
  | cons y a ih =>
    have hh : (a ++ x :: b).headD nx = a.headD x := by cases a <;> rfl
    have hl : (y :: a).getLastD pr = a.getLastD y := by cases a <;> rfl
    rw [List.cons_append, seg_cons, seg_cons, ih, hh, hl]
    tauto

theorem Seg.relast (h : Seg next prev pr l nx) (hnd : l.Nodup) (h0 : 0 ∉ l)
    (hn : ∀ x ∈ l, next' x = if x = l.getLastD 0 then nx' else next x)
    (hp : ∀ x ∈ l, prev' x = prev x) : Seg next' prev' pr l nx' := by
  induction l generalizing pr with
  | nil => trivial
  | cons x l ih =>
    obtain ⟨h1, h2, h3⟩ := h
    obtain ⟨hx, hnd⟩ := List.nodup_cons.mp hnd
    have h0' : 0 ∉ l := fun h => h0 (by simp [h])
    refine ⟨by rw [hp x (by simp), h1], ?_, ?_⟩
    · rw [hn x (by simp)]
      cases l with
      | nil => exact if_pos rfl
      | cons y l =>
        rw [if_neg, h2]
        · rfl
        · intro e
          apply hx
          rw [e]
          exact getLastD_mem y l x
    · refine ih h3 hnd h0' (fun y hy => ?_) (fun y hy => hp y (by simp [hy]))
      rw [hn y (by simp [hy])]
      have : (x :: l).getLastD 0 = l.getLastD 0 := by
        cases l with
        | nil => simp at hy
        | cons z l => rfl
      rw [this]

theorem Seg.rehead (h : Seg next prev pr l nx) (hnd : l.Nodup) (hn : ∀ x ∈ l, next' x = next x)
    (hp : ∀ x ∈ l, prev' x = if x = l.headD 0 then pr' else prev x) : Seg next' prev' pr' l nx := by
  cases l with
  | nil => trivial
  | cons x l =>
    obtain ⟨h1, h2, h3⟩ := h
    obtain ⟨hx, -⟩ := List.nodup_cons.mp hnd
    refine ⟨?_, ?_, h3.congr (fun y hy => hn y (by simp [hy])) (fun y hy => ?_)⟩
    · rw [hp x (by simp)]
      exact if_pos rfl
    · rw [hn x (by simp), h2]
    · rw [hp y (by simp [hy])]
      refine if_neg (fun e => hx ?_)
      rw [← show y = x from e]
      exact hy

namespace DList

theorem nil : DList next prev 0 [] := ⟨rfl, List.nodup_nil, by simp, trivial⟩

theorem frame (h : DList next prev hd l) (hn : ∀ x ∈ l, next' x = next x)
    (hp : ∀ x ∈ l, prev' x = prev x) : DList next' prev' hd l :=
  ⟨h.head, h.nodup, h.nonzero, h.seg.congr hn hp⟩

theorem ne_zero (h : DList next prev hd l) (hx : x ∈ l) : x ≠ 0 := fun e => h.nonzero (e ▸ hx)

theorem head_mem (h : DList next prev hd l) (h0 : hd ≠ 0) : hd ∈ l := by
  cases l with
  | nil => exact absurd h.head h0
  | cons x l =>
    rw [h.head]
    exact List.mem_cons_self ..

theorem eq_nil_iff (h : DList next prev hd l) : hd = 0 ↔ l = [] := by
  constructor
  · intro h0
    cases l with
    | nil => rfl
    | cons x l => exact absurd (h.head.symm.trans h0) (h.ne_zero (by simp))
  · rintro rfl
    exact h.head

theorem fields (h : DList next prev hd (a ++ p :: b)) :
    prev p = a.getLastD 0 ∧ next p = b.headD 0 := by
  obtain ⟨-, h1, h2, -⟩ := seg_append.mp h.seg
  exact ⟨h1, h2⟩

theorem next_mem (h : DList next prev hd l) (hp : p ∈ l) : next p = 0 ∨ next p ∈ l ∧ next p ≠ p := by
  obtain ⟨a, b, rfl⟩ := List.append_of_mem hp
  rw [h.fields.2]
  cases b with
  | nil => exact Or.inl rfl
  | cons y b =>
    refine Or.inr ⟨by simp, ?_⟩
    have := h.nodup
    rw [List.nodup_append, List.nodup_cons] at this
    rintro rfl
    exact this.2.1.1 (by simp)

theorem prev_mem (h : DList next prev hd l) (hp : p ∈ l) : prev p = 0 ∨ prev p ∈ l ∧ prev p ≠ p := by
  obtain ⟨a, b, rfl⟩ := List.append_of_mem hp
  rw [h.fields.1]
  cases a with
  | nil => exact Or.inl rfl
  | cons y a =>
    have hmem := getLastD_mem y a 0
    refine Or.inr ⟨List.mem_append_left _ hmem, fun e => ?_⟩
    have := h.nodup
    rw [List.nodup_append] at this
    exact this.2.2 _ hmem p (by simp) e

theorem next_get (h : DList next prev hd l) {i : Nat} (hi : l[i]? = some p) :
    next p = (l[i+1]?).getD 0 := by
  obtain ⟨hlt, rfl⟩ := List.getElem?_eq_some_iff.mp hi
  have hl : l = l.take i ++ l[i] :: l.drop (i+1) := by
    rw [List.getElem_cons_drop, List.take_append_drop]
  have hd' := h
  rw [hl] at hd'
  rw [hd'.fields.2]
  cases hdrop : l.drop (i+1) with
  | nil =>
    rw [List.getElem?_eq_none (List.drop_eq_nil_iff.mp hdrop)]
    rfl
  | cons y b =>
    have : l[i+1]? = some y := by
      rw [← List.head?_drop, hdrop]
      rfl
    rw [this]
    rfl

theorem pushed (h : DList next prev hd l) (hp : p ∉ l) (h0 : p ≠ 0)
    (hn : ∀ x ∈ p :: l, next' x = if x = p then hd else next x)
    (hv : ∀ x ∈ p :: l, prev' x = if x = hd then p else if x = p then 0 else prev x) :
    DList next' prev' p (p :: l) := by
  have hne : ∀ x ∈ l, x ≠ p := fun x hx e => hp (e ▸ hx)
  have hph : p ≠ hd := by
    intro e
    exact hp (e ▸ h.head_mem (e ▸ h0))
  refine ⟨rfl, List.nodup_cons.mpr ⟨hp, h.nodup⟩, ?_, ?_, ?_, ?_⟩
  · rw [List.mem_cons]
    rintro (e | e)
    · exact h0 e.symm
    · exact h.nonzero e
  · rw [hv p (by simp), if_neg hph, if_pos rfl]
  · rw [hn p (by simp), if_pos rfl, h.head]
  · refine h.seg.rehead h.nodup (fun x hx => ?_) (fun x hx => ?_)
    · rw [hn x (by simp [hx]), if_neg (hne x hx)]
    · rw [hv x (by simp [hx]), if_neg (hne x hx), h.head]

theorem unlinked (h : DList next prev hd l) (hp : p ∈ l)
    (hn : ∀ x ∈ l, x ≠ p → next' x = if x = prev p then next p else next x)
    (hv : ∀ x ∈ l, x ≠ p → prev' x = if x = next p then prev p else prev x) :
    DList next' prev' (if hd = p then next p else hd) (l.erase p) := by
  obtain ⟨a, b, rfl⟩ := List.append_of_mem hp
  obtain ⟨hpr, hnx⟩ := h.fields
  obtain ⟨ha, -, -, hb⟩ := seg_append.mp h.seg
  have hnd := h.nodup
  rw [List.nodup_append, List.nodup_cons] at hnd
  obtain ⟨hnda, ⟨hpb, hndb⟩, hab⟩ := hnd
  have hpa : p ∉ a := fun hm => hab p hm p (by simp) rfl
  have h0 := h.nonzero
  have h0a : 0 ∉ a := fun hm => h0 (by simp [hm])
  have h0b : 0 ∉ b := fun hm => h0 (by simp [hm])
  have her : (a ++ p :: b).erase p = a ++ b := by
    rw [List.erase_append_right _ hpa, List.erase_cons_head]
  -- the last node before `p` and the first one behind it
  have hla : ∀ x ∈ b, x ≠ a.getLastD 0 := by
    intro x hx e
    cases a with
    | nil => exact h0b (show (0 : Nat) ∈ b by rw [← show x = 0 from e]; exact hx)
    | cons y a => exact hab _ (getLastD_mem y a 0) x (by simp [hx]) e.symm
  have hfb : ∀ x ∈ a, x ≠ b.headD 0 := by
    intro x hx e
    cases b with
    | nil => exact h0a (show (0 : Nat) ∈ a by rw [← show x = 0 from e]; exact hx)
    | cons y b => exact hab x hx y (by simp) e
  have hsa : Seg next' prev' 0 a (b.headD 0) := by
    refine ha.relast hnda h0a (fun x hx => ?_) (fun x hx => ?_)
    · rw [hn x (by simp [hx]) (fun e => hpa (e ▸ hx)), hpr, hnx]
    · rw [hv x (by simp [hx]) (fun e => hpa (e ▸ hx)), hnx, if_neg (hfb x hx)]
  have hsb : Seg next' prev' (a.getLastD 0) b 0 := by
    refine hb.rehead hndb (fun x hx => ?_) (fun x hx => ?_)
    · rw [hn x (by simp [hx]) (fun e => hpb (e ▸ hx)), hpr, if_neg (hla x hx)]
    · rw [hv x (by simp [hx]) (fun e => hpb (e ▸ hx)), hnx, hpr]
  rw [her]
  refine ⟨?_, ?_, ?_, ?_⟩
  · rw [h.head, hnx]
    cases a with
    | nil => exact if_pos rfl
    | cons y a =>
      rw [if_neg]
      · rfl
      · intro e
        exact hpa (by rw [← show y = p from e]; simp)
  · rw [List.nodup_append]
    exact ⟨hnda, hndb, fun x hx y hy => hab x hx y (by simp [hy])⟩
  · rw [List.mem_append]
    rintro (e | e)
    · exact h0a e
    · exact h0b e
  · cases b with
    | nil =>
      rw [List.append_nil]
      exact hsa
    | cons y b => exact seg_append.mpr ⟨hsa, hsb⟩

end DList
end
end OsZ
