import Mathlib.Data.List.Nodup
import Mathlib.Tactic

/-!
# Singly linked lists

Nodes are numbers, 0 is no node; `next` is the link field of the nodes.

* `SList next hd l`     `l` are the nodes of the list that starts at `hd` and ends with 0;
* `SList.nodup`         such a list has no cycle;
* `Chained next hd x`   walking from `hd` comes to `x`;
* `SList.frame`         lists depend on the fields of their nodes only;
* `SList.pushed`, `SList.inserted`  a node becomes the first one, or is put behind another;
* `SList.removed`, `SList.fronted`  a node behind another one is taken out, or becomes the first one;
* `SList.walk`, `SList.search`  the loop over all nodes, and up to the first node of a kind; a list
  may have a cycle, so both count their rounds.
-/

namespace OsZ

def SList (next : Nat → Nat) : Nat → List Nat → Prop
  | hd, [] => hd = 0
  | hd, x :: l => hd = x ∧ x ≠ 0 ∧ SList next (next x) l

inductive Chained (next : Nat → Nat) (hd : Nat) : Nat → Prop
  | head (h : hd ≠ 0) : Chained next hd hd
  | next {x : Nat} (h : Chained next hd x) (h0 : next x ≠ 0) : Chained next hd (next x)

variable {next next' : Nat → Nat} {hd p a x : Nat} {l l' A B : List Nat}

theorem Chained.cons (h : Chained next (next hd) x) (h0 : hd ≠ 0) : Chained next hd x := by
  induction h with
  | head h1 => exact .next (.head h0) h1
  | next _ h1 ih => exact .next ih h1

namespace SList

theorem ne_zero (h : SList next hd l) (hx : x ∈ l) : x ≠ 0 := by
  induction l generalizing hd with
  | nil => cases hx
  | cons y l ih =>
    obtain ⟨-, h0, h⟩ := h
    obtain rfl | hx := List.mem_cons.mp hx
    · exact h0
    · exact ih h hx

theorem eq_cons (h : SList next hd l) (h0 : hd ≠ 0) : ∃ l', l = hd :: l' := by
  cases l with
  | nil => exact absurd h h0
  | cons y l => exact ⟨l, by rw [h.1]⟩

theorem drop (h : SList next hd (A ++ x :: B)) : SList next (next x) B := by
  induction A generalizing hd with
  | nil => exact h.2.2
  | cons y A ih => exact ih h.2.2

theorem unique (h : SList next hd l) (h' : SList next hd l') : l = l' := by
  induction l generalizing hd l' with
  | nil =>
    cases l' with
    | nil => rfl
    | cons y l' => exact absurd (h'.1.symm.trans h) h'.2.1
  | cons x l ih =>
    cases l' with
    | nil => exact absurd (h.1.symm.trans h') h.2.1
    | cons y l' =>
      obtain rfl : x = y := h.1.symm.trans h'.1
      rw [ih h.2.2 h'.2.2]

/-- a node that occurred again would be followed by two different lists -/
theorem nodup (h : SList next hd l) : l.Nodup := by
  induction l generalizing hd with
  | nil => exact List.nodup_nil
  | cons x l ih =>
    refine List.nodup_cons.mpr ⟨fun hx => ?_, ih h.2.2⟩
    obtain ⟨A, B, rfl⟩ := List.append_of_mem hx
    have he := congrArg List.length (h.2.2.unique (drop h.2.2))
    simp only [List.length_append, List.length_cons] at he
    omega

theorem head_eq (h : SList next hd (x :: l)) : hd = x := h.1

theorem next_ne_self (h : SList next hd l) (h0 : hd ≠ 0) : next hd ≠ hd := by
  intro e
  obtain ⟨l', rfl⟩ := h.eq_cons h0
  have h' := h.2.2
  rw [e] at h'
  obtain ⟨l'', rfl⟩ := h'.eq_cons h0
  exact (List.nodup_cons.mp h.nodup).1 (List.mem_cons_self ..)

theorem next_mem (h : SList next hd l) (hx : x ∈ l) (h0 : next x ≠ 0) : next x ∈ l := by
  obtain ⟨A, B, rfl⟩ := List.append_of_mem hx
  obtain ⟨B', rfl⟩ := (drop h).eq_cons h0
  simp

theorem mem_iff (h : SList next hd l) : x ∈ l ↔ Chained next hd x := by
  constructor
  · intro hx
    induction l generalizing hd with
    | nil => cases hx
    | cons y l ih =>
      obtain ⟨rfl, h0, h⟩ := h
      obtain rfl | hx := List.mem_cons.mp hx
      · exact .head h0
      · exact (ih h hx).cons h0
  · intro hx
    induction hx with
    | head h0 =>
      obtain ⟨l', rfl⟩ := h.eq_cons h0
      exact List.mem_cons_self ..
    | next _ h0 ih => exact h.next_mem ih h0

theorem frame (h : SList next hd l) (hn : ∀ x ∈ l, next' x = next x) : SList next' hd l := by
  induction l generalizing hd with
  | nil => exact h
  | cons y l ih =>
    refine ⟨h.1, h.2.1, ?_⟩
    rw [hn y (List.mem_cons_self ..)]
    exact ih h.2.2 (fun x hx => hn x (List.mem_cons_of_mem _ hx))

theorem pushed (h : SList next hd l) (hp : p ∉ l) (hp0 : p ≠ 0) (he : next' p = hd)
    (hn : ∀ x ≠ p, next' x = next x) : SList next' p (p :: l) := by
  refine ⟨rfl, hp0, ?_⟩
  rw [he]
  exact h.frame (fun x hx => hn x (fun e => hp (e ▸ hx)))

theorem inserted (h : SList next hd (A ++ a :: B)) (hp : p ∉ A ++ a :: B) (hp0 : p ≠ 0)
    (ha : next' a = p) (he : next' p = next a) (hn : ∀ x, x ≠ a → x ≠ p → next' x = next x) :
    SList next' hd (A ++ a :: p :: B) := by
  induction A generalizing hd with
  | nil =>
    have hnd := (List.nodup_cons.mp h.nodup).1
    refine ⟨h.1, h.2.1, ?_⟩
    rw [ha]
    refine ⟨rfl, hp0, ?_⟩
    rw [he]
    refine h.2.2.frame (fun x hx => hn x (fun e => hnd (e ▸ hx)) (fun e => hp ?_))
    exact e ▸ List.mem_cons_of_mem _ hx
  | cons y A ih =>
    have hy : y ≠ a := by
      rintro rfl
      exact (List.nodup_cons.mp h.nodup).1 (by simp)
    refine ⟨h.1, h.2.1, ?_⟩
    rw [hn y hy (fun e => hp (by simp [e]))]
    exact ih h.2.2 (fun hm => hp (List.mem_cons_of_mem _ hm))

/-- the node behind `a` is taken out; its own link may be anything -/
theorem removed (h : SList next hd (A ++ a :: x :: B)) (ha : next' a = next x)
    (hn : ∀ y, y ≠ a → y ≠ x → next' y = next y) : SList next' hd (A ++ a :: B) := by
  induction A generalizing hd with
  | nil =>
    have hnd := List.nodup_cons.mp h.nodup
    have hx := (List.nodup_cons.mp hnd.2).1
    refine ⟨h.1, h.2.1, ?_⟩
    rw [ha]
    refine h.2.2.2.2.frame (fun y hy => hn y (fun e => hnd.1 ?_) (fun e => hx (e ▸ hy)))
    exact e ▸ List.mem_cons_of_mem _ hy
  | cons y A ih =>
    have hy := (List.nodup_cons.mp h.nodup).1
    refine ⟨h.1, h.2.1, ?_⟩
    rw [hn y (fun e => hy (by simp [e])) (fun e => hy (by simp [e]))]
    exact ih h.2.2

theorem fronted (h : SList next hd (A ++ a :: x :: B)) (ha : next' a = next x) (hx : next' x = hd)
    (hn : ∀ y, y ≠ a → y ≠ x → next' y = next y) : SList next' x (x :: (A ++ a :: B)) := by
  refine ⟨rfl, h.ne_zero (by simp), ?_⟩
  rw [hx]
  exact h.removed ha hn

/-! ## loops over a list -/

/-- the nodes from `hd` on, in at most `n` rounds -/
def walk (next : Nat → Nat) : Nat → Nat → Option (List Nat)
  | 0, hd => if hd = 0 then some [] else none
  | n+1, hd => if hd = 0 then some [] else (walk next n (next hd)).map (hd :: ·)

/-- `for(c=hd;c!=NULL;c=c->next) { if(p(c)) break; l=c; }` in at most `n` rounds: the last values of
`l` and `c`, or `some none` when `c` is NULL -/
def search (next : Nat → Nat) (p : Nat → Bool) : Nat → Nat → Nat → Option (Option (Nat × Nat))
  | 0, _, c => if c = 0 then some none else none
  | n+1, l, c => if c = 0 then some none else if p c then some (some (l, c)) else search next p n c (next c)

theorem walk_eq (h : SList next hd l) {n : Nat} (hn : l.length ≤ n) : walk next n hd = some l := by
  induction l generalizing hd n with
  | nil =>
    have h0 : hd = 0 := h
    cases n <;> simp [walk, h0]
  | cons x l ih =>
    obtain ⟨rfl, h0, h⟩ := h
    cases n with
    | zero => simp at hn
    | succ n =>
      rw [walk, if_neg h0, ih h (by simpa using hn)]
      rfl

theorem of_walk {n : Nat} (h : walk next n hd = some l) : SList next hd l := by
  induction n generalizing hd l with
  | zero =>
    rw [walk] at h
    split at h
    · next h0 => cases h; exact h0
    · cases h
  | succ n ih =>
    rw [walk] at h
    split at h
    · next h0 => cases h; exact h0
    · next h0 =>
      obtain ⟨l', hl', rfl⟩ := Option.map_eq_some_iff.mp h
      exact ⟨rfl, h0, ih hl'⟩

variable {q : Nat → Bool} {n k : Nat}

theorem search_total (h : SList next hd l) (hn : l.length ≤ n) :
    ∃ r, search next q n k hd = some r := by
  induction l generalizing hd n k with
  | nil =>
    have h0 : hd = 0 := h
    exact ⟨none, by cases n <;> simp [search, h0]⟩
  | cons x l ih =>
    obtain ⟨rfl, h0, h⟩ := h
    cases n with
    | zero => simp at hn
    | succ n =>
      rw [search, if_neg h0]
      by_cases hq : q hd = true
      · exact ⟨_, if_pos hq⟩
      · rw [if_neg hq]
        exact ih h (by simpa using hn)

theorem search_cases {r : Option (Nat × Nat)} (h : SList next hd l) (hs : search next q n k hd = some r) :
    (r = none ∧ ∀ x ∈ l, q x = false) ∨ ∃ A c B, l = A ++ c :: B ∧ (∀ x ∈ A, q x = false) ∧
      q c = true ∧ r = some (A.getLast?.getD k, c) := by
  induction l generalizing hd n k with
  | nil =>
    have h0 : hd = 0 := h
    refine Or.inl ⟨?_, fun x hx => absurd hx List.not_mem_nil⟩
    cases n <;> simp [search, h0] at hs <;> exact hs.symm
  | cons x l ih =>
    obtain ⟨rfl, h0, h⟩ := h
    cases n with
    | zero => rw [search, if_neg h0] at hs; cases hs
    | succ n =>
      rw [search, if_neg h0] at hs
      by_cases hq : q hd = true
      · rw [if_pos hq] at hs
        cases hs
        exact Or.inr ⟨[], hd, l, rfl, fun x hx => absurd hx List.not_mem_nil, hq, rfl⟩
      · rw [if_neg hq] at hs
        have hq' : q hd = false := by simpa using hq
        rcases ih h hs with ⟨hr, hall⟩ | ⟨A, c, B, rfl, hA, hc, rfl⟩
        · refine Or.inl ⟨hr, fun y hy => ?_⟩
          obtain rfl | hy := List.mem_cons.mp hy
          · exact hq'
          · exact hall y hy
        · refine Or.inr ⟨hd :: A, c, B, rfl, fun y hy => ?_, hc, ?_⟩
          · obtain rfl | hy := List.mem_cons.mp hy
            · exact hq'
            · exact hA y hy
          · cases A with
            | nil => rfl
            | cons y A => rw [List.getLast?_cons_cons, List.getLast?_cons]; rfl

/-- a node that is its own successor is not left -/
theorem search_loop {c : Nat} (h0 : c ≠ 0) (he : next c = c) (hq : q c = false) :
    search next q n k c = none := by
  induction n generalizing k with
  | zero => exact if_neg h0
  | succ n ih =>
    rw [search, if_neg h0, hq, if_neg Bool.false_ne_true, he]
    exact ih

/-- the search stays in a set that is closed under `next` -/
theorem search_closed {S : Set Nat} (hS : ∀ x ∈ S, next x = 0 ∨ next x ∈ S) {l c : Nat} (hc : hd = 0 ∨ hd ∈ S)
    (hk : k = 0 ∨ k ∈ S) (h : search next q n k hd = some (some (l, c))) : c ∈ S ∧ (l = 0 ∨ l ∈ S) := by
  induction n generalizing hd k with
  | zero =>
    rw [search] at h
    split at h <;> cases h
  | succ n ih =>
    rw [search] at h
    split at h
    · cases h
    · next h0 =>
      have hd' := hc.resolve_left h0
      split at h
      · cases h
        exact ⟨hd', hk⟩
      · exact ih (hS hd hd') (Or.inr hd') h

end SList

theorem Chained.closed {S : Set Nat} (hS : ∀ x ∈ S, next x = 0 ∨ next x ∈ S) (hc : hd = 0 ∨ hd ∈ S)
    (h : Chained next hd x) : x ∈ S := by
  induction h with
  | head h0 => exact hc.resolve_left h0
  | next _ h0 ih => exact (hS _ ih).resolve_left h0

end OsZ
