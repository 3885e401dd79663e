import Mathlib.Data.List.Pairwise
import Mathlib.Tactic

/-!
# Pieces of data laid over each other

A piece is a run of values from a position on.  In a list of pieces the first one that covers a
position decides its value.

* `overlay ps p`        the value at `p`, if some piece covers it;
* `patch c ps`          the contents `c` under the pieces `ps`;
* `InOrder ps`          the pieces are sorted and no two of them share a position;
* `writeOut c ps`       the pieces written to `c` one after the other.
-/

namespace OsZ

structure Piece (α : Type*) where
  offs : Nat
  size : Nat
  data : Nat → α

variable {α : Type*}

namespace Piece

def stop (a : Piece α) : Nat := a.offs + a.size

def Covers (a : Piece α) (p : Nat) : Prop := a.offs ≤ p ∧ p < a.stop

instance (a : Piece α) (p : Nat) : Decidable (a.Covers p) := inferInstanceAs (Decidable (_ ∧ _))

end Piece

def overlay : List (Piece α) → Nat → Option α
  | [], _ => none
  | a :: l, p => if a.Covers p then some (a.data (p - a.offs)) else overlay l p

def patch (c : Nat → α) (ps : List (Piece α)) (p : Nat) : α := (overlay ps p).getD (c p)

def InOrder (ps : List (Piece α)) : Prop := ps.Pairwise (fun a b => a.stop ≤ b.offs)

/-- oldest write first -/
def writeOut (c : Nat → α) (ps : List (Piece α)) : Nat → α := ps.foldl (fun d a => patch d [a]) c

variable {a : Piece α} {ps qs : List (Piece α)} {c : Nat → α} {p : Nat}

theorem overlay_cons_of_covers (h : a.Covers p) :
    overlay (a :: ps) p = some (a.data (p - a.offs)) := if_pos h

theorem overlay_cons_of_not (h : ¬ a.Covers p) : overlay (a :: ps) p = overlay ps p := if_neg h

@[simp] theorem patch_nil : patch c [] p = c p := rfl

theorem patch_cons_of_covers (h : a.Covers p) : patch c (a :: ps) p = a.data (p - a.offs) := by
  rw [patch, overlay_cons_of_covers h, Option.getD_some]

theorem patch_cons_of_not (h : ¬ a.Covers p) : patch c (a :: ps) p = patch c ps p := by
  rw [patch, overlay_cons_of_not h, patch]

@[simp] theorem writeOut_singleton : writeOut c [a] = patch c [a] := rfl

end OsZ
