import OsZ.Lib.Copy
import Mathlib.Data.PNat.Basic

/-!
# The path stack (`pathpush` and `pathpop` of `fs/vfs.c`)

The stack is an array of 64 entries of 16 bytes at the address `b`, and the number of entries in use.

* `pathpush`, `pathpop`   the two functions;
* `boundPush`             pushing on a bounded stack: when it is full the oldest entry goes;
* `StackHolds`            the entries in use are those of a list, the oldest one first;
* `pathRun_eq`            every run gives what the bounded stack of lists gives.
-/

namespace OsZ

abbrev PathEntry := BitVec 64 × BitVec 64

structure PathState where
  mem : Nat → UInt8
  idx : Nat

def pathstackSize : Nat := 64

/-- `pathstack[k]`: the fields `inode` and `path` -/
def pathEntry (f : Nat → UInt8) (b k : Nat) : PathEntry :=
  (BitVec.ofNat 64 (le64 f (b + 16 * k)), BitVec.ofNat 64 (le64 f (b + 16 * k + 8)))

def putEntry (f : Nat → UInt8) (b k : Nat) (e : PathEntry) : Nat → UInt8 :=
  putLe (putLe f (b + 16 * k) 8 e.1.toNat) (b + 16 * k + 8) 8 e.2.toNat

def pathpush (b : Nat) (s : PathState) (e : PathEntry) : PathState :=
  if s.idx = pathstackSize then
    ⟨putEntry (memcpy s.mem b (b + 16) ((pathstackSize - 1) * 16)) b (pathstackSize - 1) e, s.idx⟩
  else ⟨putEntry s.mem b s.idx e, s.idx + 1⟩

/-- the pointer, or NULL -/
def pathpop (b : Nat) (s : PathState) : Option Nat × PathState :=
  if s.idx = 0 then (none, s) else (some (b + 16 * (s.idx - 1)), { s with idx := s.idx - 1 })

inductive PathOp where
  | push (e : PathEntry)
  | pop

/-- what the pops of a run point to, and the state behind it -/
def pathRun (b : Nat) : PathState → List PathOp → List (Option PathEntry) × PathState
  | s, [] => ([], s)
  | s, .push e :: ops => pathRun b (pathpush b s e) ops
  | s, .pop :: ops =>
    let r := pathpop b s
    let t := pathRun b r.2 ops
    (r.1.map (pathEntry r.2.mem · 0) :: t.1, t.2)

/-! ## the bounded stack -/

section
variable {α : Type*}

def boundPush (cap : Nat) (l : List α) (e : α) : List α := if l.length = cap then l.tail ++ [e] else l ++ [e]

theorem boundPush_length {cap : Nat} {l : List α} (hc : 0 < cap) (h : l.length ≤ cap) (e : α) :
    (boundPush cap l e).length ≤ cap := by
  unfold boundPush
  split_ifs with hfull
  · rw [List.length_append, List.length_tail, List.length_singleton]
    omega
  · rw [List.length_append, List.length_singleton]
    omega

end

def stackRun : List PathEntry → List PathOp → List (Option PathEntry) × List PathEntry
  | l, [] => ([], l)
  | l, .push e :: ops => stackRun (boundPush pathstackSize l e) ops
  | l, .pop :: ops =>
    let t := stackRun l.dropLast ops
    (l.getLast? :: t.1, t.2)

/-! ## entries in memory -/

section
variable {f : Nat → UInt8} {b k j : Nat} {e : PathEntry} {s : PathState} {l : List PathEntry}

theorem pathEntry_putEntry : pathEntry (putEntry f b k e) b k = e := by
  unfold pathEntry putEntry
  rw [le64_putLe_out (by omega), le64_putLe e.1.isLt, le64_putLe e.2.isLt, BitVec.ofNat_toNat, BitVec.ofNat_toNat,
    BitVec.setWidth_eq, BitVec.setWidth_eq]

theorem pathEntry_putEntry_ne (h : j ≠ k) : pathEntry (putEntry f b k e) b j = pathEntry f b j := by
  unfold pathEntry putEntry
  rw [le64_putLe_out (by omega), le64_putLe_out (by omega), le64_putLe_out (by omega), le64_putLe_out (by omega)]

/-- the entries move down by one; here the ranges of `memcpy` overlap -/
theorem pathEntry_memcpy (hb : 0 < b) (hk : k < 63) :
    pathEntry (memcpy f b (b + 16) ((pathstackSize - 1) * 16)) b k = pathEntry f b (k + 1) := by
  have hword : ∀ o, o + 8 ≤ 1008 → le64 (memcpy f b (b + 16) ((pathstackSize - 1) * 16)) (b + o) =
    le64 f (b + 16 + o) := by
    intro o ho
    rw [memcpy_eq (by omega) (by omega) (by omega), le64, leBytes_store_in (by exact ho), leBytes_add]
    rfl
  unfold pathEntry
  rw [hword (16 * k) (by omega), Nat.add_assoc b (16 * k), hword (16 * k + 8) (by omega),
    show b + 16 + 16 * k = b + 16 * (k + 1) by omega, show b + 16 + (16 * k + 8) = b + 16 * (k + 1) + 8 by omega]

structure StackHolds (b : Nat) (s : PathState) (l : List PathEntry) : Prop where
  idx : s.idx = l.length
  bound : l.length ≤ pathstackSize
  entries : ∀ k (h : k < l.length), pathEntry s.mem b k = l[k]

theorem StackHolds.push (h : StackHolds b s l) (hb : 0 < b) (e : PathEntry) :
    StackHolds b (pathpush b s e) (boundPush pathstackSize l e) := by
  have hidx := h.idx
  have hbound := boundPush_length (by decide) h.bound e
  unfold pathpush
  unfold boundPush at hbound ⊢
  by_cases hfull : l.length = pathstackSize
  · rw [if_pos hfull] at hbound ⊢
    rw [if_pos (hidx.trans hfull)]
    have h64 : l.length = 64 := hfull
    refine ⟨by simp [hidx, h64], hbound, fun k hk => ?_⟩
    have hlt : k < 64 := lt_of_lt_of_le hk hbound
    dsimp only
    by_cases hlast : k = 63
    · subst hlast
      rw [List.getElem_append_right (by simp [h64])]
      simp only [List.length_tail, h64, List.getElem_singleton]
      exact pathEntry_putEntry
    · rw [pathEntry_putEntry_ne (show k ≠ pathstackSize - 1 from hlast), pathEntry_memcpy hb (by omega),
        h.entries (k + 1) (by omega),
        List.getElem_append_left (by rw [List.length_tail]; omega), List.getElem_tail]
  · rw [if_neg hfull] at hbound ⊢
    rw [if_neg (hidx ▸ hfull)]
    refine ⟨by simp [hidx], hbound, fun k hk => ?_⟩
    dsimp only
    rw [hidx]
    rcases Nat.lt_or_ge k l.length with hlt | hge
    · rw [pathEntry_putEntry_ne (by omega), h.entries k hlt, List.getElem_append_left hlt]
    · rw [List.length_append, List.length_singleton] at hk
      obtain rfl : k = l.length := by omega
      rw [pathEntry_putEntry, List.getElem_concat_length rfl]

theorem StackHolds.pop (h : StackHolds b s l) :
    StackHolds b (pathpop b s).2 l.dropLast ∧ (pathpop b s).1.map (pathEntry (pathpop b s).2.mem · 0) = l.getLast? := by
  have hidx := h.idx
  have hbound := h.bound
  unfold pathpop
  by_cases h0 : s.idx = 0
  · obtain rfl : l = [] := List.eq_nil_of_length_eq_zero (hidx.symm.trans h0)
    rw [if_pos h0]
    exact ⟨h, rfl⟩
  · rw [if_neg h0]
    have hlen : l.dropLast.length = l.length - 1 := List.length_dropLast
    refine ⟨⟨by simp [hidx], by omega, fun k hk => ?_⟩, ?_⟩
    · rw [List.getElem_dropLast]
      exact h.entries k (by omega)
    · rw [List.getLast?_eq_getElem?, List.getElem?_eq_getElem (by omega), ← h.entries _ (by omega), hidx]
      rfl

end

theorem StackHolds.run {b : Nat} (hb : 0 < b) (ops : List PathOp) {s : PathState} {l : List PathEntry}
    (h : StackHolds b s l) :
    (pathRun b s ops).1 = (stackRun l ops).1 ∧ StackHolds b (pathRun b s ops).2 (stackRun l ops).2 := by
  induction ops generalizing s l with
  | nil => exact ⟨rfl, h⟩
  | cons op ops ih =>
    cases op with
    | push e => exact ih (h.push hb e)
    | pop =>
      obtain ⟨hstate, hout⟩ := h.pop
      obtain ⟨houts, hend⟩ := ih hstate
      rw [pathRun, stackRun]
      dsimp only
      rw [hout, houts]
      exact ⟨rfl, hend⟩

theorem pathRun_eq (b : ℕ+) (f : Nat → UInt8) (ops : List PathOp) :
    (pathRun b ⟨f, 0⟩ ops).1 = (stackRun [] ops).1 ∧ StackHolds b (pathRun b ⟨f, 0⟩ ops).2 (stackRun [] ops).2 :=
  StackHolds.run b.pos ops ⟨rfl, Nat.zero_le _, fun k hk => absurd hk (Nat.not_lt_zero k)⟩

end OsZ
