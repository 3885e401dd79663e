import OsZ.Fs.Files
import OsZ.Base.SList

/-!
# Task contexts (`fs/taskctx.c`)

The contexts of the tasks are in a hash table with 256 chains; `pid & 0xFF` is the chain of a task.

* `taskctxGet`, `taskctxDel`  `taskctx_get(pid)`, `taskctx_del(pid)`;
* `ctxAt`           the context of a pid is found through the table;
* `Exact`           the table has one context for every pid of a set, and is counted right;
* `Buckets`         the chains as lists, and what the calls do to them;
* `contexts_exact`  every sequence of calls.

The loop of `taskctx_get` ends with `tc==NULL`, so a new context always becomes the only one of its chain;
the loop of `taskctx_del` stops at the last context of the chain.  New memory is cleared.
-/

namespace OsZ
open Function (update update_of_ne update_self)

/-- `taskctx_t` without the suspended message -/
structure TaskNode extends TaskFiles where
  pid : Nat
  rootdir : Nat
  workdir : Nat
  next : Nat

/-- an address 0 is NULL -/
structure CtxState where
  files : FileState
  head : Nat → Nat
  node : Nat → TaskNode
  ntaskctx : Nat

namespace CtxState

def next (s : CtxState) (x : Nat) : Nat := (s.node x).next
def pid (s : CtxState) (x : Nat) : Nat := (s.node x).pid

/-- the new context gets `fcb[0]` as root and working directory -/
def add (s : CtxState) (pid x : Nat) : CtxState where
  files := { s.files with nopen := update s.files.nopen 0 (w64 (s.files.nopen 0 + 2)) }
  head := update s.head (pid % 256) x
  node := update s.node x ⟨⟨⟨0, 0, []⟩, 0⟩, pid, 0, 0, 0⟩
  ntaskctx := w64 (s.ntaskctx + 1)

/-- `c` is unlinked, where `l` is the context before it -/
def unlink (s : CtxState) (j l c : Nat) : CtxState :=
  { s with
    head := if l = 0 then update s.head j (s.next c) else s.head
    node := if l = 0 then s.node else update s.node l { s.node l with next := s.next c }
    ntaskctx := sub64 s.ntaskctx 1 }

end CtxState

/-- `x` is what `malloc` returns -/
def taskctxGet (fuel : Nat) (s : CtxState) (pid x : Nat) : Option (CtxState × Nat) :=
  (SList.search s.next (fun c => decide (s.pid c = pid)) fuel 0 (s.head (pid % 256))).map (fun
    | some (_, c) => (s, c)
    | none => if x = 0 then (s, 0) else (s.add pid x, x))

/-- the context that is going to be removed, and the one before it -/
def taskctxFound (fuel : Nat) (s : CtxState) (pid : Nat) : Option (Nat × Nat) :=
  (SList.search s.next (fun c => decide (s.next c = 0) || decide (s.pid c = pid)) fuel 0 (s.head (pid % 256))).join

/-- the file control blocks a context refers to -/
def releaseCtx (fuel : Nat) (s : FileState) (tc : TaskNode) : Option FileState := do
  let s ← fcbDel fuel s tc.workdir
  let s ← fcbDel fuel s tc.rootdir
  tc.openfiles.foldlM (fun s fd => fcbDel fuel s fd.fid) s

def taskctxDel (fuel : Nat) (s : CtxState) (pid : Nat) : Option CtxState :=
  if s.head (pid % 256) = 0 then some s
  else
    (taskctxFound fuel s pid).bind (fun r =>
      let s' := s.unlink (pid % 256) r.1 r.2
      (releaseCtx fuel s'.files (s'.node r.2)).map (fun files => { s' with files := files }))

/-! ## what the table is for -/

/-- walking through the chain of `pid` comes to a context of it -/
def ctxAt (s : CtxState) (pid x : Nat) : Prop := Chained s.next (s.head (pid % 256)) x ∧ s.pid x = pid

structure Exact (s : CtxState) (M : Finset Nat) : Prop where
  reach : ∀ p, p ∈ M ↔ ∃ x, ctxAt s p x
  one : ∀ p x y, ctxAt s p x → ctxAt s p y → x = y
  /-- no context is in the chain of another pid -/
  home : ∀ j < 256, ∀ x, Chained s.next (s.head j) x → s.pid x % 256 = j
  count : s.ntaskctx = M.card

inductive CtxOp
  | get (pid x : Nat)
  | del (pid : Nat)
  | other

/-- a call, with the set of pids it should lead to, or a change of other fields -/
inductive CtxStep : CtxState × Finset Nat → CtxOp → CtxState × Finset Nat → Prop
  | get {s M pid x s'} (fuel new : Nat) : new ≠ 0 → new < 2^64 → (∀ j < 256, ¬ Chained s.next (s.head j) new) →
      taskctxGet fuel s pid new = some (s', x) → CtxStep (s, M) (.get pid x) (s', insert pid M)
  | del {s M pid s'} (fuel : Nat) : taskctxDel fuel s pid = some s' → CtxStep (s, M) (.del pid) (s', M.erase pid)
  | other {s s' M} : s'.head = s.head → s'.next = s.next → s'.pid = s.pid → s'.ntaskctx = s.ntaskctx →
      CtxStep (s, M) .other (s', M)

/-- the call returns and removes what it should, and the contexts of the other pids stay -/
def CtxOp.Ok (s s' : CtxState) : CtxOp → Prop
  | .get pid x => ctxAt s' pid x ∧ (∀ y, ctxAt s pid y → y = x) ∧ ∀ q ≠ pid, ∀ y, ctxAt s' q y ↔ ctxAt s q y
  | .del pid => ∀ q y, ctxAt s' q y ↔ ctxAt s q y ∧ q ≠ pid
  | .other => ∀ q y, ctxAt s' q y ↔ ctxAt s q y

/-- the pid has a context, or its chain is empty -/
def CtxOp.Safe (s : CtxState) : CtxOp → Prop
  | .get pid _ | .del pid => (∃ x, ctxAt s pid x) ∨ s.head (pid % 256) = 0
  | .other => True

/-! ## chains -/

structure Buckets (s : CtxState) (L : Nat → List Nat) : Prop where
  list : ∀ j < 256, SList s.next (s.head j) (L j)
  home : ∀ j < 256, ∀ x ∈ L j, s.pid x % 256 = j
  addr : ∀ j < 256, ∀ x ∈ L j, x < 2^64
  pids : ∀ j < 256, ∀ x ∈ L j, ∀ y ∈ L j, s.pid x = s.pid y → x = y

section
variable {s s' : CtxState} {L : Nat → List Nat} {M : Finset Nat} {p q x y l c new fuel : Nat} {op : CtxOp}

theorem mod_lt_256 (p : Nat) : p % 256 < 256 := Nat.mod_lt p (by decide)

theorem Buckets.ctxAt_iff (h : Buckets s L) : ctxAt s p x ↔ x ∈ L (p % 256) ∧ s.pid x = p := by
  unfold ctxAt
  rw [(h.list _ (mod_lt_256 p)).mem_iff]

theorem Buckets.card_lt (h : Buckets s L) (hM : ∀ p ∈ M, ∃ x, ctxAt s p x) : M.card < 2^64 := by
  choose! f hf using hM
  have hmaps : ∀ p ∈ M, f p ∈ Finset.Ioo 0 (2^64) := by
    intro p hp
    have hx := (h.ctxAt_iff.mp (hf p hp)).1
    exact Finset.mem_Ioo.mpr ⟨Nat.pos_of_ne_zero ((h.list _ (mod_lt_256 p)).ne_zero hx), h.addr _ (mod_lt_256 p) _ hx⟩
  have hinj : Set.InjOn f M := by
    intro p hp q hq e
    rw [← (hf p hp).2, ← (hf q hq).2, e]
  have hle := Finset.card_le_card_of_injOn f hmaps hinj
  rw [Nat.card_Ioo] at hle
  omega

theorem Buckets.exact (h : Buckets s L) (hM : ∀ p, p ∈ M ↔ ∃ x, ctxAt s p x) (hc : s.ntaskctx = M.card) :
    Exact s M := by
  refine ⟨hM, fun p x y hx hy => ?_, fun j hj x hx => ?_, hc⟩
  · rw [h.ctxAt_iff] at hx hy
    exact h.pids _ (mod_lt_256 p) x hx.1 y hy.1 (hx.2.trans hy.2.symm)
  · exact h.home j hj x ((h.list j hj).mem_iff.mpr hx)

theorem Buckets.of_eq (h : Buckets s L) (h1 : s'.head = s.head) (h2 : s'.next = s.next) (h3 : s'.pid = s.pid) :
    Buckets s' L := by
  refine ⟨?_, ?_, h.addr, ?_⟩
  · rw [h1, h2]
    exact h.list
  · rw [h3]
    exact h.home
  · rw [h3]
    exact h.pids

/-! ## a new context -/

theorem add_next (s : CtxState) (p new x : Nat) : (s.add p new).next x = if x = new then 0 else s.next x := by
  show (update s.node new _ x).next = _
  rcases eq_or_ne x new with rfl | h
  · rw [update_self, if_pos rfl]
  · rw [update_of_ne h, if_neg h]
    rfl

theorem add_pid (s : CtxState) (p new x : Nat) : (s.add p new).pid x = if x = new then p else s.pid x := by
  show (update s.node new _ x).pid = _
  rcases eq_or_ne x new with rfl | h
  · rw [update_self, if_pos rfl]
  · rw [update_of_ne h, if_neg h]
    rfl

theorem Buckets.add (h : Buckets s L) (h0 : new ≠ 0) (hlt : new < 2^64) (hf : ∀ j < 256, new ∉ L j) (p : Nat) :
    Buckets (s.add p new) (update L (p % 256) [new]) := by
  have hother {j : Nat} (hj : j < 256) {x : Nat} (hx : x ∈ L j) :
      (s.add p new).next x = s.next x ∧ (s.add p new).pid x = s.pid x := by
    have hne : x ≠ new := fun e => hf j hj (e ▸ hx)
    rw [add_next, add_pid, if_neg hne, if_neg hne]
    exact ⟨rfl, rfl⟩
  have hpid : (s.add p new).pid new = p := by rw [add_pid, if_pos rfl]
  refine ⟨fun j hj => ?_, fun j hj x hx => ?_, fun j hj x hx => ?_, fun j hj x hx y hy e => ?_⟩
  · show SList _ (update s.head (p % 256) new j) _
    rcases eq_or_ne j (p % 256) with rfl | hne
    · rw [update_self, update_self]
      refine ⟨rfl, h0, ?_⟩
      rw [add_next, if_pos rfl]
      rfl
    · rw [update_of_ne hne, update_of_ne hne]
      exact (h.list j hj).frame (fun x hx => (hother hj hx).1)
  · rcases eq_or_ne j (p % 256) with rfl | hne
    · rw [update_self, List.mem_singleton] at hx
      rw [hx, hpid]
    · rw [update_of_ne hne] at hx
      rw [(hother hj hx).2]
      exact h.home j hj x hx
  · rcases eq_or_ne j (p % 256) with rfl | hne
    · rw [update_self, List.mem_singleton] at hx
      rw [hx]
      exact hlt
    · rw [update_of_ne hne] at hx
      exact h.addr j hj x hx
  · rcases eq_or_ne j (p % 256) with rfl | hne
    · rw [update_self, List.mem_singleton] at hx hy
      exact hx.trans hy.symm
    · rw [update_of_ne hne] at hx hy
      rw [(hother hj hx).2, (hother hj hy).2] at e
      exact h.pids j hj x hx y hy e

theorem ctxAt_add (h : Buckets s L) (h0 : new ≠ 0) (hlt : new < 2^64) (hf : ∀ j < 256, new ∉ L j) :
    ctxAt (s.add p new) q x ↔ if q % 256 = p % 256 then x = new ∧ q = p else ctxAt s q x := by
  rw [(h.add h0 hlt hf p).ctxAt_iff, add_pid]
  by_cases hq : q % 256 = p % 256
  · rw [if_pos hq, hq, update_self, List.mem_singleton]
    constructor
    · rintro ⟨rfl, e⟩
      rw [if_pos rfl] at e
      exact ⟨rfl, e.symm⟩
    · rintro ⟨rfl, rfl⟩
      exact ⟨rfl, if_pos rfl⟩
  · rw [if_neg hq, update_of_ne hq, h.ctxAt_iff]
    constructor
    · rintro ⟨hx, e⟩
      have hne : x ≠ new := fun e' => hf _ (mod_lt_256 q) (e' ▸ hx)
      rw [if_neg hne] at e
      exact ⟨hx, e⟩
    · rintro ⟨hx, e⟩
      have hne : x ≠ new := fun e' => hf _ (mod_lt_256 q) (e' ▸ hx)
      rw [if_neg hne]
      exact ⟨hx, e⟩

theorem taskctxGet_cases (h : Buckets s L) (h0 : new ≠ 0) (hg : taskctxGet fuel s p new = some (s', x)) :
    (s' = s ∧ ctxAt s p x) ∨ ((∀ y, ¬ ctxAt s p y) ∧ s' = s.add p new ∧ x = new) := by
  unfold taskctxGet at hg
  obtain ⟨r, hr, hg⟩ := Option.map_eq_some_iff.mp hg
  rcases SList.search_cases (h.list _ (mod_lt_256 p)) hr with ⟨rfl, hall⟩ | ⟨A, c, B, hl, -, hc, rfl⟩
  · right
    dsimp only at hg
    rw [if_neg h0] at hg
    cases hg
    refine ⟨fun y hy => ?_, rfl, rfl⟩
    obtain ⟨hm, e⟩ := h.ctxAt_iff.mp hy
    exact of_decide_eq_false (hall y hm) e
  · left
    cases hg
    refine ⟨rfl, h.ctxAt_iff.mpr ⟨?_, of_decide_eq_true hc⟩⟩
    rw [hl]
    simp

theorem taskctxGet_returns (h : Buckets s L) (p new : Nat) : ∃ fuel r, taskctxGet fuel s p new = some r := by
  obtain ⟨r, hr⟩ := SList.search_total (q := fun c => decide (s.pid c = p)) (k := 0) (h.list _ (mod_lt_256 p)) le_rfl
  refine ⟨(L (p % 256)).length, ?_⟩
  unfold taskctxGet
  rw [hr]
  exact ⟨_, rfl⟩

/-! ## a context is removed -/

theorem unlink_pid (s : CtxState) (j l c x : Nat) : (s.unlink j l c).pid x = s.pid x := by
  unfold CtxState.unlink CtxState.pid
  dsimp only
  split
  · rfl
  · rcases eq_or_ne x l with rfl | h
    · rw [update_self]
    · rw [update_of_ne h]

theorem unlink_next (s : CtxState) (j l c x : Nat) (h0 : l ≠ 0) :
    (s.unlink j l c).next x = if x = l then s.next c else s.next x := by
  unfold CtxState.unlink CtxState.next
  dsimp only
  rw [if_neg h0]
  rcases eq_or_ne x l with rfl | h
  · rw [update_self, if_pos rfl]
  · rw [update_of_ne h, if_neg h]

theorem Buckets.unlink {A B : List Nat} {j : Nat} (h : Buckets s L) (hj : j < 256) (hl : L j = A ++ c :: B) :
    Buckets (s.unlink j (A.getLast?.getD 0) c) (update L j (A ++ B)) := by
  have hsub {i x : Nat} (hx : x ∈ update L j (A ++ B) i) : x ∈ L i := by
    rcases eq_or_ne i j with rfl | hne
    · rw [update_self] at hx
      rw [hl, List.mem_append, List.mem_cons]
      rcases List.mem_append.mp hx with hx | hx
      · exact Or.inl hx
      · exact Or.inr (Or.inr hx)
    · rwa [update_of_ne hne] at hx
  have hlist := h.list j hj
  rw [hl] at hlist
  refine ⟨fun i hi => ?_, fun i hi x hx => ?_, fun i hi x hx => h.addr i hi x (hsub hx), fun i hi x hx y hy e => ?_⟩
  · rcases List.eq_nil_or_concat A with rfl | ⟨A', a, rfl⟩
    · show SList s.next (update s.head j (s.next c) i) _
      rcases eq_or_ne i j with rfl | hne
      · rw [update_self, update_self]
        exact hlist.drop (A := [])
      · rw [update_of_ne hne, update_of_ne hne]
        exact h.list i hi
    · rw [List.concat_eq_append] at hlist hl ⊢
      have hlast : ((A' ++ [a]).getLast?).getD 0 = a := by simp
      have ha0 : a ≠ 0 := hlist.ne_zero (by simp)
      rw [hlast]
      have hhead : (s.unlink j a c).head = s.head := if_neg ha0
      rw [hhead]
      rcases eq_or_ne i j with rfl | hne
      · rw [update_self, List.append_assoc]
        rw [List.append_assoc] at hlist
        refine SList.removed hlist ?_ (fun y hy _ => ?_)
        · rw [unlink_next _ _ _ _ _ ha0, if_pos rfl]
        · rw [unlink_next _ _ _ _ _ ha0, if_neg hy]
      · rw [update_of_ne hne]
        refine (h.list i hi).frame (fun x hx => ?_)
        rw [unlink_next _ _ _ _ _ ha0, if_neg]
        rintro rfl
        have hxj : x ∈ L j := by
          rw [hl]
          simp
        exact hne ((h.home i hi x hx).symm.trans (h.home j hj x hxj))
  · rw [unlink_pid]
    exact h.home i hi x (hsub hx)
  · rw [unlink_pid, unlink_pid] at e
    exact h.pids i hi x (hsub hx) y (hsub hy) e

theorem ctxAt_unlink {A B : List Nat} {j : Nat} (h : Buckets s L) (hj : j < 256) (hl : L j = A ++ c :: B) :
    ctxAt (s.unlink j (A.getLast?.getD 0) c) q x ↔ ctxAt s q x ∧ x ≠ c := by
  rw [(h.unlink hj hl).ctxAt_iff, h.ctxAt_iff, unlink_pid]
  have hnd := (h.list j hj).nodup
  rw [hl] at hnd
  have hc : c ∉ A ++ B := fun hm => by
    have := (List.nodup_middle.mp hnd)
    exact (List.nodup_cons.mp this).1 hm
  have hcj : c ∈ L j := by
    rw [hl]
    simp
  rcases eq_or_ne (q % 256) j with rfl | hne
  · rw [update_self, hl, List.mem_append, List.mem_append, List.mem_cons]
    constructor
    · rintro ⟨hx, e⟩
      exact ⟨⟨hx.imp id Or.inr, e⟩, fun e' => hc (List.mem_append.mpr (e' ▸ hx))⟩
    · rintro ⟨⟨hx, e⟩, hxc⟩
      exact ⟨hx.imp id (fun h' => h'.resolve_left hxc), e⟩
  · rw [update_of_ne hne]
    constructor
    · rintro ⟨hx, e⟩
      refine ⟨⟨hx, e⟩, ?_⟩
      rintro rfl
      exact hne ((h.home _ (mod_lt_256 q) x hx).symm.trans (h.home j hj x hcj))
    · rintro ⟨h1, -⟩
      exact h1

theorem taskctxFound_cases (h : Buckets s L) (hf : taskctxFound fuel s p = some (l, c)) :
    ∃ A B, L (p % 256) = A ++ c :: B ∧ l = A.getLast?.getD 0 ∧ (s.pid c = p ∨ ∀ y, ¬ ctxAt s p y) := by
  unfold taskctxFound at hf
  have hr := Option.join_eq_some_iff.mp hf
  rcases SList.search_cases (h.list _ (mod_lt_256 p)) hr with ⟨e, -⟩ | ⟨A, c', B, hl, hA, hc, e⟩
  · cases e
  · cases e
    refine ⟨A, B, hl, rfl, ?_⟩
    by_cases hp : s.pid c = p
    · exact Or.inl hp
    · right
      rintro y hy
      obtain ⟨hm, e⟩ := h.ctxAt_iff.mp hy
      have hnext : s.next c = 0 := by
        rw [Bool.or_eq_true, decide_eq_true_iff, decide_eq_true_iff] at hc
        exact hc.resolve_right hp
      -- nothing follows the last context, and the ones before it are of other pids
      have hB : B = [] := by
        have hlist := h.list _ (mod_lt_256 p)
        rw [hl] at hlist
        have := hlist.drop
        rw [hnext] at this
        cases B with
        | nil => rfl
        | cons b B => exact absurd this.1.symm this.2.1
      rw [hl, hB, List.mem_append, List.mem_singleton] at hm
      rcases hm with hm | rfl
      · have := hA y hm
        rw [Bool.or_eq_false_iff, decide_eq_false_iff_not, decide_eq_false_iff_not] at this
        exact this.2 e
      · exact hp e

theorem taskctxDel_cases (h : Buckets s L) (hd : taskctxDel fuel s p = some s') :
    (s.head (p % 256) = 0 ∧ s' = s) ∨ ∃ A B c, L (p % 256) = A ++ c :: B ∧ (s.pid c = p ∨ ∀ y, ¬ ctxAt s p y) ∧
      ∃ files, s' = { s.unlink (p % 256) (A.getLast?.getD 0) c with files := files } := by
  unfold taskctxDel at hd
  split at hd
  · next h0 => exact Or.inl ⟨h0, (Option.some.inj hd).symm⟩
  · obtain ⟨⟨l, c⟩, hf, hd⟩ := Option.bind_eq_some_iff.mp hd
    obtain ⟨files, -, rfl⟩ := Option.map_eq_some_iff.mp hd
    obtain ⟨A, B, hl, rfl, hp⟩ := taskctxFound_cases h hf
    exact Or.inr ⟨A, B, c, hl, hp, files, rfl⟩

theorem taskctxFound_returns (h : Buckets s L) (h0 : s.head (p % 256) ≠ 0) :
    ∃ fuel r, taskctxFound fuel s p = some r := by
  have hlist := h.list _ (mod_lt_256 p)
  obtain ⟨r, hr⟩ := SList.search_total (q := fun c => decide (s.next c = 0) || decide (s.pid c = p))
    (k := 0) hlist le_rfl
  refine ⟨(L (p % 256)).length, ?_⟩
  unfold taskctxFound
  rw [hr]
  rcases SList.search_cases hlist hr with ⟨-, hall⟩ | ⟨A, c, B, -, -, -, rfl⟩
  · -- the last context ends the loop
    obtain ⟨A, hA⟩ := hlist.eq_cons h0
    obtain ⟨B, b, hB⟩ := (List.eq_nil_or_concat (L (p % 256))).resolve_left (by rw [hA]; exact List.cons_ne_nil _ _)
    rw [List.concat_eq_append] at hB
    have hb := hall b (by rw [hB]; simp)
    rw [hB] at hlist
    have hnil : s.next b = 0 := hlist.drop
    rw [hnil] at hb
    cases hb
  · exact ⟨_, rfl⟩

/-! ## runs -/

/-- the chains and the set of pids -/
def ContextsInv (x : CtxState × Finset Nat) : Prop := Exact x.1 x.2 ∧ ∃ L, Buckets x.1 L

theorem head_zero_iff (h : Buckets s L) : s.head (p % 256) = 0 ↔ L (p % 256) = [] := by
  have hlist := h.list _ (mod_lt_256 p)
  constructor
  · intro h0
    rw [h0] at hlist
    cases hL : L (p % 256) with
    | nil => rfl
    | cons a l =>
      rw [hL] at hlist
      exact absurd hlist.1.symm hlist.2.1
  · intro hL
    rw [hL] at hlist
    exact hlist

/-- what a call should do, and the table behind it -/
def CtxOp.Right (x y : CtxState × Finset Nat) (op : CtxOp) : Prop := op.Ok x.1 y.1 ∧ Exact y.1 y.2

theorem get_right (he : Exact s M) (h : Buckets s L) (h0 : new ≠ 0) (hlt : new < 2^64) (hf : ∀ j < 256, new ∉ L j)
    (hg : taskctxGet fuel s p new = some (s', x)) :
    (∃ L', Buckets s' L') ∧ (CtxOp.Right (s, M) (s', insert p M) (.get p x) ↔ CtxOp.Safe s (.get p x)) := by
  rcases taskctxGet_cases h h0 hg with ⟨rfl, hx⟩ | ⟨hnone, rfl, rfl⟩
  · refine ⟨⟨L, h⟩, fun _ => Or.inl ⟨x, hx⟩, fun _ => ⟨⟨hx, fun y hy => he.one p y x hy hx, fun q _ y => Iff.rfl⟩, ?_⟩⟩
    have hp : p ∈ M := (he.reach p).mpr ⟨x, hx⟩
    show Exact s' (insert p M)
    rw [Finset.insert_eq_of_mem hp]
    exact he
  · have hB := h.add h0 hlt hf p
    have hat {q y} := ctxAt_add (p := p) (q := q) (x := y) h h0 hlt hf
    refine ⟨⟨_, hB⟩, fun hright => Or.inr ?_, fun hsafe => ?_⟩
    · -- the first context of the chain would be lost
      by_contra hne
      obtain ⟨l, hl⟩ := (h.list _ (mod_lt_256 p)).eq_cons hne
      have hmem : s.head (p % 256) ∈ L (p % 256) := by
        rw [hl]
        exact List.mem_cons_self ..
      have hhome := h.home _ (mod_lt_256 p) _ hmem
      have hold : ctxAt s (s.pid (s.head (p % 256))) (s.head (p % 256)) :=
        h.ctxAt_iff.mpr ⟨by rw [hhome]; exact hmem, rfl⟩
      have hq : s.pid (s.head (p % 256)) ≠ p := by
        intro e
        rw [e] at hold
        exact hnone _ hold
      have hnew := (hright.1.2.2 _ hq _).mpr hold
      rw [hat, if_pos hhome] at hnew
      exact hf _ (mod_lt_256 p) (hnew.1 ▸ hmem)
    · have hempty : L (p % 256) = [] := by
        rcases hsafe with ⟨y, hy⟩ | hz
        · exact absurd hy (hnone y)
        · exact (head_zero_iff h).mp hz
      have hrest {q y} (hq : q ≠ p) : ctxAt (s.add p x) q y ↔ ctxAt s q y := by
        rw [hat]
        split
        · next hm =>
          constructor
          · rintro ⟨-, e⟩
            exact absurd e hq
          · intro hy
            have := (h.ctxAt_iff.mp hy).1
            rw [hm, hempty] at this
            cases this
        · exact Iff.rfl
      have hself : ctxAt (s.add p x) p x := by
        rw [hat, if_pos rfl]
        exact ⟨rfl, rfl⟩
      have hreach : ∀ q, q ∈ insert p M ↔ ∃ y, ctxAt (s.add p x) q y := by
        intro q
        rw [Finset.mem_insert]
        rcases eq_or_ne q p with rfl | hq
        · exact ⟨fun _ => ⟨x, hself⟩, fun _ => Or.inl rfl⟩
        · simp only [hrest hq, ← he.reach q, hq, false_or]
      have hp : p ∉ M := by
        intro hp
        obtain ⟨y, hy⟩ := (he.reach p).mp hp
        exact hnone y hy
      refine ⟨⟨hself, fun y hy => absurd hy (hnone y), fun q hq y => hrest hq⟩, hB.exact hreach ?_⟩
      show w64 (s.ntaskctx + 1) = (insert p M).card
      have hcard := hB.card_lt (fun q hq => (hreach q).mp hq)
      rw [Finset.card_insert_of_notMem hp] at hcard ⊢
      rw [he.count]
      exact w64_of_lt hcard

theorem del_right (he : Exact s M) (h : Buckets s L) (hd : taskctxDel fuel s p = some s') :
    (∃ L', Buckets s' L') ∧ (CtxOp.Right (s, M) (s', M.erase p) (.del p) ↔ CtxOp.Safe s (.del p)) := by
  rcases taskctxDel_cases h hd with ⟨hz, rfl⟩ | ⟨A, B, c, hl, hp, files, hs'⟩
  · have hnone : ∀ y, ¬ ctxAt s' p y := by
      intro y hy
      have := (h.ctxAt_iff.mp hy).1
      rw [(head_zero_iff h).mp hz] at this
      cases this
    refine ⟨⟨L, h⟩, fun _ => Or.inr hz, fun _ => ⟨fun q y => ⟨fun hy => ⟨hy, ?_⟩, fun hy => hy.1⟩, ?_⟩⟩
    · rintro rfl
      exact hnone y hy
    · have hM : p ∉ M := by
        intro hp
        obtain ⟨y, hy⟩ := (he.reach p).mp hp
        exact hnone y hy
      show Exact s' (M.erase p)
      rw [Finset.erase_eq_of_notMem hM]
      exact he
  · have hB : Buckets s' (update L (p % 256) (A ++ B)) := by
      refine (h.unlink (mod_lt_256 p) hl).of_eq ?_ ?_ ?_ <;> rw [hs'] <;> rfl
    have hat {q y} : ctxAt s' q y ↔ ctxAt s q y ∧ y ≠ c := by
      rw [← ctxAt_unlink h (mod_lt_256 p) hl, hs']
      exact Iff.rfl
    have hc : c ∈ L (p % 256) := by
      rw [hl]
      simp
    have hhome := h.home _ (mod_lt_256 p) c hc
    have hcat : ctxAt s (s.pid c) c := h.ctxAt_iff.mpr ⟨by rw [hhome]; exact hc, rfl⟩
    refine ⟨⟨_, hB⟩, fun hright => ?_, fun hsafe => ?_⟩
    · rcases hp with e | hnone
      · exact Or.inl ⟨c, e ▸ hcat⟩
      · -- the context of another pid was removed
        have hne : s.pid c ≠ p := by
          intro e
          rw [e] at hcat
          exact hnone c hcat
        have := (hright.1 (s.pid c) c).mpr ⟨hcat, hne⟩
        exact absurd rfl (hat.mp this).2
    · have hcp : s.pid c = p := by
        rcases hp with e | hnone
        · exact e
        · rcases hsafe with ⟨y, hy⟩ | hz
          · exact absurd hy (hnone y)
          · rw [(head_zero_iff h).mp hz] at hc
            cases hc
      rw [hcp] at hcat
      have hok : ∀ q y, ctxAt s' q y ↔ ctxAt s q y ∧ q ≠ p := by
        intro q y
        rw [hat]
        refine and_congr_right (fun hy => not_congr ⟨?_, ?_⟩)
        · rintro rfl
          rw [← hy.2, hcp]
        · rintro rfl
          exact he.one q y c hy hcat
      have hpM : p ∈ M := (he.reach p).mpr ⟨c, hcat⟩
      refine ⟨hok, hB.exact (fun q => ?_) ?_⟩
      · show q ∈ M.erase p ↔ _
        rw [Finset.mem_erase, he.reach q]
        simp only [hok]
        constructor
        · rintro ⟨hq, y, hy⟩
          exact ⟨y, hy, hq⟩
        · rintro ⟨y, hy, hq⟩
          exact ⟨hq, y, hy⟩
      · have hn : s'.ntaskctx = sub64 s.ntaskctx 1 := by rw [hs']; rfl
        have hlt := h.card_lt (fun q hq => (he.reach q).mp hq)
        have hpos : 0 < M.card := Finset.card_pos.mpr ⟨p, hpM⟩
        show s'.ntaskctx = (M.erase p).card
        rw [hn, he.count, Finset.card_erase_of_mem hpM, sub64_of_le hpos hlt]

theorem step_right {x y : CtxState × Finset Nat} (hx : ContextsInv x) (h : CtxStep x op y) :
    (∃ L, Buckets y.1 L) ∧ (CtxOp.Right x y op ↔ op.Safe x.1) := by
  obtain ⟨he, L, hB⟩ := hx
  cases h with
  | get fuel new h0 hlt hf hg =>
    exact get_right he hB h0 hlt (fun j hj hm => hf j hj ((hB.list j hj).mem_iff.mp hm)) hg
  | del fuel hd => exact del_right he hB hd
  | @other s s' M h1 h2 h3 h4 =>
    have hat (q y : Nat) : ctxAt s' q y ↔ ctxAt s q y := by
      unfold ctxAt
      rw [h1, h2, h3]
    have hB' : Buckets s' L := hB.of_eq h1 h2 h3
    refine ⟨⟨L, hB'⟩, fun _ => trivial, fun _ => ⟨hat, hB'.exact (fun p => ?_) ?_⟩⟩
    · rw [he.reach p]
      simp only [hat]
    · show s'.ntaskctx = M.card
      rw [h4]
      exact he.count

/-- while every call is made for a pid that has a context or whose chain is empty, the table is exact;
any other call loses a context -/
theorem contexts_exact {s₀ : CtxState} (h0 : ∀ j < 256, s₀.head j = 0) (hn : s₀.ntaskctx = 0)
    (hr : Reach CtxStep (fun x op => op.Safe x.1) (s₀, ∅) (s, M)) :
    Exact s M ∧ (∀ p new, ∃ fuel r, taskctxGet fuel s p new = some r) ∧
      (∀ p, s.head (p % 256) ≠ 0 → ∃ fuel r, taskctxFound fuel s p = some r) ∧
      ∀ op y, CtxStep (s, M) op y → ((op.Ok s y.1 ∧ Exact y.1 y.2) ↔ op.Safe s) := by
  have hinit : ContextsInv (s₀, ∅) := by
    have hB : Buckets s₀ (fun _ => []) :=
      ⟨h0, fun j _ x hx => absurd hx List.not_mem_nil, fun j _ x hx => absurd hx List.not_mem_nil,
        fun j _ x hx => absurd hx List.not_mem_nil⟩
    refine ⟨hB.exact (fun p => ⟨fun hp => absurd hp (Finset.notMem_empty p), ?_⟩) hn, _, hB⟩
    rintro ⟨x, hx⟩
    exact absurd (hB.ctxAt_iff.mp hx).1 List.not_mem_nil
  have hI : ContextsInv (s, M) := hr.keeps hinit (fun u op u' hu hs hstep => by
    obtain ⟨hB, hright⟩ := step_right hu hstep
    exact ⟨(hright.mpr hs).2, hB⟩)
  obtain ⟨he, L, hB⟩ := id hI
  exact ⟨he, taskctxGet_returns hB, fun p hp => taskctxFound_returns hB hp, fun op y hstep => (step_right hI hstep).2⟩

end

/-! ## pids with the same last byte -/

/-- no contexts, and a root directory -/
def demoContexts (files : FileState) : CtxState := ⟨files, fun _ => 0, fun _ => ⟨⟨⟨0, 0, []⟩, 0⟩, 0, 0, 0, 0⟩, 0⟩

def rootFiles : FileState where
  toVfsState := { toFcbState := demoFile [] none, filesize := fun _ => 0 }
  nopen _ := 1
  excl _ := false
  nfiles := 1
  tableAt _ := 0

theorem contexts_exact_demo : ∃ s M, CtxStep (demoContexts rootFiles, ∅) (.get 1 8) (s, M) ∧ Exact s M ∧ M = {1} := by
  have hs : CtxStep (demoContexts rootFiles, ∅) (.get 1 8) ((demoContexts rootFiles).add 1 8, insert 1 ∅) := by
    refine .get 0 8 (by decide) (by decide) (fun j _ h => ?_) rfl
    have hnil : SList (demoContexts rootFiles).next 0 [] := rfl
    exact List.not_mem_nil (hnil.mem_iff.mpr h)
  have hsafe : CtxOp.Safe (demoContexts rootFiles) (.get 1 8) := Or.inr rfl
  have hr : Reach CtxStep (fun x op => op.Safe x.1) (demoContexts rootFiles, ∅) _ := Reach.refl.tail hsafe hs
  exact ⟨_, _, hs, (contexts_exact (fun _ _ => rfl) rfl hr).1, rfl⟩

/-- `taskctx_get(257)` makes the context of pid 1 unreachable, and `taskctx_del(257)` deletes it -/
theorem context_lost : ∃ s1 s2 s3, taskctxGet 0 (demoContexts rootFiles) 1 8 = some (s1, 8) ∧ ctxAt s1 1 8 ∧
    taskctxGet 1 s1 257 16 = some (s2, 16) ∧ (∀ x, ¬ ctxAt s2 1 x) ∧
    taskctxDel 1 s1 257 = some s3 ∧ ∀ x, ¬ ctxAt s3 1 x := by
  have h3 : ∃ s3, taskctxDel 1 ((demoContexts rootFiles).add 1 8) 257 = some s3 ∧ s3.head 1 = 0 := ⟨_, rfl, rfl⟩
  obtain ⟨s3, h3, hhead⟩ := h3
  refine ⟨_, ((demoContexts rootFiles).add 1 8).add 257 16, s3, rfl, ⟨.head (by decide), rfl⟩, rfl, fun x hx => ?_,
    h3, fun x hx => ?_⟩
  · have hl : SList (((demoContexts rootFiles).add 1 8).add 257 16).next 16 [16] := ⟨rfl, by decide, rfl⟩
    have hm := List.mem_singleton.mp (hl.mem_iff.mpr hx.1)
    have hp := hx.2
    rw [hm] at hp
    exact absurd hp (by decide)
  · have hl : SList s3.next (s3.head 1) [] := hhead
    exact List.not_mem_nil (hl.mem_iff.mpr hx.1)

end OsZ
