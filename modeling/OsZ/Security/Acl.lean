import OsZ.Base.Cstr
import Mathlib.Data.List.GetD
import Mathlib.Data.List.TakeWhile
import Mathlib.Data.List.OfFn
import Mathlib.Tactic

/-!
# Access control entries (`task_allowed` of `security.c`, `kmemcmp` and `kstrlen` of `x86_64/libk.S`)

An entry is 16 bytes: a name of 15 bytes, padded with zeros, and the access rights.

* `kmemcmp`, `kstrlen`, `taskAllowed`   the functions of the core;
* `kmemcmp_eq_zero`        what `kmemcmp` compares, when the second string is long enough;
* `aclScan_eq`             the scan stops at the first entry that begins with the name;
* `HasAce`                 the documented rule: one sufficient entry is enough;
* `task_allowed_rule`      when the scan follows it;
* `scan_breaks_rule`       entries for which it does not.
-/

namespace OsZ

/-- memory from a pointer on -/
abbrev Bytes := Nat → UInt8

/-- `kmemcmp(dst,src,n)` from the byte `i` on: `%al` -/
def kmemcmpFrom (dst src : Bytes) : Nat → Nat → UInt8
  | 0, _ => 0
  | n+1, i =>
    if src i = 0 then
      -- both end here
      if dst i = 0 then 0 else 1
    else if src i - dst i = 0 then kmemcmpFrom dst src n (i + 1) else src i - dst i

def kmemcmp (dst src : Bytes) (n : Nat) : UInt8 := kmemcmpFrom dst src n 0

/-- a string is its bytes; behind them there are zeros -/
def strBytes (s : List UInt8) : Bytes := fun i => s.getD i 0

def kstrlen : List UInt8 → Nat
  | [] => 0
  | b :: s => if b = 0 then 0 else kstrlen s + 1

/-- `uuid_t` -/
abbrev Uuid := Fin 16 → UInt8

def Uuid.bytes (u : Uuid) : Bytes := fun i => if h : i < 16 then u ⟨i, h⟩ else 0

/-- the fields of a `tcb_t` that the checks of `security.c` read -/
structure Subject where
  pid : Nat
  priority : Nat
  owner : Uuid
  /-- `TCB_MAXACE` entries -/
  acl : Fin 128 → Uuid

/-- the loop of `task_allowed` -/
def aclScan (grp : List UInt8) (j : Nat) (access : UInt8) : List Uuid → Bool
  | [] => false
  | g :: l =>
    -- "failsafe, end of list"
    if g 0 = 0 then false
    else if kmemcmp g.bytes (strBytes grp) j = 0 then access == 0 || g 15 &&& access == access
    else aclScan grp j access l

/-- `task_allowed(tcb,grp,access)`, where `none` is `NULL` -/
def taskAllowed (tcb : Subject) (grp : Option (List UInt8)) (access : UInt8) : Bool :=
  match grp with
  | none => false
  | some grp =>
    if strBytes grp 0 = 0 then false
    else
      let j := if 15 < kstrlen grp then 15 else kstrlen grp
      aclScan grp j access (List.ofFn tcb.acl)

/-! ## the documented rule -/

/-- the list up to its first empty entry -/
def Subject.aces (tcb : Subject) : List Uuid := (List.ofFn tcb.acl).takeWhile (fun g => g 0 != 0)

/-- the 15 bytes of the name are `grp`, padded with zeros -/
def Uuid.Named (g : Uuid) (grp : List UInt8) : Prop := ∀ i < 15, g.bytes i = strBytes grp i

/-- the name begins with `grp` -/
def Uuid.Begins (g : Uuid) (grp : List UInt8) : Prop := ∀ i < grp.length, g.bytes i = strBytes grp i

/-- all bits of `access` are in the access byte -/
def Uuid.Grants (g : Uuid) (access : UInt8) : Prop := g 15 &&& access = access

instance (g : Uuid) (grp : List UInt8) : Decidable (g.Named grp) :=
  inferInstanceAs (Decidable (∀ i < 15, g.bytes i = strBytes grp i))

instance (g : Uuid) (access : UInt8) : Decidable (g.Grants access) :=
  inferInstanceAs (Decidable (g 15 &&& access = access))

def HasAce (tcb : Subject) (grp : List UInt8) (access : UInt8) : Prop :=
  ∃ g ∈ tcb.aces, g.Named grp ∧ g.Grants access

instance (tcb : Subject) (grp : List UInt8) (access : UInt8) : Decidable (HasAce tcb grp access) :=
  inferInstanceAs (Decidable (∃ g ∈ tcb.aces, g.Named grp ∧ g.Grants access))

section
variable {grp : List UInt8} {access : UInt8} {g : Uuid} {l : List Uuid} {dst src : Bytes} {n : Nat}

theorem kstrlen_eq (h : ∀ b ∈ grp, b ≠ 0) : kstrlen grp = grp.length := by
  induction grp with
  | nil => rfl
  | cons b s ih =>
    rw [kstrlen, if_neg (h b List.mem_cons_self), ih fun c hc => h c (List.mem_cons_of_mem _ hc),
      List.length_cons]

theorem kmemcmpFrom_eq_zero (i : Nat) : kmemcmpFrom dst src n i = 0 ↔ strnEq dst i src i n = true := by
  induction n generalizing i with
  | zero => exact iff_of_true rfl rfl
  | succ n ih =>
    have hsub : src i - dst i = 0 ↔ dst i = src i := sub_eq_zero.trans eq_comm
    rw [kmemcmpFrom, strnEq, Bool.and_eq_true, Bool.or_eq_true, beq_iff_eq, beq_iff_eq, ← ih]
    split_ifs with h0 hd he
    · simp [h0, hd]
    · simp [h0, hd]
    · simp [h0, hsub.mp he]
    · exact iff_of_false he fun h => he (hsub.mpr h.1)

/-- a string that is not shorter than `n`: its NUL is not reached -/
theorem kmemcmp_eq_zero (hs : ∀ k < n, src k ≠ 0) :
    kmemcmp dst src n = 0 ↔ ∀ k < n, dst k = src k := by
  rw [kmemcmp, kmemcmpFrom_eq_zero, strnEq_memEq fun i hi => by rw [Nat.zero_add]; exact hs i (by omega), memEq_iff]
  simp only [Nat.zero_add]

theorem strBytes_ne_zero (h : ∀ b ∈ grp, b ≠ 0) {i : Nat} (hi : i < grp.length) :
    strBytes grp i ≠ 0 := by
  rw [strBytes, List.getD_eq_getElem _ _ hi]
  exact h _ (List.getElem_mem hi)

theorem aclScan_eq (grp : List UInt8) (j : Nat) (access : UInt8) (l : List Uuid) :
    aclScan grp j access l = ((l.takeWhile (fun g => g 0 != 0)).find?
      (fun g => kmemcmp g.bytes (strBytes grp) j == 0)).any (fun g => g 15 &&& access == access) := by
  induction l with
  | nil => rfl
  | cons g l ih =>
    rw [aclScan]
    by_cases h0 : g 0 = 0
    · rw [if_pos h0, List.takeWhile_cons_of_neg (by simp [h0])]
      rfl
    · rw [if_neg h0, List.takeWhile_cons_of_pos (by simp [h0])]
      by_cases hm : kmemcmp g.bytes (strBytes grp) j = 0
      · rw [if_pos hm, List.find?_cons_of_pos (by simp [hm]), Option.any_some]
        by_cases ha : access = 0
        · subst ha
          simp
        · simp [ha]
      · rw [if_neg hm, List.find?_cons_of_neg (by simp [hm])]
        exact ih

theorem begins_iff (hz : ∀ b ∈ grp, b ≠ 0) (g : Uuid) :
    kmemcmp g.bytes (strBytes grp) grp.length = 0 ↔ g.Begins grp :=
  kmemcmp_eq_zero fun _ hk => strBytes_ne_zero hz hk

theorem taskAllowed_eq (tcb : Subject) (access : UInt8) (h0 : grp ≠ []) (h15 : grp.length ≤ 15)
    (hz : ∀ b ∈ grp, b ≠ 0) :
    taskAllowed tcb (some grp) access = (tcb.aces.find?
      (fun g => kmemcmp g.bytes (strBytes grp) grp.length == 0)).any
        (fun g => g 15 &&& access == access) := by
  have hfirst : strBytes grp 0 ≠ 0 := strBytes_ne_zero hz (List.length_pos_of_ne_nil h0)
  rw [taskAllowed]
  dsimp only
  rw [if_neg hfirst, kstrlen_eq hz, if_neg (by omega), aclScan_eq]
  rfl

theorem Uuid.Named.begins (h : g.Named grp) (h15 : grp.length ≤ 15) : g.Begins grp :=
  fun i hi => h i (by omega)

/-- no entry is in the way of another: where the first entry that begins with the name grants the
access, it or a later one has the name and grants it; where it does not, no later one with the name
does -/
def Undisturbed (tcb : Subject) (grp : List UInt8) (access : UInt8) : Prop :=
  ∀ pre f post, tcb.aces = pre ++ f :: post → (∀ g ∈ pre, ¬g.Begins grp) → f.Begins grp →
    (f.Grants access → f.Named grp ∨ ∃ g ∈ post, g.Named grp ∧ g.Grants access) ∧
    (¬f.Grants access → ∀ g ∈ post, g.Named grp → ¬g.Grants access)

theorem taskAllowed_split {tcb : Subject} {pre post : List Uuid} {f : Uuid} (h0 : grp ≠ [])
    (h15 : grp.length ≤ 15) (hz : ∀ b ∈ grp, b ≠ 0) (he : tcb.aces = pre ++ f :: post)
    (hpre : ∀ g ∈ pre, ¬g.Begins grp) (hf : f.Begins grp) :
    taskAllowed tcb (some grp) access = true ↔ f.Grants access := by
  have hfind : tcb.aces.find? (fun g => kmemcmp g.bytes (strBytes grp) grp.length == 0) = some f := by
    rw [List.find?_eq_some_iff_append]
    refine ⟨beq_iff_eq.mpr ((begins_iff hz f).mpr hf), pre, post, he, fun g hg => ?_⟩
    simpa using fun h => hpre g hg ((begins_iff hz g).mp h)
  rw [taskAllowed_eq tcb access h0 h15 hz, hfind, Option.any_some, beq_iff_eq]
  rfl

theorem taskAllowed_none {tcb : Subject} (h0 : grp ≠ []) (h15 : grp.length ≤ 15)
    (hz : ∀ b ∈ grp, b ≠ 0) (h : ∀ g ∈ tcb.aces, ¬g.Begins grp) :
    taskAllowed tcb (some grp) access = false := by
  have hfind : tcb.aces.find? (fun g => kmemcmp g.bytes (strBytes grp) grp.length == 0) = none := by
    rw [List.find?_eq_none]
    intro g hg hc
    exact h g hg ((begins_iff hz g).mp (beq_iff_eq.mp hc))
  rw [taskAllowed_eq tcb access h0 h15 hz, hfind, Option.any_none]

theorem first_or_none (P : Uuid → Prop) (l : List Uuid) :
    (∀ g ∈ l, ¬P g) ∨ ∃ pre f post, l = pre ++ f :: post ∧ (∀ g ∈ pre, ¬P g) ∧ P f := by
  induction l with
  | nil => exact .inl fun g hg => absurd hg List.not_mem_nil
  | cons g l ih =>
    by_cases hg : P g
    · exact .inr ⟨[], g, l, rfl, fun x hx => absurd hx List.not_mem_nil, hg⟩
    · obtain h | ⟨pre, f, post, rfl, hpre, hf⟩ := ih
      · exact .inl (List.forall_mem_cons.mpr ⟨hg, h⟩)
      · exact .inr ⟨g :: pre, f, post, rfl, List.forall_mem_cons.mpr ⟨hg, hpre⟩, hf⟩

/-- `task_allowed` follows the documented rule if and only if no entry is in the way of another -/
theorem task_allowed_rule (tcb : Subject) (grp : List UInt8) (access : UInt8) (h0 : grp ≠ [])
    (h15 : grp.length ≤ 15) (hz : ∀ b ∈ grp, b ≠ 0) :
    (taskAllowed tcb (some grp) access = true ↔ HasAce tcb grp access) ↔
      Undisturbed tcb grp access := by
  have hace : ∀ {pre f post}, tcb.aces = pre ++ f :: post → (∀ g ∈ pre, ¬g.Begins grp) →
      (HasAce tcb grp access ↔ (f.Named grp ∧ f.Grants access) ∨
        ∃ g ∈ post, g.Named grp ∧ g.Grants access) := by
    intro pre f post he hpre
    constructor
    · rintro ⟨g, hg, hn, ha⟩
      rw [he, List.mem_append, List.mem_cons] at hg
      obtain hg | rfl | hg := hg
      · exact absurd (hn.begins h15) (hpre g hg)
      · exact .inl ⟨hn, ha⟩
      · exact .inr ⟨g, hg, hn, ha⟩
    · rintro (⟨hn, ha⟩ | ⟨g, hg, hn, ha⟩)
      · exact ⟨f, by rw [he]; exact List.mem_append_right _ List.mem_cons_self, hn, ha⟩
      · exact ⟨g, by rw [he]; exact List.mem_append_right _ (List.mem_cons_of_mem _ hg), hn, ha⟩
  constructor
  · intro h pre f post he hpre hf
    rw [taskAllowed_split h0 h15 hz he hpre hf, hace he hpre] at h
    constructor
    · intro ha
      obtain ⟨hn, -⟩ | hpost := h.mp ha
      · exact .inl hn
      · exact .inr hpost
    · exact fun ha g hg hn hga => ha (h.mpr (.inr ⟨g, hg, hn, hga⟩))
  · intro h
    obtain hnone | ⟨pre, f, post, he, hpre, hf⟩ := first_or_none (fun g => g.Begins grp) tcb.aces
    · rw [taskAllowed_none h0 h15 hz hnone]
      refine ⟨fun hc => absurd hc Bool.false_ne_true, ?_⟩
      rintro ⟨g, hg, hn, -⟩
      exact absurd (hn.begins h15) (hnone g hg)
    · obtain ⟨hyes, hno⟩ := h pre f post he hpre hf
      rw [taskAllowed_split h0 h15 hz he hpre hf, hace he hpre]
      constructor
      · exact fun ha => (hyes ha).imp (fun hn => ⟨hn, ha⟩) id
      · rintro (⟨-, ha⟩ | ⟨g, hg, hn, hga⟩)
        · exact ha
        · by_contra ha
          exact hno ha g hg hn hga

end

def strOf (name : List Char) : List UInt8 := name.map (fun c => UInt8.ofNat c.toNat)

def aceOf (name : List Char) (access : UInt8) : Uuid :=
  fun i => if i = 15 then access else strBytes (strOf name) i

def subjectOf (l : List Uuid) : Subject := ⟨100, 5, fun _ => 0, fun i => l.getD i (fun _ => 0)⟩

def mountName : List Char := ['m', 'o', 'u', 'n', 't']

theorem task_allowed_rule_demo :
    taskAllowed (subjectOf [aceOf mountName 2]) (some (strOf mountName)) 2 = true ↔
      HasAce (subjectOf [aceOf mountName 2]) (strOf mountName) 2 := by
  refine (task_allowed_rule _ _ _ (by decide +kernel) (by decide +kernel) (by decide +kernel)).mpr ?_
  intro pre f post he _ _
  have hl : (subjectOf [aceOf mountName 2]).aces = [aceOf mountName 2] := by decide +kernel
  obtain ⟨rfl, rfl, rfl⟩ : pre = [] ∧ f = aceOf mountName 2 ∧ post = [] := by
    cases pre with
    | nil =>
      obtain ⟨h1, h2⟩ := List.cons.inj (hl.symm.trans he)
      exact ⟨rfl, h1.symm, h2.symm⟩
    | cons x pre =>
      have := congrArg List.length (hl.symm.trans he)
      simp at this
  exact ⟨fun _ => .inl (by decide +kernel), fun _ g hg => absurd hg List.not_mem_nil⟩

/-- the entry "mountain" grants what needs "mount", and a first entry for reading hides a second one
for writing -/
theorem scan_breaks_rule :
    (taskAllowed (subjectOf [aceOf (mountName ++ ['a', 'i', 'n']) 2]) (some (strOf mountName)) 2 =
        true ∧
      ¬HasAce (subjectOf [aceOf (mountName ++ ['a', 'i', 'n']) 2]) (strOf mountName) 2) ∧
    (taskAllowed (subjectOf [aceOf mountName 1, aceOf mountName 2]) (some (strOf mountName)) 2 =
        false ∧
      HasAce (subjectOf [aceOf mountName 1, aceOf mountName 2]) (strOf mountName) 2) := by
  decide +kernel

end OsZ
