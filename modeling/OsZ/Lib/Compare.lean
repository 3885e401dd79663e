import OsZ.Base.Cstr
import OsZ.Base.Word
import OsZ.Security.Acl
import Mathlib.Order.Lex

/-!
# Comparing strings

`strcmp` and `strncmp` of the libc subtract a byte of the first string from one of the second, and extend the
difference of eight bits; `kstrcmp` of the core gives the byte of the second string where the two differ.

* `cmpLoop`           the loop of `strcmp`, and with a counter that of `strncmp`;
* `kstrcmp`           the loop of the core; `kmemcmp` is in `Security.Acl`;
* `StrIn`, `CString`  a string in memory, and at an address other than NULL;
* `firstDiff a b`     the first two bytes that differ, with a 0 behind the end of a string;
* `Ordered r a b`     the number `r` is negative, zero or positive as the strings are ordered;
* `strcmp_law_iff`, `kcmp_law_iff`   when the four functions tell what they should.
-/

namespace OsZ
variable {f : Nat → UInt8} {a b : List UInt8} {p q k m : Nat} {x y : UInt8}

/-! ## the functions -/

/-- `%al`; `strncmp` counts down `%rdx` before it looks at the difference -/
def cmpLoop (f : Nat → UInt8) : Nat → Option Nat → Nat → Nat → Option UInt8
  | 0, _, _, _ => none
  | k+1, rdx, rdi, rsi =>
    let rdx := rdx.map (sub64 · 1)
    let al := f rsi - f rdi
    if rdx = some 0 ∨ al ≠ 0 ∨ f rsi = 0 then some al else cmpLoop f k rdx (rdi + 1) (rsi + 1)

/-- `movsx %al, %rax` -/
def movsx (al : UInt8) : Int := Int.bmod al.toNat 256

def cmpFrom (f : Nat → UInt8) (rdx : Option Nat) (s1 s2 fuel : Nat) : Option Int :=
  if s1 = s2 then some 0 else if s1 = 0 ∨ s2 = 0 then some 1 else (cmpLoop f fuel rdx s1 s2).map movsx

def strcmp (f : Nat → UInt8) (s1 s2 fuel : Nat) : Option Int := cmpFrom f none s1 s2 fuel

def strncmp (f : Nat → UInt8) (s1 s2 n fuel : Nat) : Option Int := cmpFrom f (some n) s1 s2 fuel

def kstrcmp (f : Nat → UInt8) : Nat → Nat → Nat → Option UInt8
  | 0, _, _ => none
  | k+1, rdi, rsi =>
    if f rsi ≠ f rdi ∨ f rsi = 0 then some (f rsi) else kstrcmp f k (rdi + 1) (rsi + 1)

/-! ## strings -/

structure StrIn (f : Nat → UInt8) where
  addr : Nat
  text : List UInt8
  here : StrAt f addr text

structure CString (f : Nat → UInt8) extends StrIn f where
  addr_ne : addr ≠ 0

theorem StrAt.head (h : StrAt f p (x :: a)) : f p = x ∧ x ≠ 0 ∧ StrAt f (p + 1) a :=
  ⟨h.chars.head, fun hx => h.no_nul (hx ▸ List.mem_cons_self), StrAt.right (a := [x]) h⟩

theorem StrAt.zero_iff (h : StrAt f p a) : f p = 0 ↔ a = [] := by
  cases a with
  | nil => exact iff_of_true h.nul rfl
  | cons x a => exact iff_of_false (h.head.1 ▸ h.head.2.1) (List.cons_ne_nil x a)

theorem StrAt.unique (ha : StrAt f p a) (hb : StrAt f p b) : a = b := by
  induction a generalizing b p with
  | nil => exact (hb.zero_iff.mp ha.nul).symm
  | cons x a ih =>
    cases b with
    | nil => exact ha.zero_iff.mp hb.nul
    | cons y b => rw [← ha.head.1, hb.head.1, ih ha.head.2.2 hb.head.2.2]

def firstDiff : List UInt8 → List UInt8 → UInt8 × UInt8
  | [], [] => (0, 0)
  | [], y :: _ => (0, y)
  | x :: _, [] => (x, 0)
  | x :: a, y :: b => if x = y then firstDiff a b else (x, y)

theorem firstDiff_order (ha : 0 ∉ a) (hb : 0 ∉ b) :
    (a < b ↔ (firstDiff a b).1 < (firstDiff a b).2) ∧ (a = b ↔ (firstDiff a b).1 = (firstDiff a b).2) ∧
      (b < a ↔ (firstDiff a b).2 < (firstDiff a b).1) := by
  induction a generalizing b with
  | nil =>
    cases b with
    | nil => simp [firstDiff]
    | cons y b =>
      have hy : y ≠ 0 := fun h => hb (h ▸ List.mem_cons_self)
      simp [firstDiff, UInt8.pos_iff_ne_zero, hy, hy.symm]
  | cons x a ih =>
    have hx : x ≠ 0 := fun h => ha (h ▸ List.mem_cons_self)
    cases b with
    | nil => simp [firstDiff, UInt8.pos_iff_ne_zero, hx]
    | cons y b =>
      have htail := ih (fun h => ha (List.mem_cons_of_mem _ h)) (fun h => hb (List.mem_cons_of_mem _ h))
      rw [firstDiff]
      split_ifs with hxy
      · subst hxy
        simpa [List.cons_lt_cons_iff] using htail
      · simp [List.cons_lt_cons_iff, hxy, Ne.symm hxy]

theorem firstDiff_ne (ha : StrAt f p a) (hb : StrAt f q b) (h : f p ≠ f q) :
    firstDiff (a.take (m + 1)) (b.take (m + 1)) = (f p, f q) := by
  cases a with
  | nil =>
    have hp : f p = 0 := ha.nul
    cases b with
    | nil => exact absurd (hp.trans hb.nul.symm) h
    | cons y b =>
      rw [hp, hb.head.1]
      rfl
  | cons x a =>
    rw [ha.head.1] at h ⊢
    cases b with
    | nil =>
      rw [show f q = 0 from hb.nul]
      rfl
    | cons y b =>
      rw [hb.head.1] at h ⊢
      exact if_neg h

/-- the loop ends, at the first difference or after `m` bytes; a counter of 0 stands for 2^64 -/
theorem cmpLoop_eq {rdx : Option Nat} (ha : StrAt f p a) (hb : StrAt f q b) (hk : a.length < k)
    (hm : rdx = none ∧ a.length < m ∨ rdx = some (m % 2^64) ∧ 0 < m ∧ m ≤ 2^64) :
    cmpLoop f k rdx p q = some ((firstDiff (a.take m) (b.take m)).2 - (firstDiff (a.take m) (b.take m)).1) := by
  induction a generalizing b p q k m rdx with
  | nil =>
    obtain ⟨k, rfl⟩ := Nat.exists_eq_succ_of_ne_zero (Nat.ne_of_gt hk)
    obtain ⟨m, rfl⟩ := Nat.exists_eq_succ_of_ne_zero (show m ≠ 0 by omega)
    by_cases hne : f p = f q
    · have hq : f q = 0 := hne ▸ ha.nul
      rw [cmpLoop, hne, hq, if_pos (Or.inr (Or.inr rfl)), hb.zero_iff.mp hq]
      rfl
    · rw [cmpLoop, if_pos (Or.inr (Or.inl (sub_ne_zero.mpr (Ne.symm hne)))), firstDiff_ne ha hb hne]
  | cons x a ih =>
    obtain ⟨k, rfl⟩ := Nat.exists_eq_succ_of_ne_zero (Nat.ne_of_gt (Nat.zero_lt_of_lt hk))
    obtain ⟨m, rfl⟩ := Nat.exists_eq_succ_of_ne_zero (show m ≠ 0 by omega)
    rw [List.length_cons] at hk hm
    by_cases hne : f p = f q
    · obtain ⟨hp, hx, ha'⟩ := ha.head
      cases b with
      | nil => exact absurd (hp.symm.trans (hne.trans hb.nul)) hx
      | cons y b =>
        obtain rfl : x = y := by rw [← hp, hne, hb.head.1]
        rw [cmpLoop, ← hne, hp, List.take_succ_cons, List.take_succ_cons, firstDiff, if_pos rfl, sub_self]
        by_cases hlast : rdx.map (sub64 · 1) = some 0
        · obtain rfl : m = 0 := by
            obtain ⟨rfl, -⟩ | ⟨rfl, -, hle⟩ := hm
            · cases hlast
            · rw [Option.map_some, Option.some.injEq, sub64] at hlast
              omega
          rw [if_pos (Or.inl hlast), List.take_zero, List.take_zero]
          rfl
        · rw [if_neg (by simp [hlast, hx])]
          refine ih ha' hb.head.2.2 (by omega) ?_
          obtain ⟨rfl, h1⟩ | ⟨rfl, -, hle⟩ := hm
          · exact Or.inl ⟨rfl, by omega⟩
          · rw [Option.map_some, Option.some.injEq, sub64] at hlast ⊢
            omega
    · rw [cmpLoop, if_pos (Or.inr (Or.inl (sub_ne_zero.mpr (Ne.symm hne)))), firstDiff_ne ha hb hne]

/-! ## the order -/

structure Ordered (r : Int) (a b : List UInt8) : Prop where
  neg : r < 0 ↔ a < b
  zero : r = 0 ↔ a = b
  pos : 0 < r ↔ b < a

/-- the difference of eight bits has the sign of the opposite difference -/
def WrapsRight (d : UInt8 × UInt8) : Prop :=
  d.1 = d.2 ∨ d.1.toNat + 128 ≤ d.2.toNat ∨ d.2.toNat + 129 ≤ d.1.toNat

theorem ordered_movsx_iff (ha : 0 ∉ a) (hb : 0 ∉ b) :
    Ordered (movsx ((firstDiff a b).2 - (firstDiff a b).1)) a b ↔ WrapsRight (firstDiff a b) := by
  obtain ⟨hlt, heq, hgt⟩ := firstDiff_order ha hb
  generalize firstDiff a b = d at *
  have h1 := d.1.toNat_lt
  have h2 := d.2.toNat_lt
  rw [UInt8.lt_iff_toNat_lt] at hlt hgt
  rw [← UInt8.toNat_inj] at heq
  unfold WrapsRight movsx
  rw [← UInt8.toNat_inj, UInt8.toNat_sub, Int.bmod_def]
  constructor
  · rintro ⟨hn, hz, hp⟩
    rw [hlt] at hn
    rw [heq] at hz
    rw [hgt] at hp
    split_ifs at hn hz hp <;> omega
  · intro h
    refine ⟨?_, ?_, ?_⟩
    · rw [hlt]
      split_ifs <;> omega
    · rw [heq]
      split_ifs <;> omega
    · rw [hgt]
      split_ifs <;> omega

theorem take_nul (h : 0 ∉ a) (m : Nat) : 0 ∉ a.take m := fun h0 => h (List.mem_of_mem_take h0)

/-- the strings are compared as they should be, by `strcmp` and in their first `n` bytes by `strncmp` -/
def StrcmpLaw (s1 s2 : CString f) (n : BitVec 64) : Prop :=
  ∀ fuel > s1.text.length, (∃ r, strcmp f s1.addr s2.addr fuel = some r ∧ Ordered r s1.text s2.text) ∧
    ∃ r, strncmp f s1.addr s2.addr n.toNat fuel = some r ∧ Ordered r (s1.text.take n.toNat) (s2.text.take n.toNat)

theorem ordered_refl (a : List UInt8) : Ordered 0 a a := by
  constructor <;> simp

theorem movsx_eq_zero (al : UInt8) : movsx al = 0 ↔ al = 0 := by
  have hlt := al.toNat_lt
  unfold movsx
  rw [← UInt8.toNat_inj, UInt8.toNat_zero, Int.bmod_def]
  split_ifs <;> omega

theorem cmpFrom_eq (s1 s2 : CString f) {rdx : Option Nat} (hk : s1.text.length < k)
    (hm : rdx = none ∧ s1.text.length < m ∨ rdx = some (m % 2^64) ∧ 0 < m ∧ m ≤ 2^64) :
    cmpFrom f rdx s1.addr s2.addr k = some (movsx ((firstDiff (s1.text.take m) (s2.text.take m)).2 -
      (firstDiff (s1.text.take m) (s2.text.take m)).1)) := by
  by_cases hne : s1.addr = s2.addr
  · have hz := take_nul s2.here.no_nul m
    rw [cmpFrom, if_pos hne, s1.here.unique (hne ▸ s2.here), (firstDiff_order hz hz).2.1.mp rfl, sub_self,
      (movsx_eq_zero 0).mpr rfl]
  · rw [cmpFrom, if_neg hne, if_neg (by simp [s1.addr_ne, s2.addr_ne]), cmpLoop_eq s1.here s2.here hk hm]
    rfl

theorem strcmp_law_iff (s1 s2 : CString f) (n : BitVec 64) :
    StrcmpLaw s1 s2 n ↔ WrapsRight (firstDiff s1.text s2.text) ∧
      if n = 0 then s1.text.take (2^64) = s2.text.take (2^64)
      else WrapsRight (firstDiff (s1.text.take n.toNat) (s2.text.take n.toNat)) := by
  have ha := s1.here.no_nul
  have hb := s2.here.no_nul
  have hall : ∀ fuel > s1.text.length, strcmp f s1.addr s2.addr fuel =
      some (movsx ((firstDiff s1.text s2.text).2 - (firstDiff s1.text s2.text).1)) := fun fuel hf => by
    rw [strcmp, cmpFrom_eq s1 s2 hf (m := s1.text.length + s2.text.length + 1) (Or.inl ⟨rfl, by omega⟩),
      List.take_of_length_le (by omega), List.take_of_length_le (by omega)]
  -- `strncmp` compares `m` bytes
  have hlaw : ∀ m, 0 < m → m ≤ 2^64 → n.toNat = m % 2^64 → (StrcmpLaw s1 s2 n ↔
      WrapsRight (firstDiff s1.text s2.text) ∧ Ordered (movsx ((firstDiff (s1.text.take m) (s2.text.take m)).2 -
        (firstDiff (s1.text.take m) (s2.text.take m)).1)) (s1.text.take n.toNat) (s2.text.take n.toNat)) := by
    intro m h0 hle he
    have hnum := fun fuel hf => cmpFrom_eq s1 s2 (k := fuel) hf (Or.inr ⟨rfl, h0, hle⟩)
    rw [← he] at hnum
    rw [← ordered_movsx_iff ha hb]
    constructor
    · intro h
      obtain ⟨⟨r, hr, ho⟩, r', hr', ho'⟩ := h _ (Nat.lt_succ_self _)
      rw [hall _ (Nat.lt_succ_self _), Option.some.injEq] at hr
      rw [strncmp, hnum _ (Nat.lt_succ_self _), Option.some.injEq] at hr'
      exact ⟨hr ▸ ho, hr' ▸ ho'⟩
    · exact fun h fuel hf => ⟨⟨_, hall fuel hf, h.1⟩, _, hnum fuel hf, h.2⟩
  by_cases hn : n = 0
  · rw [hlaw (2^64) (by decide) le_rfl (by rw [hn]; rfl), if_pos hn, hn,
      (firstDiff_order (take_nul ha (2^64)) (take_nul hb (2^64))).2.1, eq_comm, ← sub_eq_zero, ← movsx_eq_zero]
    refine and_congr_right fun _ => ⟨fun h => h.zero.mpr rfl, fun h => ?_⟩
    rw [h]
    exact ordered_refl []
  · have hpos : 0 < n.toNat := Nat.pos_of_ne_zero fun h => hn (BitVec.eq_of_toNat_eq h)
    rw [hlaw n.toNat hpos n.isLt.le (Nat.mod_eq_of_lt n.isLt).symm, if_neg hn,
      ordered_movsx_iff (take_nul ha _) (take_nul hb _)]

/-- the buffer of two strings of one letter, `a` and `b` -/
def twoLetters : Nat → UInt8 := textBuf [0, 97, 0, 98]

def letterA : CString twoLetters := ⟨⟨1, [97], StrAt.of_bytes (by decide) rfl (by decide)⟩, by decide⟩

def letterB : CString twoLetters := ⟨⟨3, [98], StrAt.of_bytes (by decide) rfl (by decide)⟩, by decide⟩

/-- `strcmp("a","b")` is 1 -/
theorem strcmp_swapped : ¬ StrcmpLaw letterA letterB 1 := by
  intro h
  obtain ⟨⟨r, hr, ho⟩, -⟩ := h 2 (by decide)
  rw [show strcmp twoLetters letterA.addr letterB.addr 2 = some 1 by decide +kernel, Option.some.injEq] at hr
  exact absurd (ho.neg.mpr (by decide)) (by omega)

/-! ## the core -/

/-- the byte of the second string is returned, which is 0 where that string ends -/
theorem kstrcmp_spec (ha : StrAt f p a) (hb : StrAt f q b) (hk : a.length < k) :
    ∃ r, kstrcmp f k p q = some r ∧ (r = 0 ↔ b <+: a) := by
  induction a generalizing b p q k with
  | nil =>
    obtain ⟨k, rfl⟩ := Nat.exists_eq_succ_of_ne_zero (Nat.ne_of_gt hk)
    have hp : f p = 0 := ha.nul
    rw [kstrcmp, hp, if_pos (ne_or_eq _ _)]
    exact ⟨_, rfl, hb.zero_iff.trans List.prefix_nil.symm⟩
  | cons x a ih =>
    obtain ⟨k, rfl⟩ := Nat.exists_eq_succ_of_ne_zero (Nat.ne_of_gt (Nat.zero_lt_of_lt hk))
    obtain ⟨hp, hx, ha'⟩ := ha.head
    rw [kstrcmp, hp]
    cases b with
    | nil =>
      have hq : f q = 0 := hb.nul
      exact ⟨_, if_pos (Or.inr hq), iff_of_true hq List.nil_prefix⟩
    | cons y b =>
      obtain ⟨hq, hy, hb'⟩ := hb.head
      rw [hq, List.cons_prefix_cons]
      by_cases hxy : y = x
      · rw [if_neg (by simp [hxy, hx]), eq_true hxy, true_and]
        exact ih ha' hb' (by rw [List.length_cons] at hk; omega)
      · exact ⟨_, if_pos (Or.inl hxy), iff_of_false hy fun h => hxy h.1⟩

/-- `kstrcmp` and `kmemcmp` are 0 exactly for what is equal -/
def KcmpLaw (a b : StrIn f) (p q n : Nat) : Prop :=
  (∀ fuel > a.text.length, ∃ r, kstrcmp f fuel a.addr b.addr = some r ∧ (r = 0 ↔ a.text = b.text)) ∧
    (kmemcmp (fun i => f (p + i)) (fun i => f (q + i)) n = 0 ↔ ∀ i < n, f (p + i) = f (q + i))

theorem kcmp_law_iff (a b : StrIn f) (p q n : Nat) :
    KcmpLaw a b p q n ↔ (b.text <+: a.text → a.text = b.text) ∧
      ((∀ i < n, (∀ j < i, f (q + j) ≠ 0) → f (p + i) = f (q + i)) → ∀ i < n, f (p + i) = f (q + i)) := by
  refine and_congr ⟨fun h hpre => ?_, fun h fuel hf => ?_⟩ ?_
  · obtain ⟨r, hr, hiff⟩ := h _ (Nat.lt_succ_self _)
    obtain ⟨r', hr', hiff'⟩ := kstrcmp_spec a.here b.here (Nat.lt_succ_self _)
    rw [hr, Option.some.injEq] at hr'
    exact hiff.mp (hr' ▸ hiff'.mpr hpre)
  · obtain ⟨r, hr, hiff⟩ := kstrcmp_spec a.here b.here hf
    exact ⟨r, hr, hiff.trans ⟨h, fun he => he ▸ List.prefix_rfl⟩⟩
  · rw [kmemcmp, kmemcmpFrom_eq_zero, strnEq_iff]
    simp only [Nat.zero_add]
    exact ⟨fun h => h.mp, fun h => ⟨h, fun hall i hi _ => hall i hi⟩⟩

/-- the empty string at the end of `a` is not told from `a` -/
theorem kstrcmp_prefix : ¬ KcmpLaw letterA.toStrIn ⟨2, [], StrAt.of_bytes rfl rfl (by decide)⟩ 1 1 0 := by
  rintro ⟨h, -⟩
  obtain ⟨r, hr, hiff⟩ := h 2 (by decide)
  rw [show kstrcmp twoLetters 2 letterA.addr 2 = some 0 by decide +kernel, Option.some.injEq] at hr
  exact absurd (hiff.mp hr.symm) (by decide)

end OsZ
