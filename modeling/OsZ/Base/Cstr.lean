import OsZ.Base.Bytes
import Mathlib.Data.List.GetD

/-!
# C strings

A string is a list of bytes other than 0; in memory a 0 follows it.

* `Chars f o s`, `StrAt f o s`  the bytes of `s` are at the address `o`, without and with the 0;
* `spanTo p f o n`              how many bytes there are before one with `p`, at most `n`;
* `memEq`, `strnEq`             `memcmp` and `strncmp` say that two places are equal;
* `strcpy`                      copying a string of a given length, and the 0 behind it;
* `cstr`, `textBuf`             the string at an address, and a buffer that holds a string;
* `memEq_prefix`, `strnEq_prefix`, `strnEq_whole`  what such a comparison says about strings.
-/

namespace OsZ
variable {f g : Nat → UInt8} {o q n : Nat} {s x nm : List UInt8}

def Chars (f : Nat → UInt8) (o : Nat) (s : List UInt8) : Prop := ∀ i (h : i < s.length), f (o + i) = s[i]

structure StrAt (f : Nat → UInt8) (o : Nat) (s : List UInt8) : Prop where
  chars : Chars f o s
  nul : f (o + s.length) = 0
  no_nul : 0 ∉ s

def spanTo (p : UInt8 → Bool) (f : Nat → UInt8) (o : Nat) : Nat → Nat
  | 0 => 0
  | n+1 => if p (f o) then 0 else spanTo p f (o + 1) n + 1

def memEq (f : Nat → UInt8) (o : Nat) (g : Nat → UInt8) (q : Nat) : Nat → Bool
  | 0 => true
  | n+1 => f o == g q && memEq f (o + 1) g (q + 1) n

/-- both strings end at a common 0 -/
def strnEq (f : Nat → UInt8) (o : Nat) (g : Nat → UInt8) (q : Nat) : Nat → Bool
  | 0 => true
  | n+1 => f o == g q && (g q == 0 || strnEq f (o + 1) g (q + 1) n)

def strcpy (f : Nat → UInt8) (dst src len : Nat) : Nat → UInt8 := fun i =>
  if dst ≤ i ∧ i ≤ dst + len then f (src + (i - dst)) else f i

/-- the string at `o`, cut after `n` bytes -/
def cstr (f : Nat → UInt8) (o n : Nat) : List UInt8 := bytesAt f o (spanTo (fun a => a == 0) f o n)

def textBuf (s : List UInt8) : Nat → UInt8 := fun i => s.getD i 0

/-! ## strings in memory -/

theorem textBuf_drop (h : 0 ∉ s) (o : Nat) : StrAt (textBuf s) o (s.drop o) where
  chars := by
    intro i hi
    have hlt : o + i < s.length := by
      rw [List.length_drop] at hi
      omega
    unfold textBuf
    rw [List.getD_eq_getElem _ _ hlt, List.getElem_drop]
  nul := by
    unfold textBuf
    rw [List.getD_eq_default _ _ (by rw [List.length_drop]; omega)]
  no_nul := fun h0 => h (List.mem_of_mem_drop h0)

theorem textBuf_str (h : 0 ∉ s) : StrAt (textBuf s) 0 s := textBuf_drop h 0

theorem StrAt.of_bytes (h : bytesAt f o s.length = s) (h0 : f (o + s.length) = 0) (hz : 0 ∉ s) :
    StrAt f o s where
  chars := by
    intro i hi
    have hlen : i < (bytesAt f o s.length).length := by
      rw [h]
      exact hi
    have hget : (bytesAt f o s.length)[i] = f (o + i) := by simp [bytesAt]
    rw [← hget]
    simp only [h]
  nul := h0
  no_nul := hz

theorem Chars.left {a b : List UInt8} (h : Chars f o (a ++ b)) : Chars f o a := by
  intro i hi
  have hlt : i < (a ++ b).length := by
    rw [List.length_append]
    omega
  rw [h i hlt, List.getElem_append_left hi]

theorem Chars.right {a b : List UInt8} (h : Chars f o (a ++ b)) : Chars f (o + a.length) b := by
  intro i hi
  have hlt : a.length + i < (a ++ b).length := by
    rw [List.length_append]
    omega
  rw [Nat.add_assoc, h _ hlt, List.getElem_append_right (Nat.le_add_right _ _)]
  congr 1
  omega

theorem StrAt.right {a b : List UInt8} (h : StrAt f o (a ++ b)) : StrAt f (o + a.length) b where
  chars := h.chars.right
  nul := by
    have hn := h.nul
    rwa [List.length_append, ← Nat.add_assoc] at hn
  no_nul := fun hb => h.no_nul (List.mem_append_right a hb)

theorem Chars.head {a : UInt8} (h : Chars f o (a :: s)) : f o = a := h 0 (Nat.succ_pos _)

theorem spanTo_eq {p : UInt8 → Bool} {k : Nat} (hk : ∀ i < k, p (f (o + i)) = false)
    (hp : p (f (o + k)) = true) (hn : k < n) : spanTo p f o n = k := by
  induction k generalizing o n with
  | zero =>
    obtain ⟨m, rfl⟩ : ∃ m, n = m + 1 := ⟨n - 1, by omega⟩
    rw [Nat.add_zero] at hp
    rw [spanTo, if_pos hp]
  | succ k ih =>
    obtain ⟨m, rfl⟩ : ∃ m, n = m + 1 := ⟨n - 1, by omega⟩
    have h0 : p (f o) = false := hk 0 (Nat.succ_pos k)
    have hshift : ∀ i, o + (i + 1) = o + 1 + i := by
      intro i
      omega
    rw [spanTo, h0, if_neg Bool.false_ne_true]
    congr 1
    apply ih _ _ (by omega)
    · intro i hi
      rw [← hshift]
      exact hk (i + 1) (by omega)
    · rwa [← hshift]

/-! ## comparisons -/

theorem memEq_iff : memEq f o g q n = true ↔ ∀ i < n, f (o + i) = g (q + i) := by
  induction n generalizing o q with
  | zero => simp [memEq]
  | succ n ih =>
    rw [memEq, Bool.and_eq_true, beq_iff_eq, ih, Nat.forall_lt_succ_left]
    simp only [Nat.add_assoc, Nat.add_comm 1, Nat.add_zero]

/-- nothing is compared behind the first 0 of the second string -/
theorem strnEq_iff :
    strnEq f o g q n = true ↔ ∀ i < n, (∀ j < i, g (q + j) ≠ 0) → f (o + i) = g (q + i) := by
  induction n generalizing o q with
  | zero => simp [strnEq]
  | succ n ih =>
    rw [strnEq, Bool.and_eq_true, Bool.or_eq_true, beq_iff_eq, beq_iff_eq, ih, Nat.forall_lt_succ_left]
    simp only [Nat.forall_lt_succ_left, Nat.add_assoc, Nat.add_comm 1, Nat.add_zero]
    by_cases h0 : g q = 0 <;> simp [h0]

theorem strnEq_memEq (h : ∀ i, i + 1 < n → g (q + i) ≠ 0) : strnEq f o g q n = memEq f o g q n := by
  rw [Bool.eq_iff_iff, strnEq_iff, memEq_iff]
  exact forall₂_congr fun i hi => imp_iff_right fun j hj => h j (by omega)

theorem Chars.ne_zero (hx : Chars g q x) (hz : 0 ∉ x) : ∀ i < x.length, g (q + i) ≠ 0 := by
  intro i hi h0
  apply hz
  rw [← h0, hx i hi]
  exact List.getElem_mem hi

theorem memEq_prefix (hn : StrAt f o nm) (hx : Chars g q x) (hz : 0 ∉ x) :
    memEq f o g q x.length = true ↔ x <+: nm := by
  rw [memEq_iff]
  constructor
  · intro h
    have hlen : x.length ≤ nm.length := by
      by_contra hc
      have h0 := h nm.length (by omega)
      rw [hn.nul] at h0
      exact hx.ne_zero hz nm.length (by omega) h0.symm
    rw [List.prefix_iff_getElem?]
    intro i hi
    rw [List.getElem?_eq_getElem (lt_of_lt_of_le hi hlen), ← hx i hi, ← h i hi, hn.chars]
  · intro h i hi
    obtain ⟨t, rfl⟩ := h
    rw [hn.chars.left i hi, hx i hi]

theorem strnEq_prefix (hn : StrAt f o nm) (hx : Chars g q x) (hz : 0 ∉ x) :
    strnEq f o g q x.length = true ↔ x <+: nm := by
  rw [strnEq_memEq fun i hi => hx.ne_zero hz i (by omega)]
  exact memEq_prefix hn hx hz

theorem strnEq_whole (hn : StrAt f o nm) (hx : StrAt g q x) :
    strnEq f o g q (x.length + 1) = true ↔ nm = x := by
  rw [strnEq_memEq fun i hi => hx.chars.ne_zero hx.no_nul i (by omega), memEq_iff]
  constructor
  · intro h
    have hpre : x <+: nm := by
      rw [← memEq_prefix hn hx.chars hx.no_nul, memEq_iff]
      intro i hi
      exact h i (by omega)
    obtain ⟨t, rfl⟩ := hpre
    cases t with
    | nil => rw [List.append_nil]
    | cons a t =>
      exfalso
      have h1 := h x.length (Nat.lt_succ_self _)
      rw [hx.nul, hn.chars.right.head] at h1
      apply hn.no_nul
      rw [← h1]
      exact List.mem_append_right x List.mem_cons_self
  · intro h i hi
    subst h
    rcases Nat.lt_succ_iff_lt_or_eq.mp hi with hi | rfl
    · rw [hn.chars i hi, hx.chars i hi]
    · rw [hn.nul, hx.nul]

end OsZ
