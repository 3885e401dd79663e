import OsZ.Lib.Compare
import OsZ.Fsz.Mkfs

/-!
# Comparing strings without case (`strncasecmp` and `strcasecmp` of `x86_64/string.S`)

The loop goes on as long as two characters differ, and ends with 0 at the first two that do not.  Only a character
that is not UTF-8 gives another result.

* `utf8Char`, `tolower`     a character of a string, and how it is compared;
* `strncasecmp`, `strcasecmp`   `%eax`;
* `SameFold`                the strings are equal but for the case of letters;
* `BadBehind`               the memory behind one of the strings is not UTF-8;
* `casecmp_law`             equal strings are told right; others only if `BadBehind`.
-/

namespace OsZ
variable {f : Nat → UInt8} {a b : List UInt8} {n p q : Nat}

/-- `shll $6, %ebx; addb %al, %bl` with the next byte -/
def utf8Next (f : Nat → UInt8) (c p : Nat) : Nat := c * 64 + (f p).toNat % 64

/-- the character at `p` and the address behind it -/
def utf8Char (f : Nat → UInt8) (p : Nat) : Option (Nat × Nat) :=
  let c := (f p).toNat
  if c < 128 then some (c, p + 1)
  else if c / 32 = 0b110 then some (utf8Next f (c % 32) (p + 1), p + 2)
  else if c / 16 = 0b1110 then some (utf8Next f (utf8Next f (c % 16) (p + 1)) (p + 2), p + 3)
  else if c / 8 = 0b11110 then
    some (utf8Next f (utf8Next f (utf8Next f (c % 8) (p + 1)) (p + 2)) (p + 3), p + 4)
  else none

def translatelower : List (Nat × Nat) := [(0x178, 0xFF)]

/-- what is named `tolower` makes the letters of ASCII upper case -/
def tolower (c : Nat) : Nat :=
  if c < 0x61 then c
  else if c ≤ 0x7a then c - 0x20
  -- behind 0xC0 the next bound is 0x7a once more, so that the branch for 0xC0 to 0xDE is never taken
  else if c < 0x100 then c
  else if c ≤ 0x137 then if c % 2 = 1 then c else c + 1
  else if c < 0x139 then c
  else if c ≤ 0x148 then if c % 2 = 1 then c + 1 else c
  else if c < 0x14A then c
  else if c ≤ 0x17E then if c % 2 = 1 then c else c + 1
  else if c < 0x182 then c
  else if c ≤ 0x185 then if c % 2 = 1 then c else c + 1
  else if c < 0x1A0 then c
  else if c ≤ 0x1A5 then if c % 2 = 1 then c + 1 else c
  else (translatelower.lookup c).getD c

def strncasecmp (f : Nat → UInt8) : Nat → Nat → Nat → Nat
  | 0, _, _ => 0
  | n+1, rdi, rsi =>
    match utf8Char f rdi, utf8Char f rsi with
    | some (c, rdi), some (d, rsi) => if tolower d = tolower c then 0 else strncasecmp f n rdi rsi
    | _, _ => 1

def strcasecmp (f : Nat → UInt8) (s1 s2 : Nat) : Nat := strncasecmp f (2^64 - 1) s1 s2

/-! ## the results -/

def SameFold (a b : List UInt8) : Prop := a.map lowerCase = b.map lowerCase

instance (a b : List UInt8) : Decidable (SameFold a b) := inferInstanceAs (Decidable (_ = _))

theorem utf8Char_lt {c p' : Nat} (h : utf8Char f p = some (c, p')) : p < p' := by
  unfold utf8Char at h
  dsimp only at h
  split_ifs at h <;> cases h <;> omega

theorem strncasecmp_valid (hp : ∀ x, p ≤ x → utf8Char f x ≠ none) (hq : ∀ x, q ≤ x → utf8Char f x ≠ none) :
    strncasecmp f n p q = 0 := by
  induction n generalizing p q with
  | zero => rfl
  | succ n ih =>
    obtain ⟨⟨c, p'⟩, hc⟩ := Option.ne_none_iff_exists'.mp (hp p le_rfl)
    obtain ⟨⟨d, q'⟩, hd⟩ := Option.ne_none_iff_exists'.mp (hq q le_rfl)
    rw [strncasecmp, hc, hd]
    dsimp only
    split_ifs
    · rfl
    · exact ih (fun x hx => hp x ((utf8Char_lt hc).le.trans hx)) (fun x hx => hq x ((utf8Char_lt hd).le.trans hx))

/-! ## ASCII -/

structure AsciiString (f : Nat → UInt8) extends CString f where
  ascii : ∀ x ∈ text, x.toNat < 128

theorem utf8Char_ascii (h : (f p).toNat < 128) : utf8Char f p = some ((f p).toNat, p + 1) := if_pos h

theorem tolower_lowerCase : ∀ c < 128, tolower c = tolower (lowerCase (UInt8.ofNat c)).toNat := by
  decide +kernel

theorem tolower_fold {x y : UInt8} (hx : x.toNat < 128) (hy : y.toNat < 128) (h : lowerCase x = lowerCase y) :
    tolower x.toNat = tolower y.toNat := by
  rw [tolower_lowerCase _ hx, tolower_lowerCase _ hy, UInt8.ofNat_toNat, UInt8.ofNat_toNat, h]

/-- the first characters of equal strings are equal, as is the end of empty ones -/
theorem strncasecmp_fold (ha : StrAt f p a) (hb : StrAt f q b) (hla : ∀ x ∈ a, x.toNat < 128)
    (hlb : ∀ x ∈ b, x.toNat < 128) (h : SameFold (a.take n) (b.take n)) : strncasecmp f n p q = 0 := by
  cases n with
  | zero => rfl
  | succ n =>
    have hfirst : (f p).toNat < 128 ∧ (f q).toNat < 128 ∧ lowerCase (f p) = lowerCase (f q) := by
      cases a with
      | nil =>
        have hp : f p = 0 := ha.nul
        cases b with
        | nil =>
          have hq : f q = 0 := hb.nul
          rw [hp, hq]
          decide
        | cons y b => simp [SameFold] at h
      | cons x a =>
        cases b with
        | nil => simp [SameFold] at h
        | cons y b =>
          rw [SameFold, List.take_succ_cons, List.take_succ_cons, List.map_cons, List.map_cons, List.cons.injEq] at h
          rw [ha.head.1, hb.head.1]
          exact ⟨hla x List.mem_cons_self, hlb y List.mem_cons_self, h.1⟩
    obtain ⟨hp, hq, he⟩ := hfirst
    rw [strncasecmp, utf8Char_ascii hp, utf8Char_ascii hq]
    exact if_pos (tolower_fold hq hp he.symm)

/-- both functions are 0 exactly for strings that are equal but for the case -/
def CasecmpLaw (s1 s2 : AsciiString f) (n : BitVec 64) : Prop :=
  (strncasecmp f n.toNat s1.addr s2.addr = 0 ↔ SameFold (s1.text.take n.toNat) (s2.text.take n.toNat)) ∧
    (strcasecmp f s1.addr s2.addr = 0 ↔ SameFold s1.text s2.text)

/-- behind the end of one of the strings there is a byte with which no character begins -/
def BadBehind (s1 s2 : AsciiString f) : Prop :=
  ∃ p, (s1.addr + s1.text.length < p ∨ s2.addr + s2.text.length < p) ∧ utf8Char f p = none

theorem AsciiString.valid (s : AsciiString f) (h : ∀ x, s.addr + s.text.length < x → utf8Char f x ≠ none) :
    ∀ x, s.addr ≤ x → utf8Char f x ≠ none := by
  intro x hx
  rcases Nat.lt_or_ge (s.addr + s.text.length) x with hlt | hge
  · exact h x hlt
  · have hb : (f x).toNat < 128 := by
      rcases Nat.lt_or_eq_of_le hge with hlt | rfl
      · have hc := s.here.chars (x - s.addr) (by omega)
        rw [Nat.add_sub_cancel' hx] at hc
        rw [hc]
        exact s.ascii _ (List.getElem_mem _)
      · rw [s.here.nul]
        decide
    rw [utf8Char_ascii hb]
    exact Option.some_ne_none _

/-- **Comparing without case.**  Strings that are equal but for the case (for `strncasecmp`, as far as they are
compared) are told right.  All others are taken for equal, too, unless the memory behind one of them is not UTF-8. -/
theorem casecmp_law (s1 s2 : AsciiString f) (n : BitVec 64) :
    (SameFold s1.text s2.text → CasecmpLaw s1 s2 n) ∧
    (SameFold (s1.text.take n.toNat) (s2.text.take n.toNat) → strncasecmp f n.toNat s1.addr s2.addr = 0) ∧
    (¬ BadBehind s1 s2 → strncasecmp f n.toNat s1.addr s2.addr = 0 ∧
      (CasecmpLaw s1 s2 n → SameFold s1.text s2.text)) := by
  have hzero := fun n => @strncasecmp_fold f s1.text s2.text n _ _ s1.here s2.here s1.ascii s2.ascii
  refine ⟨fun h => ?_, hzero _, fun hb => ?_⟩
  · have htake : ∀ n, SameFold (s1.text.take n) (s2.text.take n) := by
      intro n
      rw [SameFold, List.map_take, List.map_take, h]
    exact ⟨iff_of_true (hzero _ (htake _)) (htake _), iff_of_true (hzero _ (htake _)) h⟩
  · have hvalid : ∀ n, strncasecmp f n s1.addr s2.addr = 0 := fun n => strncasecmp_valid
      (s1.valid fun x hx hn => hb ⟨x, Or.inl hx, hn⟩) (s2.valid fun x hx hn => hb ⟨x, Or.inr hx, hn⟩)
    exact ⟨hvalid _, fun h => h.2.mp (hvalid _)⟩

/-- `strncasecmp("a","b",1)` is 0 -/
theorem casecmp_differ : ¬ CasecmpLaw ⟨letterA, by decide +kernel⟩ ⟨letterB, by decide +kernel⟩ 1 := by
  rintro ⟨h, -⟩
  exact absurd (h.mp (by decide +kernel)) (by decide +kernel)

end OsZ
