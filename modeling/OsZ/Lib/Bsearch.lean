import OsZ.Base.Word

/-!
# The binary search of libc (`bsearch` in `libc/stdlib.c`)

The loop keeps the window `[s,e)` and takes the element in its middle `m`, but it computes the address as
`base+m*s`, not as `base+m*size`.  So it looks at the first element as long as `s` is 0, and then at
whatever is `m*s` bytes behind it.

* `bsearch`      the addresses that `cmp` gets, and the result;
* `BsearchLaw`   all of them are elements, and the result is one that compares equal, if there is one;
* `SureSearch`   only the first element is needed;
* `bsearch_law`  then the law holds, and in no other case for short and for long arrays.
-/

namespace OsZ

/-- `cmp p` is `cmp(key,p)` -/
def bsearchLoop (cmp : Nat → Int) (base s e : Nat) : List Nat × Option Nat :=
  if s < e then
    let m := s + (e - s) / 2
    let p := w64 (base + m * s)
    let rest := if cmp p < 0 then bsearchLoop cmp base s m
      else if 0 < cmp p then bsearchLoop cmp base (m + 1) e
      else ([], some p)
    (p :: rest.1, rest.2)
  else ([], none)
termination_by e - s

def bsearch (cmp : Nat → Int) (base nmemb : Nat) : List Nat × Option Nat := bsearchLoop cmp base 0 nmemb

/-- `nmemb` elements of `size` bytes, in the order of `cmp` -/
structure SortedArr (cmp : Nat → Int) (base nmemb size : Nat) : Prop where
  fits : base + nmemb * size ≤ 2^64
  space : base < 2^64
  sorted : ∀ i j, i ≤ j → j < nmemb →
    (0 < cmp (base + j * size) → 0 < cmp (base + i * size)) ∧ (cmp (base + i * size) < 0 → cmp (base + j * size) < 0)

def IsElem (base nmemb size p : Nat) : Prop := ∃ k < nmemb, p = base + k * size

/-- an element that compares equal, or `NULL` and there is none -/
def Answers (cmp : Nat → Int) (base nmemb size : Nat) : Option Nat → Prop
  | some p => IsElem base nmemb size p ∧ cmp p = 0
  | none => ∀ p, IsElem base nmemb size p → cmp p ≠ 0

def SearchLaw (cmp : Nat → Int) (base nmemb size : Nat) (r : List Nat × Option Nat) : Prop :=
  (∀ p ∈ r.1, IsElem base nmemb size p) ∧ Answers cmp base nmemb size r.2

def BsearchLaw (cmp : Nat → Int) (base nmemb size : Nat) : Prop :=
  SearchLaw cmp base nmemb size (bsearch cmp base nmemb)

/-- at most one element, or a key that is not behind the first one, or two elements and the second is not equal -/
def SureSearch (cmp : Nat → Int) (base nmemb size : Nat) : Prop :=
  nmemb ≤ 1 ∨ cmp base ≤ 0 ∨ nmemb = 2 ∧ cmp (base + size) ≠ 0

section
variable {cmp : Nat → Int} {base nmemb size s e m p : Nat}

theorem bsearchLoop_end (h : e ≤ s) : bsearchLoop cmp base s e = ([], none) := by
  rw [bsearchLoop, if_neg (by omega)]

theorem bsearchLoop_low (h : s < e) (hm : m = s + (e - s) / 2) (hp : p = w64 (base + m * s)) (hlt : cmp p < 0) :
    bsearchLoop cmp base s e = (p :: (bsearchLoop cmp base s m).1, (bsearchLoop cmp base s m).2) := by
  subst hm hp
  rw [bsearchLoop, if_pos h]
  simp only [if_pos hlt]

theorem bsearchLoop_high (h : s < e) (hm : m = s + (e - s) / 2) (hp : p = w64 (base + m * s)) (hgt : 0 < cmp p) :
    bsearchLoop cmp base s e = (p :: (bsearchLoop cmp base (m + 1) e).1, (bsearchLoop cmp base (m + 1) e).2) := by
  subst hm hp
  rw [bsearchLoop, if_pos h]
  simp only [if_neg (not_lt.mpr hgt.le), if_pos hgt]

theorem bsearchLoop_hit (h : s < e) (hm : m = s + (e - s) / 2) (hp : p = w64 (base + m * s)) (heq : cmp p = 0) :
    bsearchLoop cmp base s e = ([p], some p) := by
  subst hm hp
  rw [bsearchLoop, if_pos h]
  simp only [heq, lt_irrefl, if_false]

theorem searchLaw_cons {r : List Nat × Option Nat} : SearchLaw cmp base nmemb size (p :: r.1, r.2) ↔
    IsElem base nmemb size p ∧ SearchLaw cmp base nmemb size r := by
  unfold SearchLaw
  rw [List.forall_mem_cons, and_assoc]

theorem SortedArr.first (h : SortedArr cmp base nmemb size) (m : Nat) : w64 (base + m * 0) = base := by
  rw [Nat.mul_zero, Nat.add_zero, w64_of_lt h.space]

/-- all looks are at the first element, and the key is before it -/
theorem search_before (h : SortedArr cmp base nmemb size) (hn : 0 < nmemb) (hlt : cmp base < 0) (e : Nat) :
    SearchLaw cmp base nmemb size (bsearchLoop cmp base 0 e) := by
  induction e using Nat.strong_induction_on with
  | _ e ih =>
  rcases Nat.eq_zero_or_pos e with rfl | hpos
  · rw [bsearchLoop_end le_rfl]
    refine ⟨fun p hp => absurd hp List.not_mem_nil, ?_⟩
    rintro p ⟨k, hk, rfl⟩
    have := (h.sorted 0 k (Nat.zero_le k) hk).2
    rw [Nat.zero_mul, Nat.add_zero] at this
    exact (this hlt).ne
  · rw [bsearchLoop_low hpos rfl (h.first _).symm hlt, searchLaw_cons]
    exact ⟨⟨0, hn, by simp⟩, ih _ (by omega)⟩

/-- behind the first element, what is left is the window of the second half -/
theorem bsearchLaw_behind (h : SortedArr cmp base nmemb size) (hn : 0 < nmemb) (hgt : 0 < cmp base) :
    BsearchLaw cmp base nmemb size ↔
      SearchLaw cmp base nmemb size (bsearchLoop cmp base (nmemb / 2 + 1) nmemb) := by
  unfold BsearchLaw bsearch
  rw [bsearchLoop_high (m := nmemb / 2) hn (by omega) (h.first _).symm hgt, searchLaw_cons,
    and_iff_right ⟨0, hn, by simp⟩]

theorem bsearchLaw_short (h : SortedArr cmp base nmemb size) (hn : 0 < nmemb) (hgt : 0 < cmp base) (h2 : nmemb ≤ 2) :
    BsearchLaw cmp base nmemb size ↔ ∀ p, IsElem base nmemb size p → cmp p ≠ 0 := by
  rw [bsearchLaw_behind h hn hgt, bsearchLoop_end (by omega)]
  exact and_iff_right fun p hp => absurd hp List.not_mem_nil

/-- three quarters of the elements times half of them is more than the size of the array -/
theorem not_isElem (hsz : 8 * size ≤ 3 * nmemb) (hn : nmemb ≤ 2^32) (h3 : 3 ≤ nmemb) (hs : s = nmemb / 2 + 1)
    (hm : m = s + (nmemb - s) / 2) (hb : base < 2^64) : ¬ IsElem base nmemb size (w64 (base + m * s)) := by
  rintro ⟨k, hk, he⟩
  have h1 : 3 * nmemb ≤ 4 * m + 1 := by omega
  have h2 : nmemb + 1 ≤ 2 * s := by omega
  have hout : nmemb * size ≤ m * s := by nlinarith
  have hk' : k * size ≤ nmemb * size := Nat.mul_le_mul_right _ hk.le
  have hpos : 0 < m * s := Nat.mul_pos (by omega) (by omega)
  have hms : m * s < 2^64 := by
    calc m * s < 2^32 * 2^32 := Nat.mul_lt_mul'' (by omega) (by omega)
      _ = 2^64 := by norm_num
  have hlt : k * size < nmemb * size ∨ size = 0 := by
    rcases Nat.eq_zero_or_pos size with h0 | h0
    · exact Or.inr h0
    · exact Or.inl ((Nat.mul_lt_mul_right h0).mpr hk)
  unfold w64 at he
  rcases hlt with hlt | rfl
  · omega
  · omega

/-- **`bsearch`.**  It does its task if the array has at most one element, or the key is not behind the first
element.  In a long array it fails for every other key. -/
theorem bsearch_law (h : SortedArr cmp base nmemb size) :
    (SureSearch cmp base nmemb size → BsearchLaw cmp base nmemb size) ∧
    (nmemb ≤ 2 ∨ 8 * size ≤ 3 * nmemb ∧ nmemb ≤ 2^32 →
      BsearchLaw cmp base nmemb size → SureSearch cmp base nmemb size) := by
  rcases Nat.eq_zero_or_pos nmemb with rfl | hn
  · refine ⟨fun _ => ?_, fun _ _ => Or.inl (by decide)⟩
    unfold BsearchLaw bsearch
    rw [bsearchLoop_end le_rfl]
    exact ⟨fun p hp => absurd hp List.not_mem_nil, fun p ⟨k, hk, _⟩ => absurd hk (Nat.not_lt_zero k)⟩
  have hfirst : IsElem base nmemb size base := ⟨0, hn, by simp⟩
  rcases lt_trichotomy (cmp base) 0 with hc | hc | hc
  · exact ⟨fun _ => search_before h hn hc nmemb, fun _ _ => Or.inr (Or.inl hc.le)⟩
  · refine ⟨fun _ => ?_, fun _ _ => Or.inr (Or.inl hc.le)⟩
    unfold BsearchLaw bsearch
    rw [bsearchLoop_hit hn rfl (h.first _).symm hc]
    exact ⟨by simpa using hfirst, hfirst, hc⟩
  constructor
  · rintro (h1 | h1 | ⟨rfl, h2⟩)
    · rw [bsearchLaw_short h hn hc (by omega)]
      rintro p ⟨k, hk, rfl⟩
      obtain rfl : k = 0 := by omega
      rw [Nat.zero_mul]
      exact hc.ne'
    · omega
    · rw [bsearchLaw_short h hn hc le_rfl]
      rintro p ⟨k, hk, rfl⟩
      obtain rfl | rfl : k = 0 ∨ k = 1 := by omega
      · rw [Nat.zero_mul]
        exact hc.ne'
      · rwa [Nat.one_mul]
  · intro hlen hlaw
    by_cases h2 : nmemb ≤ 2
    · rw [bsearchLaw_short h hn hc h2] at hlaw
      rcases Nat.lt_or_ge nmemb 2 with h1 | h1
      · exact Or.inl (by omega)
      · exact Or.inr (Or.inr ⟨by omega, hlaw _ ⟨1, by omega, by rw [Nat.one_mul]⟩⟩)
    · -- the first look in the second half is behind the array
      rw [bsearchLaw_behind h hn hc] at hlaw
      obtain ⟨hsz, h32⟩ := hlen.resolve_left h2
      obtain ⟨m, hm⟩ : ∃ m, m = nmemb / 2 + 1 + (nmemb - (nmemb / 2 + 1)) / 2 := ⟨_, rfl⟩
      refine absurd (hlaw.1 (w64 (base + m * (nmemb / 2 + 1))) ?_) (not_isElem hsz h32 (by omega) rfl hm h.space)
      rw [bsearchLoop, if_pos (by omega), ← hm]
      exact List.mem_cons_self

end

/-- the bytes 1, 2, 3 and the key 1 -/
theorem bsearch_first : BsearchLaw (fun p => 1 - (p : Int)) 1 3 1 := by
  refine (bsearch_law ⟨by decide, by decide, fun i j hij hj => ⟨?_, ?_⟩⟩).1 (Or.inr (Or.inl (by decide)))
  · intro h; omega
  · intro h; omega

/-- the bytes 1, 2, 3 and the key 2: after the first element the byte behind the array is looked at -/
theorem bsearch_misses : SortedArr (fun p => 2 - (p : Int)) 1 3 1 ∧
    bsearch (fun p => 2 - (p : Int)) 1 3 = ([1, 5], none) ∧ ¬ BsearchLaw (fun p => 2 - (p : Int)) 1 3 1 := by
  have hrun : bsearch (fun p => 2 - (p : Int)) 1 3 = ([1, 5], none) := by
    unfold bsearch
    rw [bsearchLoop_high (m := 1) (p := 1) (by decide) rfl rfl (by decide),
      bsearchLoop_low (m := 2) (p := 5) (by decide) rfl rfl (by decide), bsearchLoop_end le_rfl]
  refine ⟨⟨by decide, by decide, fun i j hij hj => ⟨fun h => ?_, fun h => ?_⟩⟩, hrun, fun h => ?_⟩
  · omega
  · omega
  · unfold BsearchLaw at h
    rw [hrun] at h
    obtain ⟨k, hk, he⟩ := h.1 5 (by simp)
    omega

end OsZ
