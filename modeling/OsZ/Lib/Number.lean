import OsZ.Fs.Path

/-!
# The number parsers of the core and of libc

`env_dec`, `env_hex` in `core/env.c` and `stdlib_dec`, `stdlib_hex` in `libc/stdlib.c` store a number and
return the position after it.  They are the same code, but `env_hex` does not clear the variable, and both
hexadecimal parsers skip a prefix that their caller has skipped already.

* `envDec`, `stdlibDecAt`  the parsers, with the position, which is the text from there on;
* `Numeral`, `Bounds`      a number in a text, and what it is clamped to;
* `num_law_iff`            when both of them read it.
-/

namespace OsZ

def hexStep (v : Nat) (c : UInt8) : Nat := w64 (w64 (v * 16) + hexVal c)

def decStep (v : Nat) (c : UInt8) : Nat := w64 (w64 (v * 10) + digitVal c)

/-- `do { step; s++; } while(digit(*s))`; behind the text is its closing 0 -/
def numLoop (digit : UInt8 → Bool) (step : Nat → UInt8 → Nat) (v : Nat) : List UInt8 → Nat × List UInt8
  | [] => (step v 0, [])
  | c :: s => if digit (s.headD 0) then numLoop digit step (step v c) s else (step v c, s)

def clampTo (v lo hi : Nat) : Nat :=
  let v := if v < lo then lo else v
  if hi ≠ 0 ∧ hi < v then hi else v

/-- `*s=='0' && *(s+1)=='x'` -/
def hexPrefixed (s : List UInt8) : Bool := s.headD 0 == 48 && s.tail.headD 0 == 120

/-- `v` is what the variable holds at the loop -/
def numHex (v : Nat) (s : List UInt8) (lo hi : Nat) : Nat × List UInt8 :=
  let r := numLoop isHex hexStep v (if hexPrefixed s then s.drop 2 else s)
  (clampTo r.1 lo hi, r.2)

/-- `*v` is `prev` before the call -/
def envHex (prev : Nat) (s : List UInt8) (lo hi : Nat) : Nat × List UInt8 := numHex prev s lo hi

def stdlibHexAt (_prev : Nat) (s : List UInt8) (lo hi : Nat) : Nat × List UInt8 := numHex 0 s lo hi

def numDec (hex : Nat → List UInt8 → Nat → Nat → Nat × List UInt8) (prev : Nat) (s : List UInt8) (lo hi : Nat) :
    Nat × List UInt8 :=
  if hexPrefixed s then hex prev (s.drop 2) lo hi
  else
    let r := numLoop isDigit decStep 0 s
    (clampTo r.1 lo hi, r.2)

def envDec : Nat → List UInt8 → Nat → Nat → Nat × List UInt8 := numDec envHex

def stdlibDecAt : Nat → List UInt8 → Nat → Nat → Nat × List UInt8 := numDec stdlibHexAt

/-! ## numbers -/

def positional (base : Nat) (ds : List UInt8) : Nat := ds.foldl (fun v c => v * base + hexVal c) 0

/-- a decimal number, or a hexadecimal one with its prefix, and what follows it -/
structure Numeral where
  hex : Bool
  ds : List UInt8
  rest : List UInt8
  nonempty : ds ≠ []
  digits : ∀ c ∈ ds, (if hex then isHex c else isDigit c) = true
  ends : (if hex then isHex (rest.headD 0) else isDigit (rest.headD 0)) = false
  decimal : hex = false → hexPrefixed (ds ++ rest) = false
  value_lt : positional (if hex then 16 else 10) ds < 2^64

namespace Numeral

def value (n : Numeral) : Nat := positional (if n.hex then 16 else 10) n.ds

def text (n : Numeral) : List UInt8 := if n.hex then 48 :: 120 :: (n.ds ++ n.rest) else n.ds ++ n.rest

end Numeral

structure Bounds where
  lo : Nat
  hi : Nat
  le : lo ≤ hi
  ne : hi ≠ 0

/-- both parsers store the clamped value, and stop behind the last digit -/
def NumLaw (n : Numeral) (prev : Nat) (b : Bounds) : Prop :=
  envDec prev n.text b.lo b.hi = (max b.lo (min n.value b.hi), n.rest) ∧
  stdlibDecAt prev n.text b.lo b.hi = (max b.lo (min n.value b.hi), n.rest)

theorem Bounds.clampTo_eq (b : Bounds) (v : Nat) : clampTo v b.lo b.hi = max b.lo (min v b.hi) := by
  have hle := b.le
  have hne := b.ne
  unfold clampTo
  dsimp only
  split_ifs <;> omega

theorem numLoop_digits {ds rest : List UInt8} (digit : UInt8 → Bool) (step : Nat → UInt8 → Nat) (v : Nat)
    (hne : ds ≠ []) (hds : ∀ c ∈ ds, digit c = true) (hend : digit (rest.headD 0) = false) :
    numLoop digit step v (ds ++ rest) = (ds.foldl step v, rest) := by
  induction ds generalizing v with
  | nil => exact absurd rfl hne
  | cons c ds ih =>
    rw [List.cons_append, numLoop, List.foldl_cons]
    cases ds with
    | nil => rw [List.nil_append, hend, if_neg Bool.false_ne_true, List.foldl_nil]
    | cons d ds =>
      rw [if_pos (by simpa using hds d (by simp)), ih _ (List.cons_ne_nil d ds) fun x hx => hds x
        (List.mem_cons_of_mem c hx)]

theorem positional_foldl (base : Nat) (ds : List UInt8) (v : Nat) :
    ds.foldl (fun v c => v * base + hexVal c) v = v * base ^ ds.length + positional base ds := by
  unfold positional
  induction ds generalizing v with
  | nil => simp
  | cons c ds ih =>
    rw [List.foldl_cons, List.foldl_cons, ih (v * base + hexVal c), ih (0 * base + hexVal c), List.length_cons,
      pow_succ]
    ring

theorem foldl_step {step : Nat → UInt8 → Nat} {base : Nat} {ds : List UInt8}
    (hstep : ∀ v, ∀ c ∈ ds, step v c = w64 (v * base + hexVal c)) (hne : ds ≠ []) (v : Nat) :
    ds.foldl step v = w64 (v * base ^ ds.length + positional base ds) := by
  rw [← positional_foldl]
  induction ds generalizing v with
  | nil => exact absurd rfl hne
  | cons c ds ih =>
    rw [List.foldl_cons, List.foldl_cons, hstep v c List.mem_cons_self]
    cases ds with
    | nil => rfl
    | cons d ds =>
      rw [ih (fun v c hc => hstep v c (List.mem_cons_of_mem _ hc)) (List.cons_ne_nil d ds), positional_foldl,
        positional_foldl]
      unfold w64
      rw [Nat.add_mod, Nat.mul_mod, Nat.mod_mod, ← Nat.mul_mod, ← Nat.add_mod]

theorem hexStep_eq (v : Nat) (c : UInt8) : hexStep v c = w64 (v * 16 + hexVal c) := by
  unfold hexStep w64
  omega

theorem decStep_eq {c : UInt8} (v : Nat) (h : isDigit c = true) : decStep v c = w64 (v * 10 + hexVal c) := by
  have hc := of_decide_eq_true h
  have h48 : 48 ≤ c.toNat := hc.1
  have h256 := c.toNat_lt
  unfold decStep hexVal digitVal
  rw [if_pos h, sub64_of_le h48 (by omega)]
  unfold w64
  omega

section
variable {n : Numeral}

/-- the second prefix -/
def Numeral.doubled (n : Numeral) : Prop := n.ds = [48] ∧ n.rest.headD 0 = 120

theorem hexPrefixed_digits (hx : n.hex = true) : hexPrefixed (n.ds ++ n.rest) = true ↔ n.doubled := by
  obtain ⟨c, ds, hds⟩ := List.exists_cons_of_ne_nil n.nonempty
  unfold hexPrefixed Numeral.doubled
  rw [hds, Bool.and_eq_true, beq_iff_eq, beq_iff_eq, List.cons.injEq, and_assoc]
  refine and_congr_right fun _ => ?_
  cases ds with
  | nil => simp
  | cons d ds =>
    -- an `x` is not a digit
    have hd := n.digits d (by simp [hds])
    rw [hx, if_pos rfl] at hd
    refine iff_of_false (fun h => ?_) (by simp)
    rw [show d = 120 from h] at hd
    exact absurd hd (by decide)

theorem numHex_plain (hx : n.hex = true) (hd : ¬ n.doubled) (v : Nat) (b : Bounds) :
    numHex v (n.ds ++ n.rest) b.lo b.hi =
      (max b.lo (min (w64 (v * 16 ^ n.ds.length + n.value)) b.hi), n.rest) := by
  have hdig := n.digits
  have hend := n.ends
  rw [hx] at hdig hend
  have hrun := numLoop_digits isHex hexStep v n.nonempty hdig hend
  rw [foldl_step (fun v c _ => hexStep_eq v c) n.nonempty] at hrun
  unfold numHex Numeral.value
  rw [if_neg (fun h => hd ((hexPrefixed_digits hx).mp h)), hrun, hx]
  exact Prod.ext (b.clampTo_eq _) rfl

/-- with a second prefix the parsers go on behind it -/
theorem numHex_doubled (hd : n.doubled) (v : Nat) (b : Bounds) : (numHex v (n.ds ++ n.rest) b.lo b.hi).2 ≠ n.rest := by
  obtain ⟨h1, h2⟩ := hd
  obtain ⟨r, hr⟩ : ∃ r, n.rest = 120 :: r := by
    cases hrest : n.rest with
    | nil => rw [hrest] at h2; exact absurd h2 (by decide)
    | cons c r => rw [hrest] at h2; exact ⟨r, by rw [← h2]; rfl⟩
  have hlen : ∀ (w : Nat) (s : List UInt8), (numLoop isHex hexStep w s).2.length ≤ s.length := by
    intro w s
    induction s generalizing w with
    | nil => exact le_rfl
    | cons c s ih =>
      rw [numLoop]
      split_ifs
      · exact (ih _).trans (Nat.le_succ _)
      · exact Nat.le_succ _
  intro he
  have := congrArg List.length he
  unfold numHex at this
  rw [h1, hr] at this
  have := hlen v r
  simp [hexPrefixed] at *
  omega

/-- **The parsers.**  Both store the clamped value of a number and stop behind it if and only if it is decimal,
or no second prefix follows, and the old content of the variable does not matter to the clamped value. -/
theorem num_law_iff (n : Numeral) (prev : Nat) (b : Bounds) : NumLaw n prev b ↔ (n.hex = true →
    ¬ n.doubled ∧ clampTo (w64 (prev * 16 ^ n.ds.length + n.value)) b.lo b.hi = clampTo n.value b.lo b.hi) := by
  have hv : w64 n.value = n.value := w64_of_lt n.value_lt
  unfold NumLaw envDec stdlibDecAt numDec Numeral.text
  cases hx : n.hex with
  | false =>
    refine iff_of_true ?_ (fun h => absurd h Bool.false_ne_true)
    have hdig := n.digits
    have hend := n.ends
    rw [hx] at hdig hend
    have hrun := numLoop_digits isDigit decStep 0 n.nonempty hdig hend
    rw [foldl_step (fun v c hc => decStep_eq v (hdig c hc)) n.nonempty, Nat.zero_mul, Nat.zero_add] at hrun
    have hval : w64 (positional 10 n.ds) = n.value := by
      rw [← hv]
      unfold Numeral.value
      rw [hx]
      rfl
    rw [hval] at hrun
    rw [if_neg Bool.false_ne_true, n.decimal hx, if_neg Bool.false_ne_true, if_neg Bool.false_ne_true, hrun]
    exact ⟨Prod.ext (b.clampTo_eq _) rfl, Prod.ext (b.clampTo_eq _) rfl⟩
  | true =>
    rw [if_pos rfl, if_pos (by rfl), if_pos (by rfl), show List.drop 2 (48 :: 120 :: (n.ds ++ n.rest)) =
      n.ds ++ n.rest from rfl,
      b.clampTo_eq, b.clampTo_eq]
    unfold envHex stdlibHexAt
    by_cases hd : n.doubled
    · exact iff_of_false (fun h => numHex_doubled hd 0 b (congrArg Prod.snd h.2)) (fun h => (h rfl).1 hd)
    · rw [numHex_plain hx hd, numHex_plain hx hd, Nat.zero_mul, Nat.zero_add, hv, Prod.mk.injEq]
      exact ⟨fun h _ => ⟨hd, h.1.1⟩, fun h => ⟨⟨(h rfl).2, rfl⟩, rfl⟩⟩

end

/-- `0x10` with 1 in the variable -/
theorem envDec_stale : ∃ n : Numeral, n.text = [48, 120, 49, 48] ∧ n.value = 16 ∧
    envDec 1 n.text 0 1000 = (0x110, []) ∧ stdlibDecAt 1 n.text 0 1000 = (0x10, []) :=
  ⟨⟨true, [49, 48], [], by decide, by decide +kernel, by decide, by decide,
    by decide +kernel⟩, by decide +kernel⟩

end OsZ
