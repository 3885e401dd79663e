import OsZ.Fs.Suffix

/-!
# Writes to the path buffer

* `weight`           the length of a path in which a run of slashes is one slash;
* `canonRound_size`  one round writes no more than it reads, and the slash it may need in front;
* `canonTop_le`      so the largest index is bounded by the first part of the result and the path;
* `canonize_bound`   what keeps `canonize` inside of the buffer, and when `pathcat` stays there.

`need` is the slash that is still missing behind the result.
-/

namespace OsZ

section
variable (e : CanonEnv)

/-- the length of a path in which a run of slashes is one slash -/
def weight : List UInt8 → Nat
  | [] => 0
  | a :: l => (if a = chSlash ∧ l.head? = some chSlash then 0 else 1) + weight l

/-- the slash in front of the next name, or at the end -/
def need (c : Canon) : Nat :=
  if lastChar e c.res ≠ chSlash ∧ c.rest.head? ≠ some chSlash ∧ (c.rest ≠ [] ∨ c.prev = chSlash) then 1 else 0

/-- the slash at the end -/
def endNeed (c : Canon) : Nat := if lastChar e c.res ≠ chSlash ∧ c.prev = chSlash then 1 else 0

/-- the bytes of the result and those that are still to be read -/
def Canon.size (c : Canon) : Nat := c.res.length + weight c.rest

end

section
variable {e : CanonEnv} {c : Canon} {n : Nat} {r s path : List UInt8}

theorem weight_le_cons (a : UInt8) (l : List UInt8) : weight l ≤ weight (a :: l) := by
  rw [weight]
  omega

theorem weight_cons {a : UInt8} (h : a ≠ chSlash) (l : List UInt8) : weight (a :: l) = 1 + weight l := by
  rw [weight, if_neg (fun hc => h hc.1)]

theorem weight_drop (l : List UInt8) (n : Nat) : weight (l.drop n) ≤ weight l := by
  induction n generalizing l with
  | zero => exact Nat.le_refl _
  | succ n ih =>
    cases l with
    | nil => exact Nat.le_refl _
    | cons a l => exact (ih l).trans (weight_le_cons a l)

theorem weight_append (h : ∀ a ∈ s, a ≠ chSlash) (r : List UInt8) : weight (s ++ r) = s.length + weight r := by
  induction s with
  | nil => simp
  | cons a s ih =>
    rw [List.cons_append, weight_cons (h a List.mem_cons_self), ih fun b hb => h b (List.mem_cons_of_mem a hb),
      List.length_cons]
    omega

/-- a slash in front of a path and all that follow it count once -/
theorem weight_slashes (l : List UInt8) :
    1 + weight ((chSlash :: l).drop ((chSlash :: l).takeWhile (· == chSlash)).length) ≤ weight (chSlash :: l) := by
  induction l with
  | nil => exact Nat.le_refl 1
  | cons a l ih =>
    rw [List.takeWhile_cons_of_pos (by rfl), List.length_cons, List.drop_succ_cons]
    by_cases ha : a = chSlash
    · subst ha
      exact ih.trans (weight_le_cons _ _)
    · rw [List.takeWhile_cons_of_neg (by simpa using ha), List.length_nil, List.drop_zero]
      have hone : weight (chSlash :: a :: l) = 1 + weight (a :: l) := by
        rw [weight.eq_2 chSlash, if_neg (fun hc => ha (Option.some.inj hc.2))]
      exact Nat.le_of_eq hone.symm

theorem need_of_slash (h : lastChar e c.res = chSlash) : need e c = 0 := if_neg fun hc => hc.1 h

theorem need_le : need e c ≤ 1 := by
  unfold need
  split <;> omega

theorem endNeed_le (h : c.rest = [] ∨ pathEnd (c.char 0) = true) : endNeed e c ≤ need e c := by
  unfold endNeed need
  split
  · next hc =>
    have hhead : c.rest.head? ≠ some chSlash := by
      intro hs
      rcases h with h | h
      · rw [h] at hs
        cases hs
      · have hchar : c.char 0 = chSlash := by
          unfold Canon.char
          cases hr : c.rest with
          | nil =>
            rw [hr] at hs
            cases hs
          | cons a l =>
            rw [hr] at hs
            exact Option.some.inj hs
        rw [hchar] at h
        exact absurd h (by decide)
    rw [if_pos ⟨hc.1, hhead, Or.inr hc.2⟩]
  · exact Nat.zero_le _

theorem endNeed_of_prev (h : c.prev ≠ chSlash) : endNeed e c = 0 := if_neg fun hc => h hc.2

theorem size_skip : (c.skip n).size = c.res.length + weight (c.rest.drop n) := by
  unfold Canon.size
  rw [Canon.skip_res, Canon.skip_rest]

theorem skip_need : (c.skip 1).size + need e (c.skip 1) ≤ c.size := by
  rw [size_skip]
  unfold Canon.size
  cases hr : c.rest with
  | nil =>
    have hneed : need e (c.skip 1) = 0 := by
      apply if_neg
      rintro ⟨-, -, h | h⟩
      · rw [Canon.skip_rest, hr] at h
        exact h rfl
      · rw [Canon.skip_prev Nat.one_ne_zero, hr] at h
        exact absurd h (by decide)
    rw [hneed]
    exact Nat.le_refl _
  | cons a l =>
    have hle := need_le (e := e) (c := c.skip 1)
    rw [List.drop_succ_cons, List.drop_zero, weight]
    split
    · next hrun =>
      -- the next slash stays, so none is missing
      have hneed : need e (c.skip 1) = 0 := by
        apply if_neg
        rw [Canon.skip_rest, hr]
        exact fun hc => hc.2.1 hrun.2
      omega
    · omega

theorem size_name (hs : ∀ a ∈ s, a ≠ chSlash) (h : c.rest = s ++ r) :
    ((c.put s).skip s.length).size = c.size ∧ ((c.put s).skip s.length).top = max c.top (c.res.length + s.length) := by
  refine ⟨?_, Canon.skip_top⟩
  rw [size_skip]
  unfold Canon.size Canon.put
  dsimp only
  rw [h, List.length_append, List.drop_left, weight_append hs]
  omega

theorem sign_cases {a : UInt8} {l : List UInt8} (h : c.rest = a :: l) :
    c.sign = ⟨c.res, c.top, a, l⟩ ∨ ∃ l', l = chMinus :: l' ∧ c.sign = ⟨c.res, c.top, chMinus, l'⟩ := by
  unfold Canon.sign
  dsimp only
  rw [Canon.skip_cons h]
  by_cases hm : (⟨c.res, c.top, a, l⟩ : Canon).char 0 = chMinus
  · right
    rw [if_pos hm]
    cases l with
    | nil => exact absurd hm (show ¬ (0 : UInt8) = chMinus by decide)
    | cons b l' =>
      obtain rfl : b = chMinus := hm
      exact ⟨l', rfl, Canon.skip_cons rfl⟩
  · exact Or.inl (if_neg hm)

theorem canonVersion_size {l : List UInt8} (h : c.rest = chSemi :: l) :
    (canonVersion c).size ≤ c.size ∧ (canonVersion c).top ≤ max c.top c.size := by
  obtain ⟨b, l', hsign, hlen⟩ : ∃ b l', c.sign = ⟨c.res, c.top, b, l'⟩ ∧ weight l' ≤ weight l := by
    rcases sign_cases h with hs | ⟨l', rfl, hs⟩
    · exact ⟨chSemi, l, hs, Nat.le_refl _⟩
    · exact ⟨chMinus, l', hs, weight_le_cons _ _⟩
  have hsize : c.size = c.res.length + (1 + weight l) := by
    unfold Canon.size
    rw [h, weight_cons (by decide)]
  unfold canonVersion
  rw [hsign]
  dsimp only
  split
  · next hc =>
    cases l' with
    | nil => exact absurd hc.1 (by simp)
    | cons d r =>
      have hd : d ≠ chSlash := by
        rintro rfl
        exact absurd hc.2.1 (show ¬ isDigit19 chSlash = true by decide)
      rw [weight_cons hd] at hlen
      rw [size_skip, Canon.skip_top]
      dsimp only [Canon.put]
      rw [List.length_append, List.drop_succ_cons, List.drop_zero]
      simp only [List.length_cons, List.length_nil]
      omega
  · unfold Canon.size at hsize ⊢
    dsimp only
    omega

theorem digits_prev {b : UInt8} {l d : List UInt8} (hb : b ≠ chSlash) (hd : d = l.takeWhile isDigit) {k : Nat} :
    ((⟨r, k, b, l⟩ : Canon).skip d.length).prev ≠ chSlash := by
  unfold Canon.skip
  split
  · exact hb
  · next hlen =>
    have hpos : d.length - 1 < d.length := by omega
    have hget : l.getD (d.length - 1) 0 = d.get ⟨d.length - 1, hpos⟩ := by
      have happ : l = d ++ l.dropWhile isDigit := by rw [hd, List.takeWhile_append_dropWhile]
      rw [happ, List.getD_eq_getElem?_getD, List.getElem?_append_left hpos, List.getElem?_eq_getElem hpos]
      rfl
    show l.getD (d.length - 1) 0 ≠ chSlash
    rw [hget]
    apply isDigit_ne _ (by decide)
    have hmem : d.get ⟨d.length - 1, hpos⟩ ∈ l.takeWhile isDigit := by
      rw [← hd]
      exact List.get_mem d ⟨_, hpos⟩
    exact List.mem_takeWhile_imp hmem

theorem canonOffset_size {l : List UInt8} (h : c.rest = chHash :: l) :
    (canonOffset c).res.length + endNeed e (canonOffset c) ≤ c.size ∧ (canonOffset c).top ≤ max c.top c.size := by
  obtain ⟨b, l', hsign, hb, hlen⟩ : ∃ b l', c.sign = ⟨c.res, c.top, b, l'⟩ ∧ b ≠ chSlash ∧
      (if b = chMinus then [chHash, chMinus] else [chHash]).length + weight l' ≤ weight c.rest := by
    rw [h, weight_cons (by decide)]
    rcases sign_cases h with hs | ⟨l', rfl, hs⟩
    · exact ⟨chHash, l, hs, by decide, by rw [if_neg (by decide)]; simp⟩
    · exact ⟨chMinus, l', hs, by decide, by rw [if_pos rfl, weight_cons (by decide)]; simp; omega⟩
  unfold canonOffset
  rw [hsign]
  dsimp only
  generalize (if b = chMinus then [chHash, chMinus] else [chHash]) = t at hlen ⊢
  have hsize : c.size = c.res.length + weight c.rest := rfl
  split
  · have hd : (l'.takeWhile isDigit).length ≤ weight l' := by
      have hdigits : ∀ a ∈ l'.takeWhile isDigit, a ≠ chSlash :=
        fun a ha => isDigit_ne (List.mem_takeWhile_imp ha) (by decide)
      have happ := weight_append hdigits (l'.dropWhile isDigit)
      rw [List.takeWhile_append_dropWhile] at happ
      omega
    dsimp only [Canon.put]
    rw [endNeed_of_prev (digits_prev hb rfl), Canon.skip_res, Canon.skip_top]
    dsimp only
    rw [List.length_append, List.length_append]
    omega
  · rw [endNeed_of_prev hb]
    dsimp only
    omega

theorem canonSuffix_size : ((canonSuffix e c).2 = true → (canonSuffix e c).1.size + need e (canonSuffix e c).1 ≤
    c.size) ∧
    ((canonSuffix e c).2 = false → (canonSuffix e c).1.res.length + endNeed e (canonSuffix e c).1 ≤ c.size) ∧
    (canonSuffix e c).1.top ≤ max c.top c.size := by
  have hslash : ∀ c' : Canon, lastChar e c'.res = chSlash → c'.res.length + endNeed e c' ≤ c'.size := by
    intro c' h
    unfold endNeed Canon.size
    rw [if_neg (fun hc => hc.1 h)]
    omega
  unfold canonSuffix
  split
  · next h => exact ⟨fun hc => (by cases hc), fun _ => hslash c h.2, le_max_left _ _⟩
  · dsimp only
    have hver : (if c.char 0 = chSemi then canonVersion c else c).size ≤ c.size ∧
        (if c.char 0 = chSemi then canonVersion c else c).top ≤ max c.top c.size := by
      split
      · next h =>
        cases hr : c.rest with
        | nil =>
          unfold Canon.char at h
          rw [hr] at h
          exact absurd h (by decide)
        | cons a l =>
          unfold Canon.char at h
          rw [hr] at h
          obtain rfl : a = chSemi := h
          exact canonVersion_size hr
      · exact ⟨Nat.le_refl _, le_max_left _ _⟩
    generalize (if c.char 0 = chSemi then canonVersion c else c) = c' at hver ⊢
    split
    · next hhash =>
      have hcons : ∃ l, c'.rest = chHash :: l := by
        unfold Canon.char at hhash
        cases hr : c'.rest with
        | nil =>
          rw [hr] at hhash
          exact absurd hhash (by decide)
        | cons a l =>
          rw [hr] at hhash
          exact ⟨l, congrArg (· :: l) hhash⟩
      obtain ⟨l, hl⟩ := hcons
      dsimp only
      split
      · next h => exact ⟨fun hc => (by cases hc), fun _ => (hslash c' h).trans hver.1, hver.2⟩
      · have hoff := canonOffset_size (e := e) hl
        exact ⟨fun hc => (by cases hc), fun _ => hoff.1.trans hver.1, hoff.2.trans (by omega)⟩
    · refine ⟨fun _ => skip_need.trans hver.1, fun hc => (by cases hc), ?_⟩
      rw [Canon.skip_top]
      exact hver.2

/-! ## a round and the loop -/

theorem slashes_size (h : c.rest ≠ []) : (c.slash e).slashes.size ≤ c.size + need e c ∧
    (c.slash e).slashes.top ≤ max c.top (c.size + need e c) ∧ lastChar e (c.slash e).slashes.res = chSlash := by
  have hres : (c.slash e).slashes.res = slashed e c.res := by
    unfold Canon.slashes
    rw [Canon.skip_res, Canon.slash_res]
  refine ⟨?_, ?_, by rw [hres]; exact lastChar_slashed⟩
  · unfold Canon.slashes
    rw [size_skip, Canon.slash_rest, Canon.slash_res]
    have hdrop := weight_drop c.rest (c.rest.takeWhile (· == chSlash)).length
    unfold Canon.size need slashed
    by_cases hl : lastChar e c.res = chSlash
    · rw [if_pos hl, if_neg (fun hc => hc.1 hl)]
      omega
    · rw [if_neg hl, List.length_append, List.length_singleton]
      obtain ⟨a, l, hal⟩ := List.exists_cons_of_ne_nil h
      by_cases ha : a = chSlash
      · subst ha
        have hrun := weight_slashes l
        rw [hal, if_neg (fun hc => hc.2.1 rfl)]
        omega
      · rw [hal] at hdrop ⊢
        rw [if_pos ⟨hl, fun hc => ha (Option.some.inj hc), Or.inl (List.cons_ne_nil a l)⟩]
        omega
  · unfold Canon.slashes
    rw [Canon.skip_top]
    unfold Canon.slash
    split
    · exact le_max_left _ _
    · next hl =>
      dsimp only [Canon.put]
      rw [List.length_singleton]
      have hone : 1 ≤ weight c.rest + need e c := by
        obtain ⟨a, l, hal⟩ := List.exists_cons_of_ne_nil h
        by_cases ha : a = chSlash
        · subst ha
          have hrun := weight_slashes l
          rw [hal]
          omega
        · rw [hal, weight_cons ha]
          omega
      unfold Canon.size
      omega

theorem canonName_size (h : lastChar e c.res = chSlash) :
    ((canonName e c).2 = true → (canonName e c).1.size + need e (canonName e c).1 ≤ c.size) ∧
    ((canonName e c).2 = false → (canonName e c).1.res.length + endNeed e (canonName e c).1 ≤ c.size) ∧
    (canonName e c).1.top ≤ max c.top c.size := by
  unfold canonName
  split
  · refine ⟨fun _ => ?_, fun hc => (by cases hc), by rw [Canon.skip_top]; exact le_max_left _ _⟩
    rw [need_of_slash (by rw [Canon.skip_res]; exact h), size_skip]
    exact Nat.add_le_add_left (weight_drop _ _) _
  · split
    · next hup =>
      refine ⟨fun _ => ?_, fun hc => (by cases hc), by rw [Canon.skip_top]; exact le_max_left _ _⟩
      have hneed := need_le (e := e) (c := { c with res := c.res.take (c.res.length - 4) }.skip 3)
      have hdrop := weight_drop c.rest 3
      rw [size_skip]
      unfold Canon.size
      dsimp only
      rw [List.length_take]
      omega
    · have hname : c.rest = c.rest.takeWhile nameChar ++ c.rest.dropWhile nameChar :=
        List.takeWhile_append_dropWhile.symm
      have hplain : ∀ a ∈ c.rest.takeWhile nameChar, a ≠ chSlash := by
        rintro a ha rfl
        exact absurd (List.mem_takeWhile_imp ha) (by decide)
      obtain ⟨h1, h2⟩ := size_name hplain hname
      have hs := canonSuffix_size (e := e) (c := (c.put (c.rest.takeWhile nameChar)).skip
        (c.rest.takeWhile nameChar).length)
      rw [h1, h2] at hs
      refine ⟨hs.1, hs.2.1, hs.2.2.trans ?_⟩
      have happ := weight_append hplain (c.rest.dropWhile nameChar)
      rw [List.takeWhile_append_dropWhile] at happ
      unfold Canon.size
      omega

theorem canonRound_size (h : c.rest ≠ []) :
    ((canonRound e c).2 = true → (canonRound e c).1.size + need e (canonRound e c).1 ≤ c.size + need e c) ∧
    ((canonRound e c).2 = false → (canonRound e c).1.res.length + endNeed e (canonRound e c).1 ≤ c.size + need e c) ∧
    (canonRound e c).1.top ≤ max c.top (c.size + need e c) := by
  obtain ⟨h1, h2, h3⟩ := slashes_size (e := e) h
  obtain ⟨g1, g2, g3⟩ := canonName_size h3
  refine ⟨fun hc => (g1 hc).trans h1, fun hc => (g2 hc).trans h1, ?_⟩
  unfold canonRound
  omega

theorem canonVersion_rest (c : Canon) : (canonVersion c).rest.length ≤ c.rest.length := by
  have hsign : c.sign.rest.length ≤ c.rest.length := by
    unfold Canon.sign
    dsimp only
    split
    · rw [Canon.skip_rest, Canon.skip_rest, List.length_drop, List.length_drop]
      omega
    · rw [Canon.skip_rest, List.length_drop]
      omega
  unfold canonVersion
  dsimp only
  split
  · rw [Canon.skip_rest, List.length_drop]
    exact Nat.sub_le_of_le_add (Nat.le_succ_of_le hsign)
  · exact hsign

theorem canonSuffix_rest (hgo : (canonSuffix e c).2 = true) :
    (canonSuffix e c).1.rest.length ≤ c.rest.length - 1 := by
  unfold canonSuffix at hgo ⊢
  split
  · next h =>
    rw [if_pos h] at hgo
    cases hgo
  · next h =>
    rw [if_neg h] at hgo
    dsimp only at hgo ⊢
    have hver : (if c.char 0 = chSemi then canonVersion c else c).rest.length ≤ c.rest.length := by
      split
      · exact canonVersion_rest c
      · exact Nat.le_refl _
    generalize (if c.char 0 = chSemi then canonVersion c else c) = c' at hver hgo ⊢
    split
    · next h' =>
      rw [if_pos h'] at hgo
      cases hgo
    · rw [Canon.skip_rest, List.length_drop]
      omega

theorem canonName_rest (hgo : (canonName e c).2 = true) : (canonName e c).1.rest.length ≤ c.rest.length - 1 := by
  unfold canonName at hgo ⊢
  split
  · rw [Canon.skip_rest, List.length_drop]
    omega
  · next h1 =>
    rw [if_neg h1] at hgo
    split
    · rw [Canon.skip_rest, List.length_drop]
      dsimp only
      omega
    · next h2 =>
      rw [if_neg h2] at hgo
      have hskip : ((c.put (c.rest.takeWhile nameChar)).skip (c.rest.takeWhile nameChar).length).rest.length ≤
          c.rest.length := by
        rw [Canon.skip_rest, List.length_drop]
        exact Nat.sub_le c.rest.length _
      exact (canonSuffix_rest hgo).trans (Nat.sub_le_sub_right hskip 1)

theorem canonRound_rest (h : c.rest ≠ []) (hgo : (canonRound e c).2 = true) :
    (canonRound e c).1.rest.length < c.rest.length := by
  have hpos : 0 < c.rest.length := List.length_pos_iff.mpr h
  have hstart : (c.slash e).slashes.rest.length ≤ c.rest.length := by
    unfold Canon.slashes
    rw [Canon.skip_rest, Canon.slash_rest, List.length_drop]
    omega
  have hname := canonName_rest hgo
  unfold canonRound
  omega

theorem canonLoop_size (hn : c.rest.length ≤ n) :
    (canonLoop e n c).res.length + endNeed e (canonLoop e n c) ≤ c.size + need e c ∧
      (canonLoop e n c).top ≤ max c.top (c.size + need e c) := by
  induction n generalizing c with
  | zero =>
    have hnil : c.rest = [] := List.length_eq_zero_iff.mp (Nat.le_zero.mp hn)
    have hend := endNeed_le (e := e) (Or.inl hnil)
    refine ⟨?_, le_max_left _ _⟩
    unfold Canon.size
    rw [canonLoop]
    omega
  | succ n ih =>
    rw [canonLoop]
    split
    · next h =>
      have hend := endNeed_le (e := e) h
      refine ⟨?_, le_max_left _ _⟩
      unfold Canon.size
      omega
    · next h =>
      have hne : c.rest ≠ [] := fun hc => h (Or.inl hc)
      obtain ⟨h1, h2, h3⟩ := canonRound_size (e := e) hne
      dsimp only
      split
      · next hgo =>
        have hrest := canonRound_rest hne hgo
        obtain ⟨g1, g2⟩ := ih (c := (canonRound e c).1) (by omega)
        have := h1 hgo
        exact ⟨g1.trans this, g2.trans (by omega)⟩
      · next hgo => exact ⟨h2 (by simpa using hgo), h3⟩

theorem cleanEnd_length : (cleanEnd (c.res, c.prev)).length ≤ max 1 (c.res.length + endNeed e c) := by
  have hdrop := fun l : List UInt8 => (List.rdropWhile_prefix (· == chDot) l).length_le
  unfold cleanEnd endNeed
  dsimp only
  rw [List.length_append]
  by_cases hl : c.res.getLast? = some chSlash
  · rw [if_pos hl]
    have hpos : 0 < c.res.length := by
      apply List.length_pos_iff.mpr
      intro hc
      rw [hc] at hl
      cases hl
    have := hdrop c.res.dropLast
    rw [List.length_dropLast] at this
    have hone : (if c.prev = chSlash then [chSlash] else []).length ≤ 1 := by
      split <;> simp
    omega
  · rw [if_neg hl]
    have := hdrop c.res
    by_cases hp : c.prev = chSlash
    · rw [if_pos hp, List.length_singleton]
      cases hres : c.res with
      | nil => simp
      | cons a l =>
        rw [hres] at this hl
        have hlast : lastChar e (a :: l) ≠ chSlash := by
          unfold lastChar
          rw [List.getLastD_eq_getLast?]
          rw [List.getLast?_eq_some_getLast (List.cons_ne_nil a l)] at hl ⊢
          exact fun hc => hl (congrArg some hc)
        rw [if_pos ⟨hlast, hp⟩]
        omega
    · rw [if_neg hp, List.length_nil]
      omega

theorem canonEnd_top : (canonEnd c).top ≤ max c.top ((cleanEnd (c.res, c.prev)).length + 1) := by
  rw [← canonEnd_res]
  unfold canonEnd
  dsimp only
  split
  · split
    · dsimp only [Canon.put]
      rw [List.length_append]
      omega
    · exact Nat.le_refl _
  · split
    · dsimp only [Canon.put]
      rw [List.length_append]
      omega
    · exact Nat.le_refl _

theorem canonTop_le (e : CanonEnv) (path : List UInt8) : canonTop e path ≤ max (canonStart e path).top
    (max 2 ((canonStart e path).size + need e (canonStart e path) + 1)) := by
  unfold canonTop
  split
  · exact Nat.zero_le _
  · obtain ⟨h1, h2⟩ := canonLoop_size (e := e) (Nat.le_refl (canonStart e path).rest.length)
    have hend := canonEnd_top (c := canonLoop e (canonStart e path).rest.length (canonStart e path))
    have hlen := cleanEnd_length (e := e) (c := canonLoop e (canonStart e path).rest.length (canonStart e path))
    unfold canonRun
    omega

theorem canonTop_ge (e : CanonEnv) (h : path ≠ []) : (canonRun e path).res.length + 1 ≤ canonTop e path := by
  unfold canonTop
  rw [if_neg h]
  unfold canonRun canonEnd
  exact le_max_right _ _

/-! ## what fits -/

/-- The bytes that a path can need: what the result starts with (the drive, the root directory or the working
directory), a slash behind it if there is none, the path with its runs of slashes as one, and the 0. -/
def canonBound (e : CanonEnv) (path : List UInt8) : Nat :=
  if (driveOf path).isSome then (startRes path).length + weight (dropSlash (noDrive path)) + 1
  else if path.getD 0 0 = chSlash then
    e.root.length + weight (if lastChar e e.root = chSlash then path.tail else path) + 1
  else e.work.length + (if lastChar e e.work = chSlash then 0 else 1) + weight path + 1

theorem canonTop_bound (e : CanonEnv) (path : List UInt8) : canonTop e path ≤ max 2 (canonBound e path) := by
  have htop := canonTop_le e path
  unfold canonBound
  cases hd : driveOf path with
  | some d =>
    have hlast : lastChar e (startRes path) = chSlash := by
      unfold startRes
      rw [hd]
      dsimp only
      split
      · rfl
      · exact lastChar_append chSlash
    rw [canonStart_drive hd, need_of_slash hlast] at htop
    rw [if_pos (show (some d).isSome = true from rfl)]
    unfold Canon.size at htop
    dsimp only at htop
    omega
  | none =>
    rw [canonStart_none hd] at htop
    rw [if_neg (by simp)]
    by_cases ha : path.getD 0 0 = chSlash
    · obtain ⟨l, rfl⟩ : ∃ l, path = chSlash :: l := by
        cases path with
        | nil => exact absurd ha (by decide)
        | cons a l => exact ⟨l, congrArg (· :: l) ha⟩
      rw [if_pos ha] at htop ⊢
      by_cases hl : lastChar e e.root = chSlash
      · rw [if_pos hl, Canon.skip_cons rfl, need_of_slash hl] at htop
        rw [if_pos hl, List.tail_cons]
        unfold Canon.size at htop
        dsimp only at htop
        omega
      · have hneed : need e ⟨e.root, e.root.length + 1, 0, chSlash :: l⟩ = 0 := if_neg fun hc => hc.2.1 rfl
        rw [if_neg hl, hneed] at htop
        rw [if_neg hl]
        unfold Canon.size at htop
        dsimp only at htop
        omega
    · have hneed : need e ⟨e.work, e.work.length + 1, 0, path⟩ ≤ if lastChar e e.work = chSlash then 0 else 1 := by
        split
        · next hl => exact Nat.le_of_eq (need_of_slash hl)
        · exact need_le
      rw [if_neg ha] at htop ⊢
      unfold Canon.size at htop
      dsimp only at htop
      omega

/-- `path` is one byte too short for `pathcat` -/
theorem pathcatTop_iff {pathmax : Nat} {path filename : List UInt8} : pathcatTop pathmax path filename ≤ pathmax ↔
    ¬ (path ≠ [] ∧ filename ≠ [] ∧ path.getLast? ≠ some chSlash ∧ filename.head? ≠ some chSlash ∧
      path.length + filename.length + 1 = pathmax) := by
  unfold pathcatTop pathcat
  by_cases hf : filename = []
  · rw [if_pos hf]
    simp [hf]
  by_cases hp : path = []
  · rw [if_neg hf, if_pos hp]
    simp [hp]
  rw [if_neg hf, if_neg hp, if_neg hf]
  have hfpos : 0 < filename.length := List.length_pos_iff.mpr hf
  by_cases hlen : pathmax ≤ path.length + filename.length
  · rw [if_pos hlen]
    simp only [Option.map_none, Option.getD_none, Nat.zero_le, true_iff]
    rintro ⟨-, -, -, -, h⟩
    omega
  rw [if_neg hlen]
  simp only [Option.map_some, Option.getD_some, List.length_append]
  by_cases hl : path.getLast? = some chSlash
  · rw [if_pos hl]
    have htail : (if filename.head? = some chSlash then filename.tail else filename).length ≤ filename.length := by
      split
      · rw [List.length_tail]
        omega
      · exact Nat.le_refl _
    constructor
    · rintro - ⟨-, -, h, -⟩
      exact h hl
    · intro _
      omega
  · rw [if_neg hl, List.length_append, List.length_singleton]
    by_cases hh : filename.head? = some chSlash
    · rw [if_pos hh, List.length_tail]
      constructor
      · rintro - ⟨-, -, -, h, -⟩
        exact h hh
      · intro _
        omega
    · rw [if_neg hh]
      constructor
      · rintro h ⟨-, -, -, -, hsum⟩
        omega
      · intro h
        by_contra hc
        exact h ⟨hp, hf, hl, hh, by omega⟩

end

end OsZ
