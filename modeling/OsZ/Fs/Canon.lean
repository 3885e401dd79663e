import OsZ.Fs.Path

/-!
# What `canonize` does with the names of a path

* `segments`, `components`  what is between the slashes of a path, and the names among it;
* `canonRound_dir`, `canonRound_last`  one round of the loop reads one name;
* `canonLoop_segments`  the loop reads them all;
* `canonize_iff`        the names in order, if and only if `CanonOk`.
-/

namespace OsZ

/-! ## between the slashes -/

def joinSlash : List (List UInt8) → List UInt8
  | [] => []
  | [s] => s
  | s :: t => s ++ chSlash :: joinSlash t

def segments : List UInt8 → List (List UInt8)
  | [] => [[]]
  | a :: l =>
    if a = chSlash then [] :: segments l
    else match segments l with
      | [] => [[a]]
      | s :: t => (a :: s) :: t

theorem segments_ne_nil (p : List UInt8) : segments p ≠ [] := by
  cases p with
  | nil => simp [segments]
  | cons a l =>
    rw [segments]
    split
    · simp
    · split <;> simp

theorem joinSlash_cons {s : List UInt8} {t : List (List UInt8)} (h : t ≠ []) :
    joinSlash (s :: t) = s ++ chSlash :: joinSlash t := by
  cases t with
  | nil => exact absurd rfl h
  | cons a t => rfl

theorem joinSlash_segments (p : List UInt8) : joinSlash (segments p) = p := by
  induction p with
  | nil => rfl
  | cons a l ih =>
    rw [segments]
    split
    · next h => rw [joinSlash_cons (segments_ne_nil l), ih, h, List.nil_append]
    · cases hs : segments l with
      | nil => exact absurd hs (segments_ne_nil l)
      | cons s t =>
        rw [hs] at ih
        cases t with
        | nil =>
          show a :: s = a :: l
          rw [← ih]
          rfl
        | cons u t =>
          show a :: (s ++ chSlash :: joinSlash (u :: t)) = a :: l
          rw [← ih]
          rfl

theorem segments_plain (p : List UInt8) : ∀ s ∈ segments p, chSlash ∉ s ∧ ∀ a ∈ s, a ∈ p := by
  induction p with
  | nil => simp [segments]
  | cons a l ih =>
    rw [segments]
    split
    · intro s hs
      rcases List.mem_cons.mp hs with rfl | hs
      · simp
      · exact ⟨(ih s hs).1, fun b hb => List.mem_cons_of_mem a ((ih s hs).2 b hb)⟩
    · next ha =>
      cases hseg : segments l with
      | nil => exact absurd hseg (segments_ne_nil l)
      | cons s t =>
        rw [hseg] at ih
        intro u hu
        rcases List.mem_cons.mp hu with rfl | hu
        · obtain ⟨h1, h2⟩ := ih s List.mem_cons_self
          refine ⟨?_, ?_⟩
          · rw [List.mem_cons, not_or]
            exact ⟨fun h => ha h.symm, h1⟩
          · intro b hb
            rcases List.mem_cons.mp hb with rfl | hb
            · exact List.mem_cons_self
            · exact List.mem_cons_of_mem a (h2 b hb)
        · obtain ⟨h1, h2⟩ := ih u (List.mem_cons_of_mem s hu)
          exact ⟨h1, fun b hb => List.mem_cons_of_mem a (h2 b hb)⟩

theorem segments_append {s : List UInt8} (h : chSlash ∉ s) (p : List UInt8) :
    segments (s ++ chSlash :: p) = s :: segments p := by
  induction s with
  | nil => simp [segments]
  | cons a s ih =>
    rw [List.mem_cons, not_or] at h
    rw [List.cons_append, segments, if_neg (Ne.symm h.1), ih h.2]

theorem segments_of_plain {s : List UInt8} (h : chSlash ∉ s) : segments s = [s] := by
  induction s with
  | nil => rfl
  | cons a s ih =>
    rw [List.mem_cons, not_or] at h
    rw [segments, if_neg (Ne.symm h.1), ih h.2]

/-! ## one round -/

theorem nameChar_slash : nameChar chSlash = false := by decide

def slashed (e : CanonEnv) (res : List UInt8) : List UInt8 :=
  if lastChar e res = chSlash then res else res ++ [chSlash]

/-- `.` is skipped, and `..` removes three dots at the end -/
def addDir (r s : List UInt8) : List UInt8 :=
  if s = [chDot] then r
  else if s = [chDot, chDot] ∧ 4 < r.length ∧ r.drop (r.length - 4) = [chDot, chDot, chDot, chSlash] then
    r.take (r.length - 4)
  else r ++ s

section
variable {e : CanonEnv} {c : Canon} {r s : List UInt8} {n : Nat}

theorem lastChar_append (a : UInt8) : lastChar e (r ++ [a]) = a := List.getLastD_concat ..

theorem lastChar_slashed : lastChar e (slashed e r) = chSlash := by
  unfold slashed
  split
  · assumption
  · exact lastChar_append chSlash

theorem slashed_slashed : slashed e (slashed e r) = slashed e r := if_pos lastChar_slashed

namespace Canon

theorem slash_res : (c.slash e).res = slashed e c.res := by
  unfold Canon.slash slashed
  split <;> rfl

theorem slash_rest : (c.slash e).rest = c.rest := by
  unfold Canon.slash
  split <;> rfl

theorem slash_of_slash (h : lastChar e c.res = chSlash) : c.slash e = c := if_pos h

theorem skip_res : (c.skip n).res = c.res := by
  unfold Canon.skip
  split <;> rfl

theorem skip_top : (c.skip n).top = c.top := by
  unfold Canon.skip
  split <;> rfl

theorem skip_rest : (c.skip n).rest = c.rest.drop n := by
  unfold Canon.skip
  split
  · next h => rw [h, List.drop_zero]
  · rfl

theorem skip_prev (h : n ≠ 0) : (c.skip n).prev = c.rest.getD (n - 1) 0 := by
  unfold Canon.skip
  rw [if_neg h]

theorem skip_succ : (c.skip 1).skip n = c.skip (n + 1) := by
  cases n with
  | zero => rfl
  | succ n =>
    unfold Canon.skip
    rw [if_neg (Nat.succ_ne_zero n), if_neg Nat.one_ne_zero, if_neg (Nat.succ_ne_zero _)]
    dsimp only
    rw [List.drop_drop, Nat.add_comm 1]
    simp [List.getD_eq_getElem?_getD, Nat.add_comm]

theorem skip_append {a : UInt8} (h : c.rest = s ++ a :: r) : c.skip (s.length + 1) = ⟨c.res, c.top, a, r⟩ := by
  unfold Canon.skip
  rw [if_neg (Nat.succ_ne_zero _), h]
  simp [List.getD_eq_getElem?_getD]

theorem skip_cons {a : UInt8} (h : c.rest = a :: r) : c.skip 1 = ⟨c.res, c.top, a, r⟩ := skip_append (s := []) h

theorem char_of_rest (h : c.rest = r) : c.char 0 = r.getD 0 0 := congrArg (List.getD · 0 0) h

theorem put_skip_rest (h : c.rest = s ++ r) : ((c.put s).skip s.length).rest = r := by
  rw [skip_rest, show (c.put s).rest = s ++ r from h, List.drop_left]

end Canon

theorem canonSuffix_go (h1 : c.char 0 ≠ chSemi) (h2 : c.char 0 ≠ chHash) : canonSuffix e c = (c.skip 1, true) := by
  unfold canonSuffix
  rw [if_neg (fun h => h1 h.1)]
  dsimp only
  rw [if_neg h1, if_neg h2]

theorem canonRound_slash (h : c.rest = chSlash :: r) : canonRound e c = canonRound e ((c.slash e).skip 1) := by
  have hlast : lastChar e ((c.slash e).skip 1).res = chSlash := by
    rw [Canon.skip_res, Canon.slash_res]
    exact lastChar_slashed
  have hrest : ((c.slash e).skip 1).rest = r := by rw [Canon.skip_rest, Canon.slash_rest, h]; rfl
  have hskip : (c.slash e).slashes = ((c.slash e).skip 1).slashes := by
    unfold Canon.slashes
    rw [hrest, Canon.skip_succ, Canon.slash_rest, h, List.takeWhile_cons_of_pos (by simp), List.length_cons]
  unfold canonRound
  rw [Canon.slash_of_slash hlast, hskip]

theorem takeWhile_stop {p : UInt8 → Bool} (hs : ∀ a ∈ s, p a = true) (hr : ∀ a, r.head? = some a → p a = false) :
    (s ++ r).takeWhile p = s := by
  rw [List.takeWhile_append_of_pos hs]
  cases r with
  | nil => rw [List.takeWhile_nil, List.append_nil]
  | cons a r => rw [List.takeWhile_cons_of_neg (by rw [hr a rfl]; exact Bool.false_ne_true), List.append_nil]

theorem slashes_of_name (h : ∀ a, c.rest.head? = some a → nameChar a = true) : c.slashes = c := by
  unfold Canon.slashes
  cases hr : c.rest with
  | nil => rfl
  | cons a l =>
    have ha : a ≠ chSlash := by
      rintro rfl
      have := h chSlash (by rw [hr]; rfl)
      rw [nameChar_slash] at this
      cases this
    rw [List.takeWhile_cons_of_neg (by simpa using ha)]
    rfl

theorem slashes_of_append (hs : ∀ a ∈ s, nameChar a = true) (hne : s ≠ []) (h : c.rest = s ++ r) : c.slashes = c := by
  apply slashes_of_name
  obtain ⟨a, l, rfl⟩ := List.exists_cons_of_ne_nil hne
  rw [h]
  rintro b ⟨⟩
  exact hs a List.mem_cons_self

/-- the name in front of a path: `.` and `..` are compared when something follows -/
theorem canonName_eq (hs : ∀ a ∈ s, nameChar a = true) (hne : s ≠ []) (ht : ∀ a, r.head? = some a → nameChar a = false)
    (h : c.rest = s ++ r) :
    canonName e c = if s = [chDot] ∧ r ≠ [] then (c.skip 2, true)
      else if s = [chDot, chDot] ∧ r ≠ [] ∧ 4 < c.res.length ∧
        c.res.drop (c.res.length - 4) = [chDot, chDot, chDot, chSlash] then
        ({ c with res := c.res.take (c.res.length - 4) }.skip 3, true)
      else canonSuffix e ((c.put s).skip s.length) := by
  have hname : c.rest.takeWhile nameChar = s := by
    rw [h]
    exact takeWhile_stop hs ht
  have hend : ∀ a, (a = chSlash ∨ pathEnd a = true) ↔ nameChar a = false := by
    intro a
    unfold nameChar
    by_cases ha : a = chSlash
    · simp [ha]
    · simp [ha]
  have h1 : (c.char 0 = chDot ∧ 1 < c.rest.length ∧ (c.char 1 = chSlash ∨ pathEnd (c.char 1) = true)) ↔
      s = [chDot] ∧ r ≠ [] := by
    unfold Canon.char
    rw [hend, h]
    match s, r with
    | [], _ => exact absurd rfl hne
    | [a], [] => simp
    | [a], x :: r => simp [ht x rfl]
    | a :: b :: l, r => simp [hs b (by simp)]
  have h2 : (4 < c.res.length ∧ c.char 0 = chDot ∧ 2 < c.rest.length ∧ c.char 1 = chDot ∧
      (c.char 2 = chSlash ∨ pathEnd (c.char 2) = true) ∧
      c.res.drop (c.res.length - 4) = [chDot, chDot, chDot, chSlash]) ↔ s = [chDot, chDot] ∧ r ≠ [] ∧
      4 < c.res.length ∧ c.res.drop (c.res.length - 4) = [chDot, chDot, chDot, chSlash] := by
    unfold Canon.char
    rw [hend, h]
    match s, r with
    | [], _ => exact absurd rfl hne
    | [a], [] => simp
    | [a], x :: r =>
      have hx : x ≠ chDot := by
        rintro rfl
        cases ht chDot rfl
      simp [hx]
    | [a, b], [] => simp
    | [a, b], x :: r =>
      constructor
      · rintro ⟨h4, h0, -, h1, -, hd⟩
        cases h0
        cases h1
        exact ⟨rfl, List.cons_ne_nil x r, h4, hd⟩
      · rintro ⟨hab, -, h4, hd⟩
        cases hab
        exact ⟨h4, rfl, by simp, rfl, ht x rfl, hd⟩
    | a :: b :: d :: l, r => simp [hs d (by simp)]
  unfold canonName
  dsimp only
  rw [hname]
  simp only [h1, h2]

theorem canonRound_dir (hs : ∀ a ∈ s, nameChar a = true) (hne : s ≠ []) (h : c.rest = s ++ chSlash :: r) :
    ∃ k, canonRound e c = (⟨addDir (slashed e c.res) s, k, chSlash, r⟩, true) := by
  have hrest : (c.slash e).rest = s ++ chSlash :: r := by rw [Canon.slash_rest, h]
  unfold canonRound
  rw [slashes_of_append hs hne hrest, canonName_eq hs hne (r := chSlash :: r) (by rintro a ha; cases ha; rfl) hrest,
    ← Canon.slash_res]
  generalize c.slash e = c' at hrest ⊢
  split
  · next h =>
    rw [h.1, addDir, if_pos rfl]
    rw [h.1] at hrest
    exact ⟨_, congrArg (·, true) (Canon.skip_append (s := [chDot]) hrest)⟩
  next hdot =>
  have hdot' : s ≠ [chDot] := fun h => hdot ⟨h, List.cons_ne_nil _ _⟩
  rw [addDir, if_neg hdot']
  split
  · next h =>
    rw [if_pos ⟨h.1, h.2.2⟩]
    rw [h.1] at hrest
    exact ⟨_, congrArg (·, true) (Canon.skip_append (s := [chDot, chDot]) hrest)⟩
  · next h =>
    rw [if_neg (fun h' => h ⟨h'.1, List.cons_ne_nil _ _, h'.2⟩)]
    have hc := Canon.put_skip_rest hrest
    have hchar : ((c'.put s).skip s.length).char 0 = chSlash := Canon.char_of_rest hc
    rw [canonSuffix_go (by rw [hchar]; decide) (by rw [hchar]; decide), Canon.skip_cons hc, Canon.skip_res]
    exact ⟨_, rfl⟩

theorem canonRound_last (hs : ∀ a ∈ s, nameChar a = true) (hne : s ≠ []) (h : c.rest = s) :
    ∃ k, canonRound e c = (⟨slashed e c.res ++ s, k, 0, []⟩, true) := by
  have hrest : (c.slash e).rest = s ++ [] := by rw [Canon.slash_rest, h, List.append_nil]
  unfold canonRound
  rw [slashes_of_append hs hne hrest, canonName_eq hs hne (r := []) (by rintro a ha; cases ha) hrest, ← Canon.slash_res,
    if_neg (fun h => h.2 rfl), if_neg (fun h => h.2.1 rfl)]
  generalize c.slash e = c' at hrest ⊢
  have hc := Canon.put_skip_rest hrest
  have hchar : ((c'.put s).skip s.length).char 0 = 0 := Canon.char_of_rest hc
  rw [canonSuffix_go (by rw [hchar]; decide) (by rw [hchar]; decide)]
  refine ⟨(c'.put s).top, ?_⟩
  rw [Canon.skip, if_neg Nat.one_ne_zero, hc, Canon.skip_res, Canon.skip_top]
  rfl

theorem canonRound_nil (h : c.rest = []) : ∃ k, canonRound e c = (⟨slashed e c.res, k, 0, []⟩, true) := by
  have hrest : (c.slash e).rest = [] := by rw [Canon.slash_rest, h]
  have hslash : (c.slash e).slashes = c.slash e := by
    apply slashes_of_name
    rw [hrest]
    rintro a ha
    cases ha
  unfold canonRound
  rw [hslash, ← Canon.slash_res]
  generalize c.slash e = c' at hrest ⊢
  have hchar : c'.char 0 = 0 := Canon.char_of_rest hrest
  have hdot : c'.char 0 ≠ chDot := by
    rw [hchar]
    decide
  unfold canonName
  rw [if_neg (fun h => hdot h.1), if_neg (fun h => hdot h.2.1), hrest]
  refine ⟨(c'.put []).top, ?_⟩
  show canonSuffix e (c'.put []) = _
  have hput : (c'.put []).char 0 = 0 := hchar
  rw [canonSuffix_go (by rw [hput]; decide) (by rw [hput]; decide), Canon.skip, if_neg Nat.one_ne_zero]
  show ((⟨c'.res ++ [], _, c'.rest.getD 0 0, c'.rest.drop 1⟩, true) : Canon × Bool) = _
  rw [hrest, List.append_nil]
  rfl

/-! ## the loop -/

def addDirs (e : CanonEnv) (res : List UInt8) (dirs : List (List UInt8)) : List UInt8 :=
  dirs.foldl (fun r s => if s = [] then r else addDir (slashed e r) s) res

/-- what the loop leaves of a path: the directories, the last name and what was in front of the last slash -/
def loopEnd (e : CanonEnv) (res : List UInt8) (prev : UInt8) (dirs : List (List UInt8)) (last : List UInt8) :
    List UInt8 × UInt8 :=
  if last ≠ [] then (slashed e (addDirs e res dirs) ++ last, 0)
  else if dirs = [] then (res, prev)
  else if dirs.getLast? = some [] then (slashed e (addDirs e res dirs), 0)
  else (addDirs e res dirs, chSlash)

theorem canonLoop_end (h : c.rest = []) : canonLoop e n c = c := by
  cases n with
  | zero => rfl
  | succ n => rw [canonLoop, if_pos (Or.inl h)]

theorem canonLoop_round {c' : Canon} {a : UInt8} (h : c.rest = a :: r) (ha : pathEnd a = false)
    (hr : canonRound e c = (c', true)) : canonLoop e (n + 1) c = canonLoop e n c' := by
  have hchar : c.char 0 = a := Canon.char_of_rest h
  rw [canonLoop, if_neg (by rw [h, hchar, ha]; simp), hr]
  rfl

theorem canonLoop_same {c' : Canon} {a b : UInt8} {r' : List UInt8} (h : c.rest = a :: r) (ha : pathEnd a = false)
    (h' : c'.rest = b :: r') (hb : pathEnd b = false) (hr : canonRound e c = canonRound e c') :
    canonLoop e (n + 1) c = canonLoop e (n + 1) c' := by
  have hgo : ∀ {c : Canon} {a : UInt8} {r : List UInt8}, c.rest = a :: r → pathEnd a = false →
      ¬ (c.rest = [] ∨ pathEnd (c.char 0) = true) := by
    intro c a r h ha
    unfold Canon.char
    rw [h]
    simp [ha]
  rw [canonLoop, canonLoop, if_neg (hgo h ha), if_neg (hgo h' hb), hr]

theorem nameChar_end {a : UInt8} (h : nameChar a = true) : pathEnd a = false := by
  unfold nameChar at h
  rw [Bool.and_eq_true, Bool.not_eq_true'] at h
  exact h.2

theorem mem_joinSlash {l : List (List UInt8)} {a : UInt8} (h : a ∈ joinSlash l) : a = chSlash ∨ ∃ s ∈ l, a ∈ s := by
  induction l with
  | nil => cases h
  | cons s t ih =>
    cases t with
    | nil => exact Or.inr ⟨s, List.mem_cons_self, h⟩
    | cons u t =>
      rw [joinSlash_cons (List.cons_ne_nil u t)] at h
      rcases List.mem_append.mp h with h | h
      · exact Or.inr ⟨s, List.mem_cons_self, h⟩
      · rcases List.mem_cons.mp h with h | h
        · exact Or.inl h
        · rcases ih h with h | ⟨v, hv, hav⟩
          · exact Or.inl h
          · exact Or.inr ⟨v, List.mem_cons_of_mem s hv, hav⟩

theorem joinSlash_eq_nil {dirs : List (List UInt8)} {last : List UInt8} (h : joinSlash (dirs ++ [last]) = []) :
    dirs = [] ∧ last = [] := by
  cases dirs with
  | nil => exact ⟨rfl, h⟩
  | cons s t =>
    rw [List.cons_append, joinSlash_cons (by simp)] at h
    simp at h

theorem ne_nil_of_joinSlash {dirs : List (List UInt8)} {last : List UInt8} {a : UInt8}
    (h : joinSlash (dirs ++ [last]) = a :: r) : dirs ≠ [] ∨ last ≠ [] := by
  by_contra hc
  push Not at hc
  rw [hc.1, hc.2] at h
  cases h

theorem addDirs_nil_cons {dirs : List (List UInt8)} : addDirs e r ([] :: dirs) = addDirs e r dirs := rfl

theorem addDirs_cons {dirs : List (List UInt8)} (h : s ≠ []) :
    addDirs e r (s :: dirs) = addDirs e (addDir (slashed e r) s) dirs := by
  unfold addDirs
  rw [List.foldl_cons, if_neg h]

theorem addDirs_slashed (dirs : List (List UInt8)) :
    slashed e (addDirs e (slashed e r) dirs) = slashed e (addDirs e r dirs) ∧
      ((∃ s ∈ dirs, s ≠ []) → addDirs e (slashed e r) dirs = addDirs e r dirs) := by
  induction dirs with
  | nil => exact ⟨slashed_slashed, fun ⟨s, hs, _⟩ => absurd hs List.not_mem_nil⟩
  | cons s dirs ih =>
    by_cases hs : s = []
    · rw [hs, addDirs_nil_cons, addDirs_nil_cons]
      refine ⟨ih.1, ?_⟩
      rintro ⟨u, hu, hne⟩
      rcases List.mem_cons.mp hu with rfl | hu
      · exact absurd rfl hne
      · exact ih.2 ⟨u, hu, hne⟩
    · rw [addDirs_cons hs, addDirs_cons hs, slashed_slashed]
      exact ⟨rfl, fun _ => rfl⟩

theorem loopEnd_nil {dirs : List (List UInt8)} {last : List UInt8} {prev : UInt8} (prev' : UInt8)
    (h : dirs ≠ [] ∨ last ≠ []) :
    loopEnd e (slashed e r) prev' dirs last = loopEnd e r prev ([] :: dirs) last := by
  obtain ⟨h1, h2⟩ := addDirs_slashed (e := e) (r := r) dirs
  unfold loopEnd
  rw [addDirs_nil_cons, h1]
  by_cases hl : last ≠ []
  · rw [if_pos hl, if_pos hl]
  have hd : dirs ≠ [] := h.resolve_right hl
  rw [if_neg hl, if_neg hl, if_neg hd, if_neg (List.cons_ne_nil _ _), List.getLast?_cons_of_ne_nil hd]
  by_cases hg : dirs.getLast? = some []
  · rw [if_pos hg, if_pos hg]
  · rw [if_neg hg, if_neg hg, h2]
    refine ⟨dirs.getLast hd, List.getLast_mem hd, fun hnil => hg ?_⟩
    rw [List.getLast?_eq_some_getLast hd, hnil]

theorem loopEnd_cons {dirs : List (List UInt8)} {last : List UInt8} {prev : UInt8} (h : s ≠ []) :
    loopEnd e (addDir (slashed e r) s) chSlash dirs last = loopEnd e r prev (s :: dirs) last := by
  unfold loopEnd
  rw [addDirs_cons h]
  by_cases hl : last ≠ []
  · rw [if_pos hl, if_pos hl]
  rw [if_neg hl, if_neg hl, if_neg (List.cons_ne_nil s dirs)]
  by_cases hd : dirs = []
  · subst hd
    rw [if_pos rfl, List.getLast?_singleton, if_neg (by simpa using h)]
    rfl
  · rw [if_neg hd, List.getLast?_cons_of_ne_nil hd]

theorem canonLoop_segments (dirs : List (List UInt8)) (last : List UInt8)
    (hd : ∀ s ∈ dirs, ∀ a ∈ s, nameChar a = true) (hl : ∀ a ∈ last, nameChar a = true)
    (h : c.rest = joinSlash (dirs ++ [last])) (hn : c.rest.length ≤ n) :
    (canonLoop e n c).res = (loopEnd e c.res c.prev dirs last).1 ∧
      (canonLoop e n c).prev = (loopEnd e c.res c.prev dirs last).2 := by
  induction dirs generalizing c n with
  | nil =>
    change c.rest = last at h
    cases hlast : last with
    | nil =>
      rw [canonLoop_end (h.trans hlast)]
      exact ⟨rfl, rfl⟩
    | cons a l =>
      rw [hlast] at h hl
      obtain ⟨m, rfl⟩ : ∃ m, n = m + 1 := ⟨n - 1, by rw [h, List.length_cons] at hn; omega⟩
      obtain ⟨k, hk⟩ := canonRound_last (e := e) hl (List.cons_ne_nil a l) h
      rw [canonLoop_round h (nameChar_end (hl a List.mem_cons_self)) hk, canonLoop_end rfl]
      exact ⟨rfl, rfl⟩
  | cons s dirs ih =>
    have hne : dirs ++ [last] ≠ [] := by simp
    have hdirs : ∀ s ∈ dirs, ∀ a ∈ s, nameChar a = true := fun u hu => hd u (List.mem_cons_of_mem s hu)
    rw [List.cons_append, joinSlash_cons hne] at h
    obtain ⟨m, rfl⟩ : ∃ m, n = m + 1 := ⟨n - 1, by rw [h] at hn; simp at hn; omega⟩
    have hlen : (joinSlash (dirs ++ [last])).length ≤ m := by
      rw [h, List.length_append, List.length_cons] at hn
      omega
    by_cases hs : s = []
    · subst hs
      rw [List.nil_append] at h
      have hround := canonRound_slash (e := e) h
      have hskip : (c.slash e).skip 1 = ⟨slashed e c.res, (c.slash e).top, chSlash, joinSlash (dirs ++ [last])⟩ := by
        rw [Canon.skip_cons (r := joinSlash (dirs ++ [last])) (by rw [Canon.slash_rest, h]), Canon.slash_res]
      rw [hskip] at hround
      cases hr : joinSlash (dirs ++ [last]) with
      | nil =>
        -- only the slashes at the end were left
        obtain ⟨rfl, rfl⟩ := joinSlash_eq_nil hr
        obtain ⟨k, hk⟩ := canonRound_nil (e := e) (c := ⟨slashed e c.res, (c.slash e).top, chSlash, []⟩) rfl
        have hk' : canonRound e c = (⟨slashed e (slashed e c.res), k, 0, []⟩, true) := hround.trans hk
        rw [canonLoop_round h rfl hk', canonLoop_end rfl, slashed_slashed]
        exact ⟨rfl, rfl⟩
      | cons a l =>
        have ha : pathEnd a = false := by
          rcases mem_joinSlash (l := dirs ++ [last]) (a := a)
            (by rw [hr]; exact List.mem_cons_self) with rfl | ⟨u, hu, hau⟩
          · rfl
          · rcases List.mem_append.mp hu with hu | hu
            · exact nameChar_end (hdirs u hu a hau)
            · exact nameChar_end (hl a (by rwa [List.mem_singleton.mp hu] at hau))
        rw [canonLoop_same h rfl hr ha hround, ← loopEnd_nil chSlash (ne_nil_of_joinSlash hr)]
        exact ih hdirs rfl (Nat.le_succ_of_le hlen)
    · have hsname := hd s List.mem_cons_self
      obtain ⟨a, l, hal⟩ := List.exists_cons_of_ne_nil hs
      obtain ⟨k, hk⟩ := canonRound_dir (e := e) hsname hs h
      have ha : pathEnd a = false := nameChar_end (hsname a (by rw [hal]; exact List.mem_cons_self))
      have hrest : c.rest = a :: (l ++ chSlash :: joinSlash (dirs ++ [last])) := by
        rw [h, hal]
        rfl
      rw [canonLoop_round hrest ha hk, ← loopEnd_cons (e := e) hs]
      exact ih hdirs rfl hlen

/-! ## the result -/

/-- the end of the function: a slash and dots are removed -/
def cleanEnd (x : List UInt8 × UInt8) : List UInt8 :=
  (if x.1.getLast? = some chSlash then x.1.dropLast else x.1).rdropWhile (· == chDot) ++
    if x.2 = chSlash then [chSlash] else []

theorem canonEnd_res (c : Canon) : (canonEnd c).res = cleanEnd (c.res, c.prev) := by
  unfold canonEnd cleanEnd
  dsimp only
  split
  · split
    · rfl
    · rw [List.append_nil]
  · split
    · rfl
    · rw [List.append_nil]

end

/-- the names of a path -/
def isName (s : List UInt8) : Bool := s != [] && s != [chDot]

def components (path : List UInt8) : List (List UInt8) := (segments path).filter isName

def slashNames (l : List (List UInt8)) : List UInt8 := l.flatMap (chSlash :: ·)

/-- the names joined by slashes, with one more behind a directory -/
def normalPath (path : List UInt8) : List UInt8 :=
  if components path = [] then [chSlash]
  else slashNames (components path) ++ if path.getLast? = some chSlash then [chSlash] else []

def threeDots : List UInt8 := [chDot, chDot, chDot]
def twoDots : List UInt8 := [chDot, chDot]

/-- no drive, no suffix and no joker -/
structure PlainPath (path : List UInt8) : Prop where
  chars : ∀ a ∈ path, a ≠ 0 ∧ a ≠ chColon ∧ a ≠ chSemi ∧ a ≠ chHash
  joker : threeDots ∉ segments path

/-- `..` behind a name that ends with three dots -/
def Cancels (a b : List UInt8) : Prop := threeDots <:+ a ∧ b = twoDots

/-- the paths that `canonize` gets right -/
structure CanonOk (path : List UInt8) : Prop where
  ne_nil : path ≠ []
  slashes : ¬ [chSlash, chSlash] <:+ path
  dots : ∀ s, (components path).getLast? = some s → s.getLast? ≠ some chDot
  dot : (segments path).getLast? = some [chDot] → components path = []
  cancels : (components path).IsChain (fun a b => ¬ Cancels a b)

section
variable {e : CanonEnv} {r s : List UInt8} {K dirs : List (List UInt8)}

theorem isName_iff : isName s = true ↔ s ≠ [] ∧ s ≠ [chDot] := by
  unfold isName
  simp

theorem slashNames_concat : slashNames (K ++ [s]) = slashNames K ++ chSlash :: s := by
  unfold slashNames
  simp

theorem addDirs_concat : addDirs e r (dirs ++ [s]) =
    if s = [] then addDirs e r dirs else addDir (slashed e (addDirs e r dirs)) s := by
  unfold addDirs
  rw [List.foldl_append]
  rfl

theorem slashed_name (hne : s ≠ []) (hs : chSlash ∉ s) : slashed e (r ++ s) = r ++ s ++ [chSlash] := by
  unfold slashed
  rw [if_neg]
  rw [← List.dropLast_append_getLast hne, ← List.append_assoc, lastChar_append]
  intro h
  exact hs (h ▸ List.getLast_mem hne)

theorem suffix_slash {x y : List UInt8} (h : s <:+ x ++ chSlash :: y) (hs : chSlash ∉ s) : s <:+ y := by
  rcases Nat.lt_or_ge y.length s.length with hlt | hge
  · exfalso
    apply hs
    obtain ⟨z, hz⟩ := h
    have hy : chSlash :: y <:+ s := by
      apply List.suffix_of_suffix_length_le (show _ <:+ x ++ chSlash :: y from List.suffix_append _ _) ⟨z, hz⟩
      exact hlt
    exact hy.subset List.mem_cons_self
  · apply List.suffix_of_suffix_length_le h _ hge
    exact ⟨x ++ [chSlash], by simp⟩

theorem slashed_length_le : (slashed e r).length ≤ r.length + 1 := by
  unfold slashed
  split
  · exact Nat.le_succ _
  · rw [List.length_append, List.length_singleton]

theorem ends_dots (hK : ∀ a ∈ K, chSlash ∉ a ∧ a ≠ threeDots) :
    (4 < (slashNames K ++ [chSlash]).length ∧
      (slashNames K ++ [chSlash]).drop ((slashNames K ++ [chSlash]).length - 4) =
        [chDot, chDot, chDot, chSlash]) ↔ ∃ a, K.getLast? = some a ∧ threeDots <:+ a := by
  have hsuffix : (slashNames K ++ [chSlash]).drop ((slashNames K ++ [chSlash]).length - 4) =
      [chDot, chDot, chDot, chSlash] ↔ threeDots <:+ slashNames K := by
    have hiff : [chDot, chDot, chDot, chSlash] <:+ slashNames K ++ [chSlash] ↔ threeDots <:+ slashNames K := by
      rw [show [chDot, chDot, chDot, chSlash] = threeDots ++ [chSlash] from rfl]
      rw [List.suffix_append_inj_of_length_eq rfl]
      exact and_iff_left rfl
    rw [← hiff, List.suffix_iff_eq_drop, eq_comm]
    rfl
  rw [hsuffix]
  induction K using List.reverseRecOn with
  | nil => simp [slashNames, threeDots]
  | append_singleton K a _ =>
    obtain ⟨hslash, hne⟩ := hK a (List.mem_append_right K List.mem_cons_self)
    rw [slashNames_concat, List.getLast?_concat]
    constructor
    · rintro ⟨-, h⟩
      exact ⟨a, rfl, suffix_slash h (by decide)⟩
    · rintro ⟨b, hb, h⟩
      cases hb
      have hlen : threeDots.length < a.length := by
        rcases Nat.lt_or_ge threeDots.length a.length with hlt | hge
        · exact hlt
        · exact absurd (h.eq_of_length_le hge).symm hne
      refine ⟨?_, h.trans ⟨slashNames K ++ [chSlash], by simp⟩⟩
      change 3 < a.length at hlen
      rw [List.length_append, List.length_append, List.length_cons, List.length_singleton]
      omega

theorem addDirs_names (e : CanonEnv) (hd : ∀ s ∈ dirs, chSlash ∉ s ∧ s ≠ threeDots) :
    ((dirs.filter isName).IsChain (fun a b => ¬ Cancels a b) →
      slashed e (addDirs e [chSlash] dirs) = slashNames (dirs.filter isName) ++ [chSlash]) ∧
    (¬ (dirs.filter isName).IsChain (fun a b => ¬ Cancels a b) →
      (slashed e (addDirs e [chSlash] dirs)).length < (slashNames (dirs.filter isName)).length + 1) := by
  induction dirs using List.reverseRecOn with
  | nil =>
    refine ⟨fun _ => rfl, fun h => absurd ?_ h⟩
    exact List.IsChain.nil
  | append_singleton dirs s ih =>
    have hs := hd s (List.mem_append_right dirs List.mem_cons_self)
    specialize ih (fun u hu => hd u (List.mem_append_left [s] hu))
    rw [addDirs_concat, List.filter_append]
    by_cases hname : isName s = true
    swap
    · -- an empty name or a dot
      have hcases : slashed e (if s = [] then addDirs e [chSlash] dirs
          else addDir (slashed e (addDirs e [chSlash] dirs)) s) = slashed e (addDirs e [chSlash] dirs) := by
        split
        · rfl
        · next hne =>
          have hdot : s = [chDot] := by
            by_contra h
            exact hname (isName_iff.mpr ⟨hne, h⟩)
          rw [addDir, if_pos hdot, slashed_slashed]
      rw [hcases, List.filter_cons_of_neg hname, List.filter_nil, List.append_nil]
      exact ih
    obtain ⟨hne, hdot⟩ := isName_iff.mp hname
    have hK : ∀ a ∈ dirs.filter isName, chSlash ∉ a ∧ a ≠ threeDots := fun a ha =>
      hd a (List.mem_append_left [s] (List.mem_filter.mp ha).1)
    have hle : (slashed e (addDirs e [chSlash] dirs)).length ≤ (slashNames (dirs.filter isName)).length + 1 := by
      by_cases hc : (dirs.filter isName).IsChain (fun a b => ¬ Cancels a b)
      · rw [ih.1 hc, List.length_append, List.length_singleton]
      · exact Nat.le_of_lt (ih.2 hc)
    have hlen : (slashNames (dirs.filter isName ++ [s])).length =
      (slashNames (dirs.filter isName)).length + 1 + s.length := by
      rw [slashNames_concat, List.length_append, List.length_cons]
      omega
    rw [if_neg hne, List.filter_cons_of_pos hname, List.filter_nil, hlen, addDir, if_neg hdot]
    split
    · -- the dots at the end of the name before are removed
      next hrem =>
      have hshort := slashed_length_le (e := e)
        (r := (slashed e (addDirs e [chSlash] dirs)).take ((slashed e (addDirs e [chSlash] dirs)).length - 4))
      rw [List.length_take] at hshort
      refine ⟨fun hchain => ?_, fun _ => by omega⟩
      obtain ⟨hc, -, hlast⟩ := List.isChain_append.mp hchain
      rw [ih.1 hc] at hrem
      obtain ⟨a, ha, hdots⟩ := (ends_dots hK).mp hrem.2
      exact absurd ⟨hdots, hrem.1⟩ (hlast a ha s rfl)
    · next hrem =>
      rw [slashed_name hne hs.1]
      constructor
      · intro hchain
        rw [ih.1 (List.isChain_append.mp hchain).1, slashNames_concat]
        simp
      · intro hchain
        rw [List.length_append, List.length_append, List.length_singleton]
        by_cases hc : (dirs.filter isName).IsChain (fun a b => ¬ Cancels a b)
        · exfalso
          apply hchain
          rw [List.isChain_append]
          refine ⟨hc, List.IsChain.singleton s, ?_⟩
          intro a ha b hb hcancel
          cases hb
          apply hrem
          rw [ih.1 hc]
          exact ⟨hcancel.2, (ends_dots hK).mpr ⟨a, ha, hcancel.1⟩⟩
        · have := ih.2 hc
          omega

theorem addDirs_length_le (e : CanonEnv) (hd : ∀ s ∈ dirs, chSlash ∉ s ∧ s ≠ threeDots) :
    (slashed e (addDirs e [chSlash] dirs)).length ≤ (slashNames (dirs.filter isName)).length + 1 := by
  obtain ⟨heq, hlt⟩ := addDirs_names e hd
  by_cases hc : (dirs.filter isName).IsChain (fun a b => ¬ Cancels a b)
  · rw [heq hc, List.length_append, List.length_singleton]
  · exact Nat.le_of_lt (hlt hc)

section
variable {P : UInt8 → Prop} (h0 : P chSlash) (hr : ∀ a ∈ r, P a)
include hr

theorem addDir_all (hs : ∀ a ∈ s, P a) : ∀ a ∈ addDir r s, P a := by
  unfold addDir
  split
  · exact hr
  split
  · exact fun a ha => hr a (List.mem_of_mem_take ha)
  · exact fun a ha => (List.mem_append.mp ha).elim (hr a) (hs a)

include h0

theorem slashed_all : ∀ a ∈ slashed e r, P a := by
  unfold slashed
  split
  · exact hr
  · exact fun a ha => (List.mem_append.mp ha).elim (hr a) fun h => List.mem_singleton.mp h ▸ h0

theorem addDirs_all (hd : ∀ s ∈ dirs, ∀ a ∈ s, P a) : ∀ a ∈ addDirs e r dirs, P a := by
  apply List.foldlRecOn (motive := fun r => ∀ a ∈ r, P a) dirs _ hr
  intro r hr s hs
  split
  · exact hr
  · exact addDir_all (slashed_all h0 hr) (hd s hs)

theorem loopEnd_all {prev : UInt8} {last : List UInt8} (hd : ∀ s ∈ dirs ++ [last], ∀ a ∈ s, P a) :
    ∀ a ∈ (loopEnd e r prev dirs last).1, P a := by
  have hdirs := addDirs_all (e := e) h0 hr fun s hs => hd s (List.mem_append_left _ hs)
  have hlast := hd last (List.mem_append_right _ List.mem_cons_self)
  unfold loopEnd
  split
  · exact fun a ha => (List.mem_append.mp ha).elim (slashed_all h0 hdirs a) (hlast a)
  split
  · exact hr
  split
  · exact slashed_all h0 hdirs
  · exact hdirs

end

theorem cleanEnd_all {P : UInt8 → Prop} (h0 : P chSlash) {x : List UInt8 × UInt8} (hx : ∀ a ∈ x.1, P a) :
    ∀ a ∈ cleanEnd x, P a := by
  intro a ha
  rcases List.mem_append.mp ha with ha | ha
  · have hin := (List.rdropWhile_prefix _ _).subset ha
    split at hin
    · exact hx a (List.mem_of_mem_dropLast hin)
    · exact hx a hin
  · split at ha
    · exact List.mem_singleton.mp ha ▸ h0
    · cases ha

end

section
variable {e : CanonEnv} {path last : List UInt8} {dirs : List (List UInt8)}

theorem PlainPath.nameChar (hp : PlainPath path) (h : segments path = dirs ++ [last]) :
    (∀ s ∈ dirs, ∀ a ∈ s, nameChar a = true) ∧ ∀ a ∈ last, nameChar a = true := by
  have hall : ∀ s ∈ dirs ++ [last], ∀ a ∈ s, OsZ.nameChar a = true := by
    intro s hs a ha
    obtain ⟨h1, h2⟩ := segments_plain path s (by rw [h]; exact hs)
    obtain ⟨h0, -, hsemi, hhash⟩ := hp.chars a (h2 a ha)
    have hslash : a ≠ chSlash := fun hc => h1 (hc ▸ ha)
    unfold OsZ.nameChar pathEnd
    have hsemi' : a ≠ 0x3B := hsemi
    have hhash' : a ≠ 0x23 := hhash
    simp [hslash, h0, hsemi', hhash']
  exact ⟨fun s hs => hall s (List.mem_append_left [last] hs),
    hall last (List.mem_append_right dirs List.mem_cons_self)⟩

theorem mem_of_getD {a : UInt8} {n : Nat} (h : path.getD n 0 = a) (ha : a ≠ 0) : a ∈ path := by
  rw [List.getD_eq_getElem?_getD] at h
  cases hn : path[n]? with
  | none =>
    rw [hn] at h
    exact absurd h.symm ha
  | some b =>
    rw [hn] at h
    cases h
    exact List.mem_of_getElem? hn

theorem canonStart_plain (hr : e.root = [chSlash]) (hw : e.work = [chSlash]) (hp : chColon ∉ path) :
    canonStart e path = if path.getD 0 0 = chSlash then ⟨[chSlash], 2, chSlash, path.tail⟩
      else ⟨[chSlash], 2, 0, path⟩ := by
  unfold canonStart
  dsimp only
  rw [if_neg (fun h => hp (mem_of_getD h (by decide))), hr, hw]
  split
  · next h =>
    obtain ⟨a, l, rfl⟩ := List.exists_cons_of_ne_nil (List.ne_nil_of_mem (mem_of_getD h (by decide)))
    change a = chSlash at h
    subst h
    rfl
  · rfl

theorem canonRun_segments (hr : e.root = [chSlash]) (hw : e.work = [chSlash]) (hp : PlainPath path)
    (h : segments path = dirs ++ [last]) (hne : path ≠ []) (hroot : path ≠ [chSlash]) :
    (canonRun e path).res = cleanEnd (loopEnd e [chSlash] 0 dirs last) := by
  obtain ⟨hd, hl⟩ := hp.nameChar h
  have hcolon : chColon ∉ path := fun hc => (hp.chars chColon hc).2.1 rfl
  have hpath : path = joinSlash (dirs ++ [last]) := by rw [← h, joinSlash_segments]
  unfold canonRun
  rw [canonEnd_res, canonStart_plain hr hw hcolon]
  obtain ⟨a, l, rfl⟩ := List.exists_cons_of_ne_nil hne
  split
  · next ha =>
    change a = chSlash at ha
    subst ha
    -- the first slash was skipped, and with it the empty segment
    rw [segments, if_pos rfl] at h
    cases dirs with
    | nil =>
      rw [List.nil_append] at h
      exact absurd (List.cons.inj h).2 (segments_ne_nil l)
    | cons s dirs =>
      rw [List.cons_append] at h
      obtain ⟨rfl, htail⟩ := List.cons.inj h
      have hrest : l = joinSlash (dirs ++ [last]) := by rw [← htail, joinSlash_segments]
      obtain ⟨h1, h2⟩ := canonLoop_segments (e := e) (c := ⟨[chSlash], 2, chSlash, l⟩) dirs last
        (fun s hs => hd s (List.mem_cons_of_mem _ hs)) hl hrest le_rfl
      have hmore : dirs ≠ [] ∨ last ≠ [] := by
        by_contra hc
        push Not at hc
        apply hroot
        rw [hrest, hc.1, hc.2]
        rfl
      rw [List.tail_cons, h1, h2, ← loopEnd_nil chSlash hmore]
      rfl
  · obtain ⟨h1, h2⟩ := canonLoop_segments (e := e) (c := ⟨[chSlash], 2, 0, a :: l⟩) dirs last hd hl hpath le_rfl
    rw [h1, h2]

theorem canonize_segments (hr : e.root = [chSlash]) (hw : e.work = [chSlash]) (hp : PlainPath path)
    (h : segments path = dirs ++ [last]) (hne : path ≠ []) (hroot : path ≠ [chSlash]) :
    canonize e path = some (cleanEnd (loopEnd e [chSlash] 0 dirs last)) := by
  unfold canonize
  rw [if_neg hne, canonRun_segments hr hw hp h hne hroot]
  congr 1
  rw [List.takeWhile_eq_self_iff]
  have hzero : ∀ a ∈ cleanEnd (loopEnd e [chSlash] 0 dirs last), a ≠ 0 := by
    refine cleanEnd_all (P := (· ≠ 0)) (by decide) (loopEnd_all (by decide) (by decide +kernel) fun s hs a ha => ?_)
    exact (hp.chars a ((segments_plain path s (h ▸ hs)).2 a ha)).1
  simpa using hzero

theorem canonize_root (hr : e.root = [chSlash]) (hw : e.work = [chSlash]) : canonize e [chSlash] = some [chSlash] := by
  unfold canonize canonRun
  rw [if_neg (List.cons_ne_nil _ _), canonStart_plain hr hw (by decide)]
  rfl

end

section
variable {e : CanonEnv} {path last r : List UInt8} {dirs K : List (List UInt8)}

/-- the slash at the end is removed, or there was none -/
def stripSlash (r : List UInt8) : List UInt8 := if r.getLast? = some chSlash then r.dropLast else r

theorem slashed_strip (h : r ≠ []) : slashed e r = stripSlash r ++ [chSlash] := by
  unfold slashed stripSlash lastChar
  rw [List.getLastD_eq_getLast?, List.getLast?_eq_some_getLast h, Option.getD_some]
  by_cases hl : r.getLast h = chSlash
  · rw [if_pos hl, if_pos (by rw [hl]), ← hl, List.dropLast_append_getLast]
  · rw [if_neg hl, if_neg (by simpa using hl)]

theorem addDirs_ne_nil (e : CanonEnv) (dirs : List (List UInt8)) (h : r ≠ []) : addDirs e r dirs ≠ [] := by
  induction dirs using List.reverseRecOn with
  | nil => exact h
  | append_singleton dirs s ih =>
    rw [addDirs_concat]
    split
    · exact ih
    · next hs =>
      unfold addDir
      split
      · unfold slashed
        split
        · exact ih
        · simp
      · split
        · next hc =>
          intro hnil
          have hlen := congrArg List.length hnil
          rw [List.length_take, List.length_nil] at hlen
          omega
        · simp [hs]

theorem rdropWhile_dots (h : r.getLast? ≠ some chDot) : r.rdropWhile (· == chDot) = r := by
  rw [List.rdropWhile_eq_self_iff]
  intro hne
  rw [List.getLast?_eq_some_getLast hne] at h
  simpa using h

theorem rdropWhile_length_lt (h : r.getLast? = some chDot) : (r.rdropWhile (· == chDot)).length < r.length := by
  obtain ⟨x, rfl⟩ := List.getLast?_eq_some_iff.mp h
  rw [List.rdropWhile_concat, if_pos (beq_self_eq_true chDot), List.length_append]
  exact Nat.lt_succ_of_le (List.rdropWhile_prefix _ _).length_le

theorem components_eq (h : segments path = dirs ++ [last]) :
    components path = dirs.filter isName ++ if isName last then [last] else [] := by
  unfold components
  rw [h, List.filter_append]
  congr 1
  by_cases hl : isName last = true
  · rw [List.filter_cons_of_pos hl, if_pos hl, List.filter_nil]
  · rw [List.filter_cons_of_neg hl, if_neg hl, List.filter_nil]

theorem joinSlash_concat : joinSlash (dirs ++ [last]) = dirs.flatMap (· ++ [chSlash]) ++ last := by
  induction dirs with
  | nil => rfl
  | cons s dirs ih =>
    rw [List.cons_append, joinSlash_cons (by simp), ih, List.flatMap_cons]
    simp

theorem segments_path (h : segments path = dirs ++ [last]) : path = dirs.flatMap (· ++ [chSlash]) ++ last := by
  rw [← joinSlash_concat, ← h, joinSlash_segments]

theorem suffix_singleton {a : UInt8} : [a] <:+ r ↔ r.getLast? = some a := by
  rw [List.getLast?_eq_some_iff]
  exact exists_congr fun x => eq_comm

theorem getLast_of_slashes (h : [chSlash, chSlash] <:+ path) : path.getLast? = some chSlash :=
  suffix_singleton.mp ((List.suffix_cons chSlash [chSlash]).trans h)

/-- a path that ends with a slash ends with two, if the last directory is empty -/
theorem segments_slash (h : segments path = dirs ++ [[]]) (hd : dirs ≠ []) :
    path.getLast? = some chSlash ∧ ([chSlash, chSlash] <:+ path ↔ path ≠ [chSlash] ∧ dirs.getLast? = some []) := by
  have hpath := segments_path h
  obtain ⟨D, d, rfl⟩ : ∃ D d, dirs = D ++ [d] := ⟨_, _, (List.dropLast_append_getLast hd).symm⟩
  have hdn : chSlash ∉ d := (segments_plain path d (by rw [h]; simp)).1
  have hform : path = (D.flatMap (· ++ [chSlash]) ++ d) ++ [chSlash] := by
    rw [hpath]
    simp
  refine ⟨by rw [hform, List.getLast?_concat], ?_⟩
  have htwo : [chSlash, chSlash] <:+ path ↔ (D.flatMap (· ++ [chSlash]) ++ d).getLast? = some chSlash := by
    rw [← suffix_singleton, hform, show [chSlash, chSlash] = [chSlash] ++ [chSlash] from rfl,
      List.suffix_append_inj_of_length_eq rfl]
    exact and_iff_left rfl
  rw [htwo, List.getLast?_concat]
  by_cases hde : d = []
  · subst hde
    rw [List.append_nil] at hform ⊢
    cases D using List.reverseRecOn with
    | nil => simp [hform]
    | append_singleton D x =>
      have hne : path ≠ [chSlash] := by
        intro hc
        have hlen := congrArg List.length (hform.symm.trans hc)
        simp at hlen
        omega
      simp [hne]
  · rw [List.getLast?_append_of_ne_nil _ hde]
    constructor
    · intro hl
      exact absurd (List.mem_of_getLast? hl) hdn
    · rintro ⟨-, hl⟩
      exact absurd (Option.some.inj hl) hde

theorem slashNames_getLast {s : List UInt8} (h : K.getLast? = some s) (hs : s ≠ []) :
    (slashNames K).getLast? = s.getLast? := by
  obtain ⟨L, rfl⟩ := List.getLast?_eq_some_iff.mp h
  have hform : slashNames (L ++ [s]) = (slashNames L ++ [chSlash]) ++ s := by
    rw [slashNames_concat]
    simp
  rw [hform, List.getLast?_append_of_ne_nil _ hs]

theorem canon_name_iff (hp : PlainPath path) (h : segments path = dirs ++ [last]) (hl : last ≠ []) :
    cleanEnd (loopEnd e [chSlash] 0 dirs last) = normalPath path ↔ CanonOk path := by
  have hall : ∀ s ∈ dirs ++ [last], chSlash ∉ s ∧ s ≠ threeDots := by
    intro s hs
    rw [← h] at hs
    exact ⟨(segments_plain path s hs).1, fun hc => hp.joker (hc ▸ hs)⟩
  have hslash : chSlash ∉ last := (hall last (by simp)).1
  have hdirs := fun s hs => hall s (List.mem_append_left _ hs)
  obtain ⟨heq, hlt⟩ := addDirs_names e hdirs
  have hlast : path.getLast? = last.getLast? := by
    rw [segments_path h, List.getLast?_append_of_ne_nil _ hl]
  have hend : path.getLast? ≠ some chSlash := by
    rw [hlast]
    exact fun hc => hslash (List.mem_of_getLast? hc)
  have hclean : cleanEnd (loopEnd e [chSlash] 0 dirs last) =
      (slashed e (addDirs e [chSlash] dirs) ++ last).rdropWhile (· == chDot) := by
    have hnot : (slashed e (addDirs e [chSlash] dirs) ++ last).getLast? ≠ some chSlash := by
      rw [List.getLast?_append_of_ne_nil _ hl, ← hlast]
      exact hend
    unfold cleanEnd loopEnd
    rw [if_pos hl, if_neg hnot, if_neg (show ¬ (0 : UInt8) = chSlash by decide), List.append_nil]
  have hcomp := components_eq h
  have hne : path ≠ [] := by
    intro hc
    rw [hc] at hlast
    exact hl (List.getLast?_eq_none_iff.mp hlast.symm)
  have hslashes : ¬ [chSlash, chSlash] <:+ path := fun hc => hend (getLast_of_slashes hc)
  rw [hclean]
  by_cases hdot : last = [chDot]
  · -- the dot is removed, but not the slash in front of it
    have hname : isName last = false := by
      rw [hdot]
      rfl
    have hR : (slashed e (addDirs e [chSlash] dirs)).getLast? = some chSlash := by
      rw [slashed_strip (addDirs_ne_nil e dirs (List.cons_ne_nil _ _)), List.getLast?_concat]
    rw [hname, if_neg Bool.false_ne_true, List.append_nil] at hcomp
    rw [hdot, List.rdropWhile_concat, if_pos (beq_self_eq_true chDot), rdropWhile_dots (by rw [hR]; decide)]
    by_cases hK : dirs.filter isName = []
    · rw [hK] at hcomp heq
      constructor
      · intro _
        exact ⟨hne, hslashes, by rw [hcomp]; simp, fun _ => hcomp, by rw [hcomp]; exact List.IsChain.nil⟩
      · intro _
        rw [heq List.IsChain.nil]
        unfold normalPath
        rw [hcomp, if_pos rfl]
        rfl
    · constructor
      · intro hc
        have hmem := List.mem_filter.mp (List.getLast_mem hK)
        rw [hc] at hR
        unfold normalPath at hR
        rw [hcomp, if_neg hK, if_neg hend, List.append_nil,
          slashNames_getLast (List.getLast?_eq_some_getLast hK) (isName_iff.mp hmem.2).1] at hR
        exact absurd (List.mem_of_getLast? hR) (hall _ (List.mem_append_left _ hmem.1)).1
      · intro hok
        rw [← hcomp] at hK
        exact absurd (hok.dot (by rw [h, hdot, List.getLast?_concat])) hK
  have hname : isName last = true := isName_iff.mpr ⟨hl, hdot⟩
  rw [if_pos hname] at hcomp
  have hnormal : normalPath path = slashNames (dirs.filter isName) ++ chSlash :: last := by
    unfold normalPath
    rw [hcomp, if_neg (by simp), if_neg hend, slashNames_concat, List.append_nil]
  rw [hnormal]
  have hlength := addDirs_length_le e hdirs
  by_cases hdots : last.getLast? = some chDot
  · constructor
    · intro hc
      have hshort := rdropWhile_length_lt (r := slashed e (addDirs e [chSlash] dirs) ++ last)
        (by rw [List.getLast?_append_of_ne_nil _ hl, hdots])
      rw [hc, List.length_append, List.length_append, List.length_cons] at hshort
      omega
    · intro hok
      exact absurd hdots (hok.dots last (by rw [hcomp, List.getLast?_concat]))
  · rw [rdropWhile_dots (by rw [List.getLast?_append_of_ne_nil _ hl]; exact hdots)]
    constructor
    · intro hc
      refine ⟨hne, hslashes, ?_, ?_, ?_⟩
      · rw [hcomp]
        intro s hs
        rw [List.getLast?_concat] at hs
        cases hs
        exact hdots
      · rw [h, List.getLast?_concat]
        intro hs
        exact absurd (Option.some.inj hs) hdot
      · rw [hcomp, List.isChain_append]
        refine ⟨?_, List.IsChain.singleton last, ?_⟩
        · by_contra hchain
          have hlen := congrArg List.length hc
          rw [List.length_append, List.length_append, List.length_cons] at hlen
          have := hlt hchain
          omega
        · rintro a ha b hb ⟨-, hcancel⟩
          cases hb
          rw [hcancel] at hdots
          exact hdots rfl
    · intro hok
      have hchain := hok.cancels
      rw [hcomp, List.isChain_append] at hchain
      rw [heq hchain.1, List.append_assoc]
      rfl

theorem canon_slash_iff (hp : PlainPath path) (h : segments path = dirs ++ [[]]) (hd : dirs ≠ [])
    (hroot : path ≠ [chSlash]) :
    cleanEnd (loopEnd e [chSlash] 0 dirs []) = normalPath path ↔ CanonOk path := by
  have hall : ∀ s ∈ dirs, chSlash ∉ s ∧ s ≠ threeDots := by
    intro s hs
    have hseg : s ∈ segments path := by
      rw [h]
      exact List.mem_append_left _ hs
    exact ⟨(segments_plain path s hseg).1, fun hc => hp.joker (hc ▸ hseg)⟩
  obtain ⟨heq, hlt⟩ := addDirs_names e hall
  obtain ⟨hend, hslashes⟩ := segments_slash h hd
  have hstrip := slashed_strip (e := e) (addDirs_ne_nil e dirs (List.cons_ne_nil chSlash []))
  have hcomp : components path = dirs.filter isName := by
    rw [components_eq h, if_neg (by decide), List.append_nil]
  have hnormal : normalPath path = slashNames (dirs.filter isName) ++ [chSlash] := by
    unfold normalPath
    rw [hcomp, if_pos hend]
    split
    · next hK =>
      rw [hK]
      rfl
    · rfl
  have hne : path ≠ [] := by
    rintro rfl
    cases hend
  have hlength := addDirs_length_le e hall
  rw [hstrip, List.length_append, List.length_singleton] at hlength
  rw [hnormal]
  by_cases hlast : dirs.getLast? = some []
  · -- two slashes at the end: the loop runs once more, behind the end of the path
    have hclean : cleanEnd (loopEnd e [chSlash] 0 dirs []) =
        (stripSlash (addDirs e [chSlash] dirs)).rdropWhile (· == chDot) := by
      unfold cleanEnd loopEnd
      rw [if_neg (not_not.mpr rfl), if_neg hd, if_pos hlast, if_neg (show ¬ (0 : UInt8) = chSlash by decide), hstrip,
        List.getLast?_concat, if_pos rfl, List.dropLast_concat, List.append_nil]
    rw [hclean]
    constructor
    · intro hc
      have hpre := (List.rdropWhile_prefix (· == chDot) (l := stripSlash (addDirs e [chSlash] dirs))).length_le
      rw [hc, List.length_append, List.length_singleton] at hpre
      omega
    · intro hok
      exact absurd (hslashes.mpr ⟨hroot, hlast⟩) hok.slashes
  · have hclean : cleanEnd (loopEnd e [chSlash] 0 dirs []) =
        (stripSlash (addDirs e [chSlash] dirs)).rdropWhile (· == chDot) ++ [chSlash] := by
      unfold cleanEnd loopEnd
      rw [if_neg (not_not.mpr rfl), if_neg hd, if_neg hlast, if_pos rfl]
      rfl
    have hwhole : (dirs.filter isName).IsChain (fun a b => ¬ Cancels a b) →
        stripSlash (addDirs e [chSlash] dirs) = slashNames (dirs.filter isName) := by
      intro hchain
      exact (List.append_left_inj [chSlash]).mp (hstrip.symm.trans (heq hchain))
    have hdots : ∀ s, (dirs.filter isName).getLast? = some s →
        (slashNames (dirs.filter isName)).getLast? = s.getLast? := by
      intro s hs
      exact slashNames_getLast hs (isName_iff.mp (List.mem_filter.mp (List.mem_of_getLast? hs)).2).1
    rw [hclean, List.append_left_inj]
    constructor
    · intro hc
      have hchain : (dirs.filter isName).IsChain (fun a b => ¬ Cancels a b) := by
        by_contra hchain
        have hlen := hlt hchain
        have hpre := (List.rdropWhile_prefix (· == chDot) (l := stripSlash (addDirs e [chSlash] dirs))).length_le
        rw [hstrip, List.length_append, List.length_singleton] at hlen
        rw [hc] at hpre
        omega
      rw [hwhole hchain] at hc
      refine ⟨hne, fun h2 => hlast (hslashes.mp h2).2, ?_, ?_, by rw [hcomp]; exact hchain⟩
      · rw [hcomp]
        intro s hs hdot
        have hshort := rdropWhile_length_lt (r := slashNames (dirs.filter isName)) (by rw [hdots s hs, hdot])
        rw [hc] at hshort
        exact Nat.lt_irrefl _ hshort
      · rw [h, List.getLast?_concat]
        intro hs
        cases hs
    · intro hok
      have hchain := hok.cancels
      rw [hcomp] at hchain
      rw [hwhole hchain]
      apply rdropWhile_dots
      cases hK : (dirs.filter isName).getLast? with
      | none =>
        rw [List.getLast?_eq_none_iff.mp hK]
        simp [slashNames]
      | some s =>
        rw [hdots s hK]
        exact hok.dots s (by rw [hcomp, hK])

theorem canonize_iff_normal (hr : e.root = [chSlash]) (hw : e.work = [chSlash]) (hp : PlainPath path) :
    canonize e path = some (normalPath path) ↔ CanonOk path := by
  by_cases hne : path = []
  · subst hne
    constructor
    · intro h
      cases h
    · intro h
      exact absurd rfl h.ne_nil
  by_cases hroot : path = [chSlash]
  · subst hroot
    rw [canonize_root hr hw]
    have hc : components [chSlash] = [] := by decide
    refine ⟨fun _ => ⟨hne, by decide, by rw [hc]; simp, fun _ => hc, by rw [hc]; exact List.IsChain.nil⟩, fun _ => ?_⟩
    decide
  obtain ⟨dirs, last, h⟩ : ∃ dirs last, segments path = dirs ++ [last] :=
    ⟨_, _, (List.dropLast_append_getLast (segments_ne_nil path)).symm⟩
  rw [canonize_segments hr hw hp h hne hroot, Option.some_inj]
  by_cases hl : last = []
  · subst hl
    refine canon_slash_iff hp h ?_ hroot
    rintro rfl
    exact hne (segments_path h)
  · exact canon_name_iff hp h hl

/-! ## a second time -/

theorem segments_joinSlash (hne : K ≠ []) (hK : ∀ s ∈ K, chSlash ∉ s) : segments (joinSlash K) = K := by
  induction K with
  | nil => exact absurd rfl hne
  | cons s K ih =>
    have hs := hK s List.mem_cons_self
    cases K with
    | nil => exact segments_of_plain hs
    | cons u K =>
      rw [joinSlash_cons (List.cons_ne_nil u K), segments_append hs,
        ih (List.cons_ne_nil u K) (fun v hv => hK v (List.mem_cons_of_mem s hv))]

theorem slashNames_join (hne : K ≠ []) : slashNames K = joinSlash ([] :: K) := by
  rw [joinSlash_cons hne, List.nil_append]
  induction K with
  | nil => exact absurd rfl hne
  | cons s K ih =>
    cases K with
    | nil => simp [slashNames, joinSlash]
    | cons u K =>
      rw [joinSlash_cons (List.cons_ne_nil u K), ← ih (List.cons_ne_nil u K)]
      rfl

theorem slashNames_dir : slashNames K ++ [chSlash] = slashNames (K ++ [[]]) := slashNames_concat.symm

theorem segments_normal (hne : K ≠ []) (hK : ∀ s ∈ K, chSlash ∉ s) :
    segments (slashNames K) = [] :: K ∧ segments (slashNames K ++ [chSlash]) = [] :: K ++ [[]] := by
  have hall : ∀ L : List (List UInt8), L ≠ [] → (∀ s ∈ L, chSlash ∉ s) → segments (slashNames L) = [] :: L := by
    intro L hL hs
    rw [slashNames_join hL]
    apply segments_joinSlash (List.cons_ne_nil _ _)
    intro s hmem
    rcases List.mem_cons.mp hmem with rfl | hmem
    · exact List.not_mem_nil
    · exact hs s hmem
  refine ⟨hall K hne hK, ?_⟩
  rw [slashNames_dir, hall (K ++ [[]]) (by simp)]
  · rfl
  · intro s hs
    rcases List.mem_append.mp hs with hs | hs
    · exact hK s hs
    · rw [List.mem_singleton.mp hs]
      exact List.not_mem_nil

theorem components_isName {s : List UInt8} (hs : s ∈ components path) :
    (s ≠ [] ∧ s ≠ [chDot]) ∧ chSlash ∉ s ∧ ∀ a ∈ s, a ∈ path := by
  obtain ⟨h1, h2⟩ := List.mem_filter.mp hs
  exact ⟨isName_iff.mp h2, segments_plain path s h1⟩

/-- the canonical path is one of the paths that `canonize` gets right -/
theorem canonOk_normal (hp : PlainPath path) (hok : CanonOk path) :
    PlainPath (normalPath path) ∧ CanonOk (normalPath path) ∧ normalPath (normalPath path) = normalPath path := by
  by_cases hC : components path = []
  · have hroot : normalPath path = [chSlash] := if_pos hC
    have hc : components [chSlash] = [] := by decide
    rw [hroot]
    refine ⟨⟨fun a ha => ?_, by decide⟩, ⟨List.cons_ne_nil _ _, by decide, by rw [hc]; simp, fun _ => hc,
      by rw [hc]; exact List.IsChain.nil⟩, if_pos hc⟩
    rw [List.mem_singleton.mp ha]
    decide
  have hnormal : normalPath path = slashNames (components path) ++
      if path.getLast? = some chSlash then [chSlash] else [] := if_neg hC
  obtain ⟨hseg, hsegd⟩ := segments_normal hC (fun s hs => (components_isName hs).2.1)
  have hnames : (components path).filter isName = components path := by
    rw [List.filter_eq_self]
    intro s hs
    exact (List.mem_filter.mp hs).2
  have hlastne : (slashNames (components path)).getLast? ≠ some chSlash := by
    have hmem := components_isName (List.getLast_mem hC)
    rw [slashNames_getLast (List.getLast?_eq_some_getLast hC) hmem.1.1]
    exact fun hc => hmem.2.1 (List.mem_of_getLast? hc)
  have hjoker : threeDots ∉ components path := fun hc => hp.joker (List.mem_filter.mp hc).1
  have hchars : ∀ a ∈ slashNames (components path), a ≠ 0 ∧ a ≠ chColon ∧ a ≠ chSemi ∧ a ≠ chHash := by
    intro a ha
    obtain ⟨s, hs, has⟩ := List.mem_flatMap.mp ha
    rcases List.mem_cons.mp has with rfl | has
    · decide
    · exact hp.chars a ((components_isName hs).2.2 a has)
  have hdot : ∀ s, (components path).getLast? = some s → s ≠ [chDot] := fun s hs =>
    (components_isName (List.mem_of_getLast? hs)).1.2
  by_cases hend : path.getLast? = some chSlash
  · -- a directory
    rw [if_pos hend] at hnormal
    rw [hnormal]
    have hcomp : components (slashNames (components path) ++ [chSlash]) = components path := by
      rw [components, hsegd, List.cons_append, List.filter_cons_of_neg (by decide), List.filter_append, hnames,
        List.filter_cons_of_neg (by decide), List.filter_nil, List.append_nil]
    refine ⟨⟨fun a ha => ?_, ?_⟩, ⟨by simp, ?_, by rw [hcomp]; exact hok.dots, ?_, by rw [hcomp]; exact hok.cancels⟩,
      ?_⟩
    · rcases List.mem_append.mp ha with ha | ha
      · exact hchars a ha
      · rw [List.mem_singleton.mp ha]
        decide
    · rw [hsegd, List.cons_append, List.mem_cons, List.mem_append, List.mem_singleton]
      rintro (hc | hc | hc)
      · cases hc
      · exact hjoker hc
      · cases hc
    · rw [show [chSlash, chSlash] = [chSlash] ++ [chSlash] from rfl, List.suffix_append_inj_of_length_eq rfl,
        suffix_singleton]
      exact fun hc => hlastne hc.1
    · rw [hsegd, List.getLast?_concat]
      intro hc
      cases hc
    · rw [normalPath, hcomp, if_neg hC, List.getLast?_concat, if_pos rfl]
  · rw [if_neg hend, List.append_nil] at hnormal
    rw [hnormal]
    have hcomp : components (slashNames (components path)) = components path := by
      rw [components, hseg, List.filter_cons_of_neg (by decide), hnames]
    refine ⟨⟨hchars, ?_⟩, ⟨?_, ?_, by rw [hcomp]; exact hok.dots, ?_, by rw [hcomp]; exact hok.cancels⟩, ?_⟩
    · rw [hseg, List.mem_cons]
      rintro (hc | hc)
      · cases hc
      · exact hjoker hc
    · intro hc
      rw [hc] at hseg
      exact hC (List.cons.inj hseg).2.symm
    · exact fun hc => hlastne (getLast_of_slashes hc)
    · rw [hseg, List.getLast?_cons_of_ne_nil hC]
      intro hc
      exact absurd rfl (hdot _ hc)
    · rw [normalPath, hcomp, if_neg hC, if_neg hlastne, List.append_nil]

end

/-- For a task whose root and working directory are `/`, and a path without drive, suffix and joker:
`canonize` returns the names of the path in order, and does not change its own result, if and only if
`CanonOk`: the path does not end with two slashes, the last name does not end with a dot, a final `.`
stands alone, and no `..` follows a name that ends with three dots. -/
theorem canonize_iff (e : CanonEnv) (path : List UInt8) (hr : e.root = [chSlash]) (hw : e.work = [chSlash])
    (hp : PlainPath path) :
    (canonize e path = some (normalPath path) ∧ (canonize e path).bind (canonize e) = canonize e path) ↔
      CanonOk path := by
  constructor
  · intro h
    exact (canonize_iff_normal hr hw hp).mp h.1
  · intro hok
    have h1 := (canonize_iff_normal hr hw hp).mpr hok
    obtain ⟨hp', hok', hsame⟩ := canonOk_normal hp hok
    have h2 := (canonize_iff_normal hr hw hp').mpr hok'
    rw [hsame] at h2
    exact ⟨h1, by rw [h1, Option.bind_some, h2]⟩

def rootEnv : CanonEnv := ⟨[chSlash], [chSlash], 0⟩

/-- `a/./../b` -/
def demoPath : List UInt8 := [0x61, chSlash, chDot, chSlash, chDot, chDot, chSlash, 0x62]

theorem canonize_iff_demo : canonize rootEnv demoPath = some (normalPath demoPath) ∧
    (canonize rootEnv demoPath).bind (canonize rootEnv) = canonize rootEnv demoPath :=
  (canonize_iff rootEnv demoPath rfl rfl ⟨by decide +kernel, by decide +kernel⟩).mpr
    ⟨by decide +kernel, by decide +kernel, fun s hs => by
      have hb : components demoPath = [[0x61], twoDots, [0x62]] := by decide +kernel
      rw [hb] at hs
      cases hs
      decide, by decide +kernel, by
      have hb : components demoPath = [[0x61], twoDots, [0x62]] := by decide +kernel
      rw [hb]
      unfold Cancels
      decide +kernel⟩

/-- `/a/..`: the last name is removed, and its slash is not -/
theorem canonize_up : PlainPath [chSlash, 0x61, chSlash, chDot, chDot] ∧
    normalPath [chSlash, 0x61, chSlash, chDot, chDot] = [chSlash, 0x61, chSlash, chDot, chDot] ∧
    canonize rootEnv [chSlash, 0x61, chSlash, chDot, chDot] = some [chSlash, 0x61, chSlash] := by
  refine ⟨⟨?_, ?_⟩, ?_, ?_⟩ <;> decide +kernel

end OsZ
