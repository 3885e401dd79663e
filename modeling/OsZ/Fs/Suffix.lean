import OsZ.Fs.Canon
import Mathlib.Data.Nat.Digits.Defs
import Mathlib.Data.Nat.Digits.Lemmas

/-!
# Drives, versions and offsets of a path

* `driveOf`, `noDrive`  the drive in front of the first `:`, and the path behind it;
* `canonStart_rest`     what `canonize` starts with for the root directory `/`;
* `canonize_suffix`       a path with the suffixes `;v` and `#o`.

The drive is written behind the 0 of `DEVPATH`, so the string that `canonize` returns for a path with a
drive ends there (`canonize_drive`).
-/

namespace OsZ

/-! ## the drive -/

def driveChar (a : UInt8) : Bool := a != chColon && nameChar a

def driveOf (path : List UInt8) : Option (List UInt8) :=
  if path.getD (path.takeWhile driveChar).length 0 = chColon then some (path.takeWhile driveChar) else none

def noDrive (path : List UInt8) : List UInt8 :=
  match driveOf path with
  | some d => path.drop (d.length + 1)
  | none => path

def dropSlash (path : List UInt8) : List UInt8 := if path.head? = some chSlash then path.tail else path

/-- `result` in front of the path -/
def startRes (path : List UInt8) : List UInt8 :=
  match driveOf path with
  | some d => if d = rootDrive then [chSlash] else devPath ++ [0] ++ d ++ [chSlash]
  | none => [chSlash]

section
variable {e : CanonEnv} {path s r d : List UInt8} {c : Canon} {n : Nat}

theorem getD_append (s r : List UInt8) : (s ++ r).getD s.length 0 = r.headD 0 := by
  rw [List.getD_eq_getElem?_getD, List.getElem?_append_right (Nat.le_refl _), Nat.sub_self]
  cases r <;> rfl

theorem driveOf_append (hs : ∀ a ∈ s, driveChar a = true) (hr : ∀ a, r.head? = some a → driveChar a = false) :
    driveOf (s ++ r) = if r.headD 0 = chColon then some s else none := by
  unfold driveOf
  rw [takeWhile_stop hs hr, getD_append]

theorem driveOf_split (path : List UInt8) : ∃ s r, path = s ++ r ∧ (∀ a ∈ s, driveChar a = true) ∧
    ∀ a, r.head? = some a → driveChar a = false := by
  refine ⟨path.takeWhile driveChar, path.dropWhile driveChar, List.takeWhile_append_dropWhile.symm,
    fun a ha => List.mem_takeWhile_imp ha, fun a ha => ?_⟩
  have h := List.head?_dropWhile_not driveChar path
  rw [ha] at h
  simpa using h

theorem driveOf_some (h : driveOf path = some d) :
    path = d ++ chColon :: noDrive path ∧ ∀ a ∈ d, nameChar a = true := by
  obtain ⟨s, r, rfl, hs, hr⟩ := driveOf_split path
  rw [driveOf_append hs hr] at h
  split at h
  · next hc =>
    obtain rfl : s = d := Option.some.inj h
    have hcons : r = chColon :: r.tail := by
      cases r with
      | nil => exact absurd hc (by decide)
      | cons a r => exact congrArg (· :: r) hc
    have hno : noDrive (s ++ r) = r.tail := by
      unfold noDrive
      rw [driveOf_append hs hr, if_pos hc]
      dsimp only
      rw [List.drop_append, List.drop_eq_nil_of_le (Nat.le_succ _), Nat.add_sub_cancel_left, List.drop_one,
        List.nil_append]
    refine ⟨by rw [hno, ← hcons], fun a ha => ?_⟩
    have := hs a ha
    unfold driveChar at this
    exact (Bool.and_eq_true _ _ ▸ this).2
  · cases h

theorem noDrive_none (h : driveOf path = none) : noDrive path = path := by
  unfold noDrive
  rw [h]

theorem driveOf_suffix (h : ∀ a, r.head? = some a → pathEnd a = true) :
    driveOf (path ++ r) = driveOf path := by
  obtain ⟨s, t, rfl, hs, ht⟩ := driveOf_split path
  have hend : ∀ a, pathEnd a = true → driveChar a = false ∧ a ≠ chColon := by
    intro a ha
    refine ⟨?_, ?_⟩
    · unfold driveChar nameChar
      rw [ha]
      simp
    · rintro rfl
      exact absurd ha (by decide)
  rw [driveOf_append hs ht, List.append_assoc]
  cases t with
  | nil =>
    rw [List.nil_append, driveOf_append hs (fun a ha => (hend a (h a ha)).1)]
    cases r with
    | nil => rfl
    | cons a r => rw [if_neg (show ¬ (a :: r).headD 0 = chColon from (hend a (h a rfl)).2), if_neg (by decide)]
  | cons a t => exact driveOf_append hs ht

theorem noDrive_suffix (h : ∀ a, r.head? = some a → pathEnd a = true) :
    noDrive (path ++ r) = noDrive path ++ r := by
  cases hd : driveOf path with
  | none =>
    rw [noDrive_none hd, noDrive_none]
    rw [driveOf_suffix h, hd]
  | some d =>
    have h1 := (driveOf_some hd).1
    have h2 := (driveOf_some ((driveOf_suffix h).trans hd)).1
    have h3 : d ++ (chColon :: noDrive path ++ r) = d ++ chColon :: noDrive (path ++ r) := by
      rw [← h2, ← List.append_assoc, ← h1]
    exact (List.cons.inj (List.append_cancel_left h3)).2.symm

theorem startRes_suffix (h : ∀ a, r.head? = some a → pathEnd a = true) : startRes (path ++ r) = startRes path := by
  unfold startRes
  rw [driveOf_suffix h]

theorem skip_slash (c : Canon) : (if c.char 0 = chSlash then c.skip 1 else c) =
    ⟨c.res, c.top, if c.rest.head? = some chSlash then chSlash else c.prev, dropSlash c.rest⟩ := by
  cases hr : c.rest with
  | nil =>
    rw [Canon.char_of_rest hr, if_neg (by decide)]
    cases c
    cases hr
    rfl
  | cons a l =>
    have hchar : c.char 0 = a := Canon.char_of_rest hr
    unfold dropSlash
    rw [hchar]
    by_cases ha : a = chSlash
    · subst ha
      rw [if_pos rfl, Canon.skip_cons hr]
      rfl
    · rw [if_neg ha, if_neg (by simpa using ha), if_neg (by simpa using ha), ← hr]

theorem canonStart_drive (hd : driveOf path = some d) :
    canonStart e path = ⟨startRes path, (startRes path).length,
      if (noDrive path).head? = some chSlash then chSlash else chColon, dropSlash (noDrive path)⟩ := by
  obtain ⟨hpath, -⟩ := driveOf_some hd
  have hd' : path.takeWhile driveChar = d ∧ path.getD d.length 0 = chColon := by
    unfold driveOf at hd
    split at hd
    · next h =>
      cases hd
      exact ⟨rfl, h⟩
    · cases hd
  have htake : path.take d.length = d := by
    rw [hpath, List.take_left']
    rfl
  have hroot : (d.length = 4 ∧ path.take 4 = rootDrive) ↔ d = rootDrive := by
    constructor
    · rintro ⟨h1, h2⟩
      rw [← h2, ← h1, htake]
    · rintro rfl
      exact ⟨rfl, htake⟩
  set c0 : Canon := if d.length = 4 ∧ path.take 4 = rootDrive then ⟨[], 0, 0, path⟩
    else ⟨devPath ++ [0] ++ path.take d.length, 6 + d.length, 0, path⟩ with hc0
  have hstart : canonStart e path = if ((c0.put [chSlash]).skip (d.length + 1)).char 0 = chSlash then
      ((c0.put [chSlash]).skip (d.length + 1)).skip 1 else (c0.put [chSlash]).skip (d.length + 1) := by
    unfold canonStart
    dsimp only
    have hlen : (path.takeWhile fun a => a != chColon && nameChar a).length = d.length :=
      congrArg List.length hd'.1
    rw [hlen, if_pos hd'.2]
  have hrest : c0.rest = d ++ chColon :: noDrive path := by
    rw [← hpath, hc0]
    split <;> rfl
  have hres : (c0.put [chSlash]).res = startRes path := by
    unfold startRes Canon.put
    rw [hd]
    dsimp only
    rw [hc0]
    by_cases h : d = rootDrive
    · rw [if_pos h, if_pos (hroot.mpr h)]
      rfl
    · rw [if_neg h, if_neg (fun hc => h (hroot.mp hc)), htake]
  have htop : (c0.put [chSlash]).top = (startRes path).length := by
    have hle : c0.top ≤ c0.res.length := by
      rw [hc0]
      split
      · exact Nat.le_refl _
      · rw [htake, List.length_append]
        exact Nat.le_refl _
    rw [← hres]
    dsimp only [Canon.put]
    rw [List.length_append, List.length_singleton]
    omega
  have hskip : (c0.put [chSlash]).skip (d.length + 1) =
      ⟨startRes path, (startRes path).length, chColon, noDrive path⟩ := by
    rw [Canon.skip_append (show (c0.put [chSlash]).rest = _ from hrest), hres, htop]
  rw [hstart, hskip]
  exact skip_slash ⟨startRes path, (startRes path).length, chColon, noDrive path⟩

theorem canonStart_none (hd : driveOf path = none) :
    canonStart e path = if path.getD 0 0 = chSlash then
      (if lastChar e e.root = chSlash then (⟨e.root, e.root.length + 1, 0, path⟩ : Canon).skip 1
        else ⟨e.root, e.root.length + 1, 0, path⟩) else ⟨e.work, e.work.length + 1, 0, path⟩ := by
  have hcolon : ¬ path.getD (path.takeWhile fun a => a != chColon && nameChar a).length 0 = chColon := by
    intro h
    unfold driveOf driveChar at hd
    rw [if_pos h] at hd
    cases hd
  unfold canonStart
  dsimp only
  rw [if_neg hcolon]

theorem canonStart_rest (hr : e.root = [chSlash]) (hw : e.work = [chSlash]) (path : List UInt8) :
    ∃ k pv, canonStart e path = ⟨startRes path, k, pv, dropSlash (noDrive path)⟩ := by
  cases hd : driveOf path with
  | none =>
    have hstart : canonStart e path = if path.getD 0 0 = chSlash then
        (⟨[chSlash], 2, 0, path⟩ : Canon).skip 1 else ⟨[chSlash], 2, 0, path⟩ := by
      rw [canonStart_none hd, hr, hw]
      rfl
    refine ⟨2, if path.head? = some chSlash then chSlash else 0, ?_⟩
    unfold startRes
    rw [hstart, noDrive_none hd, hd]
    exact skip_slash ⟨[chSlash], 2, 0, path⟩
  | some d => exact ⟨_, _, canonStart_drive hd⟩

/-! ## what is never removed -/

theorem prefix_take {P : List UInt8} {x : UInt8} (h : P ++ [x] <+: r) (hx : x ∉ r.drop n) : P ++ [x] <+: r.take n := by
  rw [List.prefix_take_iff]
  refine ⟨h, ?_⟩
  rw [List.length_append, List.length_singleton]
  by_contra hlt
  apply hx
  obtain ⟨t, rfl⟩ := h
  rw [List.append_assoc, List.drop_append_of_le_length (by omega)]
  simp

theorem Canon.sign_res (c : Canon) : c.sign.res = c.res := by
  unfold Canon.sign
  dsimp only
  split
  · rw [Canon.skip_res, Canon.skip_res]
  · rw [Canon.skip_res]

theorem canonVersion_res (c : Canon) : c.res <+: (canonVersion c).res := by
  unfold canonVersion
  dsimp only
  split
  · rw [Canon.skip_res]
    exact Canon.sign_res c ▸ List.prefix_append _ _
  · rw [Canon.sign_res]

theorem canonOffset_res (c : Canon) : c.res <+: (canonOffset c).res := by
  unfold canonOffset
  dsimp only
  split
  · rw [Canon.skip_res]
    dsimp only [Canon.put]
    rw [Canon.sign_res, List.append_assoc]
    exact List.prefix_append _ _
  · rw [Canon.sign_res]

theorem canonSuffix_res (c : Canon) : c.res <+: (canonSuffix e c).1.res := by
  unfold canonSuffix
  split
  · exact List.prefix_refl _
  · dsimp only
    have hver : c.res <+: (if c.char 0 = chSemi then canonVersion c else c).res := by
      split
      · exact canonVersion_res c
      · exact List.prefix_refl _
    generalize (if c.char 0 = chSemi then canonVersion c else c) = c' at hver ⊢
    split
    · dsimp only
      split
      · exact hver
      · exact hver.trans (canonOffset_res _)
    · rw [Canon.skip_res]
      exact hver

theorem canonRound_keeps {P : List UInt8} {x : UInt8} (hdot : x ≠ chDot) (hslash : x ≠ chSlash)
    (h : P ++ [x] <+: c.res) : P ++ [x] <+: (canonRound e c).1.res := by
  have hstart : P ++ [x] <+: (c.slash e).slashes.res := by
    unfold Canon.slashes
    rw [Canon.skip_res, Canon.slash_res]
    unfold slashed
    split
    · exact h
    · exact h.trans (List.prefix_append _ _)
  unfold canonRound canonName
  split
  · rw [Canon.skip_res]
    exact hstart
  · split
    · next hup =>
      rw [Canon.skip_res]
      apply prefix_take hstart
      rw [hup.2.2.2.2.2]
      simp [hdot, hslash]
    · refine List.IsPrefix.trans ?_ (canonSuffix_res _)
      rw [Canon.skip_res]
      exact hstart.trans (List.prefix_append _ _)

theorem canonLoop_keeps {P : List UInt8} {x : UInt8} (hdot : x ≠ chDot) (hslash : x ≠ chSlash)
    (h : P ++ [x] <+: c.res) : P ++ [x] <+: (canonLoop e n c).res := by
  induction n generalizing c with
  | zero => exact h
  | succ n ih =>
    rw [canonLoop]
    split
    · exact h
    · dsimp only
      split
      · exact ih (canonRound_keeps hdot hslash h)
      · exact canonRound_keeps hdot hslash h

theorem cleanEnd_keeps {P : List UInt8} {x : UInt8} {y : List UInt8 × UInt8} (hdot : x ≠ chDot) (hslash : x ≠ chSlash)
    (h : P ++ [x] <+: y.1) : P ++ [x] <+: cleanEnd y := by
  have hrdrop : ∀ l : List UInt8, P ++ [x] <+: l → P ++ [x] <+: l.rdropWhile (· == chDot) := by
    intro l hl
    induction l using List.reverseRecOn with
    | nil => exact hl
    | append_singleton l a ih =>
      rw [List.rdropWhile_concat]
      split
      · next ha =>
        rcases List.prefix_concat_iff.mp hl with heq | hpre
        · have hxa : x = a := List.singleton_inj.mp (List.append_inj' heq rfl).2
          exact absurd (hxa.trans (eq_of_beq ha)) hdot
        · exact ih hpre
      · exact hl
  unfold cleanEnd
  refine List.IsPrefix.trans (hrdrop _ ?_) (List.prefix_append _ _)
  split
  · next hlast =>
    rw [List.dropLast_eq_take]
    apply prefix_take h
    obtain ⟨l, hl⟩ := List.getLast?_eq_some_iff.mp hlast
    rw [hl, List.length_append, List.length_singleton, Nat.add_sub_cancel, List.drop_left]
    simp [hslash]
  · exact h

theorem canonize_drive (hd : driveOf path = some d) (hne : d ≠ rootDrive) : canonize e path = some devPath := by
  obtain ⟨hpath, -⟩ := driveOf_some hd
  have hstart := canonStart_drive (e := e) hd
  have hres : devPath ++ [0] <+: (canonStart e path).res := by
    rw [hstart]
    unfold startRes
    rw [hd]
    dsimp only
    rw [if_neg hne, List.append_assoc]
    exact List.prefix_append _ _
  have hrun : devPath ++ [0] <+: (canonRun e path).res := by
    unfold canonRun
    rw [canonEnd_res]
    exact cleanEnd_keeps (by decide) (by decide) (canonLoop_keeps (by decide) (by decide) hres)
  unfold canonize
  rw [if_neg (by rw [hpath]; simp)]
  obtain ⟨t, ht⟩ := hrun
  congr 1
  rw [← ht, List.append_assoc]
  exact takeWhile_stop (by decide +kernel) (by rintro a ⟨⟩; decide)

/-! ## the last name -/

theorem canonLoop_dirs {dirs : List (List UInt8)} {b : UInt8} {t : List UInt8}
    (hd : ∀ s ∈ dirs, ∀ a ∈ s, nameChar a = true) (hb : nameChar b = true)
    (h : c.rest = dirs.flatMap (· ++ [chSlash]) ++ b :: t) (hn : c.rest.length ≤ n) :
    ∃ m x k pv, canonLoop e n c = canonLoop e (m + 1) ⟨x, k, pv, b :: t⟩ ∧
      slashed e x = slashed e (addDirs e c.res dirs) := by
  induction dirs generalizing c n with
  | nil =>
    obtain ⟨res, top, prev, rest⟩ := c
    cases h
    have hpos : 0 < n := Nat.lt_of_lt_of_le (Nat.succ_pos _) hn
    obtain ⟨m, rfl⟩ : ∃ m, n = m + 1 := ⟨n - 1, by omega⟩
    exact ⟨m, res, top, prev, rfl, rfl⟩
  | cons s dirs ih =>
    have hd' : ∀ s ∈ dirs, ∀ a ∈ s, nameChar a = true := fun u hu => hd u (List.mem_cons_of_mem s hu)
    have hs := hd s List.mem_cons_self
    rw [List.flatMap_cons, List.append_assoc, List.append_assoc, List.singleton_append] at h
    have hlen : c.rest.length = s.length + 1 + (dirs.flatMap (· ++ [chSlash]) ++ b :: t).length := by
      rw [h, List.length_append, List.length_cons]
      omega
    obtain ⟨m, rfl⟩ : ∃ m, n = m + 1 := ⟨n - 1, by omega⟩
    by_cases hne : s = []
    · subst hne
      rw [List.nil_append] at h
      -- the slash is skipped inside of the next round
      have hrest : ((c.slash e).skip 1).rest = dirs.flatMap (· ++ [chSlash]) ++ b :: t := by
        rw [Canon.skip_rest, Canon.slash_rest, h]
        rfl
      obtain ⟨a, l, hal, ha⟩ : ∃ a l, dirs.flatMap (· ++ [chSlash]) ++ b :: t = a :: l ∧ pathEnd a = false := by
        cases dirs with
        | nil => exact ⟨b, t, rfl, nameChar_end hb⟩
        | cons u dirs =>
          cases u with
          | nil => exact ⟨chSlash, _, rfl, by decide⟩
          | cons a u => exact ⟨a, _, rfl, nameChar_end (hd' (a :: u) List.mem_cons_self a List.mem_cons_self)⟩
      have hsame := canonLoop_same (n := m) h (by decide) (hrest.trans hal) ha (canonRound_slash (e := e) h)
      obtain ⟨m', x, k, pv, h1, h2⟩ := ih (n := m + 1) hd' hrest (by rw [hrest]; omega)
      refine ⟨m', x, k, pv, hsame.trans h1, ?_⟩
      rw [h2, Canon.skip_res, Canon.slash_res, addDirs_nil_cons, (addDirs_slashed dirs).1]
    · obtain ⟨k, hround⟩ := canonRound_dir (e := e) hs hne h
      obtain ⟨a, l, rfl⟩ := List.exists_cons_of_ne_nil hne
      have hloop := canonLoop_round (n := m) h (nameChar_end (hs a List.mem_cons_self)) hround
      obtain ⟨m', x, k', pv, h1, h2⟩ := ih (c := ⟨addDir (slashed e c.res) (a :: l), k, chSlash, _⟩) (n := m) hd' rfl
        (by dsimp only; omega)
      refine ⟨m', x, k', pv, hloop.trans h1, ?_⟩
      rw [h2, addDirs_cons hne]

theorem canonRound_name (hs : ∀ a ∈ s, nameChar a = true) (hdots : ∃ a ∈ s, a ≠ chDot)
    (hr : ∀ a, r.head? = some a → pathEnd a = true) (h : c.rest = s ++ r) :
    ∃ k pv, canonRound e c = canonSuffix e ⟨slashed e c.res ++ s, k, pv, r⟩ := by
  obtain ⟨b, hb, hbd⟩ := hdots
  have hne : s ≠ [] := List.ne_nil_of_mem hb
  have hrest : (c.slash e).rest = s ++ r := by rw [Canon.slash_rest, h]
  have hslash := slashes_of_append hs hne hrest
  have hstop : ∀ a, r.head? = some a → nameChar a = false := by
    intro a ha
    unfold nameChar
    rw [hr a ha]
    simp
  have hone : s ≠ [chDot] := by
    rintro rfl
    exact hbd (List.mem_singleton.mp hb)
  have htwo : s ≠ [chDot, chDot] := by
    rintro rfl
    simp at hb
    exact hbd hb
  unfold canonRound
  rw [hslash, canonName_eq hs hne hstop hrest, if_neg (fun hc => hone hc.1), if_neg (fun hc => htwo hc.1)]
  refine ⟨(((c.slash e).put s).skip s.length).top, (((c.slash e).put s).skip s.length).prev, ?_⟩
  congr 1
  have h1 : (((c.slash e).put s).skip s.length).res = slashed e c.res ++ s := by
    rw [Canon.skip_res]
    show (c.slash e).res ++ s = _
    rw [Canon.slash_res]
  have h2 : (((c.slash e).put s).skip s.length).rest = r := by
    rw [Canon.skip_rest]
    show (c.slash e).rest.drop s.length = r
    rw [hrest, List.drop_left]
  rw [← h1, ← h2]

end

/-! ## the suffixes -/

def digitChar (n : Nat) : UInt8 := UInt8.ofNat (0x30 + n)

/-- in decimal, without leading zeros -/
def decimal (n : Nat) : List UInt8 := (Nat.digits 10 n).reverse.map digitChar

def signText (neg : Bool) : List UInt8 := if neg then [chMinus] else []

/-- `;v` or `;-v` -/
def verText : Option (Bool × Nat) → List UInt8
  | none => []
  | some (neg, v) => chSemi :: (signText neg ++ [digitChar v])

/-- `#o` -/
def offsText : Option Int → List UInt8
  | none => []
  | some o => chHash :: (signText (decide (o < 0)) ++ decimal o.natAbs)

theorem digitChar_spec {n : Nat} (h : n < 10) : (digitChar n).toNat = 0x30 + n ∧ isDigit (digitChar n) = true ∧
    (n ≠ 0 → isDigit19 (digitChar n) = true) := by
  have hval : (digitChar n).toNat = 0x30 + n := by
    unfold digitChar
    rw [UInt8.toNat_ofNat']
    omega
  refine ⟨hval, ?_, fun hn => ?_⟩
  · unfold isDigit
    rw [decide_eq_true_iff, UInt8.le_iff_toNat_le, UInt8.le_iff_toNat_le, hval]
    show 48 ≤ 48 + n ∧ 48 + n ≤ 57
    omega
  · unfold isDigit19
    rw [decide_eq_true_iff, UInt8.le_iff_toNat_le, UInt8.le_iff_toNat_le, hval]
    show 49 ≤ 48 + n ∧ 48 + n ≤ 57
    omega

theorem isDigit_ne {a b : UInt8} (h : isDigit a = true) (hb : isDigit b = false) : a ≠ b := by
  rintro rfl
  rw [h] at hb
  cases hb

theorem decimal_isDigit {n : Nat} : ∀ a ∈ decimal n, isDigit a = true := by
  intro a ha
  obtain ⟨d, hd, rfl⟩ := List.mem_map.mp ha
  exact (digitChar_spec (Nat.digits_lt_base (by decide) (List.mem_reverse.mp hd))).2.1

theorem decimal_cons {n : Nat} (h : n ≠ 0) : ∃ d l, decimal n = digitChar d :: l ∧ d < 10 ∧ d ≠ 0 := by
  have hne : Nat.digits 10 n ≠ [] := Nat.digits_ne_nil_iff_ne_zero.mpr h
  have hlast := Nat.getLast_digit_ne_zero 10 h
  refine ⟨(Nat.digits 10 n).getLast hne, ((Nat.digits 10 n).dropLast.reverse).map digitChar, ?_, ?_, hlast⟩
  · unfold decimal
    conv_lhs => rw [← List.dropLast_append_getLast hne, List.reverse_append]
    rfl
  · exact Nat.digits_lt_base (by decide) (List.getLast_mem hne)

theorem foldl_decimal (l : List Nat) (h : ∀ d ∈ l, d < 10) (v : Nat) :
    (l.map digitChar).foldl (fun v a => w64 (w64 (v * 10) + digitVal a)) (w64 v) =
      w64 (l.foldl (fun v d => v * 10 + d) v) := by
  induction l generalizing v with
  | nil => rfl
  | cons d l ih =>
    have hd := h d List.mem_cons_self
    have hval : digitVal (digitChar d) = d := by
      unfold digitVal sub64
      rw [(digitChar_spec hd).1]
      omega
    have hstep : w64 (w64 (w64 v * 10) + digitVal (digitChar d)) = w64 (v * 10 + d) := by
      rw [hval]
      unfold w64
      omega
    rw [List.map_cons, List.foldl_cons, List.foldl_cons, hstep]
    exact ih (fun x hx => h x (List.mem_cons_of_mem d hx)) _

theorem foldl_digits (n : Nat) : (Nat.digits 10 n).reverse.foldl (fun v d => v * 10 + d) 0 = n := by
  rw [List.foldl_reverse]
  have h := Nat.ofDigits_digits 10 n
  rw [Nat.ofDigits_eq_foldr] at h
  conv_rhs => rw [← h]
  congr 1
  funext a b
  push_cast
  ring

theorem stdlibDec_decimal {n : Nat} (h : n ≠ 0) : stdlibDec (decimal n) = w64 n := by
  obtain ⟨d, l, hdl, hd, hd0⟩ := decimal_cons h
  have hval : digitVal (digitChar d) = d := by
    unfold digitVal sub64
    rw [(digitChar_spec hd).1]
    omega
  have hall : ∀ a ∈ l, isDigit a = true := fun a ha =>
    decimal_isDigit (n := n) a (hdl ▸ List.mem_cons_of_mem _ ha)
  have hfirst : ¬ (decimal n).take 2 = [0x30, 0x78] := by
    rw [hdl, List.take_succ_cons]
    intro hc
    have h0 := congrArg UInt8.toNat (List.cons.inj hc).1
    rw [(digitChar_spec hd).1] at h0
    have : (0x30 : UInt8).toNat = 0x30 := rfl
    omega
  have hfold := foldl_decimal (Nat.digits 10 n).reverse
    (fun x hx => Nat.digits_lt_base (by decide) (List.mem_reverse.mp hx)) 0
  have hinit : w64 (w64 (w64 0 * 10) + digitVal (digitChar d)) = digitVal (digitChar d) := by
    rw [hval]
    unfold w64
    omega
  have hmap : (Nat.digits 10 n).reverse.map digitChar = digitChar d :: l := hdl
  rw [foldl_digits, hmap, List.foldl_cons, hinit] at hfold
  unfold stdlibDec
  rw [if_neg hfirst, hdl, List.tail_cons, List.takeWhile_eq_self_iff.mpr hall, ← hfold]
  rfl

theorem atol_decimal {o : Int} (h : o ≠ 0) : atol (signText (decide (o < 0)) ++ decimal o.natAbs) = u64 o := by
  have habs : o.natAbs ≠ 0 := Int.natAbs_ne_zero.mpr h
  have hdec := stdlibDec_decimal habs
  unfold atol
  by_cases hneg : o < 0
  · rw [decide_eq_true hneg]
    show (if chMinus = chMinus then sub64 0 (stdlibDec (decimal o.natAbs)) else _) = _
    rw [if_pos rfl, hdec]
    unfold sub64 w64 u64
    omega
  · rw [decide_eq_false hneg]
    show (if (decimal o.natAbs).getD 0 0 = chMinus then _ else stdlibDec (decimal o.natAbs)) = _
    obtain ⟨d, l, hdl, hd, -⟩ := decimal_cons habs
    have hminus : ¬ (decimal o.natAbs).getD 0 0 = chMinus := by
      rw [hdl]
      exact isDigit_ne (digitChar_spec hd).2.1 (by decide)
    rw [if_neg hminus, hdec]
    unfold w64 u64
    omega

/-- the version that is kept has no sign -/
def keptVer : Option (Bool × Nat) → List UInt8
  | none => []
  | some (_, v) => [chSemi, digitChar v]

section
variable {e : CanonEnv} {r l : List UInt8} {k : Nat} {pv a d : UInt8}

theorem char_zero : (⟨r, k, pv, a :: l⟩ : Canon).char 0 = a := rfl

theorem sign_text (neg : Bool) (h : d ≠ chMinus) :
    (⟨r, k, pv, a :: (signText neg ++ d :: l)⟩ : Canon).sign = ⟨r, k, if neg then chMinus else a, d :: l⟩ := by
  unfold Canon.sign
  dsimp only
  rw [Canon.skip_cons rfl]
  cases neg with
  | false => exact if_neg h
  | true => exact if_pos rfl

theorem canonOffset_text (r : List UInt8) (k : Nat) (pv : UInt8) {o : Int} (h : o ≠ 0) :
    ∃ k' pv', canonOffset ⟨r, k, pv, offsText (some o)⟩ = ⟨r ++ offsText (some o), k', pv', []⟩ ∧ pv' ≠ chSlash := by
  obtain ⟨d, l, hdl, hd, hd0⟩ := decimal_cons (Int.natAbs_ne_zero.mpr h)
  obtain ⟨-, hdig, hdig19⟩ := digitChar_spec hd
  set neg := decide (o < 0)
  have hall : ∀ a ∈ digitChar d :: l, isDigit a = true := fun a ha => decimal_isDigit (n := o.natAbs) a (hdl ▸ ha)
  have htext : offsText (some o) = chHash :: (signText neg ++ digitChar d :: l) := by
    rw [← hdl]
    rfl
  have hput : (if (if neg then chMinus else chHash) = chMinus then [chHash, chMinus] else [chHash]) =
      chHash :: signText neg := by
    cases neg <;> rfl
  have hpv : (digitChar d :: l).getD l.length 0 ≠ chSlash := by
    rw [List.getD_eq_getElem _ _ (Nat.lt_succ_self _)]
    exact isDigit_ne (hall _ (List.getElem_mem _)) (by decide)
  obtain ⟨k', hform⟩ : ∃ k', canonOffset ⟨r, k, pv, chHash :: (signText neg ++ digitChar d :: l)⟩ =
      ⟨r ++ chHash :: signText neg ++ digitChar d :: l, k', (digitChar d :: l).getD l.length 0, []⟩ := by
    unfold canonOffset
    rw [sign_text neg (isDigit_ne hdig (by decide))]
    dsimp only
    rw [char_zero, if_pos (hdig19 hd0)]
    dsimp only [Canon.put]
    rw [List.takeWhile_eq_self_iff.mpr hall, hput]
    unfold Canon.skip
    rw [if_neg (show ¬ (digitChar d :: l).length = 0 from Nat.succ_ne_zero _)]
    dsimp only
    rw [List.drop_length]
    exact ⟨_, rfl⟩
  refine ⟨k', _, ?_, hpv⟩
  rw [htext, hform, List.append_assoc]
  rfl

theorem canonSuffix_offs (k : Nat) (pv : UInt8) {o : Int} (h : o ≠ 0) (hr : lastChar e r ≠ chSlash) :
    ∃ k' pv', canonSuffix e ⟨r, k, pv, offsText (some o)⟩ = (⟨r ++ offsText (some o), k', pv', []⟩, false) ∧
      pv' ≠ chSlash := by
  obtain ⟨k', pv', h1, h2⟩ := canonOffset_text r k pv h
  refine ⟨k', pv', ?_, h2⟩
  have hchar : (⟨r, k, pv, offsText (some o)⟩ : Canon).char 0 = chHash := rfl
  unfold canonSuffix
  rw [hchar, if_neg (fun hc => absurd hc.1 (by decide))]
  dsimp only
  rw [if_neg (show ¬ chHash = chSemi by decide), hchar, if_pos rfl, if_neg hr, h1]

/-- a version is kept in front of an offset only -/
theorem canonVersion_text (r : List UInt8) (k : Nat) (pv : UInt8) (neg : Bool) {v : Nat} (hv : 1 ≤ v ∧ v ≤ 9)
    (offs : Option Int) :
    ∃ k' pv', pv' ≠ chSlash ∧ canonVersion ⟨r, k, pv, verText (some (neg, v)) ++ offsText offs⟩ =
      if offs = none then ⟨r, k', pv', [digitChar v]⟩
      else ⟨r ++ keptVer (some (neg, v)), k', pv', offsText offs⟩ := by
  obtain ⟨-, hdig, hdig19⟩ := digitChar_spec (show v < 10 by omega)
  have hsign : (⟨r, k, pv, verText (some (neg, v)) ++ offsText offs⟩ : Canon).sign =
      ⟨r, k, if neg then chMinus else chSemi, digitChar v :: offsText offs⟩ := by
    have htext : verText (some (neg, v)) ++ offsText offs = chSemi ::
      (signText neg ++ digitChar v :: offsText offs) := by
      simp [verText]
    rw [htext, sign_text neg (isDigit_ne hdig (by decide))]
  unfold canonVersion
  rw [hsign]
  dsimp only
  cases offs with
  | none =>
    refine ⟨k, if neg then chMinus else chSemi, by cases neg <;> decide, ?_⟩
    rw [if_pos rfl, if_neg (fun hc => Nat.lt_irrefl 1 hc.1)]
    rfl
  | some o =>
    have hcond : 1 < (digitChar v :: offsText (some o)).length ∧
        isDigit19 ((⟨r, k, if neg then chMinus else chSemi, digitChar v :: offsText (some o)⟩ : Canon).char 0) = true ∧
        ((⟨r, k, if neg then chMinus else chSemi, digitChar v :: offsText (some o)⟩ : Canon).char 1 = chHash ∨
        (⟨r, k, if neg then chMinus else chSemi, digitChar v :: offsText (some o)⟩ : Canon).char 1 = 0) :=
      ⟨Nat.succ_lt_succ (Nat.succ_pos _), hdig19 (by omega), Or.inl rfl⟩
    refine ⟨max k (r.length + 2), digitChar v, isDigit_ne hdig (by decide), ?_⟩
    rw [if_pos hcond, if_neg (Option.some_ne_none o)]
    exact Canon.skip_cons rfl

theorem canonSuffix_ver (k : Nat) (pv : UInt8) (neg : Bool) {v : Nat} (hv : 1 ≤ v ∧ v ≤ 9)
    (hr : lastChar e r ≠ chSlash) :
    ∃ k' pv', canonSuffix e ⟨r, k, pv, verText (some (neg, v))⟩ = (⟨r, k', pv', []⟩, true) ∧ pv' ≠ chSlash := by
  obtain ⟨k', pv', hpv, hver⟩ := canonVersion_text r k pv neg hv none
  rw [if_pos rfl, show offsText none = [] from rfl, List.append_nil] at hver
  obtain ⟨-, hdig, -⟩ := digitChar_spec (show v < 10 by omega)
  refine ⟨k', digitChar v, ?_, isDigit_ne hdig (by decide)⟩
  have hchar : (⟨r, k, pv, verText (some (neg, v))⟩ : Canon).char 0 = chSemi := rfl
  unfold canonSuffix
  rw [hchar, if_neg (fun hc => hr hc.2)]
  dsimp only
  rw [if_pos rfl, hver, if_neg (show ¬ (⟨r, k', pv', [digitChar v]⟩ : Canon).char 0 = chHash from
    isDigit_ne hdig (by decide)), Canon.skip_cons rfl]

theorem canonSuffix_both (k : Nat) (pv : UInt8) (neg : Bool) {v : Nat} {o : Int} (hv : 1 ≤ v ∧ v ≤ 9) (h : o ≠ 0)
    (hr : lastChar e r ≠ chSlash) :
    ∃ k' pv', canonSuffix e ⟨r, k, pv, verText (some (neg, v)) ++ offsText (some o)⟩ =
      (⟨r ++ keptVer (some (neg, v)) ++ offsText (some o), k', pv', []⟩, false) ∧ pv' ≠ chSlash := by
  obtain ⟨k₁, pv₁, -, hver⟩ := canonVersion_text r k pv neg hv (some o)
  rw [if_neg (Option.some_ne_none o)] at hver
  obtain ⟨k₂, pv₂, hoffs, hpv⟩ := canonOffset_text (r ++ keptVer (some (neg, v))) k₁ pv₁ h
  obtain ⟨-, hdig, -⟩ := digitChar_spec (show v < 10 by omega)
  have hlast : lastChar e (r ++ keptVer (some (neg, v))) ≠ chSlash := by
    have happ : r ++ keptVer (some (neg, v)) = (r ++ [chSemi]) ++ [digitChar v] := by simp [keptVer]
    rw [happ, lastChar_append]
    exact isDigit_ne hdig (by decide)
  refine ⟨k₂, pv₂, ?_, hpv⟩
  have hchar : (⟨r, k, pv, verText (some (neg, v)) ++ offsText (some o)⟩ : Canon).char 0 = chSemi := rfl
  have hhash : (⟨r ++ keptVer (some (neg, v)), k₁, pv₁, offsText (some o)⟩ : Canon).char 0 = chHash := rfl
  unfold canonSuffix
  rw [hchar, if_neg (fun hc => hr hc.2)]
  dsimp only
  rw [if_pos rfl, hver, hhash, if_pos rfl, if_neg hlast, hoffs]

/-- what `canonize` keeps of the suffixes -/
def keptText (ver : Option (Bool × Nat)) (offs : Option Int) : List UInt8 :=
  if offs = none then [] else keptVer ver ++ offsText offs

/-- a version between 1 and 9 and an offset other than 0 -/
structure SuffixOk (ver : Option (Bool × Nat)) (offs : Option Int) : Prop where
  ver : ∀ neg v, ver = some (neg, v) → 1 ≤ v ∧ v ≤ 9
  offs : ∀ o, offs = some o → o ≠ 0 ∧ o.natAbs < 2^64

variable {ver : Option (Bool × Nat)} {offs : Option Int}

theorem canonSuffix_kept (k : Nat) (pv : UInt8) (h : SuffixOk ver offs) (hr : lastChar e r ≠ chSlash) :
    ∃ k' pv' b, canonSuffix e ⟨r, k, pv, verText ver ++ offsText offs⟩ = (⟨r ++ keptText ver offs, k', pv', []⟩, b) ∧
      pv' ≠ chSlash := by
  rcases ver with _ | ⟨neg, v⟩
  · cases offs with
    | none =>
      refine ⟨k, 0, true, ?_, by decide⟩
      have hkept : r ++ keptText none none = r := List.append_nil r
      rw [hkept]
      exact canonSuffix_go (show ¬ (0 : UInt8) = chSemi by decide) (show ¬ (0 : UInt8) = chHash by decide)
    | some o =>
      obtain ⟨k', pv', h1, h2⟩ := canonSuffix_offs k pv (h.offs o rfl).1 hr
      exact ⟨k', pv', false, h1, h2⟩
  · cases offs with
    | none =>
      obtain ⟨k', pv', h1, h2⟩ := canonSuffix_ver k pv neg (h.ver neg v rfl) hr
      have hkept : r ++ keptText (some (neg, v)) none = r := List.append_nil r
      have htext : verText (some (neg, v)) ++ offsText none = verText (some (neg, v)) := List.append_nil _
      exact ⟨k', pv', true, by rw [hkept, htext, h1], h2⟩
    | some o =>
      obtain ⟨k', pv', h1, h2⟩ := canonSuffix_both k pv neg (h.ver neg v rfl) (h.offs o rfl).1 hr
      refine ⟨k', pv', false, ?_, h2⟩
      rw [h1, List.append_assoc]
      rfl

theorem suffix_end : ∀ a, (verText ver ++ offsText offs).head? = some a → pathEnd a = true := by
  intro a ha
  rcases ver with _ | ⟨neg, v⟩
  · cases offs with
    | none => cases ha
    | some o =>
      cases ha
      decide
  · cases ha
    decide

end

/-! ## a file with suffixes -/

/-- the last name is not empty and not made of dots -/
structure FilePath (path : List UInt8) : Prop where
  chars : ∀ a ∈ path, pathEnd a = false
  name : ∃ s, (segments (noDrive path)).getLast? = some s ∧ ∃ a ∈ s, a ≠ chDot

section
variable {e : CanonEnv} {path : List UInt8} {ver : Option (Bool × Nat)} {offs : Option Int}

theorem dropSlash_dirs {l s : List UInt8} (h : (segments l).getLast? = some s) (hs : s ≠ []) :
    ∃ dirs : List (List UInt8), (∀ u ∈ dirs, ∀ a ∈ u, a ≠ chSlash ∧ a ∈ l) ∧ (∀ a ∈ s, a ≠ chSlash ∧ a ∈ l) ∧
      ∀ r, dropSlash (l ++ r) = dirs.flatMap (· ++ [chSlash]) ++ (s ++ r) := by
  obtain ⟨dirs, hdirs⟩ := List.getLast?_eq_some_iff.mp h
  have hl := segments_path hdirs
  have hmem : ∀ u ∈ dirs ++ [s], ∀ a ∈ u, a ≠ chSlash ∧ a ∈ l := by
    intro u hu a ha
    obtain ⟨h1, h2⟩ := segments_plain l u (hdirs ▸ hu)
    exact ⟨fun hc => h1 (hc ▸ ha), h2 a ha⟩
  have hsmem := hmem s (by simp)
  have hplain : ∀ u : List UInt8, (∀ a ∈ u, a ≠ chSlash ∧ a ∈ l) → u ≠ [] → ∀ r, ¬ (u ++ r).head? = some chSlash := by
    intro u hu hne r hc
    obtain ⟨a, t, rfl⟩ := List.exists_cons_of_ne_nil hne
    exact (hu a List.mem_cons_self).1 (Option.some.inj hc)
  cases dirs with
  | nil =>
    refine ⟨[], by simp, hsmem, fun r => ?_⟩
    rw [List.flatMap_nil, List.nil_append] at hl
    unfold dropSlash
    rw [hl, if_neg (hplain s hsmem hs r)]
    rfl
  | cons u dirs =>
    have hu := hmem u (by simp)
    by_cases hne : u = []
    · subst hne
      refine ⟨dirs, fun v hv => hmem v (by simp [hv]), hsmem, fun r => ?_⟩
      rw [hl]
      simp [dropSlash]
    · refine ⟨u :: dirs, fun v hv => hmem v (List.mem_append_left _ hv), hsmem, fun r => ?_⟩
      have hform : l ++ r = u ++ (chSlash :: (dirs.flatMap (· ++ [chSlash]) ++ (s ++ r))) := by
        conv_lhs => rw [hl]
        simp
      unfold dropSlash
      rw [hform, if_neg (hplain u hu hne _)]
      simp

theorem canonRun_file (hr : e.root = [chSlash]) (hw : e.work = [chSlash]) (hp : FilePath path) :
    ∃ y, (∀ ver offs, SuffixOk ver offs → ∃ pv, pv ≠ chSlash ∧
        (canonRun e (path ++ (verText ver ++ offsText offs))).res = cleanEnd (y ++ keptText ver offs, pv)) ∧
      (∀ a ∈ y, a ∈ startRes path ∨ a = chSlash ∨ a ∈ path) ∧ y.getLast? = path.getLast? ∧
          y.getLast? ≠ some chSlash := by
  obtain ⟨s, hs, hdots⟩ := hp.name
  obtain ⟨b, hb, hbd⟩ := hdots
  have hne : s ≠ [] := List.ne_nil_of_mem hb
  obtain ⟨dirs, hdirs, hsm, hrest⟩ := dropSlash_dirs hs hne
  have hsub : ∀ a ∈ noDrive path, a ∈ path := by
    intro a ha
    unfold noDrive at ha
    split at ha
    · exact List.mem_of_mem_drop ha
    · exact ha
  have hname : ∀ a, a ≠ chSlash ∧ a ∈ noDrive path → nameChar a = true := by
    rintro a ⟨h1, h2⟩
    unfold nameChar
    rw [hp.chars a (hsub a h2)]
    simpa using h1
  refine ⟨slashed e (addDirs e (startRes path) dirs) ++ s, fun ver offs hok => ?_, fun a ha => ?_, ?_, ?_⟩
  · obtain ⟨k, pv, hstart⟩ := canonStart_rest (e := e) hr hw (path ++ (verText ver ++ offsText offs))
    rw [startRes_suffix suffix_end, noDrive_suffix suffix_end, hrest] at hstart
    obtain ⟨x, l, rfl⟩ := List.exists_cons_of_ne_nil hne
    obtain ⟨m, y, k₁, pv₁, hloop, hy⟩ := canonLoop_dirs (e := e) (n := (canonStart e
      (path ++ (verText ver ++ offsText offs))).rest.length) (fun u hu a ha => hname a (hdirs u hu a ha))
      (hname x (hsm x List.mem_cons_self)) (by rw [hstart]; rfl) (Nat.le_refl _)
    rw [hstart] at hy
    obtain ⟨k₂, pv₂, hround⟩ := canonRound_name (e := e) (c := ⟨y, k₁, pv₁, x :: l ++ (verText ver ++ offsText offs)⟩)
      (fun a ha => hname a (hsm a ha)) ⟨b, hb, hbd⟩ suffix_end rfl
    have hlast : lastChar e (slashed e y ++ x :: l) ≠ chSlash := by
      rw [← List.dropLast_append_getLast hne, ← List.append_assoc, lastChar_append]
      exact (hsm _ (List.getLast_mem hne)).1
    obtain ⟨k₃, pv₃, g, hsfx, hpv₃⟩ := canonSuffix_kept k₂ pv₂ hok hlast
    rw [hsfx] at hround
    refine ⟨pv₃, hpv₃, ?_⟩
    have hend : canonLoop e (m + 1) ⟨y, k₁, pv₁, x :: l ++ (verText ver ++ offsText offs)⟩ =
        ⟨slashed e y ++ x :: l ++ keptText ver offs, k₃, pv₃, []⟩ := by
      have hx : pathEnd x = false := nameChar_end (hname x (hsm x List.mem_cons_self))
      cases g with
      | true => rw [canonLoop_round rfl hx hround, canonLoop_end rfl]
      | false =>
        rw [canonLoop, if_neg (by rw [List.cons_append, char_zero, hx]; simp), hround]
        rfl
    unfold canonRun
    rw [canonEnd_res, hloop.trans hend, hy]
  · rcases List.mem_append.mp ha with h | h
    · refine slashed_all (P := fun a => a ∈ startRes path ∨ a = chSlash ∨ a ∈ path) (Or.inr (Or.inl rfl))
        (addDirs_all (Or.inr (Or.inl rfl)) (fun a ha => Or.inl ha) fun u hu a ha => ?_) a h
      exact Or.inr (Or.inr (hsub a (hdirs u hu a ha).2))
    · exact Or.inr (Or.inr (hsub a (hsm a h).2))
  · rw [List.getLast?_append_of_ne_nil _ hne]
    obtain ⟨D, hD⟩ := List.getLast?_eq_some_iff.mp hs
    have hno : noDrive path = D.flatMap (· ++ [chSlash]) ++ s := segments_path hD
    have hlast : (noDrive path).getLast? = s.getLast? := by rw [hno, List.getLast?_append_of_ne_nil _ hne]
    rw [← hlast]
    have hnn : noDrive path ≠ [] := by
      rw [hno]
      simp [hne]
    cases hd : driveOf path with
    | none => rw [noDrive_none hd]
    | some d =>
      conv_rhs => rw [(driveOf_some hd).1]
      rw [List.getLast?_append_of_ne_nil _ (List.cons_ne_nil _ _), List.getLast?_cons_of_ne_nil hnn]
  · rw [List.getLast?_append_of_ne_nil _ hne, List.getLast?_eq_some_getLast hne]
    intro hc
    exact (hsm _ (List.getLast_mem hne)).1 (Option.some.inj hc)

def pathPart (r : List UInt8) : List UInt8 := r.takeWhile fun a => a != chSemi && a != chHash

/-- the path part is that of the path alone, and the suffixes are read back -/
def SuffixKept (e : CanonEnv) (path : List UInt8) (ver : Option (Bool × Nat)) (offs : Option Int) : Prop :=
  ∃ r, canonize e (path ++ (verText ver ++ offsText offs)) = some r ∧ canonize e path = some (pathPart r) ∧
    getver r = (ver.map Prod.snd).getD 0 ∧ getoffs r = (offs.map u64).getD 0

theorem getver_append {r t : List UInt8} (h : ∀ a ∈ r, a ≠ chSemi) : getver (r ++ t) = getver t := by
  unfold getver
  rw [List.dropWhile_append_of_pos (by simpa using h)]

theorem getoffs_append {r t : List UInt8} (h : ∀ a ∈ r, a ≠ chHash) : getoffs (r ++ t) = getoffs t := by
  unfold getoffs
  rw [List.dropWhile_append_of_pos (by simpa using h)]

theorem offsText_plain {o : Int} : ∀ a ∈ offsText (some o), a ≠ chSemi ∧ a ≠ 0 := by
  intro a ha
  rcases List.mem_cons.mp ha with rfl | ha
  · decide
  rcases List.mem_append.mp ha with ha | ha
  · unfold signText at ha
    split at ha
    · obtain rfl := List.mem_singleton.mp ha
      decide
    · cases ha
  · have h := decimal_isDigit a ha
    exact ⟨isDigit_ne h (by decide), isDigit_ne h (by decide)⟩

theorem offsText_last {o : Int} (ho : o ≠ 0) (y : List UInt8) : ∃ a, (y ++ offsText (some o)).getLast? = some a ∧
    isDigit a = true := by
  obtain ⟨d, l, hdl, -, -⟩ := decimal_cons (Int.natAbs_ne_zero.mpr ho)
  have hne : decimal o.natAbs ≠ [] := by
    rw [hdl]
    exact List.cons_ne_nil _ _
  have happ : y ++ offsText (some o) = (y ++ (chHash :: signText (decide (o < 0)))) ++ decimal o.natAbs := by
    simp [offsText]
  refine ⟨(decimal o.natAbs).getLast hne, ?_, decimal_isDigit _ (List.getLast_mem hne)⟩
  rw [happ, List.getLast?_append_of_ne_nil _ hne, List.getLast?_eq_some_getLast hne]

theorem keptVer_spec (h : SuffixOk ver offs) : (∀ a ∈ keptVer ver, a ≠ chHash ∧ a ≠ 0) ∧
    ∀ t, (∀ a ∈ t, a ≠ chSemi) → getver (keptVer ver ++ t) = (ver.map Prod.snd).getD 0 := by
  rcases ver with _ | ⟨neg, v⟩
  · refine ⟨by simp [keptVer], fun t ht => ?_⟩
    have hgo := getver_append (r := t) (t := []) ht
    rw [List.append_nil] at hgo
    exact hgo
  · have hv := h.ver neg v rfl
    obtain ⟨hval, hdig, hdig19⟩ := digitChar_spec (show v < 10 by omega)
    refine ⟨fun a ha => ?_, fun t _ => ?_⟩
    · rcases List.mem_cons.mp ha with rfl | ha
      · decide
      · obtain rfl := List.mem_singleton.mp ha
        exact ⟨isDigit_ne hdig (by decide), isDigit_ne hdig (by decide)⟩
    · show (if chSemi = chSemi ∧ isDigit19 (digitChar v) = true then (digitChar v).toNat - 0x30 else 0) = v
      rw [if_pos ⟨rfl, hdig19 (by omega)⟩, hval]
      omega

theorem cleanEnd_file {y : List UInt8} {pv : UInt8} (hy : y.getLast? ≠ some chSlash) (hpv : pv ≠ chSlash) :
    cleanEnd (y, pv) = y.rdropWhile (· == chDot) := by
  unfold cleanEnd
  rw [if_neg hy, if_neg hpv, List.append_nil]

theorem plain_read {r : List UInt8} (h : ∀ a ∈ r, a ≠ chSemi ∧ a ≠ chHash) :
    pathPart r = r ∧ getver r = 0 ∧ getoffs r = 0 := by
  refine ⟨List.takeWhile_eq_self_iff.mpr (by simpa using h), ?_, ?_⟩
  · have hgo := getver_append (t := []) (fun a ha => (h a ha).1)
    rw [List.append_nil] at hgo
    exact hgo
  · have hgo := getoffs_append (t := []) (fun a ha => (h a ha).2)
    rw [List.append_nil] at hgo
    exact hgo

theorem canonize_run {y : List UInt8} (hne : path ≠ []) (h : (canonRun e path).res = y) (h0 : ∀ a ∈ y, a ≠ 0) :
    canonize e path = some y := by
  unfold canonize
  rw [if_neg hne, h, List.takeWhile_eq_self_iff.mpr (by simpa using h0)]

theorem FilePath.ne_nil (hp : FilePath path) : path ≠ [] := by
  rintro rfl
  obtain ⟨s, hs, a, ha, -⟩ := hp.name
  cases hs
  cases ha

/-- nothing is kept if the same string is returned with and without the suffixes -/
theorem suffixKept_same {r : List UInt8} (hok : SuffixOk ver offs)
    (h : canonize e (path ++ (verText ver ++ offsText offs)) = some r) (h' : canonize e path = some r)
    (hr : ∀ a ∈ r, a ≠ chSemi ∧ a ≠ chHash) : SuffixKept e path ver offs ↔ ver = none ∧ offs = none := by
  obtain ⟨hpart, hver, hoffs⟩ := plain_read hr
  constructor
  · rintro ⟨r', h1, -, h3, h4⟩
    obtain rfl : r = r' := Option.some.inj (h.symm.trans h1)
    rw [hver] at h3
    rw [hoffs] at h4
    refine ⟨?_, ?_⟩
    · rcases ver with _ | ⟨neg, v⟩
      · rfl
      · have hv := hok.ver neg v rfl
        have hv0 : 0 = v := h3
        omega
    · cases offs with
      | none => rfl
      | some o =>
        obtain ⟨ho, hlt⟩ := hok.offs o rfl
        have hu : 0 = u64 o := h4
        unfold u64 at hu
        omega
  · rintro ⟨rfl, rfl⟩
    exact ⟨r, h, by rw [hpart, h'], hver, hoffs⟩

/-- only a version in front of an offset is kept, and only without a drive -/
theorem canonize_suffix (e : CanonEnv) (path : List UInt8) (ver : Option (Bool × Nat)) (offs : Option Int)
    (hr : e.root = [chSlash]) (hw : e.work = [chSlash]) (hp : FilePath path) (hok : SuffixOk ver offs) :
    SuffixKept e path ver offs ↔ (ver = none ∧ offs = none) ∨ (offs ≠ none ∧ path.getLast? ≠ some chDot ∧
      (driveOf path = none ∨ driveOf path = some rootDrive)) := by
  have hne : ∀ t : List UInt8, path ++ t ≠ [] := fun t hc => hp.ne_nil (List.append_eq_nil_iff.mp hc).1
  by_cases hd : driveOf path = none ∨ driveOf path = some rootDrive
  · obtain ⟨y, hrun, hmem, hlast, hslash⟩ := canonRun_file hr hw hp
    have hstart : startRes path = [chSlash] := by
      unfold startRes
      rcases hd with h | h
      · rw [h]
      · rw [h]
        rfl
    have hend : ∀ a ∈ y, pathEnd a = false := by
      intro a ha
      rcases hmem a ha with h | h | h
      · rw [hstart, List.mem_singleton] at h
        rw [h]
        decide
      · rw [h]
        decide
      · exact hp.chars a h
    have hchars : ∀ a ∈ y, (a ≠ chSemi ∧ a ≠ chHash) ∧ a ≠ 0 := by
      intro a ha
      have := hend a ha
      refine ⟨⟨?_, ?_⟩, ?_⟩ <;> rintro rfl <;> exact absurd this (by decide)
    have hsub : ∀ a ∈ y.rdropWhile (· == chDot), a ∈ y := fun a ha => (List.rdropWhile_prefix _ _).subset ha
    obtain ⟨pv₀, hpv₀, hrun₀⟩ := hrun none none ⟨by rintro _ _ ⟨⟩, by rintro _ ⟨⟩⟩
    have hpath : canonize e path = some (y.rdropWhile (· == chDot)) := by
      rw [show keptText none none = [] from rfl, List.append_nil, cleanEnd_file hslash hpv₀,
        show verText none ++ offsText none = [] from rfl, List.append_nil] at hrun₀
      exact canonize_run hp.ne_nil hrun₀ (fun a ha => (hchars a (hsub a ha)).2)
    obtain ⟨pv, hpv, hres⟩ := hrun ver offs hok
    cases offs with
    | none =>
      rw [show keptText ver none = [] from rfl, List.append_nil, cleanEnd_file hslash hpv] at hres
      rw [suffixKept_same hok (canonize_run (hne _) hres (fun a ha => (hchars a (hsub a ha)).2)) hpath
        (fun a ha => (hchars a (hsub a ha)).1)]
      simp
    | some o =>
      obtain ⟨ho, -⟩ := hok.offs o rfl
      obtain ⟨hkept, hver⟩ := keptVer_spec hok
      have hform : y ++ keptText ver (some o) = y ++ (keptVer ver ++ offsText (some o)) := rfl
      obtain ⟨z, hz, hzd⟩ := offsText_last ho (y ++ keptVer ver)
      rw [List.append_assoc] at hz
      have hcan : canonize e (path ++ (verText ver ++ offsText (some o))) =
        some (y ++ (keptVer ver ++ offsText (some o))) := by
        apply canonize_run (hne _)
        · rw [hres, hform, cleanEnd_file _ hpv, rdropWhile_dots]
          · rw [hz]
            exact fun hc => isDigit_ne hzd (by decide) (Option.some.inj hc)
          · rw [hz]
            exact fun hc => isDigit_ne hzd (by decide) (Option.some.inj hc)
        · intro a ha
          rcases List.mem_append.mp ha with ha | ha
          · exact (hchars a ha).2
          · rcases List.mem_append.mp ha with ha | ha
            · exact (hkept a ha).2
            · exact (offsText_plain a ha).2
      have hpart : pathPart (y ++ (keptVer ver ++ offsText (some o))) = y := by
        apply takeWhile_stop
        · intro a ha
          simpa using (hchars a ha).1
        · intro a ha
          rcases ver with _ | ⟨neg, v⟩
          · cases ha
            decide
          · cases ha
            decide
      have hv : getver (y ++ (keptVer ver ++ offsText (some o))) = (ver.map Prod.snd).getD 0 := by
        rw [getver_append (fun a ha => (hchars a ha).1.1)]
        exact hver _ (fun a ha => (offsText_plain a ha).1)
      have hof : getoffs (y ++ (keptVer ver ++ offsText (some o))) = u64 o := by
        rw [getoffs_append (fun a ha => (hchars a ha).1.2), getoffs_append (fun a ha => (hkept a ha).1)]
        show (if chHash = chHash then atol (signText (decide (o < 0)) ++ decimal o.natAbs) else 0) = u64 o
        rw [if_pos rfl, atol_decimal ho]
      rw [← hlast]
      constructor
      · rintro ⟨r, h1, h2, -, -⟩
        obtain rfl := Option.some.inj (hcan.symm.trans h1)
        rw [hpart, hpath] at h2
        refine Or.inr ⟨Option.some_ne_none o, fun hdot => ?_, hd⟩
        have hlt := rdropWhile_length_lt hdot
        rw [Option.some.inj h2] at hlt
        exact Nat.lt_irrefl _ hlt
      · rintro (⟨-, hc⟩ | ⟨-, hdot, -⟩)
        · cases hc
        · exact ⟨_, hcan, by rw [hpart, hpath, rdropWhile_dots hdot], hv, hof⟩
  · obtain ⟨d, hdr⟩ : ∃ d, driveOf path = some d := Option.ne_none_iff_exists'.mp (fun h => hd (Or.inl h))
    have hroot : d ≠ rootDrive := by
      rintro rfl
      exact hd (Or.inr hdr)
    rw [suffixKept_same hok (canonize_drive ((driveOf_suffix suffix_end).trans hdr) hroot) (canonize_drive hdr hroot)
      (by decide +kernel)]
    constructor
    · exact Or.inl
    · rintro (h | ⟨-, -, h⟩)
      · exact h
      · exact absurd h hd

theorem canonize_suffix_demo : SuffixKept rootEnv [0x61] (some (false, 2)) (some (-10)) := by
  refine (canonize_suffix rootEnv [0x61] (some (false, 2)) (some (-10)) rfl rfl ?_ ?_).mpr (Or.inr ?_)
  · exact ⟨by decide +kernel, [0x61], by decide +kernel, 0x61, by decide⟩
  · exact ⟨by rintro _ _ ⟨⟩; decide, by rintro _ ⟨⟩; exact ⟨by decide, by norm_num⟩⟩
  · exact ⟨by decide, by decide, Or.inl (by decide +kernel)⟩

/-- the version of `a;2` is lost -/
theorem canonize_version_lost : canonize rootEnv ([0x61] ++ (verText (some (false, 2)) ++ offsText none)) =
    some [chSlash, 0x61] ∧ getver [chSlash, 0x61] = 0 ∧ ¬ SuffixKept rootEnv [0x61] (some (false, 2)) none := by
  have h : canonize rootEnv ([0x61] ++ (verText (some (false, 2)) ++ offsText none)) = some [chSlash, 0x61] := by
    decide +kernel
  refine ⟨h, by decide +kernel, ?_⟩
  rintro ⟨r, h1, -, h3, -⟩
  obtain rfl := Option.some.inj (h.symm.trans h1)
  exact absurd h3 (by decide +kernel)

end

end OsZ
