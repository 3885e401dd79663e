import OsZ.Fs.Mounts

/-!
# Drives and automounts

* `canonize_rootDrive`  the drive `root` is the root directory;
* `lookupPass_storage`  a driver is called for the storage of a mount only;
* `drive_never`         so a device that is not mounted is not found by its drive or by `/dev/`.
-/

namespace OsZ

/-! ## `top` is not read -/

namespace Canon

def withTop (c : Canon) (t : Nat) : Canon := { c with top := t }

section
variable {c : Canon} {t n : Nat}

theorem withTop_char : (c.withTop t).char n = c.char n := rfl

theorem withTop_skip : (c.withTop t).skip n = (c.skip n).withTop t := by
  unfold skip
  split <;> rfl

theorem withTop_sign : (c.withTop t).sign = c.sign.withTop t := by
  unfold sign
  dsimp only
  rw [withTop_skip, withTop_char]
  split
  · exact withTop_skip
  · rfl

theorem withTop_slash {e : CanonEnv} : ∃ t', (c.withTop t).slash e = (c.slash e).withTop t' := by
  unfold slash
  show ∃ t', (if lastChar e c.res = chSlash then _ else _) = _
  split
  · exact ⟨t, rfl⟩
  · exact ⟨_, rfl⟩

end

end Canon

section
variable {e : CanonEnv} {c : Canon}

theorem canonVersion_top (t : Nat) : ∃ t', canonVersion (c.withTop t) = (canonVersion c).withTop t' := by
  unfold canonVersion
  dsimp only
  rw [Canon.withTop_sign]
  show ∃ t', (if 1 < c.sign.rest.length ∧ isDigit19 (c.sign.char 0) = true ∧
    (c.sign.char 1 = chHash ∨ c.sign.char 1 = 0) then _ else _) = _
  split
  · exact ⟨_, Canon.withTop_skip (c := c.sign.put [chSemi, c.sign.char 0])⟩
  · exact ⟨t, rfl⟩

theorem canonOffset_top (t : Nat) : ∃ t', canonOffset (c.withTop t) = (canonOffset c).withTop t' := by
  unfold canonOffset
  dsimp only
  rw [Canon.withTop_sign]
  show ∃ t', (if isDigit19 (c.sign.char 0) = true then _ else _) = _
  split
  · exact ⟨_, Canon.withTop_skip
      (c := (c.sign.put (if c.sign.prev = chMinus then [chHash, chMinus] else [chHash])).put
        (c.sign.rest.takeWhile isDigit))⟩
  · exact ⟨t, rfl⟩

theorem canonSuffix_top (t : Nat) :
    ∃ t', canonSuffix e (c.withTop t) = ((canonSuffix e c).1.withTop t', (canonSuffix e c).2) := by
  unfold canonSuffix
  show ∃ t', (if c.char 0 = chSemi ∧ lastChar e c.res = chSlash then _ else _) = _
  split
  · exact ⟨t, rfl⟩
  · dsimp only
    obtain ⟨t₁, hver⟩ : ∃ t', (if (c.withTop t).char 0 = chSemi then canonVersion (c.withTop t) else c.withTop t) =
        (if c.char 0 = chSemi then canonVersion c else c).withTop t' := by
      rw [Canon.withTop_char]
      split
      · exact canonVersion_top t
      · exact ⟨t, rfl⟩
    rw [hver]
    generalize (if c.char 0 = chSemi then canonVersion c else c) = c'
    show ∃ t', (if c'.char 0 = chHash then (if lastChar e c'.res = chSlash then _ else _, false) else _) = _
    split
    · dsimp only
      split
      · exact ⟨t₁, rfl⟩
      · obtain ⟨t₂, hoff⟩ := canonOffset_top (c := c') t₁
        exact ⟨t₂, by rw [hoff]⟩
    · exact ⟨t₁, by rw [Canon.withTop_skip]⟩

theorem canonName_top (t : Nat) :
    ∃ t', canonName e (c.withTop t) = ((canonName e c).1.withTop t', (canonName e c).2) := by
  unfold canonName
  show ∃ t', (if c.char 0 = chDot ∧ 1 < c.rest.length ∧ (c.char 1 = chSlash ∨ pathEnd (c.char 1) = true) then _
    else if 4 < c.res.length ∧ c.char 0 = chDot ∧ 2 < c.rest.length ∧ c.char 1 = chDot ∧
      (c.char 2 = chSlash ∨ pathEnd (c.char 2) = true) ∧
      c.res.drop (c.res.length - 4) = [chDot, chDot, chDot, chSlash] then _ else _) = _
  split
  · exact ⟨t, by rw [Canon.withTop_skip]⟩
  · split
    · have hskip := Canon.withTop_skip (c := { c with res := c.res.take (c.res.length - 4) }) (t := t) (n := 3)
      exact ⟨t, congrArg (·, true) hskip⟩
    · have hskip := Canon.withTop_skip (c := c.put (c.rest.takeWhile nameChar))
        (t := max t (c.res.length + (c.rest.takeWhile nameChar).length)) (n := (c.rest.takeWhile nameChar).length)
      obtain ⟨t', h⟩ := canonSuffix_top (e := e)
        (c := (c.put (c.rest.takeWhile nameChar)).skip (c.rest.takeWhile nameChar).length)
        (max t (c.res.length + (c.rest.takeWhile nameChar).length))
      exact ⟨t', (congrArg (canonSuffix e) hskip).trans h⟩

theorem canonRound_top (t : Nat) :
    ∃ t', canonRound e (c.withTop t) = ((canonRound e c).1.withTop t', (canonRound e c).2) := by
  unfold canonRound
  obtain ⟨t₁, hslash⟩ := Canon.withTop_slash (c := c) (t := t) (e := e)
  have hslashes : ((c.withTop t).slash e).slashes = (c.slash e).slashes.withTop t₁ := by
    rw [hslash]
    exact Canon.withTop_skip
  rw [hslashes]
  exact canonName_top t₁

theorem canonLoop_top (n t : Nat) : ∃ t', canonLoop e n (c.withTop t) = (canonLoop e n c).withTop t' := by
  induction n generalizing c t with
  | zero => exact ⟨t, rfl⟩
  | succ n ih =>
    rw [canonLoop, canonLoop]
    show ∃ t', (if c.rest = [] ∨ pathEnd (c.char 0) = true then _ else _) = _
    split
    · exact ⟨t, rfl⟩
    · obtain ⟨t₁, hround⟩ := canonRound_top (e := e) (c := c) t
      dsimp only
      rw [hround]
      dsimp only
      split
      · exact ih t₁
      · exact ⟨t₁, rfl⟩

theorem canonize_rootDrive (hr : e.root = [chSlash]) (path : List UInt8) :
    canonize e (rootDrive ++ chColon :: chSlash :: path) = canonize e (chSlash :: path) := by
  have hd : driveOf (rootDrive ++ chColon :: chSlash :: path) = some rootDrive :=
    driveOf_append (by decide +kernel) (by rintro a ⟨⟩; decide)
  have hd' : driveOf (chSlash :: path) = none :=
    driveOf_append (s := []) (r := chSlash :: path) (by simp) (by rintro a ⟨⟩; decide)
  have hno : noDrive (rootDrive ++ chColon :: chSlash :: path) = chSlash :: path :=
    (List.cons.inj (List.append_cancel_left (driveOf_some hd).1)).2.symm
  have hstart : canonStart e (rootDrive ++ chColon :: chSlash :: path) = ⟨[chSlash], 1, chSlash, path⟩ := by
    have hres : startRes (rootDrive ++ chColon :: chSlash :: path) = [chSlash] := by
      unfold startRes
      rw [hd]
      rfl
    rw [canonStart_drive hd, hres, hno]
    rfl
  have hstart' : canonStart e (chSlash :: path) = (⟨[chSlash], 1, chSlash, path⟩ : Canon).withTop 2 := by
    rw [canonStart_none hd', if_pos (show (chSlash :: path).getD 0 0 = chSlash from rfl), hr]
    exact (if_pos rfl).trans (Canon.skip_cons rfl)
  unfold canonize canonRun
  rw [if_neg (List.append_ne_nil_of_right_ne_nil rootDrive (List.cons_ne_nil _ _)), if_neg (List.cons_ne_nil _ _),
    hstart, hstart']
  obtain ⟨t, ht⟩ := canonLoop_top (e := e) (c := ⟨[chSlash], 1, chSlash, path⟩) path.length 2
  rw [canonEnd_res, canonEnd_res]
  show _ = some ((cleanEnd ((canonLoop e path.length _).res, (canonLoop e path.length _).prev)).takeWhile (· != 0))
  rw [ht]
  rfl

end

/-! ## the storage -/

section
variable {env : LookEnv} {st st' : LookState}

theorem lookupPass_storage {path abspath : List UInt8} {creat : Bool} {f : Option Nat} {k fs fd l : Nat}
    (h : lookupPass env st path creat = (.call f k fs fd abspath l, st')) :
    (∃ m ∈ st.mtab, m.storage = fd) ∨ fcbGet st.fcb devPath = some fd := by
  have hmount : ∀ g a, passMount env st g a = (.call f k fs fd abspath l, st') →
      (∃ m ∈ st.mtab, m.storage = fd) ∨ fcbGet st.fcb devPath = some fd := by
    intro g a hpass
    unfold passMount at hpass
    dsimp only at hpass
    split at hpass
    · next hdev =>
      have ha : a = devPath := eq_of_beq hdev.2.1
      exact Or.inr (ha ▸ (passDriver_call hpass).1)
    · obtain ⟨m, hm, hfd⟩ := Option.map_eq_some_iff.mp (passDriver_call hpass).1
      exact Or.inl ⟨m, List.mem_of_getElem? hm, hfd⟩
  unfold lookupPass at h
  split at h
  · cases h
  · split at h
    · cases h
    · split at h
      · cases h
      · split at h
        · exact hmount _ _ h
        · split at h
          · exact hmount _ _ h
          · cases h

/-- the paths of a drive, and the file system on its device that is found without a mount -/
def DriveOk (env : LookEnv) (st : LookState) (d path : List UInt8) (creat : Bool) (fd fs : Nat) : Prop :=
  canonize env.canon (d ++ chColon :: chSlash :: path) = canonize env.canon (devPath ++ d ++ chSlash :: path) ∧
  canonize env.canon (d ++ chColon :: path) = canonize env.canon (devPath ++ d ++ chSlash :: path) ∧
  canonize env.canon (rootDrive ++ chColon :: chSlash :: path) = canonize env.canon (chSlash :: path) ∧
  ∃ f k abspath l st', lookupPass env st (devPath ++ d ++ chSlash :: path) creat = (.call f k fs fd abspath l, st') ∧
    abspath.take l = devPath ++ d ++ [chSlash]

/-- a name of a drive other than `root` -/
structure DriveName (d : List UInt8) : Prop where
  ne_nil : d ≠ []
  ne_root : d ≠ rootDrive
  chars : ∀ a ∈ d, driveChar a = true

/-- the device `fd` is not mounted -/
structure FreeDevice (env : LookEnv) (st : LookState) (d : List UInt8) (fd fs : Nat) : Prop where
  path : pathAt st.fcb fd = some (devPath ++ d)
  storage : isStorage st.fcb fd = true
  detect : env.detect fd = some fs
  free : ∀ m ∈ st.mtab, m.storage ≠ fd

/-- with a drive only `/dev/` is left, and no device is found without a mount -/
theorem drive_never (env : LookEnv) (st : LookState) (d path : List UInt8) (creat : Bool) (fd fs : Nat)
    (hr : env.canon.root = [chSlash]) (hd : DriveName d) (hfd : FreeDevice env st d fd fs) :
    canonize env.canon (d ++ chColon :: chSlash :: path) = some devPath ∧
      canonize env.canon (d ++ chColon :: path) = some devPath ∧
      canonize env.canon (rootDrive ++ chColon :: chSlash :: path) = canonize env.canon (chSlash :: path) ∧
      ¬ DriveOk env st d path creat fd fs := by
  have hdrive : ∀ p, driveOf (d ++ chColon :: p) = some d := fun p => driveOf_append hd.chars (by rintro a ⟨⟩; decide)
  refine ⟨canonize_drive (hdrive _) hd.ne_root, canonize_drive (hdrive _) hd.ne_root, canonize_rootDrive hr path, ?_⟩
  rintro ⟨-, -, -, f, k, abspath, l, st', hcall, -⟩
  rcases lookupPass_storage hcall with ⟨m, hm, hst⟩ | hget
  · exact hfd.free m hm hst
  · unfold fcbGet at hget
    rw [if_neg (by decide)] at hget
    obtain ⟨g, hg, hp⟩ := pathAt_of_findIdx hget
    have hgp : g.abspath = some (devPath ++ d) := by
      have := hfd.path
      unfold pathAt at this
      rw [hg] at this
      exact this
    rw [hgp, show (devPath.getLast? != some chSlash) = false by decide, Bool.false_and, Bool.or_false] at hp
    have heq : devPath ++ d = devPath ++ [] := by
      rw [List.append_nil]
      exact Option.some.inj (eq_of_beq hp)
    exact hd.ne_nil (List.append_cancel_left heq)

/-- the cache with the device `/dev/a` -/
def driveDemo : LookState := { mountDemo with fcb := (fcbAdd mountDemo.fcb (devPath ++ [0x61]) .device).1 }

theorem driveDemo_free : FreeDevice lookDemo driveDemo [0x61] 3 0 :=
  ⟨by decide +kernel, by decide +kernel, rfl, by decide +kernel⟩

theorem drive_never_demo : FreeDevice lookDemo driveDemo [0x61] 3 0 ∧
    ¬ DriveOk lookDemo driveDemo [0x61] [0x62] false 3 0 :=
  ⟨driveDemo_free, (drive_never lookDemo driveDemo [0x61] [0x62] false 3 0 rfl
    ⟨by decide, by decide, by decide +kernel⟩ driveDemo_free).2.2.2⟩

/-- `a:/b` is the string `/dev/`, `/dev/a/b` is another one, and its lookup ends with `ENODEV` -/
theorem drive_lost : canonize lookDemo.canon [0x61, chColon, chSlash, 0x62] = some devPath ∧
    canonize lookDemo.canon (devPath ++ [0x61] ++ [chSlash, 0x62]) = some (devPath ++ [0x61, chSlash, 0x62]) ∧
    (lookupPass lookDemo driveDemo (devPath ++ [0x61] ++ [chSlash, 0x62]) false).1 = .failed .ENODEV := by
  refine ⟨?_, ?_, ?_⟩ <;> decide +kernel

end

end OsZ
