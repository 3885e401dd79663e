import OsZ.Fs.Context
import OsZ.Fs.Dup

/-!
# Changing the working directory (`SYS_chdir` in `fs/main.c`)

The reference to the old working directory is given back before the one to the new directory is taken,
and both may be the same entry.

* `sysChdir`         `SYS_chdir` for a path that was looked up;
* `ChdirLaw`         what is expected of it;
* `ChdirCond`        the entries that are needed survive the release of the old directory;
* `ChdirPlain`       the condition for an old directory that is no union;
* `chdir_law_iff`    the law holds just then.
-/

namespace OsZ

/-- `memcmp(path, root, strlen(root))!=0`; `strlen(NULL)` is 0, and NULL differs from everything else -/
def pathDiffers (path root : Option String) : Bool :=
  match root with
  | none => false
  | some root =>
    match path with
    | none => !root.isEmpty
    | some path => !root.toList.isPrefixOf path.toList

/-- `SYS_chdir` of the context `c`, when `lookup` has answered with the entry `d` -/
def sysChdir (fuel : Nat) (s : CtxState) (c d : Nat) : Option CtxState :=
  if (s.files.fcb d).type ≠ .regDir then some { s with files := { s.files with errno := some .ENOTDIR } }
  else
    (fcbDel fuel s.files (s.node c).workdir).map fun f =>
      let ret := if pathDiffers (f.fcb d).abspath (f.fcb (s.node c).rootdir).abspath then (s.node c).rootdir else d
      { s with
        files := { f with nopen := Function.update f.nopen ret (w64 (f.nopen ret + 1)) }
        node := Function.update s.node c { s.node c with workdir := ret } }

/-- the directory `d` is not outside of the root directory of the context -/
def Below (s : CtxState) (c d : Nat) : Prop :=
  pathDiffers (s.files.fcb d).abspath (s.files.fcb (s.node c).rootdir).abspath = false

instance (s : CtxState) (c d : Nat) : Decidable (Below s c d) := inferInstanceAs (Decidable (_ = _))

def OtherDir (s : CtxState) (c i : Nat) : Prop :=
  ∃ p y, ctxAt s p y ∧ y ≠ c ∧ (i = (s.node y).rootdir ∨ i = (s.node y).workdir)

/-- the request succeeds, the working directory is `d` or the root directory, `d` is still there, and the
directories of the other tasks are as before -/
def ChdirLaw (s : CtxState) (c d : Nat) : Prop :=
  ∃ fuel s', sysChdir fuel s c d = some s' ∧ s'.files.errno = none ∧
    (s'.node c).workdir = (if Below s c d then d else (s.node c).rootdir) ∧ s'.files.Live d ∧
    (∀ y ≠ c, s'.node y = s.node y) ∧
    ∀ i, OtherDir s c i → s.files.Live i →
      s'.files.Live i ∧ (s'.files.fcb i).abspath = (s.files.fcb i).abspath

/-- releasing the working directory deletes neither `d` nor a directory of another task, nor the root
directory if `d` is outside of it -/
def ChdirCond (s : CtxState) (c d : Nat) : Prop :=
  ∃ fuel f, fcbDel fuel s.files (s.node c).workdir = some f ∧ f.Live d ∧
    (Below s c d ∨ (f.fcb (s.node c).rootdir).abspath = (s.files.fcb (s.node c).rootdir).abspath) ∧
    ∀ i, OtherDir s c i → s.files.Live i → f.Live i

section
variable {s : CtxState} {c d fuel : Nat} {f : FileState}

theorem Drops.path_of_live {s s' : FileState} (h : Drops s s') {i : Nat} (hl : s'.Live i) :
    (s'.fcb i).abspath = (s.fcb i).abspath := by
  rcases h.path i with e | e
  · exact e
  · have := hl.2
    rw [e] at this
    cases this

theorem pathDiffers_none (path : Option String) : pathDiffers path none = false := rfl

theorem chdir_ret (hd : Drops s.files f) (hl : f.Live d) :
    (if pathDiffers (f.fcb d).abspath (f.fcb (s.node c).rootdir).abspath then (s.node c).rootdir else d) =
      (if Below s c d then d else (s.node c).rootdir) ↔
    (Below s c d ∨ (f.fcb (s.node c).rootdir).abspath = (s.files.fcb (s.node c).rootdir).abspath) := by
  rw [hd.path_of_live hl]
  rcases hd.path (s.node c).rootdir with e | e
  · rw [e]
    refine iff_of_true ?_ (Or.inr rfl)
    by_cases hb : Below s c d
    · rw [if_pos hb, if_neg (by rw [show pathDiffers _ _ = false from hb]; decide)]
    · rw [if_neg hb, if_pos (Bool.eq_true_of_not_eq_false hb)]
  · rw [e, pathDiffers_none, if_neg Bool.false_ne_true]
    by_cases hb : Below s c d
    · exact iff_of_true (if_pos hb).symm (Or.inl hb)
    · refine iff_of_false ?_ (not_or.mpr ⟨hb, fun hx => hb (by unfold Below; rw [← hx]; rfl)⟩)
      rw [if_neg hb]
      -- the root directory was deleted, and it would be `d`
      intro hx
      have hlive := hl.2
      rw [hx, e] at hlive
      cases hlive

theorem sysChdir_dir (ht : (s.files.fcb d).type = .regDir) : sysChdir fuel s c d =
    (fcbDel fuel s.files (s.node c).workdir).map fun f =>
      let ret := if pathDiffers (f.fcb d).abspath (f.fcb (s.node c).rootdir).abspath then (s.node c).rootdir else d
      { s with
        files := { f with nopen := Function.update f.nopen ret (w64 (f.nopen ret + 1)) }
        node := Function.update s.node c { s.node c with workdir := ret } } := by
  unfold sysChdir
  rw [if_neg (not_not_intro ht)]

end

theorem ChdirLaw.cond {s : CtxState} {c d : Nat} (ht : (s.files.fcb d).type = .regDir) (h : ChdirLaw s c d) :
    ChdirCond s c d := by
  obtain ⟨fuel, s', hs, -, hw, hl, -, ho⟩ := h
  rw [sysChdir_dir ht] at hs
  obtain ⟨f, hf, rfl⟩ := Option.map_eq_some_iff.mp hs
  have hd := fcbDel_drops hf
  dsimp only at hw
  rw [Function.update_self] at hw
  exact ⟨fuel, f, hf, hl, (chdir_ret hd hl).mp hw, fun i hi hi' => (ho i hi hi').1⟩

theorem ChdirCond.law {s : CtxState} {c d : Nat} (ht : (s.files.fcb d).type = .regDir) (he : s.files.errno = none)
    (h : ChdirCond s c d) : ChdirLaw s c d := by
  obtain ⟨fuel, f, hf, hl, hroot, ho⟩ := h
  have hd := fcbDel_drops hf
  refine ⟨fuel, _, by rw [sysChdir_dir ht, hf]; rfl, (fcbDel_errno hf).1.trans he, ?_, hl, fun y hy => ?_,
    fun i hi hi' => ?_⟩
  · dsimp only
    rw [Function.update_self]
    exact (chdir_ret hd hl).mpr hroot
  · exact Function.update_of_ne hy ..
  · exact ⟨ho i hi hi', hd.path_of_live (ho i hi hi')⟩

/-- the old directory stays, is not there any more, or nothing that is needed refers to it -/
def ChdirPlain (s : CtxState) (c d : Nat) : Prop :=
  2 ≤ s.files.nopen (s.node c).workdir ∨ ¬ s.files.Live (s.node c).workdir ∨
    ((s.node c).workdir ≠ d ∧ (Below s c d ∨ (s.node c).workdir ≠ (s.node c).rootdir) ∧
      ¬ OtherDir s c (s.node c).workdir)

theorem chdirCond_plain {s : CtxState} {c d : Nat} (hu : (s.files.fcb (s.node c).workdir).type ≠ .union)
    (hd : s.files.Live d) : ChdirCond s c d ↔ ChdirPlain s c d := by
  constructor
  · rintro ⟨fuel, f, hf, hlive, hroot, hother⟩
    cases fuel with
    | zero => cases hf
    | succ n =>
      obtain ⟨t, ht, h1, h2⟩ := fcbDel_lone n (Or.inl hu)
      obtain rfl : t = f := Option.some.inj (ht.symm.trans hf)
      rcases Nat.lt_or_ge (s.files.nopen (s.node c).workdir) 2 with hn | hn
      · by_cases hw : s.files.Live (s.node c).workdir
        · -- the old directory is deleted
          have hgone : ¬ t.Live (s.node c).workdir := fun hx => absurd (((h1 _).mp hx).2 rfl) (by omega)
          refine Or.inr (Or.inr ⟨fun hx => hgone (by rw [hx]; exact hlive), ?_, fun hx => hgone (hother _ hx hw)⟩)
          refine hroot.imp_right (fun hx he => ?_)
          rw [← he, h2, if_pos ⟨rfl, hw, hn⟩] at hx
          have hsome := hw.2
          rw [← hx] at hsome
          cases hsome
        · exact Or.inr (Or.inl hw)
      · exact Or.inl hn
  · intro h
    obtain ⟨t, ht, h1, h2⟩ := fcbDel_lone (s := s.files) 0 (Or.inl hu)
    by_cases hw : s.files.Live (s.node c).workdir ∧ s.files.nopen (s.node c).workdir < 2
    · obtain ⟨hne, hroot, hother⟩ := (h.resolve_left (by omega)).resolve_left (not_not_intro hw.1)
      refine ⟨1, t, ht, (h1 d).mpr ⟨hd, fun hx => absurd hx.symm hne⟩, hroot.imp_right (fun hx => ?_), ?_⟩
      · rw [h2, if_neg (fun hy => hx hy.1.symm)]
      · intro i hi hl
        exact (h1 i).mpr ⟨hl, fun hx => absurd (hx ▸ hi) hother⟩
    · -- nothing is deleted
      have hkeep : ∀ i, s.files.Live i → t.Live i :=
        fun i hi => (h1 i).mpr ⟨hi, fun hx => Nat.le_of_not_lt fun hn => hw ⟨hx ▸ hi, hn⟩⟩
      refine ⟨1, t, ht, hkeep d hd, Or.inr ?_, fun i _ hl => hkeep i hl⟩
      rw [h2, if_neg (fun hy => hw hy.2)]

/-- a directory was found, and no error -/
theorem chdir_law_iff {s : CtxState} {d : Nat} (ht : (s.files.fcb d).type = .regDir) (he : s.files.errno = none)
    (c : Nat) : (ChdirLaw s c d ↔ ChdirCond s c d) ∧
      ((s.files.fcb (s.node c).workdir).type ≠ .union → s.files.Live d → (ChdirLaw s c d ↔ ChdirPlain s c d)) := by
  have h : ChdirLaw s c d ↔ ChdirCond s c d := ⟨ChdirLaw.cond ht, ChdirCond.law ht he⟩
  exact ⟨h, fun hu hd => h.trans (chdirCond_plain hu hd)⟩

/-! ## the same directory twice -/

/-- the directories `/`, `/dev/` and `/a/`; nothing refers to the last one -/
def chdirFiles : FileState where
  toVfsState := {
    toFcbState := { demoFile [] none with
      fcb := fun i => ⟨some (if i = 0 then "/" else if i = 1 then "/dev/" else "/a/"), .regDir, 0, 3, 0, i, 4096, [],
        []⟩
      nfcb := 3 }
    filesize := fun _ => 0 }
  nopen i := if i = 2 then 0 else 1
  excl _ := false
  nfiles := 3
  tableAt _ := 0

/-- pid 1 has a context, at address 8 -/
def chdirStart : CtxState := (demoContexts chdirFiles).add 1 8

/-- `chdir("/a/")` from the root directory -/
theorem chdir_first : ChdirLaw chdirStart 8 2 :=
  ((chdir_law_iff rfl rfl 8).2 (by decide) ⟨by decide, rfl⟩).mpr (Or.inl (by decide))

/-- once more: the only reference is given back first, and the task is in the root directory -/
theorem chdir_twice : ∃ s1 s2, taskctxGet 0 (demoContexts chdirFiles) 1 8 = some (chdirStart, 8) ∧
    sysChdir 1 chdirStart 8 2 = some s1 ∧ (s1.node 8).workdir = 2 ∧ s1.files.Live 2 ∧ Below s1 8 2 ∧
    sysChdir 1 s1 8 2 = some s2 ∧ (s2.node 8).workdir = 0 ∧ ¬ s2.files.Live 2 ∧ ¬ ChdirLaw s1 8 2 := by
  refine ⟨_, _, rfl, rfl, rfl, ⟨by decide, rfl⟩, by decide +kernel, rfl, rfl, by decide, fun h => ?_⟩
  have hc := (chdirCond_plain (by decide) ⟨by decide, rfl⟩).mp (h.cond rfl)
  rcases hc with hx | hx | hx
  · exact absurd hx (by decide)
  · exact hx ⟨by decide, rfl⟩
  · exact hx.1 rfl

end OsZ
