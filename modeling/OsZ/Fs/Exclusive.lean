import OsZ.Fs.Slots

/-!
# Exclusive access

`FCB_FLAG_EXCL` of a file control block is set when a descriptor is opened exclusively, and every open
fails while it is set.  Nothing checks whether the file is already open.

* `Held`           a task has a descriptor in a slot;
* `Alone`          an exclusive descriptor is the only one of its file;
* `OpenOp.Sole`    files are opened exclusively only while they are not open;
* `exclusive_iff`  `Alone` is kept by exactly these calls.
-/

namespace OsZ
open Function (update update_eq_self update_of_ne update_self)

/-- the files, and the open descriptors of all tasks -/
abbrev FsTasks := FileState × (Nat → TaskFiles)

/-- task `t` has the descriptor `fd` in slot `i` -/
def Held (x : FsTasks) (t i : Nat) (fd : OpenFile) : Prop := usedAt (x.2 t).openfiles i = some fd

/-- opened exclusively, or the file is a special one -/
def exclusive (s : FileState) (fid mode : Nat) : Bool := oExcl mode || oExcl (s.fcb fid).mode

def Alone (x : FsTasks) : Prop :=
  ∀ t i fd, Held x t i fd → exclusive x.1 fd.fid fd.mode = true →
    ∀ t' i' fd', Held x t' i' fd' → fd'.fid = fd.fid → t' = t ∧ i' = i

/-! ## calls of all tasks -/

inductive OpenOp
  | open (t fid mode offs idx : Nat)
  | close (t idx : Nat) (dontfree : Bool)

inductive OpenStep : FsTasks → OpenOp → FsTasks → Prop
  | open {s T t fid mode offs idx s' tc ret} : taskctxOpen s (T t) fid mode offs idx = (s', tc, ret) →
      OpenStep (s, T) (.open t fid mode offs idx) (s', update T t tc)
  | close {s T t idx dontfree s' tc ret} (fuel : Nat) : taskctxClose fuel s (T t) idx dontfree = some (s', tc, ret) →
      OpenStep (s, T) (.close t idx dontfree) (s', update T t tc)

/-- a file that is going to be opened exclusively is not open -/
def OpenOp.Sole (x : FsTasks) : OpenOp → Prop
  | .open _ fid mode _ _ => openError x.1 fid mode = none → exclusive x.1 fid mode = true →
      ∀ t i fd, Held x t i fd → fd.fid ≠ fid
  | .close .. => True

/-- the flag is set while an exclusive descriptor is open -/
structure Guarded (x : FsTasks) : Prop where
  alone : Alone x
  flag : ∀ t i fd, Held x t i fd → exclusive x.1 fd.fid fd.mode = true → x.1.excl fd.fid = true
  nfcb : x.1.nfcb < 2^64

section
variable {s s' : FileState} {T : Nat → TaskFiles} {x y : FsTasks} {tc tc' : TaskFiles}
  {t i fid mode offs idx fuel : Nat} {fd : OpenFile} {op : OpenOp} {dontfree : Bool}
  {r : FileState × TaskFiles × Bool}

/-! ## one call -/

theorem oExcl_openMode (mode : Nat) : oExcl (openMode (readMode mode)) = oExcl mode := by
  have h1 : (mode ||| 1).testBit 2 = mode.testBit 2 := by
    rw [Nat.testBit_or, show Nat.testBit 1 2 = false from rfl, Bool.or_false]
  have hr : oExcl (readMode mode) = oExcl mode := by
    unfold readMode
    split
    · exact h1
    · rfl
  unfold openMode
  split
  · show (readMode mode ||| 2).testBit 2 = _
    rw [Nat.testBit_or, show Nat.testBit 2 2 = false from rfl, Bool.or_false]
    exact hr
  · exact hr

theorem taskctxOpen_of_none (he : openError s fid mode = none) (tc : TaskFiles) (offs idx : Nat) :
    taskctxOpen s tc fid mode offs idx =
      ({ s with
          excl := if oExcl (openMode (readMode mode)) ∨ oExcl (s.fcb fid).mode
            then update s.excl fid true else s.excl
          nopen := update s.nopen fid (w64 (s.nopen fid + 1)) },
        { tc with
          openfiles := putFile tc.openfiles (openSlot tc.openfiles idx) ⟨fid, openMode (readMode mode), offs, 0⟩
          nfiles := w64 (tc.nfiles + 1) }, openSlot tc.openfiles idx) := by
  unfold taskctxOpen
  rw [he]

theorem openError_none (he : openError s fid mode = none) : fid < s.nfcb ∧ s.excl fid = false := by
  unfold openError at he
  split at he
  · cases he
  · next h1 =>
    split at he
    · cases he
    · next h2 => exact ⟨not_le.mp (not_or.mp h1).1, by simpa using h2⟩

theorem held_open {ret : Nat} (hn : s.nfcb < 2^64) (he : openError s fid mode = none)
    (h : taskctxOpen s (T t) fid mode offs idx = (s', tc, ret)) {t' j : Nat} {fd' : OpenFile} :
    Held (s', update T t tc) t' j fd' ↔
      if t' = t ∧ j = ret then fd' = ⟨fid, openMode (readMode mode), offs, 0⟩ else Held (s, T) t' j fd' := by
  rw [taskctxOpen_of_none he] at h
  cases h
  obtain ⟨hle, -⟩ := openSlot_free (T t).openfiles idx
  have hlt := (openError_none he).1
  unfold Held
  dsimp only
  rcases eq_or_ne t' t with rfl | ht
  · rw [update_self]
    dsimp only
    rcases eq_or_ne j (openSlot (T t').openfiles idx) with rfl | hj
    · rw [if_pos ⟨rfl, rfl⟩, usedAt_eq_some, putFile_self hle]
      constructor
      · rintro ⟨e, -⟩
        exact (Option.some.inj e).symm
      · rintro rfl
        refine ⟨rfl, ?_⟩
        unfold OpenFile.unused minus1
        exact decide_eq_false (by dsimp only; omega)
    · rw [if_neg (fun e => hj e.2), usedAt_congr (putFile_other hle hj)]
  · rw [update_of_ne ht, if_neg (fun e => ht e.1)]

theorem held_open_free {ret : Nat} (he : openError s fid mode = none)
    (h : taskctxOpen s (T t) fid mode offs idx = (s', tc, ret)) (fd' : OpenFile) : ¬ Held (s, T) t ret fd' := by
  rw [taskctxOpen_of_none he] at h
  cases h
  unfold Held
  rw [(openSlot_free (T t).openfiles idx).2]
  exact fun e => by cases e

theorem held_close {ret : Bool} (h : taskctxClose fuel s (T t) idx dontfree = some (s', tc, ret)) {t' j : Nat}
    {fd' : OpenFile} (hh : Held (s', update T t tc) t' j fd') :
    Held (s, T) t' j fd' ∧ (ret = true → ¬ (t' = t ∧ j = idx)) := by
  unfold Held at hh ⊢
  dsimp only at hh ⊢
  rcases eq_or_ne t' t with rfl | ht
  · rw [update_self] at hh
    rcases taskctxClose_ok h with ⟨hr, e⟩ | ⟨-, -, hn, hother⟩
    · dsimp only at hr e
      rw [e] at hh
      exact ⟨hh, fun hr' => by rw [hr] at hr'; cases hr'⟩
    · dsimp only at hn hother
      rcases eq_or_ne j idx with rfl | hj
      · rw [hn] at hh
        cases hh
      · rw [hother j hj] at hh
        exact ⟨hh, fun _ e => hj e.2⟩
  · rw [update_of_ne ht] at hh
    exact ⟨hh, fun _ e => ht e.1⟩

theorem closeFlush_keeps (h : closeFlush s tc fd = some (s', tc')) :
    s'.excl = s.excl ∧ s'.nopen = s.nopen ∧ KeepsFiles s.toFcbState s'.toFcbState := by
  unfold closeFlush at h
  split at h
  · obtain ⟨x, hx, e⟩ := Option.map_eq_some_iff.mp h
    cases e
    exact ⟨rfl, rfl, (fcbFlush_keeps hx).1⟩
  · cases h
    exact ⟨rfl, rfl, KeepsFiles.of_eq rfl rfl⟩

theorem closeFcb_keeps (h : closeFcb fuel s fd = some s') :
    (∀ i ≠ fd.fid, s'.excl i = s.excl i) ∧ s'.nfcb ≤ s.nfcb ∧ ∀ i, (s'.fcb i).mode = (s.fcb i).mode := by
  unfold closeFcb at h
  split at h
  · cases h
    exact ⟨fun _ _ => rfl, le_rfl, fun _ => rfl⟩
  · have hd := fcbDel_drops h
    refine ⟨fun i hi => ?_, hd.nfcb, hd.mode⟩
    rw [hd.excl]
    exact update_of_ne hi ..

theorem taskctxClose_keeps (h : taskctxClose fuel s tc idx dontfree = some r) :
    r.1.nfcb ≤ s.nfcb ∧ (∀ i, (r.1.fcb i).mode = (s.fcb i).mode) ∧
      (r.1.excl = s.excl ∨ r.2.2 = true ∧ ∃ fd, usedAt tc.openfiles idx = some fd ∧
        ∀ i ≠ fd.fid, r.1.excl i = s.excl i) := by
  rcases taskctxClose_cases h with ⟨-, rfl⟩ | ⟨fd, s1, tc1, s2, hu, -, h1, h2, rfl⟩
  · exact ⟨le_rfl, fun _ => rfl, Or.inl rfl⟩
  · obtain ⟨e1, -, e2⟩ := closeFlush_keeps h1
    obtain ⟨f1, f2, f3⟩ := closeFcb_keeps h2
    refine ⟨f2.trans_eq e2.nfcb, fun i => (f3 i).trans ?_, Or.inr ⟨rfl, fd, hu, fun i hi => ?_⟩⟩
    · obtain ⟨l, hl⟩ := e2.fcb i
      rw [hl]
    · rw [f1 i hi, e1]

/-! ## every call -/

theorem exclusive_congr (h : (s'.fcb fid).mode = (s.fcb fid).mode) : exclusive s' fid mode = exclusive s fid mode := by
  unfold exclusive
  rw [h]

theorem Guarded.close {ret : Bool} (hg : Guarded (s, T))
    (h : taskctxClose fuel s (T t) idx dontfree = some (s', tc, ret)) : Guarded (s', update T t tc) := by
  obtain ⟨hn, hmode, hexcl⟩ := taskctxClose_keeps h
  refine ⟨?_, ?_, hn.trans_lt hg.nfcb⟩
  · intro t1 i1 fd1 h1 he t2 i2 fd2 h2 e
    rw [exclusive_congr (hmode _)] at he
    exact hg.alone t1 i1 fd1 (held_close h h1).1 he t2 i2 fd2 (held_close h h2).1 e
  · intro t1 i1 fd1 h1 he
    rw [exclusive_congr (hmode _)] at he
    obtain ⟨h1', hne⟩ := held_close h h1
    have hflag := hg.flag t1 i1 fd1 h1' he
    rcases hexcl with e | ⟨hr, fd, hu, e⟩
    · show s'.excl fd1.fid = true
      rw [e]
      exact hflag
    · -- the descriptor that is closed is another one, so it is of another file
      show s'.excl fd1.fid = true
      have hfid : fd1.fid ≠ fd.fid := by
        intro hfid
        obtain ⟨et, ei⟩ := hg.alone t1 i1 fd1 h1' he t idx fd hu hfid.symm
        exact hne hr ⟨et.symm, ei.symm⟩
      rw [e _ hfid]
      exact hflag

theorem Guarded.open {ret : Nat} (hg : Guarded (s, T)) (hs : OpenOp.Sole (s, T) (.open t fid mode offs idx))
    (h : taskctxOpen s (T t) fid mode offs idx = (s', tc, ret)) : Guarded (s', update T t tc) := by
  cases he : openError s fid mode with
  | some e =>
    unfold taskctxOpen at h
    rw [he] at h
    cases h
    rw [update_eq_self]
    exact ⟨hg.alone, hg.flag, hg.nfcb⟩
  | none =>
    have hheld {t' j fd'} : Held (s', update T t tc) t' j fd' ↔
        if t' = t ∧ j = ret then fd' = ⟨fid, openMode (readMode mode), offs, 0⟩ else Held (s, T) t' j fd' :=
      held_open hg.nfcb he h
    have hclear := (openError_none he).2
    have hs' := hs he
    have hfst : s'.fcb = s.fcb ∧ s'.nfcb = s.nfcb ∧
        s'.excl = if oExcl (openMode (readMode mode)) ∨ oExcl (s.fcb fid).mode
          then update s.excl fid true else s.excl := by
      rw [taskctxOpen_of_none he] at h
      cases h
      exact ⟨rfl, rfl, rfl⟩
    have hmode (i : Nat) : (s'.fcb i).mode = (s.fcb i).mode := by rw [hfst.1]
    have hnew : exclusive s fid (openMode (readMode mode)) = exclusive s fid mode := by
      unfold exclusive
      rw [oExcl_openMode]
    -- no exclusive descriptor of the file was open, since the flag was clear
    have hnone : ∀ t1 i1 fd1, Held (s, T) t1 i1 fd1 → exclusive s fd1.fid fd1.mode = true → fd1.fid ≠ fid := by
      intro t1 i1 fd1 h1 he1 e
      have := hg.flag t1 i1 fd1 h1 he1
      rw [e] at this
      exact absurd (this.symm.trans hclear) (by decide)
    refine ⟨?_, ?_, ?_⟩
    · intro t1 i1 fd1 h1 he1 t2 i2 fd2 h2 e
      rw [exclusive_congr (hmode _)] at he1
      rw [hheld] at h1 h2
      split at h1
      · next n1 =>
        subst h1
        rw [hnew] at he1
        split at h2
        · next n2 => exact ⟨n2.1.trans n1.1.symm, n2.2.trans n1.2.symm⟩
        · exact absurd e (hs' he1 t2 i2 fd2 h2)
      · split at h2
        · subst h2
          exact absurd e.symm (hnone t1 i1 fd1 h1 he1)
        · exact hg.alone t1 i1 fd1 h1 he1 t2 i2 fd2 h2 e
    · intro t1 i1 fd1 h1 he1
      rw [exclusive_congr (hmode _)] at he1
      show s'.excl fd1.fid = true
      rw [hheld] at h1
      rw [hfst.2.2]
      split at h1
      · subst h1
        rw [if_pos (by simpa [exclusive] using he1), update_self]
      · have hflag := hg.flag t1 i1 fd1 h1 he1
        split
        · rw [update_of_ne (hnone t1 i1 fd1 h1 he1)]
          exact hflag
        · exact hflag
    · show s'.nfcb < 2^64
      rw [hfst.2.1]
      exact hg.nfcb

theorem Guarded.step (hg : Guarded x) (hs : op.Sole x) (h : OpenStep x op y) : Guarded y := by
  cases h with
  | «open» h => exact hg.open hs h
  | close fuel h => exact hg.close h

/-- a file that is open is opened exclusively by the call -/
theorem OpenOp.sole_of_alone (hn : x.1.nfcb < 2^64) (h : OpenStep x op y) (ha : Alone y) : op.Sole x := by
  cases h with
  | close fuel h => trivial
  | @«open» s T t fid mode offs idx s' tc ret h =>
    intro he hex t1 i1 fd1 h1 e
    have hfcb : s'.fcb = s.fcb := by
      rw [taskctxOpen_of_none he] at h
      cases h
      rfl
    have hne : ¬ (t1 = t ∧ i1 = ret) := by
      rintro ⟨rfl, rfl⟩
      exact held_open_free he h fd1 h1
    have hnew : Held (s', update T t tc) t ret ⟨fid, openMode (readMode mode), offs, 0⟩ := by
      rw [held_open hn he h, if_pos ⟨rfl, rfl⟩]
    have hold : Held (s', update T t tc) t1 i1 fd1 := by
      rw [held_open hn he h, if_neg hne]
      exact h1
    have hex' : exclusive s' fid (openMode (readMode mode)) = true := by
      unfold exclusive at hex ⊢
      rw [oExcl_openMode, hfcb]
      exact hex
    exact hne (ha t ret _ hnew hex' t1 i1 fd1 hold e)

/-- from a state without open files, an exclusive descriptor stays the only one of its file as long as
files are opened exclusively only while they are not open; any other call breaks this at once -/
theorem exclusive_iff {x₀ : FsTasks} (hn : x₀.1.nfcb < 2^64) (h0 : ∀ t i fd, ¬ Held x₀ t i fd)
    (hr : Reach OpenStep (fun x op => op.Sole x) x₀ x) :
    Alone x ∧ ∀ op y, OpenStep x op y → (Alone y ↔ op.Sole x) := by
  have hg : Guarded x :=
    hr.keeps ⟨fun t i fd h => absurd h (h0 t i fd), fun t i fd h => absurd h (h0 t i fd), hn⟩
      (fun u a u' hu hc hs => hu.step hc hs)
  refine ⟨hg.alone, fun op y hstep => ⟨?_, ?_⟩⟩
  · exact OpenOp.sole_of_alone hg.nfcb hstep
  · intro hs
    exact (hg.step hs hstep).alone

end

/-! ## a file that is open twice -/

/-- task 0 opens a file with `O_READ|O_WRITE|O_EXCL|O_CREAT`, and task 1 is refused -/
theorem exclusive_iff_demo : ∃ y, Reach OpenStep (fun x op => op.Sole x) (demoFiles, fun _ => demoTask) y ∧
    Held y 0 0 ⟨1, 23, 0, 0⟩ ∧ ∀ t i fd, Held y t i fd → fd.fid = 1 → t = 0 ∧ i = 0 := by
  have h0 : ∀ t i fd, ¬ Held (demoFiles, fun _ => demoTask) t i fd := by
    intro t i fd h
    cases h
  let a := taskctxOpen demoFiles demoTask 1 23 0 minus1
  have h1 : OpenStep (demoFiles, fun _ => demoTask) (.open 0 1 23 0 minus1) (a.1, update (fun _ => demoTask) 0 a.2.1) :=
    .open rfl
  have h2 : OpenStep (a.1, update (fun _ => demoTask) 0 a.2.1) (.open 1 1 3 0 minus1) _ := .open rfl
  have hr := (Reach.refl.tail (C := fun x op => op.Sole x) (fun _ _ t i fd h => absurd h (h0 t i fd)) h1).tail
    (fun he => absurd he (by decide)) h2
  have ha := (exclusive_iff (by decide) h0 hr).1
  exact ⟨_, hr, rfl, fun t i fd h e => ha 0 0 ⟨1, 23, 0, 0⟩ rfl (by decide) t i fd h e⟩

/-- `O_READ|O_WRITE` by one task, then `O_READ|O_WRITE|O_EXCL|O_CREAT` by another -/
theorem open_twice : ∃ x, Reach OpenStep (fun _ _ => True) (demoFiles, fun _ => demoTask) x ∧ ¬ Alone x := by
  have h1 : OpenStep (demoFiles, fun _ => demoTask) (.open 0 1 3 0 minus1) _ := .open rfl
  have h2 : OpenStep _ (.open 1 1 23 0 minus1) _ :=
    .open (s := (taskctxOpen demoFiles demoTask 1 3 0 minus1).1)
      (T := update (fun _ => demoTask) 0 (taskctxOpen demoFiles demoTask 1 3 0 minus1).2.1) rfl
  refine ⟨_, (Reach.refl.tail trivial h1).tail trivial h2, fun ha => ?_⟩
  have := ha 1 0 ⟨1, 23, 0, 0⟩ (by rfl) (by decide) 0 0 ⟨1, 3, 0, 0⟩ (by rfl) rfl
  exact absurd this.1 (by decide)

end OsZ
