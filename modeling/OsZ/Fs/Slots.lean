import OsZ.Fs.Files

/-!
# The descriptor table of a task

A slot is in use when its `fid` is not `-1`.  The table grows at its end, is cut at its end when a
file is closed, and unused slots in between are used again.

* `usedAt`, `usedCount`  the descriptor in a slot, and the number of slots in use;
* `OpenOk`, `CloseOk`    what a call may change;
* `closeFrom_clears`     the loop of `SYS_fcloseall` runs over a table that is cut meanwhile;
* `slots_exact`          all calls of a task.
-/

namespace OsZ

/-- the descriptor in slot `j`, if it is in use -/
def usedAt (l : List OpenFile) (j : Nat) : Option OpenFile := l[j]?.filter (fun fd => !fd.unused)

def usedCount (l : List OpenFile) : Nat := l.countP (fun fd => !fd.unused)

/-- the call fails and changes no slot, or it fills slot `i`, which was not in use -/
def OpenOk (tc : TaskFiles) (fid offs : Nat) (r : FileState × TaskFiles × Nat) : Prop :=
  (r.2.2 = minus1 ∧ r.1.errno.isSome ∧ r.2.1 = tc) ∨
    (r.2.2 ≠ minus1 ∧ usedAt tc.openfiles r.2.2 = none ∧
      (∃ mode, usedAt r.2.1.openfiles r.2.2 = some ⟨fid, mode, offs, 0⟩) ∧
      ∀ j ≠ r.2.2, r.2.1.openfiles[j]? = tc.openfiles[j]?)

/-- the call fails and changes no slot, or slot `idx` is not in use any more and the others are as before -/
def CloseOk (tc : TaskFiles) (idx : Nat) (r : FileState × TaskFiles × Bool) : Prop :=
  (r.2.2 = false ∧ r.2.1 = tc) ∨
    (r.2.2 = true ∧ (usedAt tc.openfiles idx).isSome ∧ usedAt r.2.1.openfiles idx = none ∧
      ∀ j ≠ idx, usedAt r.2.1.openfiles j = usedAt tc.openfiles j)

/-- the file control blocks of the open descriptors are live -/
def FcbsLive (s : FileState) (tc : TaskFiles) : Prop :=
  ∀ fd ∈ tc.openfiles, fd.unused = false → (s.fcb fd.fid).abspath.isSome = true

/-- `nfcb` is a `uint64_t`, and the table of the task can be enlarged -/
structure FilesFit (s : FileState) (tc : TaskFiles) : Prop where
  nfcb : s.nfcb < 2^64
  files : tc.openfiles.length < 2^59

section
variable {l : List OpenFile} {i j idx : Nat} {fd : OpenFile}

/-! ## slots -/

theorem usedAt_eq_some : usedAt l j = some fd ↔ l[j]? = some fd ∧ fd.unused = false := by
  unfold usedAt
  rw [Option.filter_eq_some_iff]
  simp

theorem usedAt_eq_none : usedAt l j = none ↔ ∀ fd, l[j]? = some fd → fd.unused = true := by
  unfold usedAt
  rw [Option.filter_eq_none_iff]
  simp

theorem usedAt_of_length_le (h : l.length ≤ j) : usedAt l j = none := by
  rw [usedAt_eq_none, List.getElem?_eq_none h]
  intro fd hfd
  cases hfd

theorem usedAt_congr {l' : List OpenFile} (h : l'[j]? = l[j]?) : usedAt l' j = usedAt l j := by
  unfold usedAt
  rw [h]

theorem usedCount_eq_zero : usedCount l = 0 ↔ ∀ j, usedAt l j = none := by
  unfold usedCount
  rw [List.countP_eq_zero]
  constructor
  · intro h j
    rw [usedAt_eq_none]
    intro fd hfd
    simpa using h fd (List.mem_of_getElem? hfd)
  · intro h fd hfd
    obtain ⟨j, hj⟩ := List.mem_iff_getElem?.mp hfd
    simpa using usedAt_eq_none.mp (h j) fd hj

theorem usedAt_rdropWhile : usedAt (l.rdropWhile OpenFile.unused) j = usedAt l j := by
  have happ := List.rdropWhile_append_rtakeWhile (p := OpenFile.unused) (l := l)
  rcases Nat.lt_or_ge j (l.rdropWhile OpenFile.unused).length with h | h
  · refine usedAt_congr ?_
    have hleft : (l.rdropWhile OpenFile.unused ++ l.rtakeWhile OpenFile.unused)[j]? =
        (l.rdropWhile OpenFile.unused)[j]? := List.getElem?_append_left h
    rw [← hleft, happ]
  · rw [usedAt_of_length_le h, eq_comm, usedAt_eq_none]
    intro fd hfd
    rw [← happ, List.getElem?_append_right h] at hfd
    exact List.mem_rtakeWhile_imp (List.mem_of_getElem? hfd)

theorem usedCount_rdropWhile : usedCount (l.rdropWhile OpenFile.unused) = usedCount l := by
  have happ := congrArg usedCount (List.rdropWhile_append_rtakeWhile (p := OpenFile.unused) (l := l))
  have h0 : usedCount (l.rtakeWhile OpenFile.unused) = 0 := by
    unfold usedCount
    rw [List.countP_eq_zero]
    intro fd hfd
    simpa using List.mem_rtakeWhile_imp hfd
  have hadd : usedCount (l.rdropWhile OpenFile.unused ++ l.rtakeWhile OpenFile.unused) =
      usedCount (l.rdropWhile OpenFile.unused) + usedCount (l.rtakeWhile OpenFile.unused) := List.countP_append
  omega

theorem openSlot_free (l : List OpenFile) (idx : Nat) :
    openSlot l idx ≤ l.length ∧ usedAt l (openSlot l idx) = none := by
  unfold openSlot
  split
  · next h =>
    obtain ⟨fd, hfd, hu⟩ := Option.map_eq_some_iff.mp h.2
    refine ⟨Nat.le_of_lt (List.getElem?_eq_some_iff.mp hfd).1, ?_⟩
    rw [usedAt_eq_none, hfd]
    intro fd' e
    cases e
    exact hu
  · cases hf : l.findIdx? OpenFile.unused with
    | none => exact ⟨le_rfl, usedAt_of_length_le le_rfl⟩
    | some k =>
      obtain ⟨hk, hu, -⟩ := List.findIdx?_eq_some_iff_getElem.mp hf
      refine ⟨Nat.le_of_lt hk, ?_⟩
      rw [Option.getD_some, usedAt_eq_none, List.getElem?_eq_getElem hk]
      intro fd e
      cases e
      exact hu

theorem putFile_self (h : i ≤ l.length) : (putFile l i fd)[i]? = some fd := by
  unfold putFile
  split
  · next hlt => exact List.getElem?_set_self hlt
  · have e : i = l.length := by omega
    rw [e, List.getElem?_concat_length]

theorem putFile_other (h : i ≤ l.length) (hj : j ≠ i) : (putFile l i fd)[j]? = l[j]? := by
  unfold putFile
  split
  · exact List.getElem?_set_ne hj.symm
  · rcases Nat.lt_or_ge j l.length with hlt | hge
    · exact List.getElem?_append_left hlt
    · rw [List.getElem?_eq_none hge, List.getElem?_eq_none]
      rw [List.length_append, List.length_singleton]
      omega

theorem usedCount_set (h : i < l.length) : usedCount (l.set i fd) =
    usedCount l - (if (usedAt l i).isSome then 1 else 0) + (if fd.unused then 0 else 1) := by
  have hi : (usedAt l i).isSome = !(l.get ⟨i, h⟩).unused := by
    unfold usedAt
    rw [List.getElem?_eq_getElem h, Option.filter_some]
    show Option.isSome (if (!(l.get ⟨i, h⟩).unused) = true then _ else _) = _
    split
    · next e => rw [e]; rfl
    · next e => rw [Bool.not_eq_true] at e; rw [e]; rfl
  unfold usedCount
  rw [List.countP_set h, hi]
  congr 1
  cases fd.unused <;> rfl

theorem usedCount_pos (h : (usedAt l i).isSome) : 0 < usedCount l := by
  by_contra h0
  rw [usedCount_eq_zero.mp (Nat.eq_zero_of_not_pos h0) i] at h
  cases h

theorem usedCount_putFile (h : usedAt l i = none) (hfd : fd.unused = false) :
    usedCount (putFile l i fd) = usedCount l + 1 := by
  unfold putFile
  split
  · next hlt =>
    rw [usedCount_set hlt, h, hfd]
    rfl
  · unfold usedCount
    rw [List.countP_append, List.countP_singleton, hfd]
    rfl

theorem usedCount_le : usedCount l ≤ l.length := List.countP_le_length

end

/-! ## one call -/

section
variable {s s' : FileState} {tc tc' : TaskFiles} {fid mode offs idx i fuel : Nat} {dontfree : Bool}
  {r : FileState × TaskFiles × Bool}

theorem taskctxOpen_cases (s : FileState) (tc : TaskFiles) (fid mode offs idx : Nat) :
    (∃ e, openError s fid mode = some e ∧
      taskctxOpen s tc fid mode offs idx = ({ s with errno := some e }, tc, minus1)) ∨
    (openError s fid mode = none ∧ fid < s.nfcb ∧ (s.fcb fid).abspath ≠ none ∧ s.excl fid = false ∧
      ∃ mode', (taskctxOpen s tc fid mode offs idx).2 =
        ({ tc with
            openfiles := putFile tc.openfiles (openSlot tc.openfiles idx) ⟨fid, mode', offs, 0⟩
            nfiles := w64 (tc.nfiles + 1) }, openSlot tc.openfiles idx)) := by
  cases he : openError s fid mode with
  | some e =>
    refine Or.inl ⟨e, rfl, ?_⟩
    unfold taskctxOpen
    rw [he]
  | none =>
    refine Or.inr ⟨rfl, ?_⟩
    have he' := he
    unfold openError at he'
    split at he'
    · cases he'
    · next h1 =>
      obtain ⟨h1, h2⟩ := not_or.mp h1
      split at he'
      · cases he'
      · next h3 =>
        refine ⟨not_le.mp h1, h2, by simpa using h3, openMode (readMode mode), ?_⟩
        unfold taskctxOpen
        rw [he]

theorem taskctxOpen_ok (hf : FilesFit s tc) (fid mode offs idx : Nat) :
    OpenOk tc fid offs (taskctxOpen s tc fid mode offs idx) := by
  rcases taskctxOpen_cases s tc fid mode offs idx with ⟨e, -, h⟩ | ⟨-, hlt, -, -, mode', h⟩
  · rw [h]
    exact Or.inl ⟨rfl, rfl, rfl⟩
  · right
    obtain ⟨hle, hfree⟩ := openSlot_free tc.openfiles idx
    rw [h]
    refine ⟨?_, hfree, ⟨mode', ?_⟩, fun j hj => putFile_other hle hj⟩
    · show openSlot tc.openfiles idx ≠ minus1
      have := hf.files
      unfold minus1
      omega
    · refine usedAt_eq_some.mpr ⟨putFile_self hle, ?_⟩
      have := hf.nfcb
      unfold OpenFile.unused minus1
      exact decide_eq_false (by dsimp only; omega)

theorem taskctxOpen_count (hf : FilesFit s tc) (hc : tc.nfiles = usedCount tc.openfiles) (fid mode offs idx : Nat) :
    (taskctxOpen s tc fid mode offs idx).2.1.nfiles =
      usedCount (taskctxOpen s tc fid mode offs idx).2.1.openfiles := by
  rcases taskctxOpen_cases s tc fid mode offs idx with ⟨e, -, h⟩ | ⟨-, hlt, -, -, mode', h⟩
  · rw [h]
    exact hc
  · obtain ⟨-, hfree⟩ := openSlot_free tc.openfiles idx
    rw [h]
    have hused : (⟨fid, mode', offs, 0⟩ : OpenFile).unused = false := by
      have := hf.nfcb
      unfold OpenFile.unused minus1
      exact decide_eq_false (by dsimp only; omega)
    show w64 (tc.nfiles + 1) = _
    rw [usedCount_putFile hfree hused, hc, w64_of_lt]
    have := usedCount_le (l := tc.openfiles)
    have := hf.files
    omega

theorem closeFlush_openfiles {fd : OpenFile} (h : closeFlush s tc fd = some (s', tc')) :
    tc'.openfiles = tc.openfiles ∧ tc'.nfiles = tc.nfiles := by
  unfold closeFlush at h
  split at h
  · obtain ⟨r, hr, e⟩ := Option.map_eq_some_iff.mp h
    cases e
    exact ⟨(fcbFlush_keeps hr).2, rfl⟩
  · cases h
    exact ⟨rfl, rfl⟩

theorem taskctxValidfid_iff {fs : FsState} {tc : TaskCtx} : taskctxValidfid fs tc idx = true ↔
    ∃ fd, usedAt tc.openfiles idx = some fd ∧ (fs.fcb fd.fid).abspath.isSome = true := by
  unfold taskctxValidfid
  constructor
  · intro h
    split at h
    · cases h
    · next fd hfd =>
      rw [Bool.and_eq_true, decide_eq_true_iff] at h
      exact ⟨fd, usedAt_eq_some.mpr ⟨hfd, decide_eq_false h.1⟩, h.2⟩
  · rintro ⟨fd, hu, hp⟩
    obtain ⟨hfd, hn⟩ := usedAt_eq_some.mp hu
    rw [hfd]
    dsimp only
    rw [Bool.and_eq_true, decide_eq_true_iff]
    exact ⟨of_decide_eq_false hn, hp⟩

theorem taskctxClose_cases (h : taskctxClose fuel s tc idx dontfree = some r) :
    (taskctxValidfid s.toFsState tc.toTaskCtx idx = false ∧ r = (s, tc, false)) ∨
    ∃ fd s1 tc1 s2, usedAt tc.openfiles idx = some fd ∧ (s.fcb fd.fid).abspath.isSome = true ∧
      closeFlush s tc fd = some (s1, tc1) ∧ closeFcb fuel s1 fd = some s2 ∧
      r = (s2, closeSlot tc1 idx fd dontfree, true) := by
  unfold taskctxClose at h
  split at h
  · next hn =>
    cases h
    refine Or.inl ⟨?_, rfl⟩
    unfold taskctxValidfid
    rw [hn]
  · next fd hfd =>
    split at h
    · next hv =>
      cases h
      exact Or.inl ⟨hv, rfl⟩
    · next hv =>
      rw [Bool.not_eq_false] at hv
      obtain ⟨fd', hu, hp⟩ := taskctxValidfid_iff.mp hv
      obtain rfl : fd' = fd := by
        have := (usedAt_eq_some.mp hu).1.symm.trans hfd
        cases this
        rfl
      obtain ⟨⟨s1, tc1⟩, h1, h⟩ := Option.bind_eq_some_iff.mp h
      obtain ⟨s2, h2, rfl⟩ := Option.map_eq_some_iff.mp h
      exact Or.inr ⟨fd', s1, tc1, s2, hu, hp, h1, h2, rfl⟩

theorem usedAt_closeSlot {fd : OpenFile} (j : Nat) : usedAt (closeSlot tc idx fd dontfree).openfiles j =
    if j = idx then none else usedAt tc.openfiles j := by
  have hset : usedAt (tc.openfiles.set idx { fd with fid := minus1 }) j =
      if j = idx then none else usedAt tc.openfiles j := by
    split
    · next e =>
      subst e
      rw [usedAt_eq_none]
      intro fd' hfd'
      rw [List.getElem?_set] at hfd'
      simp only [if_true] at hfd'
      split at hfd'
      · cases hfd'
        exact decide_eq_true rfl
      · cases hfd'
    · next hj => exact usedAt_congr (List.getElem?_set_ne (Ne.symm hj))
  unfold closeSlot
  dsimp only
  split
  · exact hset
  · rw [usedAt_rdropWhile]
    exact hset

theorem taskctxClose_ok (h : taskctxClose fuel s tc idx dontfree = some r) : CloseOk tc idx r := by
  rcases taskctxClose_cases h with ⟨-, rfl⟩ | ⟨fd, s1, tc1, s2, hu, -, h1, -, rfl⟩
  · exact Or.inl ⟨rfl, rfl⟩
  · refine Or.inr ⟨rfl, by rw [hu]; rfl, ?_, fun j hj => ?_⟩
    · show usedAt (closeSlot tc1 idx fd dontfree).openfiles idx = none
      rw [usedAt_closeSlot, if_pos rfl]
    · show usedAt (closeSlot tc1 idx fd dontfree).openfiles j = _
      rw [usedAt_closeSlot, if_neg hj, (closeFlush_openfiles h1).1]

theorem taskctxClose_count (h : taskctxClose fuel s tc idx dontfree = some r)
    (hc : tc.nfiles = usedCount tc.openfiles) (hf : tc.openfiles.length < 2^59) :
    r.2.1.nfiles = usedCount r.2.1.openfiles := by
  rcases taskctxClose_cases h with ⟨-, rfl⟩ | ⟨fd, s1, tc1, s2, hu, -, h1, -, rfl⟩
  · exact hc
  · obtain ⟨e1, e2⟩ := closeFlush_openfiles h1
    have hlt : idx < tc1.openfiles.length := by
      rw [e1]
      exact (List.getElem?_eq_some_iff.mp (usedAt_eq_some.mp hu).1).1
    have hcount : usedCount (closeSlot tc1 idx fd dontfree).openfiles = usedCount tc1.openfiles - 1 := by
      have hset : usedCount (tc1.openfiles.set idx { fd with fid := minus1 }) = usedCount tc1.openfiles - 1 := by
        rw [usedCount_set hlt, e1, hu, if_pos (show (some fd).isSome = true from rfl),
          if_pos (show OpenFile.unused { fd with fid := minus1 } = true from decide_eq_true rfl), Nat.add_zero]
      unfold closeSlot
      dsimp only
      split
      · exact hset
      · rw [usedCount_rdropWhile]
        exact hset
    show sub64 tc1.nfiles 1 = _
    have hpos : 0 < usedCount tc.openfiles := usedCount_pos (i := idx) (by rw [hu]; rfl)
    have hle := usedCount_le (l := tc.openfiles)
    rw [hcount, e2, e1, hc, sub64_of_le (by omega) (by omega)]

theorem taskctxClose_length (h : taskctxClose fuel s tc idx dontfree = some r) :
    r.2.1.openfiles.length ≤ tc.openfiles.length := by
  rcases taskctxClose_cases h with ⟨-, rfl⟩ | ⟨fd, s1, tc1, s2, -, -, h1, -, rfl⟩
  · exact le_rfl
  · rw [← (closeFlush_openfiles h1).1]
    show (closeSlot tc1 idx fd dontfree).openfiles.length ≤ _
    unfold closeSlot
    dsimp only
    split
    · rw [List.length_set]
    · exact (List.rdropWhile_prefix ..).length_le.trans_eq (List.length_set ..)

theorem taskctxClose_live (hl : FcbsLive s tc) (h : taskctxClose fuel s tc idx dontfree = some r) :
    usedAt r.2.1.openfiles idx = none := by
  rcases taskctxClose_ok h with ⟨hr, e⟩ | ⟨-, -, hn, -⟩
  · rcases taskctxClose_cases h with ⟨hv, -⟩ | ⟨fd, s1, tc1, s2, -, -, -, -, rfl⟩
    · rw [e]
      by_contra hne
      obtain ⟨fd, hfd⟩ := Option.ne_none_iff_exists'.mp hne
      obtain ⟨h1, h2⟩ := usedAt_eq_some.mp hfd
      have := taskctxValidfid_iff.mpr ⟨fd, hfd, hl fd (List.mem_of_getElem? h1) h2⟩
      rw [hv] at this
      cases this
    · cases hr
  · exact hn

/-! ## `SYS_fcloseall` -/

theorem closeFrom_succ {n j : Nat} (hj : j < tc.openfiles.length) (h1 : taskctxClose fuel s tc j false = some r) :
    closeFrom fuel (n + 1) j s tc = closeFrom fuel n (j + 1) r.1 r.2.1 := by
  rw [closeFrom, if_neg (by omega), h1]
  rfl

theorem closeFrom_count {n j : Nat} {x : FileState × TaskFiles} (h : closeFrom fuel n j s tc = some x)
    (hc : tc.nfiles = usedCount tc.openfiles) (hf : tc.openfiles.length < 2^59) :
    x.2.nfiles = usedCount x.2.openfiles ∧ x.2.openfiles.length ≤ tc.openfiles.length := by
  induction n generalizing j s tc with
  | zero =>
    cases h
    exact ⟨hc, le_rfl⟩
  | succ n ih =>
    unfold closeFrom at h
    split at h
    · cases h
      exact ⟨hc, le_rfl⟩
    · obtain ⟨r, h1, h⟩ := Option.bind_eq_some_iff.mp h
      have hlen := taskctxClose_length h1
      obtain ⟨i1, i2⟩ := ih h (taskctxClose_count h1 hc hf) (by omega)
      exact ⟨i1, i2.trans hlen⟩

theorem closeFrom_clears {n j : Nat} {x : FileState × TaskFiles} (h : closeFrom fuel n j s tc = some x)
    (hn : tc.openfiles.length ≤ j + n) (hdone : ∀ i < j, usedAt tc.openfiles i = none)
    (hlive : ∀ k y, closeFrom fuel k j s tc = some y → FcbsLive y.1 y.2) : ∀ i, usedAt x.2.openfiles i = none := by
  induction n generalizing j s tc with
  | zero =>
    cases h
    intro i
    show usedAt tc.openfiles i = none
    rcases Nat.lt_or_ge i j with hi | hi
    · exact hdone i hi
    · exact usedAt_of_length_le (by omega)
  | succ n ih =>
    rcases Nat.lt_or_ge j tc.openfiles.length with hj | hj
    · have h' := h
      unfold closeFrom at h'
      rw [if_neg (by omega)] at h'
      obtain ⟨r, h1, h'⟩ := Option.bind_eq_some_iff.mp h'
      have hlen := taskctxClose_length h1
      refine ih h' (by omega) (fun i hi => ?_) (fun k y hy => ?_)
      · rcases Nat.lt_or_ge i j with hij | hij
        · rcases taskctxClose_ok h1 with ⟨-, e⟩ | ⟨-, -, -, hother⟩
          · rw [e]
            exact hdone i hij
          · rw [hother i (by omega)]
            exact hdone i hij
        · obtain rfl : i = j := by omega
          exact taskctxClose_live (hlive 0 (s, tc) rfl) h1
      · refine hlive (k + 1) y ?_
        rw [closeFrom_succ hj h1]
        exact hy
    · unfold closeFrom at h
      rw [if_pos hj] at h
      cases h
      intro i
      show usedAt tc.openfiles i = none
      rcases Nat.lt_or_ge i j with hi | hi
      · exact hdone i hi
      · exact usedAt_of_length_le (by omega)

/-! ## all calls return -/

/-- no unions, and nothing to be written -/
def Plain (s : FileState) : Prop := ∀ i, (s.fcb i).type ≠ .union ∧ (s.fcb i).buf = []

theorem Plain.of_fcb (h : Plain s) (e : s'.fcb = s.fcb) : Plain s' := by
  intro i
  rw [e]
  exact h i

theorem Plain.dropFcb (h : Plain s) (idx : Nat) : Plain (s.dropFcb idx) := by
  intro i
  show (Function.update s.fcb idx _ i).type ≠ _ ∧ (Function.update s.fcb idx _ i).buf = []
  rcases eq_or_ne i idx with rfl | hi
  · rw [Function.update_self]
    exact h i
  · rw [Function.update_of_ne hi]
    exact h i

theorem fcbDel_plain (h : Plain s) (n idx : Nat) : ∃ t, fcbDel (n + 1) s idx = some t ∧ Plain t := by
  unfold fcbDel
  split
  · exact ⟨s, rfl, h⟩
  · have hm : (s.fcb idx).members = [] := if_neg (h idx).1
    dsimp only
    rw [hm]
    split
    · refine ⟨_, rfl, ?_⟩
      apply Plain.dropFcb
      exact h.of_fcb rfl
    · exact ⟨_, rfl, h.of_fcb rfl⟩

theorem fcbFlush_nil {fs : FcbState} (tc : TaskCtx) (hb : (fs.fcb idx).buf = []) :
    ∃ x, fcbFlush fs tc idx = some x ∧ x.1.fcb = fs.fcb := by
  unfold fcbFlush
  split
  · exact ⟨_, rfl, rfl⟩
  · split
    · dsimp only
      split
      · exact ⟨_, rfl, rfl⟩
      · exact ⟨_, flushLoop_nil _ hb, rfl⟩
    · exact ⟨_, flushLoop_nil _ hb, rfl⟩

theorem closeFlush_plain (h : Plain s) (tc : TaskFiles) (fd : OpenFile) :
    ∃ x, closeFlush s tc fd = some x ∧ x.1.fcb = s.fcb := by
  unfold closeFlush
  split
  · obtain ⟨x, hx, e⟩ := fcbFlush_nil tc.toTaskCtx (h fd.fid).2
    exact ⟨_, by rw [hx]; rfl, e⟩
  · exact ⟨_, rfl, rfl⟩

theorem taskctxClose_plain (h : Plain s) (n : Nat) (tc : TaskFiles) (idx : Nat) (dontfree : Bool) :
    ∃ r, taskctxClose (n + 1) s tc idx dontfree = some r ∧ Plain r.1 := by
  unfold taskctxClose
  split
  · exact ⟨_, rfl, h⟩
  · next fd hfd =>
    split
    · exact ⟨_, rfl, h⟩
    · obtain ⟨⟨s1, tc1⟩, h1, e1⟩ := closeFlush_plain h tc fd
      have hp : Plain s1 := h.of_fcb e1
      rw [h1, Option.bind_some]
      unfold closeFcb
      split
      · exact ⟨_, rfl, hp⟩
      · have hp' : Plain { s1 with excl := Function.update s1.excl fd.fid false } := hp.of_fcb rfl
        obtain ⟨s2, h2, hp2⟩ := fcbDel_plain hp' n fd.fid
        exact ⟨_, by rw [h2]; rfl, hp2⟩

theorem closeFrom_plain (h : Plain s) (m n j : Nat) (tc : TaskFiles) : ∃ x, closeFrom (m + 1) n j s tc = some x := by
  induction n generalizing j s tc with
  | zero => exact ⟨_, rfl⟩
  | succ n ih =>
    unfold closeFrom
    split
    · exact ⟨_, rfl⟩
    · obtain ⟨r, hr, hp⟩ := taskctxClose_plain h m tc j false
      rw [hr, Option.bind_some]
      exact ih hp (j + 1) r.2.1

/-! ## `SYS_dup` and `SYS_dup2` -/

/-- a failed call changes nothing, or a descriptor is opened with the fields of `idx` -/
def DupOk (tc : TaskFiles) (idx : Nat) (r : FileState × TaskFiles × Nat) : Prop :=
  (r.2.2 = minus1 ∧ r.1.errno.isSome ∧ r.2.1 = tc) ∨
    ∃ fd, usedAt tc.openfiles idx = some fd ∧ OpenOk tc fd.fid fd.offs r

/-- between the two parts of `SYS_dup2`, slot `i` may have been closed -/
def Dup2Ok (tc : TaskFiles) (i : Nat) (r : FileState × TaskFiles × Nat) : Prop :=
  (r.2.2 = minus1 ∧ r.1.errno.isSome ∧ r.2.1 = tc) ∨
    ∃ s1 tc1 b, (CloseOk tc i (s1, tc1, b) ∨ tc1 = tc) ∧ tc1.nfiles = usedCount tc1.openfiles ∧
      ∃ fid offs, OpenOk tc1 fid offs r

theorem sysDup_ok (hf : FilesFit s tc) (idx : Nat) : DupOk tc idx (sysDup s tc idx) := by
  unfold sysDup
  split
  · exact Or.inl ⟨rfl, rfl, rfl⟩
  · next hv =>
    rw [Bool.not_eq_false] at hv
    obtain ⟨fd, hu, -⟩ := taskctxValidfid_iff.mp hv
    refine Or.inr ⟨fd, hu, ?_⟩
    have hget : tc.openfiles.getD idx ⟨minus1, 0, 0, 0⟩ = fd := by
      rw [List.getD_eq_getElem?_getD, (usedAt_eq_some.mp hu).1, Option.getD_some]
    unfold reopen
    rw [hget]
    exact taskctxOpen_ok hf ..

theorem sysDup_count (hf : FilesFit s tc) (hc : tc.nfiles = usedCount tc.openfiles) (idx : Nat) :
    (sysDup s tc idx).2.1.nfiles = usedCount (sysDup s tc idx).2.1.openfiles := by
  unfold sysDup
  split
  · exact hc
  · exact taskctxOpen_count hf hc ..

theorem taskctxClose_fits (hf : FilesFit s tc) (h : taskctxClose fuel s tc idx dontfree = some r) :
    FilesFit r.1 r.2.1 := by
  refine ⟨?_, (taskctxClose_length h).trans_lt hf.files⟩
  rcases taskctxClose_cases h with ⟨-, rfl⟩ | ⟨fd, s1, tc1, s2, -, -, h1, h2, rfl⟩
  · exact hf.nfcb
  · have e1 : s1.nfcb = s.nfcb := by
      unfold closeFlush at h1
      split at h1
      · obtain ⟨x, hx, e⟩ := Option.map_eq_some_iff.mp h1
        cases e
        exact (fcbFlush_keeps hx).1.nfcb
      · cases h1
        rfl
    have e2 : s2.nfcb ≤ s1.nfcb := by
      unfold closeFcb at h2
      split at h2
      · cases h2
        exact le_rfl
      · exact (fcbDel_drops h2).nfcb
    have := hf.nfcb
    show s2.nfcb < 2^64
    omega

theorem sysDup2_cases {i : Nat} {x : FileState × TaskFiles × Nat} (h : sysDup2 fuel s tc idx i = some x) :
    x = s.fail tc .EBADF ∨ x = reopen s tc idx i ∨
      ∃ r, taskctxClose fuel s tc i true = some r ∧ x = reopen r.1 r.2.1 idx i := by
  unfold sysDup2 at h
  split at h
  · exact Or.inl (Option.some.inj h).symm
  · split at h
    · obtain ⟨r, hr, rfl⟩ := Option.map_eq_some_iff.mp h
      exact Or.inr (Or.inr ⟨r, hr, rfl⟩)
    · exact Or.inr (Or.inl (Option.some.inj h).symm)

theorem sysDup2_ok (hf : FilesFit s tc) (hc : tc.nfiles = usedCount tc.openfiles) {i : Nat}
    {x : FileState × TaskFiles × Nat} (h : sysDup2 fuel s tc idx i = some x) : Dup2Ok tc i x := by
  rcases sysDup2_cases h with rfl | rfl | ⟨r, hr, rfl⟩
  · exact Or.inl ⟨rfl, rfl, rfl⟩
  · exact Or.inr ⟨s, tc, false, Or.inr rfl, hc, _, _, taskctxOpen_ok hf ..⟩
  · exact Or.inr ⟨r.1, r.2.1, r.2.2, Or.inl (taskctxClose_ok hr), taskctxClose_count hr hc hf.files,
      _, _, taskctxOpen_ok (taskctxClose_fits hf hr) ..⟩

theorem sysDup2_count (hf : FilesFit s tc) (hc : tc.nfiles = usedCount tc.openfiles) {i : Nat}
    {x : FileState × TaskFiles × Nat} (h : sysDup2 fuel s tc idx i = some x) :
    x.2.1.nfiles = usedCount x.2.1.openfiles := by
  rcases sysDup2_cases h with rfl | rfl | ⟨r, hr, rfl⟩
  · exact hc
  · exact taskctxOpen_count hf hc ..
  · exact taskctxOpen_count (taskctxClose_fits hf hr) (taskctxClose_count hr hc hf.files) ..

end

/-! ## runs -/

inductive FileCall
  | open (fid mode offs idx : Nat)
  | close (idx : Nat) (dontfree : Bool)
  | dup (idx : Nat)
  | dup2 (idx i : Nat)
  | fcloseall

def FileCall.run (fuel : Nat) (s : FileState) (tc : TaskFiles) : FileCall → Option (FileState × TaskFiles)
  | .open fid mode offs idx =>
    let r := taskctxOpen s tc fid mode offs idx
    some (r.1, r.2.1)
  | .close idx dontfree => (taskctxClose fuel s tc idx dontfree).map (fun r => (r.1, r.2.1))
  | .dup idx =>
    let r := sysDup s tc idx
    some (r.1, r.2.1)
  | .dup2 idx i => (sysDup2 fuel s tc idx i).map (fun r => (r.1, r.2.1))
  | .fcloseall => sysFcloseall fuel s tc

inductive FileOp
  | call (c : FileCall)
  | other

/-- a call of the task, or anything the other tasks do to the file control blocks -/
inductive FileStep : FileState × TaskFiles → FileOp → FileState × TaskFiles → Prop
  | call {s tc x} {c : FileCall} (fuel : Nat) : c.run fuel s tc = some x → FileStep (s, tc) (.call c) x
  | other {s tc} (s' : FileState) : FileStep (s, tc) .other (s', tc)

/-- the file control blocks of open descriptors are not deleted by the closes of `SYS_fcloseall` -/
def StaysLive (fuel : Nat) (s : FileState) (tc : TaskFiles) : Prop :=
  ∀ k y, closeFrom fuel k 0 s tc = some y → FcbsLive y.1 y.2

/-- what the calls may do from a state -/
structure SlotsOk (s : FileState) (tc : TaskFiles) : Prop where
  count : tc.nfiles = usedCount tc.openfiles
  opens : ∀ fid mode offs idx, OpenOk tc fid offs (taskctxOpen s tc fid mode offs idx)
  closes : ∀ fuel idx dontfree r, taskctxClose fuel s tc idx dontfree = some r → CloseOk tc idx r
  dup : ∀ idx, DupOk tc idx (sysDup s tc idx)
  dup2 : ∀ fuel idx i r, sysDup2 fuel s tc idx i = some r → Dup2Ok tc i r
  /-- after each close of `SYS_fcloseall` -/
  rounds : ∀ fuel k y, closeFrom fuel k 0 s tc = some y → y.2.nfiles = usedCount y.2.openfiles
  closed : ∀ fuel y, StaysLive fuel s tc → closeAll fuel s tc = some y → ∀ i, usedAt y.2.openfiles i = none
  fcloseall : ∀ fuel y, StaysLive fuel s tc → sysFcloseall fuel s tc = some y → ∀ i, usedAt y.2.openfiles i = none
  returns : Plain s → ∀ n, ∃ y, closeAll (n + 1) s tc = some y

section
variable {s : FileState} {tc : TaskFiles} {fuel : Nat} {x y : FileState × TaskFiles}

theorem sysFcloseall_cases (h : sysFcloseall fuel s tc = some x) : ∃ s', closeAll fuel s tc = some (s', x.2) := by
  unfold sysFcloseall at h
  obtain ⟨r, hr, h⟩ := Option.bind_eq_some_iff.mp h
  obtain ⟨s', -, rfl⟩ := Option.map_eq_some_iff.mp h
  exact ⟨r.1, hr⟩

theorem closeAll_clears (hl : StaysLive fuel s tc) (h : closeAll fuel s tc = some x) :
    ∀ i, usedAt x.2.openfiles i = none :=
  closeFrom_clears h (by omega) (fun i hi => absurd hi (Nat.not_lt_zero i)) hl

theorem FileCall.run_count {c : FileCall} (hf : FilesFit s tc) (hc : tc.nfiles = usedCount tc.openfiles)
    (h : c.run fuel s tc = some x) : x.2.nfiles = usedCount x.2.openfiles := by
  cases c with
  | «open» fid mode offs idx =>
    cases h
    exact taskctxOpen_count hf hc fid mode offs idx
  | close idx dontfree =>
    obtain ⟨r, hr, rfl⟩ := Option.map_eq_some_iff.mp h
    exact taskctxClose_count hr hc hf.files
  | dup idx =>
    cases h
    exact sysDup_count hf hc idx
  | dup2 idx i =>
    obtain ⟨r, hr, rfl⟩ := Option.map_eq_some_iff.mp h
    exact sysDup2_count hf hc hr
  | fcloseall =>
    obtain ⟨s', hs'⟩ := sysFcloseall_cases h
    exact (closeFrom_count hs' hc hf.files).1

theorem FileStep.count {op : FileOp} (h : FileStep x op y) (hf : FilesFit x.1 x.2)
    (hc : x.2.nfiles = usedCount x.2.openfiles) : y.2.nfiles = usedCount y.2.openfiles := by
  cases h with
  | call fuel hr => exact FileCall.run_count hf hc hr
  | other s' => exact hc

theorem SlotsOk.of_count (hf : FilesFit s tc) (hc : tc.nfiles = usedCount tc.openfiles) : SlotsOk s tc where
  count := hc
  opens := taskctxOpen_ok hf
  closes _ _ _ _ h := taskctxClose_ok h
  dup := sysDup_ok hf
  dup2 _ _ _ _ h := sysDup2_ok hf hc h
  rounds _ _ _ h := (closeFrom_count h hc hf.files).1
  closed _ _ hl h := closeAll_clears hl h
  fcloseall _ _ hl h := by
    obtain ⟨s', hs'⟩ := sysFcloseall_cases h
    exact closeAll_clears (x := (s', _)) hl hs'
  returns hp n := closeFrom_plain hp n tc.openfiles.length 0 tc

theorem slots_exact {s₀ : FileState} {tc₀ : TaskFiles} (hnew : tc₀.openfiles = [] ∧ tc₀.nfiles = 0)
    (hr : Reach FileStep (fun x _ => FilesFit x.1 x.2) (s₀, tc₀) (s, tc)) (hf : FilesFit s tc) : SlotsOk s tc := by
  refine SlotsOk.of_count hf ?_
  have h0 : tc₀.nfiles = usedCount tc₀.openfiles := by
    rw [hnew.1, hnew.2]
    rfl
  exact hr.keeps (I := fun x => x.2.nfiles = usedCount x.2.openfiles) h0 (fun _ _ _ hx hf hs => hs.count hf hx)

end

/-- two files, and a task without open files -/
def demoFiles : FileState where
  toVfsState := { toFcbState := { demoFile [] none with nfcb := 2 }, filesize := fun _ => 0 }
  nopen := fun _ => 1
  excl := fun _ => false
  nfiles := 2
  tableAt := fun _ => 0

def demoTask : TaskFiles := ⟨⟨0, minus1, []⟩, 0⟩

theorem slots_exact_demo : ∃ s tc, Reach FileStep (fun x _ => FilesFit x.1 x.2) (demoFiles, demoTask) (s, tc) ∧
    tc.nfiles = 1 ∧ SlotsOk s tc := by
  have hf : FilesFit demoFiles demoTask := ⟨by decide, by decide⟩
  have hr : Reach FileStep (fun x _ => FilesFit x.1 x.2) (demoFiles, demoTask) _ :=
    Reach.refl.tail hf (FileStep.call (c := .open 1 3 0 minus1) 0 rfl)
  exact ⟨_, _, hr, rfl, slots_exact ⟨rfl, rfl⟩ hr ⟨by decide, by decide⟩⟩

end OsZ
