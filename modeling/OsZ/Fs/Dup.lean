import OsZ.Fs.Release
import OsZ.Fs.Exclusive

/-!
# Copying a descriptor to a given slot (`SYS_dup2` in `fs/main.c`)

`SYS_dup2(a,b)` closes `b` if it is in use, and then opens the file of `a` with the slot `b` as a wish.

* `Dup2Law`       `b` becomes a copy of `a` and nothing else changes, or no descriptor changes;
* `Dup2Cond`      when this is so, in terms of the files and descriptors before the request;
* `dup2_law_iff`  that it is, and that it is not in other cases, unless closing `b` deletes a union or
                  writes out several buffers or parts of blocks.
-/

namespace OsZ

/-- `fd'` is on the same file as `fd`, with its mode and offset -/
def OpenFile.Copies (fd fd' : OpenFile) : Prop := fd'.fid = fd.fid ∧ fd'.mode = fd.mode ∧ fd'.offs = fd.offs

/-- the request is acknowledged with `b`, a copy of `fd` -/
def DupDone (tc : TaskFiles) (fd : OpenFile) (b : Nat) (r : FileState × TaskFiles × Nat) : Prop :=
  r.1.errno = none ∧ r.2.2 = b ∧ (∃ fd', usedAt r.2.1.openfiles b = some fd' ∧ fd.Copies fd') ∧
    ∀ j ≠ b, usedAt r.2.1.openfiles j = usedAt tc.openfiles j

def DupRefused (tc : TaskFiles) (r : FileState × TaskFiles × Nat) : Prop :=
  r.1.errno ≠ none ∧ ∀ j, usedAt r.2.1.openfiles j = usedAt tc.openfiles j

/-- the request is answered, in one of the two ways -/
def Dup2Law (s : FileState) (tc : TaskFiles) (a b : Nat) (fd : OpenFile) : Prop :=
  ∃ fuel r, sysDup2 fuel s tc a b = some r ∧ r.1.ackdelayed = false ∧ (DupDone tc fd b r ∨ DupRefused tc r)

/-- what `taskctx_open` stores -/
def OpenFile.reopened (fd : OpenFile) : OpenFile := ⟨fd.fid, openMode (readMode fd.mode), fd.offs, 0⟩

/-- `taskctx_open` leaves the mode as it is -/
def Settled (mode : Nat) : Prop := openMode (readMode mode) = mode

/-- a temporary file is closed without giving its reference back -/
def kept (s : FileState) (fd : OpenFile) : Bool := oTmpfile fd.mode && (s.fcb fd.fid).mode != 1

/-- the error of `fcb_flush` when a descriptor that is opened for writing is closed -/
def closeError (s : FileState) (tc : TaskFiles) (fd : OpenFile) : Option Errno :=
  if oWrite fd.mode = false then none
  else if fd.fid = minus1 ∨ s.nfcb ≤ fd.fid then some .EFAULT
  else if tc.workleft = minus1 then
    flushCheck s.toFcbState (s.fcb fd.fid) (s.fcb (s.fcb fd.fid).storage).blksize
  else none

/-- the close deletes no union -/
def LoneClose (s : FileState) (fd : OpenFile) : Prop :=
  (s.fcb fd.fid).type ≠ .union ∨ 2 ≤ s.nopen fd.fid ∨ kept s fd = true

/-- moreover there is nothing to be written out, or one buffer of whole blocks -/
structure ClosesPlain (s : FileState) (fd : OpenFile) : Prop where
  lone : LoneClose s fd
  bufs : oWrite fd.mode = true → (s.fcb fd.fid).buf = [] ∨ ∃ w, (s.fcb fd.fid).buf = [w] ∧
    w.offs % (s.fcb (s.fcb fd.fid).storage).blksize = 0 ∧ w.size % (s.fcb (s.fcb fd.fid).storage).blksize = 0 ∧
    (s.writer (s.fcb fd.fid).fs).isSome = true

/-- `taskctx_open` does not refuse the file of `fda` when `fdb` is closed: if it is the file of `fdb`,
its exclusive flag is cleared, but another reference is needed -/
def Reopens (s : FileState) (fda fdb : OpenFile) : Prop :=
  s.Live fda.fid ∧ modeDenied (s.fcb fda.fid).mode (readMode fda.mode) = false ∧
    if fda.fid = fdb.fid ∧ kept s fdb = false then 2 ≤ s.nopen fdb.fid else s.excl fda.fid = false

/-- an error of the flush makes the request fail, and then `fdb` must have been the copy already -/
def Replaces (s : FileState) (tc : TaskFiles) (fda fdb : OpenFile) : Prop :=
  Reopens s fda fdb ∧ if closeError s tc fdb = none then Settled fda.mode else fdb = fda.reopened

/-- `b` is not in use and is the slot that is taken, or it is in use and can be replaced; a request that
is refused before anything is closed is fine as well -/
def Dup2Cond (s : FileState) (tc : TaskFiles) (a b : Nat) (fda : OpenFile) : Prop :=
  (usedAt tc.openfiles b = none ∧
    (openError s fda.fid fda.mode ≠ none ∨ (openSlot tc.openfiles b = b ∧ Settled fda.mode))) ∨
  ∃ fdb, usedAt tc.openfiles b = some fdb ∧
    (((s.fcb fdb.fid).abspath = none ∧ openError s fda.fid fda.mode ≠ none) ∨
      ((s.fcb fdb.fid).abspath.isSome = true ∧ a ≠ b ∧ ClosesPlain s fdb ∧ Replaces s tc fda fdb))

/-- a request with a valid `a`, when memory is not short -/
structure DupReq (s : FileState) (tc : TaskFiles) (a : Nat) (fda : OpenFile) : Prop where
  fit : FilesFit s tc
  errno : s.errno = none
  now : s.ackdelayed = false
  source : usedAt tc.openfiles a = some fda
  live : (s.fcb fda.fid).abspath.isSome = true

section
variable {s s' : FileState} {tc : TaskFiles} {a b fuel idx : Nat} {fda fdb : OpenFile}

/-! ## what the parts do -/

theorem fcbDel_errno (h : fcbDel fuel s idx = some s') : s'.errno = s.errno ∧ s'.ackdelayed = s.ackdelayed := by
  induction fuel generalizing s s' idx with
  | zero => cases h
  | succ n ih =>
    unfold fcbDel at h
    split at h
    · cases h
      exact ⟨rfl, rfl⟩
    · dsimp only at h
      split at h
      · obtain ⟨t, ht, rfl⟩ := Option.map_eq_some_iff.mp h
        have hmem : t.errno = s.errno ∧ t.ackdelayed = s.ackdelayed := by
          have h0 : ({ s with nopen := Function.update s.nopen idx (s.nopen idx - 1) } : FileState).errno = s.errno ∧
            ({ s with nopen := Function.update s.nopen idx (s.nopen idx - 1) } : FileState).ackdelayed =
              s.ackdelayed := ⟨rfl, rfl⟩
          refine foldlM_keeps (I := fun u : FileState => u.errno = s.errno ∧ u.ackdelayed = s.ackdelayed)
            (fun u hu m _ u' hu' => ?_) h0 ht
          split at hu'
          · have hin := ih (Option.filter_eq_some_iff.mp hu').1
            exact ⟨hin.1.trans hu.1, hin.2.trans hu.2⟩
          · cases hu'
            exact hu
        exact hmem
      · cases h
        exact ⟨rfl, rfl⟩

theorem closeFcb_errno (h : closeFcb fuel s fdb = some s') : s'.errno = s.errno ∧ s'.ackdelayed = s.ackdelayed := by
  unfold closeFcb at h
  split at h
  · cases h
    exact ⟨rfl, rfl⟩
  · exact ⟨(fcbDel_errno h).1, (fcbDel_errno h).2⟩

theorem openError_unused (hn : s.nfcb < 2^64) (mode : Nat) : openError s minus1 mode = some .ENOENT := by
  unfold openError
  rw [if_pos (Or.inl (by unfold minus1; omega))]

theorem usedAt_putFile {l : List OpenFile} {i : Nat} {fd : OpenFile} (hi : i ≤ l.length) (hu : fd.unused = false)
    (j : Nat) : usedAt (putFile l i fd) j = if j = i then some fd else usedAt l j := by
  split
  · next e =>
    subst e
    exact usedAt_eq_some.mpr ⟨putFile_self hi, hu⟩
  · next e => exact usedAt_congr (putFile_other hi e)

theorem reopen_eq (h : usedAt tc.openfiles a = some fda) :
    reopen s tc a b = taskctxOpen s tc fda.fid fda.mode fda.offs b := by
  unfold reopen
  rw [List.getD_eq_getElem?_getD, (usedAt_eq_some.mp h).1, Option.getD_some]

theorem reopen_refused {e : Errno} (h : usedAt tc.openfiles a = some fda)
    (he : openError s fda.fid fda.mode = some e) : reopen s tc a b = ({ s with errno := some e }, tc, minus1) := by
  rw [reopen_eq h]
  unfold taskctxOpen
  rw [he]

theorem reopen_done (hn : s.nfcb < 2^64) (h : usedAt tc.openfiles a = some fda)
    (he : openError s fda.fid fda.mode = none) :
    (reopen s tc a b).1.errno = s.errno ∧ (reopen s tc a b).1.ackdelayed = s.ackdelayed ∧
    (reopen s tc a b).2.2 = openSlot tc.openfiles b ∧
    ∀ j, usedAt (reopen s tc a b).2.1.openfiles j = if j = openSlot tc.openfiles b
      then some fda.reopened else usedAt tc.openfiles j := by
  rw [reopen_eq h, taskctxOpen_of_none he]
  refine ⟨rfl, rfl, rfl, usedAt_putFile (openSlot_free tc.openfiles b).1 ?_⟩
  have hlt := (openError_none he).1
  unfold OpenFile.unused minus1
  exact decide_eq_false (by dsimp only; omega)

theorem used_iff {l : List OpenFile} : l[b]?.map OpenFile.unused = some false ↔ ∃ fd, usedAt l b = some fd := by
  rw [Option.map_eq_some_iff]
  exact ⟨fun ⟨fd, h⟩ => ⟨fd, usedAt_eq_some.mpr h⟩, fun ⟨fd, h⟩ => ⟨fd, usedAt_eq_some.mp h⟩⟩

theorem sysDup2_eq (ha : usedAt tc.openfiles a = some fda) (hl : (s.fcb fda.fid).abspath.isSome = true) :
    sysDup2 fuel s tc a b = if (usedAt tc.openfiles b).isSome then
      (taskctxClose fuel s tc b true).map (fun r => reopen r.1 r.2.1 a b) else some (reopen s tc a b) := by
  have hv : taskctxValidfid s.toFsState tc.toTaskCtx a = true := taskctxValidfid_iff.mpr ⟨fda, ha, hl⟩
  unfold sysDup2
  rw [if_neg (by rw [hv]; decide)]
  cases hb : usedAt tc.openfiles b with
  | none =>
    rw [if_neg (fun hx => by obtain ⟨fd, hfd⟩ := used_iff.mp hx; rw [hb] at hfd; cases hfd)]
    rfl
  | some fd =>
    rw [if_pos (used_iff.mpr ⟨fd, hb⟩)]
    rfl

theorem close_live (hb : usedAt tc.openfiles b = some fdb) (hl : (s.fcb fdb.fid).abspath.isSome = true) :
    taskctxClose fuel s tc b true = (closeFlush s tc fdb).bind (fun r =>
      (closeFcb fuel r.1 fdb).map (fun s' => (s', closeSlot r.2 b fdb true, true))) := by
  have hv : taskctxValidfid s.toFsState tc.toTaskCtx b = true := taskctxValidfid_iff.mpr ⟨fdb, hb, hl⟩
  unfold taskctxClose
  rw [(usedAt_eq_some.mp hb).1]
  dsimp only
  rw [if_neg (by rw [hv]; decide)]

theorem close_dead (hb : usedAt tc.openfiles b = some fdb) (hl : (s.fcb fdb.fid).abspath = none) :
    taskctxClose fuel s tc b true = some (s, tc, false) := by
  have hv : taskctxValidfid s.toFsState tc.toTaskCtx b = false := by
    rw [← Bool.not_eq_true, taskctxValidfid_iff]
    rintro ⟨fd, hfd, hs⟩
    obtain rfl : fd = fdb := Option.some.inj (hfd.symm.trans hb)
    rw [hl] at hs
    cases hs
  unfold taskctxClose
  rw [(usedAt_eq_some.mp hb).1]
  dsimp only
  rw [if_pos hv]

theorem openSlot_closed (fd : OpenFile) (hlt : b < tc.openfiles.length) (hb : b ≠ minus1) :
    openSlot (closeSlot tc b fd true).openfiles b = b := by
  have hg : (closeSlot tc b fd true).openfiles[b]? = some { fd with fid := minus1 } := List.getElem?_set_self hlt
  unfold openSlot
  exact if_pos ⟨hb, by rw [hg]; rfl⟩

/-! ## the course of a plain close -/

theorem flushLoop_now (fs : FcbState) (ctx : TaskCtx) (h : (fs.fcb idx).buf = [] ∨ ∃ w, (fs.fcb idx).buf = [w] ∧
      w.offs % (fs.fcb (fs.fcb idx).storage).blksize = 0 ∧ w.size % (fs.fcb (fs.fcb idx).storage).blksize = 0 ∧
      (fs.writer (fs.fcb idx).fs).isSome = true) :
    ∃ x, flushLoop fs ctx idx = some x ∧ x.1.errno = fs.errno ∧ x.1.ackdelayed = fs.ackdelayed := by
  rcases h with h0 | ⟨w, h0, ho, hs, hw⟩
  · exact ⟨_, flushLoop_nil ctx h0, rfl, rfl⟩
  · obtain ⟨write, hwrite⟩ := Option.isSome_iff_exists.mp hw
    rw [flushLoop_cons ctx h0]
    unfold flushBuf flushTail
    rw [if_pos ho]
    dsimp only
    rw [if_pos hs, hwrite]
    dsimp only
    by_cases hx : write fs.calls (fs.fcb idx).storage (fs.fcb idx).inode w.offs w.data w.size = true
    · rw [if_pos hx]
      exact ⟨_, rfl, rfl, rfl⟩
    · rw [if_neg hx]
      exact ⟨_, rfl, rfl, rfl⟩

/-- the flush of a plain close leaves the error and does not wait -/
theorem closeFlush_now (tc : TaskFiles) (h : ClosesPlain s fdb) (he : s.errno = none) : ∃ x, closeFlush s tc fdb =
    some x ∧
    x.1.errno = closeError s tc fdb ∧ x.1.ackdelayed = s.ackdelayed := by
  unfold closeFlush closeError
  cases hw : oWrite fdb.mode with
  | false =>
    rw [if_neg (by decide), if_pos rfl]
    exact ⟨_, rfl, he, rfl⟩
  | true =>
    rw [if_pos rfl, if_neg (by decide)]
    have hb := h.bufs hw
    unfold fcbFlush
    split
    · exact ⟨_, rfl, rfl, rfl⟩
    · split
      · dsimp only
        split
        · next e hc => exact ⟨_, rfl, hc.symm, rfl⟩
        · next hc =>
          rw [hc]
          obtain ⟨x, hx, h1, h2⟩ := flushLoop_now { s.toFcbState with drvlog := s.drvlog ++
            if (s.transact (s.fcb fdb.fid).fs).1 then [.writetrb] else [] } { tc.toTaskCtx with workleft := 0 } hb
          exact ⟨_, by rw [hx]; rfl, h1.trans he, h2⟩
      · obtain ⟨x, hx, h1, h2⟩ := flushLoop_now s.toFcbState tc.toTaskCtx hb
        exact ⟨_, by rw [hx]; rfl, h1.trans he, h2⟩

theorem openError_iff (fid mode : Nat) : openError s fid mode = none ↔ s.Live fid ∧ s.excl fid = false ∧
    modeDenied (s.fcb fid).mode (readMode mode) = false := by
  unfold openError FileState.Live
  by_cases h1 : s.nfcb ≤ fid ∨ (s.fcb fid).abspath = none
  · rw [if_pos h1]
    refine ⟨fun hx => absurd hx (by simp), fun hx => ?_⟩
    rcases h1 with h1 | h1
    · exact absurd hx.1.1 (by omega)
    · rw [h1] at hx
      exact absurd hx.1.2 (by decide)
  · rw [if_neg h1]
    rw [not_or, ← Ne, ← Option.isSome_iff_ne_none] at h1
    cases s.excl fid <;> cases modeDenied (s.fcb fid).mode (readMode mode) <;> simp [h1.2, Nat.lt_of_not_le h1.1]

/-- whether `taskctx_open` refuses when the reference is given back -/
theorem closeFcb_reopens (hu : LoneClose s fdb) (h : closeFcb fuel s fdb = some s') :
    openError s' fda.fid fda.mode = none ↔ Reopens s fda fdb := by
  have hkept : kept s fdb = true ↔ oTmpfile fdb.mode = true ∧ (s.fcb fdb.fid).mode ≠ 1 := by
    simp [kept]
  rw [openError_iff]
  unfold Reopens
  cases hk : kept s fdb with
  | true =>
    obtain rfl : s = s' := by
      unfold closeFcb at h
      rw [if_pos (hkept.mp hk)] at h
      exact Option.some.inj h
    rw [if_neg (by simp)]
    tauto
  | false =>
    unfold LoneClose at hu
    rw [hk] at hu hkept
    have hm := (closeFcb_keeps h).2.2
    unfold closeFcb at h
    rw [if_neg (fun hx => Bool.false_ne_true (hkept.mpr hx))] at h
    cases fuel with
    | zero => cases h
    | succ n =>
      obtain ⟨t, ht, hl, -⟩ := fcbDel_lone (s := { s with excl := Function.update s.excl fdb.fid false }) n
        (hu.imp_right (fun hx => hx.resolve_right Bool.false_ne_true))
      obtain rfl : t = s' := Option.some.inj (ht.symm.trans h)
      rw [hl, hm, (fcbDel_drops h).excl]
      show (s.Live fda.fid ∧ (fda.fid = fdb.fid → 2 ≤ s.nopen fdb.fid)) ∧
        Function.update s.excl fdb.fid false fda.fid = false ∧ _ ↔ _
      rcases eq_or_ne fda.fid fdb.fid with e | e
      · rw [if_pos ⟨e, rfl⟩, e, Function.update_self]
        tauto
      · rw [if_neg (fun hx => e hx.1), Function.update_of_ne e]
        tauto

theorem closeFcb_ends (hu : LoneClose s fdb) : ∃ s', closeFcb 1 s fdb = some s' := by
  unfold closeFcb
  split
  · exact ⟨_, rfl⟩
  · next hk =>
    obtain ⟨t, ht, -⟩ := fcbDel_lone (s := { s with excl := Function.update s.excl fdb.fid false }) 0
      (hu.imp_right (fun hx => hx.resolve_right (fun hx => hk (by simpa [kept] using hx))))
    exact ⟨t, ht⟩

/-- the flush changes nothing but buffers -/
theorem closeFlush_reopens (fda : OpenFile) {tc' : TaskFiles} (hu : LoneClose s fdb)
    (h : closeFlush s tc fdb = some (s', tc')) :
    LoneClose s' fdb ∧ (Reopens s' fda fdb ↔ Reopens s fda fdb) := by
  obtain ⟨hx, hn, hf⟩ := closeFlush_keeps h
  have hfcb : ∀ i, (s'.fcb i).mode = (s.fcb i).mode ∧ (s'.fcb i).type = (s.fcb i).type ∧
      (s'.fcb i).abspath = (s.fcb i).abspath := by
    intro i
    obtain ⟨l, hl⟩ := hf.fcb i
    rw [hl]
    exact ⟨rfl, rfl, rfl⟩
  unfold LoneClose Reopens kept FileState.Live
  rw [(hfcb _).1, (hfcb _).1, (hfcb _).2.1, (hfcb _).2.2, hx, hn, hf.nfcb]
  exact ⟨hu, Iff.rfl⟩

theorem reopen_closed (hlt : b < tc.openfiles.length) (hn : s.nfcb < 2^64) : reopen s (closeSlot tc b fdb true) b b =
    ({ s with errno := some .ENOENT }, closeSlot tc b fdb true, minus1) := by
  have hg : (closeSlot tc b fdb true).openfiles[b]? = some { fdb with fid := minus1 } := List.getElem?_set_self hlt
  unfold reopen
  rw [List.getD_eq_getElem?_getD, hg, Option.getD_some]
  unfold taskctxOpen
  dsimp only
  rw [openError_unused hn]

theorem not_swapped {tc2 : TaskFiles} {e : Errno} {i : Nat} (hb : usedAt tc.openfiles b = some fdb)
    (hlost : usedAt tc2.openfiles b = none) : ¬ (DupDone tc fda b ({ s with errno := some e }, tc2, i) ∨
      DupRefused tc ({ s with errno := some e }, tc2, i)) := by
  rintro (hx | hx)
  · exact absurd hx.1 (by simp)
  · have hj := hx.2 b
    rw [hlost, hb] at hj
    cases hj

/-! ## the cases -/

section
variable (h : DupReq s tc a fda)
include h

/-- nothing is closed, the file of `a` is opened once more -/
theorem law_reopen (hr : ∀ fuel, sysDup2 fuel s tc a b = some (reopen s tc a b)) :
    Dup2Law s tc a b fda ↔
      openError s fda.fid fda.mode ≠ none ∨ (openSlot tc.openfiles b = b ∧ Settled fda.mode) := by
  unfold Dup2Law
  simp only [hr, Option.some.injEq]
  cases ho : openError s fda.fid fda.mode with
  | some e =>
    refine ⟨fun _ => Or.inl (by simp), fun _ => ⟨0, _, rfl, ?_⟩⟩
    rw [reopen_refused h.source ho]
    exact ⟨h.now, Or.inr ⟨by simp, fun _ => rfl⟩⟩
  | none =>
    obtain ⟨h1, h2, h3, h4⟩ := reopen_done (b := b) h.fit.nfcb h.source ho
    constructor
    · rintro ⟨-, r, rfl, -, hd | hd⟩
      · obtain ⟨-, hret, ⟨fd', hfd', hc⟩, -⟩ := hd
        rw [h3] at hret
        rw [h4, if_pos hret.symm] at hfd'
        cases hfd'
        exact Or.inr ⟨hret, hc.2.1⟩
      · exact absurd (h1.trans h.errno) hd.1
    · rintro (hx | ⟨hs, hm⟩)
      · exact absurd rfl hx
      · refine ⟨0, _, rfl, h2.trans h.now, Or.inl ⟨h1.trans h.errno, h3.trans hs,
          ⟨fda.reopened, ?_, rfl, hm, rfl⟩, fun j hj => ?_⟩⟩
        · rw [h4, if_pos hs.symm]
        · rw [h4, hs, if_neg hj]

theorem law_free (hb : usedAt tc.openfiles b = none) : Dup2Law s tc a b fda ↔
    openError s fda.fid fda.mode ≠ none ∨ (openSlot tc.openfiles b = b ∧ Settled fda.mode) :=
  law_reopen h (fun fuel => by rw [sysDup2_eq h.source h.live, hb]; rfl)

theorem law_dead (hb : usedAt tc.openfiles b = some fdb) (hd : (s.fcb fdb.fid).abspath = none) :
    Dup2Law s tc a b fda ↔ openError s fda.fid fda.mode ≠ none := by
  refine (law_reopen h (fun fuel => ?_)).trans (or_iff_left (fun hs => ?_))
  · rw [sysDup2_eq h.source h.live, hb, close_dead hb hd]
    rfl
  · -- another slot is taken, since `b` is in use
    have hfree := (openSlot_free tc.openfiles b).2
    rw [hs.1, hb] at hfree
    cases hfree

/-- the file of `a` is opened in the slot that was closed; a refusal is too late then -/
theorem law_swapped {s2 : FileState} {tc2 : TaskFiles} (hb : usedAt tc.openfiles b = some fdb) (hab : a ≠ b)
    (hn : s2.nfcb < 2^64) (hk : s2.ackdelayed = false) (hslot : openSlot tc2.openfiles b = b)
    (hslots : ∀ j, usedAt tc2.openfiles j = if j = b then none else usedAt tc.openfiles j) :
    ((reopen s2 tc2 a b).1.ackdelayed = false ∧
      (DupDone tc fda b (reopen s2 tc2 a b) ∨ DupRefused tc (reopen s2 tc2 a b))) ↔
    openError s2 fda.fid fda.mode = none ∧ if s2.errno = none then Settled fda.mode else fdb = fda.reopened := by
  have ha : usedAt tc2.openfiles a = some fda := by
    rw [hslots, if_neg hab]
    exact h.source
  cases ho : openError s2 fda.fid fda.mode with
  | some e =>
    refine ⟨fun hx => absurd hx.2 ?_, fun hx => by cases hx.1⟩
    rw [reopen_refused ha ho]
    exact not_swapped hb (by rw [hslots, if_pos rfl])
  | none =>
    obtain ⟨g1, g2, g3, g4⟩ := reopen_done (b := b) hn ha ho
    have hnew := g4 b
    rw [if_pos hslot.symm] at hnew
    have hother : ∀ j ≠ b, usedAt (reopen s2 tc2 a b).2.1.openfiles j = usedAt tc.openfiles j := by
      intro j hj
      rw [g4, hslot, if_neg hj, hslots, if_neg hj]
    unfold DupDone DupRefused
    rw [g2, g1, hnew]
    split
    · next herr =>
      constructor
      · rintro ⟨-, ⟨-, -, ⟨fd', hfd', hc⟩, -⟩ | hx⟩
        · cases hfd'
          exact ⟨rfl, hc.2.1⟩
        · exact absurd herr hx.1
      · exact fun hx => ⟨hk, Or.inl ⟨herr, g3.trans hslot, ⟨_, rfl, rfl, hx.2, rfl⟩, hother⟩⟩
    · next herr =>
      constructor
      · rintro ⟨-, hx | hx⟩
        · exact absurd hx.1 herr
        · exact ⟨rfl, Option.some.inj (hb.symm.trans ((hx.2 b).symm.trans hnew))⟩
      · rintro ⟨-, hx⟩
        refine ⟨hk, Or.inr ⟨herr, fun j => ?_⟩⟩
        rcases eq_or_ne j b with rfl | hj
        · rw [hnew, hb, hx]
        · exact hother j hj

theorem law_live (hb : usedAt tc.openfiles b = some fdb) (hd : (s.fcb fdb.fid).abspath.isSome = true)
    (hp : ClosesPlain s fdb) : Dup2Law s tc a b fda ↔ a ≠ b ∧ Replaces s tc fda fdb := by
  have hlt : b < tc.openfiles.length := (List.getElem?_eq_some_iff.mp (usedAt_eq_some.mp hb).1).1
  have hm1 : b ≠ minus1 := by
    have := h.fit.files
    unfold minus1
    omega
  obtain ⟨⟨s1, tc1⟩, h1, e1, e2⟩ := closeFlush_now tc hp h.errno
  dsimp only at e1 e2
  have ho := (closeFlush_openfiles h1).1
  obtain ⟨hlone, hsame⟩ := closeFlush_reopens fda hp.lone h1
  have hslot := openSlot_closed fdb (show b < tc1.openfiles.length by rw [ho]; exact hlt) hm1
  have hslots : ∀ j, usedAt (closeSlot tc1 b fdb true).openfiles j = if j = b then none else usedAt tc.openfiles j := by
    intro j
    rw [usedAt_closeSlot, ho]
  unfold Dup2Law
  simp only [sysDup2_eq h.source h.live, hb, Option.isSome_some, if_true, close_live hb hd, h1, Option.bind_some,
    Option.map_map, Option.map_eq_some_iff]
  -- whatever fuel it takes, the file is closed and opened again
  have hstep : ∀ fuel s2, closeFcb fuel s1 fdb = some s2 →
      ((reopen s2 (closeSlot tc1 b fdb true) a b).1.ackdelayed = false ∧
        (DupDone tc fda b (reopen s2 (closeSlot tc1 b fdb true) a b) ∨
          DupRefused tc (reopen s2 (closeSlot tc1 b fdb true) a b)) ↔ a ≠ b ∧ Replaces s tc fda fdb) := by
    intro fuel s2 h2
    have hn2 : s2.nfcb < 2^64 := by
      have e1 := (closeFlush_keeps h1).2.2.nfcb
      have e2 := (closeFcb_keeps h2).2.1
      have hn := h.fit.nfcb
      omega
    obtain ⟨f1, f2⟩ := closeFcb_errno h2
    rcases eq_or_ne a b with rfl | hab
    · refine ⟨fun hx => absurd hx.2 ?_, fun hx => absurd rfl hx.1⟩
      rw [reopen_closed (by rw [ho]; exact hlt) hn2]
      exact not_swapped hb (by rw [hslots, if_pos rfl])
    · rw [law_swapped h hb hab hn2 (f2.trans (e2.trans h.now)) hslot hslots, closeFcb_reopens hlone h2, hsame, f1, e1]
      exact (and_iff_right hab).symm
  constructor
  · rintro ⟨fuel, r, ⟨s2, h2, rfl⟩, hr⟩
    exact (hstep fuel s2 h2).mp hr
  · intro hr
    obtain ⟨s2, h2⟩ := closeFcb_ends hlone
    exact ⟨1, _, ⟨s2, h2, rfl⟩, (hstep 1 s2 h2).mpr hr⟩

end

end

/-- the descriptor of a task that has opened a file and read five bytes -/
def dupDesc : OpenFile := ⟨1, 3, 5, 0⟩

def dupTask : TaskFiles := ⟨⟨0, minus1, [dupDesc]⟩, 1⟩

theorem dupTask_req : DupReq demoFiles dupTask 0 dupDesc :=
  ⟨⟨by decide, by decide⟩, rfl, rfl, rfl, rfl⟩

/-- the task with another file in slot 1 -/
def dupPair : TaskFiles := ⟨⟨0, minus1, [dupDesc, ⟨0, 1, 0, 0⟩]⟩, 2⟩

end OsZ
