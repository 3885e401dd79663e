import OsZ.Fs.Cache
import OsZ.Fs.Path

/-!
# Reading the directory `/dev/` (`fs/devfs.c`, `fs/taskctx.c`)

The directory has an entry for every device in use.  The offset of the descriptor is the number of the
next slot of `dev[]`; slots of removed devices are skipped.

* `devfsGetdirent`    `devfs_getdirent(offs)`;
* `taskctxReaddir`    `taskctx_readdir(tc,idx,ptr,size)`;
* `liveFrom`          the slots in use from an offset on;
* `readdir_step`      a call answers with the first of them, and the rest are left;
* `readdirs_eq`       what repeated calls return.
-/

namespace OsZ

/-- `dirent_t` -/
structure Dirent where
  dDev : Nat
  dIno : Nat
  dIcon : List UInt8
  dFilesize : Nat
  dType : Nat
  dLen : Nat
  dName : List UInt8
deriving DecidableEq

/-- the device table with the paths and file systems of the entries of `fcb` -/
structure DirState extends Cache where
  abspath : Nat → Option (List UInt8)
  fs : Nat → Nat
  devfsidx : Nat
  dirent : Dirent

/-- `memzero(&dirent,sizeof(dirent_t))` -/
def Dirent.zero : Dirent := ⟨0, 0, [], 0, 0, 0, []⟩

/-- `FCB_TYPE_DEVICE|(blksize<=1?S_IFCHR>>16:0)` -/
def devType (blksize : Nat) : Nat := if blksize ≤ 1 then 3 ||| 0x300 else 3

/-- `while(offs!=-1 && offs<ndev && dev[offs].fid==-1) { s++; offs++; }` -/
def skipFree (dev : Nat → Devfs) (ndev : Nat) : Nat → Nat → Nat → Nat × Nat
  | 0, offs, s => (offs, s)
  | n+1, offs, s =>
    if offs ≠ minus1 ∧ offs < ndev ∧ (dev offs).fid = minus1 then
      skipFree dev ndev n (w64 (offs + 1)) (s + 1)
    else (offs, s)

/-- "fill in dirent struct fields" -/
def fillDirent (st : DirState) (offs : Nat) : Dirent :=
  let fid := (st.dev offs).fid
  let f := st.fcb fid
  let name := ((st.abspath fid).getD []).drop devPath.length
  -- `devFcb`, `dev`
  ⟨1, offs, [0x64, 0x65, 0x76], f.filesize, devType f.blksize, name.length, name⟩

/-- `devfs_getdirent(offs)` -/
def devfsGetdirent (st : DirState) (offs : Nat) : DirState × Nat :=
  let x := skipFree st.dev st.ndev st.ndev offs 1
  if x.1 = minus1 ∨ st.ndev ≤ x.1 then (st, 0)
  else ({ st with dirent := fillDirent st x.1 }, x.2)

/-- `taskctx_validfid(tc,idx)` -/
def DirState.validfid (st : DirState) (tc : TaskCtx) (idx : Nat) : Bool :=
  match tc.openfiles[idx]? with
  | none => false
  | some of => decide (of.fid ≠ minus1) && (st.abspath of.fid).isSome

/-- `taskctx_readdir(tc,idx,ptr,size)`; `other` are the other file systems -/
def taskctxReaddir (other : DirState → TaskCtx → OpenFile → DirState × TaskCtx × Option Dirent)
    (st : DirState) (tc : TaskCtx) (idx : Nat) : DirState × TaskCtx × Option Dirent :=
  match tc.openfiles[idx]? with
  | none => (st, tc, none)
  | some of =>
    if st.validfid tc idx = false then (st, tc, none)
    else
      let st := { st with dirent := .zero }
      if st.fs of.fid = st.devfsidx then
        let x := devfsGetdirent st of.offs
        if x.2 = 0 ∨ x.1.dirent.dName = [] then
          ({ x.1 with errno := some .ENOENT },
            { tc with openfiles := tc.openfiles.set idx { of with offs := st.ndev } }, none)
        else
          (x.1, { tc with openfiles := tc.openfiles.set idx { of with offs := w64 (of.offs + x.2) } },
            some x.1.dirent)
      else other st tc of

/-- `n` requests, with `seterr(SUCCESS)` before each: what is returned, and the errors -/
def readdirs (other : DirState → TaskCtx → OpenFile → DirState × TaskCtx × Option Dirent) (idx : Nat) :
    Nat → DirState → TaskCtx → List (Option Dirent × Option Errno)
  | 0, _, _ => []
  | n+1, st, tc =>
    let r := taskctxReaddir other { st with errno := none } tc idx
    (r.2.2, r.1.errno) :: readdirs other idx n r.1 r.2.1

/-! ## the slots in use -/

def liveFrom (st : DirState) (offs : Nat) : List Nat :=
  (List.range' offs (st.ndev - offs)).filter fun i => (st.dev i).fid ≠ minus1

section
variable {st : DirState} {tc : TaskCtx} {idx offs s i : Nat} {l : List Nat}

theorem liveFrom_end (h : st.ndev ≤ offs) : liveFrom st offs = [] := by
  unfold liveFrom
  rw [Nat.sub_eq_zero_of_le h]
  rfl

theorem liveFrom_lt (h : offs < st.ndev) : liveFrom st offs =
    if (st.dev offs).fid = minus1 then liveFrom st (offs + 1) else offs :: liveFrom st (offs + 1) := by
  unfold liveFrom
  obtain ⟨k, hk⟩ : ∃ k, st.ndev - offs = k + 1 := ⟨st.ndev - offs - 1, by omega⟩
  rw [hk, List.range'_succ, show st.ndev - (offs + 1) = k by omega]
  split
  · next h => rw [List.filter_cons_of_neg (by simpa using h)]
  · next h => rw [List.filter_cons_of_pos (by simpa using h)]

theorem skipFree_eq (hn : st.ndev < 2^64) (n : Nat) (hf : st.ndev ≤ offs + n) (ho : offs ≤ st.ndev) :
    (liveFrom st offs = [] ∧ (skipFree st.dev st.ndev n offs s).1 = st.ndev) ∨
    ∃ i, i < st.ndev ∧ offs ≤ i ∧ (st.dev i).fid ≠ minus1 ∧
      liveFrom st offs = i :: liveFrom st (i + 1) ∧ skipFree st.dev st.ndev n offs s = (i, s + (i - offs)) := by
  induction n generalizing offs s with
  | zero =>
    obtain rfl : offs = st.ndev := by omega
    exact Or.inl ⟨liveFrom_end le_rfl, rfl⟩
  | succ n ih =>
    rw [skipFree]
    by_cases h : offs ≠ minus1 ∧ offs < st.ndev ∧ (st.dev offs).fid = minus1
    · rw [if_pos h, liveFrom_lt h.2.1, if_pos h.2.2, w64_of_lt (by omega)]
      have hnext : st.ndev ≤ offs + 1 + n := by omega
      rcases ih (s := s + 1) hnext (by omega) with h1 | ⟨i, h1, h2, h3, h4, h5⟩
      · exact Or.inl h1
      · refine Or.inr ⟨i, h1, by omega, h3, h4, ?_⟩
        rw [h5]
        congr 1
        omega
    · rw [if_neg h]
      by_cases hlt : offs < st.ndev
      · have hne : (st.dev offs).fid ≠ minus1 :=
          fun he => h ⟨fun hm => by rw [hm] at hlt; unfold minus1 at hlt; omega, hlt, he⟩
        exact Or.inr ⟨offs, hlt, le_rfl, hne, by rw [liveFrom_lt hlt, if_neg hne], by rw [Nat.sub_self]; rfl⟩
      · obtain rfl : offs = st.ndev := by omega
        exact Or.inl ⟨liveFrom_end le_rfl, rfl⟩

end

/-! ## the calls -/

/-- the descriptor `idx` is at `offs` in `/dev/`, and the devices have names -/
structure DevDir (st : DirState) (tc : TaskCtx) (idx offs : Nat) : Prop where
  ndev : st.ndev < 2^64
  named : ∀ i < st.ndev, (st.dev i).fid ≠ minus1 →
    ∃ name, name ≠ [] ∧ st.abspath (st.dev i).fid = some (devPath ++ name)
  desc : ∃ of, tc.openfiles[idx]? = some of ∧ of.fid ≠ minus1 ∧ (st.abspath of.fid).isSome = true ∧
    st.fs of.fid = st.devfsidx ∧ of.offs = offs

/-- `dirent` and the error aside -/
structure SameDevs (st st' : DirState) : Prop where
  dev : st'.dev = st.dev
  ndev : st'.ndev = st.ndev
  fcb : st'.fcb = st.fcb
  abspath : st'.abspath = st.abspath
  fs : st'.fs = st.fs
  devfsidx : st'.devfsidx = st.devfsidx

section
variable {st st' : DirState} {tc : TaskCtx} {idx offs i : Nat} {l : List Nat}
  (other : DirState → TaskCtx → OpenFile → DirState × TaskCtx × Option Dirent)

theorem SameDevs.live (h : SameDevs st st') (offs : Nat) : liveFrom st' offs = liveFrom st offs := by
  unfold liveFrom
  rw [h.dev, h.ndev]

theorem SameDevs.dirent (h : SameDevs st st') (i : Nat) : fillDirent st' i = fillDirent st i := by
  unfold fillDirent
  rw [h.dev, h.fcb, h.abspath]

theorem DevDir.moved (h : DevDir st tc idx offs) (hs : SameDevs st st') {of : OpenFile}
    (ho : tc.openfiles[idx]? = some of) (k : Nat) :
    DevDir st' { tc with openfiles := tc.openfiles.set idx { of with offs := k } } idx k := by
  obtain ⟨of', ho', h1, h2, h3, -⟩ := h.desc
  obtain rfl : of' = of := Option.some.inj (ho'.symm.trans ho)
  refine ⟨by rw [hs.ndev]; exact h.ndev, fun i hi hne => ?_, { of' with offs := k }, ?_, h1, ?_, ?_, rfl⟩
  · rw [hs.dev] at hne ⊢
    rw [hs.abspath]
    exact h.named i (by rwa [hs.ndev] at hi) hne
  · rw [List.getElem?_set_self (List.getElem?_eq_some_iff.mp ho).1]
  · rw [hs.abspath]
    exact h2
  · rw [hs.fs, hs.devfsidx]
    exact h3

theorem DevDir.name (h : DevDir st tc idx offs) (hi : i < st.ndev) (hne : (st.dev i).fid ≠ minus1) :
    (fillDirent st i).dName ≠ [] ∧ st.abspath (st.dev i).fid = some (devPath ++ (fillDirent st i).dName) := by
  obtain ⟨name, hn, ha⟩ := h.named i hi hne
  have he : (fillDirent st i).dName = name := by
    show ((st.abspath (st.dev i).fid).getD []).drop devPath.length = name
    rw [ha, Option.getD_some, List.drop_left]
  rw [he]
  exact ⟨hn, ha⟩

theorem readdir_step (h : DevDir st tc idx offs) (ho : offs ≤ st.ndev) :
    ∃ st' tc' offs' r, taskctxReaddir other { st with errno := none } tc idx = (st', tc', r) ∧
      SameDevs st st' ∧ DevDir st' tc' idx offs' ∧ offs' ≤ st.ndev ∧
      ((liveFrom st offs = [] ∧ liveFrom st offs' = [] ∧ r = none ∧ st'.errno = some .ENOENT) ∨
      ∃ i, liveFrom st offs = i :: liveFrom st offs' ∧ r = some (fillDirent st i) ∧ st'.errno = none) := by
  obtain ⟨of, hof, h1, h2, h3, h4⟩ := h.desc
  have hv : ({ st with errno := none } : DirState).validfid tc idx = true := by
    unfold DirState.validfid
    rw [hof]
    simp [h1, h2]
  unfold taskctxReaddir
  rw [hof]
  dsimp only
  rw [hv, if_neg (by decide), if_pos h3]
  unfold devfsGetdirent
  dsimp only
  rw [h4]
  rcases skipFree_eq (s := 1) h.ndev st.ndev (by omega) ho with ⟨hl, hx⟩ | ⟨i, hi, hoi, hne, hl, hx⟩
  · rw [if_pos (Or.inr hx.ge), if_pos (Or.inl rfl)]
    refine ⟨_, _, st.ndev, _, rfl, ⟨rfl, rfl, rfl, rfl, rfl, rfl⟩, ?_, le_rfl,
      Or.inl ⟨hl, liveFrom_end le_rfl, rfl, rfl⟩⟩
    refine h.moved ?_ hof _
    exact ⟨rfl, rfl, rfl, rfl, rfl, rfl⟩
  · have hm : ¬ (i = minus1 ∨ st.ndev ≤ i) := by
      have hn := h.ndev
      unfold minus1
      omega
    have hname := (h.name hi hne).1
    have hfill : fillDirent { st with errno := none, dirent := .zero } i = fillDirent st i := rfl
    rw [hx]
    dsimp only
    rw [if_neg hm]
    dsimp only
    rw [hfill, if_neg (not_or.mpr ⟨by omega, hname⟩), show offs + (1 + (i - offs)) = i + 1 by omega,
      w64_of_lt (by have := h.ndev; omega)]
    refine ⟨_, _, i + 1, _, rfl, ⟨rfl, rfl, rfl, rfl, rfl, rfl⟩, ?_, hi, Or.inr ⟨i, hl, rfl, rfl⟩⟩
    refine h.moved ?_ hof _
    exact ⟨rfl, rfl, rfl, rfl, rfl, rfl⟩

theorem readdirs_from (n : Nat) (h : DevDir st tc idx offs) (ho : offs ≤ st.ndev) :
    readdirs other idx n st tc = ((liveFrom st offs).map (fun i => (some (fillDirent st i), none)) ++
      List.replicate n (none, some Errno.ENOENT)).take n := by
  induction n generalizing st tc offs with
  | zero => rfl
  | succ n ih =>
    obtain ⟨st', tc', offs', r, hr, hs, hd, ho', hc⟩ := readdir_step other h ho
    have ih' := ih hd (by rw [hs.ndev]; exact ho')
    rw [hs.live, funext hs.dirent] at ih'
    rw [readdirs, hr]
    dsimp only
    rw [ih']
    rcases hc with ⟨hl, hl', rfl, he⟩ | ⟨i, hl, rfl, he⟩
    · rw [hl, hl', he]
      rfl
    · rw [hl, he, List.map_cons, List.cons_append, List.take_succ_cons, List.replicate_succ']
      congr 1
      rw [← List.append_assoc]
      refine (List.take_append_of_le_length ?_).symm
      rw [List.length_append, List.length_replicate]
      exact Nat.le_add_left _ _

end

/-- from offset 0 on, the calls return the devices in use, each once and in the order of the table, and
`ENOENT` from then on -/
theorem readdirs_eq (other : DirState → TaskCtx → OpenFile → DirState × TaskCtx × Option Dirent) (n : Nat)
    {st : DirState} {tc : TaskCtx} {idx : Nat} (h : DevDir st tc idx 0) :
    readdirs other idx n st tc =
      ((liveFrom st 0).map (fun i => (some (fillDirent st i), none)) ++
        List.replicate n (none, some Errno.ENOENT)).take n ∧
    ∀ i, i ∈ liveFrom st 0 ↔ i < st.ndev ∧ (st.dev i).fid ≠ minus1 := by
  refine ⟨readdirs_from other n h (Nat.zero_le _), fun i => ?_⟩
  unfold liveFrom
  rw [List.mem_filter, List.mem_range'_1]
  simp

/-- `/dev/` in slot 1 of `fcb`, and the devices `a` and `b` with a free slot between them -/
def devDemo : DirState where
  fcb _ := ⟨.device, 0, 512, 1024⟩
  nfcb := 4
  dev i := ⟨if i = 0 then 2 else if i = 2 then 3 else minus1, 5, 0, 1, 0, 0⟩
  ndev := 3
  devRecent := 1
  pid := 2
  cachelines := 16
  node _ := ⟨0, 0, fun _ => 0, 0⟩
  line _ := 0
  live := []
  inflush := 0
  ackdelayed := false
  errno := none
  sent := []
  abspath i := some (devPath ++ (if i = 2 then [0x61] else if i = 3 then [0x62] else []))
  fs _ := 0
  devfsidx := 0
  dirent := .zero

/-- a task that has opened `/dev/` -/
def devTask : TaskCtx := ⟨0, minus1, [⟨1, 1, 0, 0⟩]⟩

theorem devDemo_dir : DevDir devDemo devTask 0 0 := by
  refine ⟨by decide, fun i hi hne => ?_, ⟨1, 1, 0, 0⟩, rfl, by decide, rfl, rfl, rfl⟩
  have hi3 : i < 3 := hi
  interval_cases i
  · exact ⟨[0x61], by decide, rfl⟩
  · exact absurd rfl hne
  · exact ⟨[0x62], by decide, rfl⟩

theorem readdirs_demo : (readdirs (fun st tc _ => (st, tc, none)) 0 4 devDemo devTask).map
    (fun r => (r.1.map (·.dName), r.2)) =
      [(some [0x61], none), (some [0x62], none), (none, some .ENOENT), (none, some .ENOENT)] := by
  rw [(readdirs_eq _ 4 devDemo_dir).1]
  decide

end OsZ
