import OsZ.Fs.Mounts

/-!
# Mounting and unmounting (`fs/mtab.c`)

* `mtabAddRet`     `mtab_add(dev,file,opts)` with its value, which is -1 on every path;
* `mtabDel`        `mtab_del(dev,file)`; it does not touch the reference counters;
* `MountLaw`       `mtab_add` tells whether it has recorded the mount, and `mtab_del` undoes it;
* `mountLaw_iff`   this holds only when there is nothing to record;
* `umount_counts`  after a mount and its removal both counters are one too high.
-/

namespace OsZ

section
variable (env : LookEnv)

/-- `(uint16_t)-1` -/
def mtabNone : Nat := 0xFFFF

/-- every `return` of `mtab_add` is `return -1` -/
def mtabAddRet (st : LookState) (dev file : List UInt8) : Option (LookState × Nat) :=
  (mtabAdd env st dev file).map fun st => (st, mtabNone)

/-- `abs!=NULL && !strcmp(abs, fcb[f].abspath)` -/
def isPathOf (fcb : List PathFcb) (abs : Option (List UInt8)) (f : Nat) : Bool :=
  match abs with
  | none => false
  | some abs => (fcb[f]?).bind (·.abspath) == some abs

/-- `mtab_del(dev,file)`; `realloc` to no bytes is NULL -/
def mtabDel (st : LookState) (dev file : List UInt8) : LookState × Bool :=
  let absdev := canonize env.canon dev
  let absmnt := canonize env.canon file
  if absdev = none ∧ absmnt = none then (st, false)
  else match st.mtab.findIdx? fun m => isPathOf st.fcb absdev m.storage || isPathOf st.fcb absmnt m.mountpoint with
    | none => (st, false)
    | some i => ({ st with mtab := st.mtab.eraseIdx i }, decide (st.mtab.length ≠ 1))

/-! ## what is expected -/

/-- `fcb[f].nopen` -/
def nopenOf (st : LookState) (f : Nat) : Option Nat := (st.fcb[f]?).map (·.nopen)

/-- the mount of `fd` on `ff` is in the table -/
def Recorded (st : LookState) (fd ff : Nat) : Prop := ∃ m ∈ st.mtab, m.mountpoint = ff ∧ m.storage = fd

/-- `SYS_umount` of `file` in `st'` brings back the mounts and the counters of `st` -/
def Restores (st st' : LookState) (file : List UInt8) (fd ff : Nat) : Prop :=
  (mtabDel env st' file file).2 = true ∧ (mtabDel env st' file file).1.mtab = st.mtab ∧
    nopenOf (mtabDel env st' file file).1 fd = nopenOf st fd ∧
    nopenOf (mtabDel env st' file file).1 ff = nopenOf st ff

def MountLaw (st : LookState) (dev file : List UInt8) (fd ff : Nat) : Prop :=
  ∃ st' r, mtabAddRet env st dev file = some (st', r) ∧ (r ≠ mtabNone ↔ Recorded st' fd ff) ∧
    (Recorded st' fd ff → Restores env st st' file fd ff)

/-- the root is mounted, `dev` is the device `fd` and `file` is the directory `ff`, where nothing is
mounted; `nmtab` has 16 bits -/
structure MountReq (st : LookState) (dev file : List UInt8) (fd ff : Nat) : Prop where
  root : st.rootmounted = true
  mounts : st.mtab ≠ []
  room : st.mtab.length + 1 < 2^16
  dev : fcbGet st.fcb dev = some fd
  storage : isStorage st.fcb fd = true
  file : fcbGet st.fcb file = some ff
  dir : (st.fcb[ff]?).map (·.type) = some .regDir
  fresh : ∀ m ∈ st.mtab, m.mountpoint ≠ ff

end

section
variable {env : LookEnv} {st : LookState} {dev file : List UInt8} {fd ff fs : Nat}

theorem MountReq.ne (h : MountReq st dev file fd ff) : fd ≠ ff := by
  rintro rfl
  have hs := h.storage
  have hd := h.dir
  unfold isStorage at hs
  cases he : st.fcb[fd]? with
  | none => simp [he] at hd
  | some f =>
    rw [he] at hs hd
    simp only [Option.map_some, Option.some.injEq] at hd
    simp [hd] at hs

theorem fcbGet_ne_nil {fcb : List PathFcb} {abspath : List UInt8} {f : Nat} (h : fcbGet fcb abspath = some f) :
    abspath ≠ [] := by
  rintro rfl
  cases h

/-- `fcb` when `fd` is mounted on `ff` -/
def mountedFcb (fcb : List PathFcb) (fd ff fs : Nat) : List PathFcb :=
  ((fcb.modify ff fun f => { f with nopen := f.nopen + 1 }).modify ff fun f => { f with
    fs := some fs
    mode := if ff = devFcb then 1 else ((fcb[fd]?).map (·.mode)).getD 0
    storage := if ff = devFcb then f.storage else fd }).modify fd fun f => { f with nopen := f.nopen + 1 }

theorem MountReq.add (h : MountReq st dev file fd ff) : mtabAdd env st dev file =
    match env.detect fd with
    | none => some st
    | some fs => some { st with
        fcb := mountedFcb st.fcb fd ff fs
        mtab := st.mtab ++ [⟨ff, fd, some fs⟩] } := by
  have hfree : st.mtab.findIdx? (·.mountpoint = ff) = none := by
    rw [List.findIdx?_eq_none_iff]
    intro m hm
    simpa using h.fresh m hm
  unfold mtabAdd mtabAddOne
  rw [if_neg (not_or.mpr ⟨fcbGet_ne_nil h.dev, fcbGet_ne_nil h.file⟩), h.dev]
  dsimp only
  rw [if_neg (fun hx => by rw [h.storage] at hx; exact absurd hx.2 (by decide)), h.file]
  dsimp only
  rw [if_neg (not_not_intro h.dir), if_neg (not_or.mpr ⟨fun hx => h.ne hx.1, fun hx => h.mounts hx.2⟩)]
  cases hd : env.detect fd with
  | none =>
    dsimp only
    rw [if_neg (not_or.mpr ⟨by rw [h.root]; decide, h.mounts⟩)]
    rfl
  | some fs =>
    rw [hfree]
    dsimp only
    rw [if_neg (fun hx => by rw [h.root] at hx; exact absurd hx.2 (by decide))]
    rfl

theorem mtabDel_fcb (st : LookState) (dev file : List UInt8) : (mtabDel env st dev file).1.fcb = st.fcb := by
  unfold mtabDel
  dsimp only
  split
  · rfl
  · split
    · rfl
    · rfl

theorem MountReq.recorded (h : MountReq st dev file fd ff) {st' : LookState}
    (ha : mtabAdd env st dev file = some st') : Recorded st' fd ff ↔ env.detect fd ≠ none := by
  rw [h.add] at ha
  cases hd : env.detect fd with
  | none =>
    rw [hd] at ha
    cases ha
    refine ⟨?_, fun hx => absurd rfl hx⟩
    rintro ⟨m, hm, he, -⟩
    exact absurd he (h.fresh m hm)
  | some fs =>
    rw [hd] at ha
    cases ha
    exact ⟨fun _ => by simp, fun _ => ⟨_, List.mem_append_right _ (List.mem_singleton_self _), rfl, rfl⟩⟩

/-- the law holds when `mtab_add` finds no file system on the device, and never else -/
theorem mountLaw_iff (env : LookEnv) {st : LookState} {dev file : List UInt8} {fd ff : Nat}
    (h : MountReq st dev file fd ff) : MountLaw env st dev file fd ff ↔ env.detect fd = none := by
  constructor
  · rintro ⟨st', r, hr, hiff, -⟩
    obtain ⟨st1, ha, he⟩ := Option.map_eq_some_iff.mp hr
    cases he
    by_contra hd
    exact hiff.mpr ((h.recorded ha).mpr hd) rfl
  · intro hd
    have ha : mtabAdd env st dev file = some st := by rw [h.add, hd]
    have hn : ¬ Recorded st fd ff := fun hx => (h.recorded ha).mp hx hd
    refine ⟨st, mtabNone, by rw [mtabAddRet, ha]; rfl, ⟨fun hx => absurd rfl hx, fun hx => absurd hx hn⟩,
      fun hx => absurd hx hn⟩

theorem nopen_mounted (h : MountReq st dev file fd ff) (fs : Nat) (mtab : List Mount) :
    nopenOf { st with fcb := mountedFcb st.fcb fd ff fs, mtab := mtab } fd = (nopenOf st fd).map (· + 1) ∧
    nopenOf { st with fcb := mountedFcb st.fcb fd ff fs, mtab := mtab } ff = (nopenOf st ff).map (· + 1) := by
  unfold nopenOf mountedFcb
  dsimp only
  simp only [List.getElem?_modify, h.ne, h.ne.symm]
  constructor
  · cases st.fcb[fd]? <;> rfl
  · cases st.fcb[ff]? <;> rfl

theorem umount_counts (h : MountReq st dev file fd ff) {st' : LookState} (ha : mtabAdd env st dev file = some st')
    (hd : env.detect fd ≠ none) (path : List UInt8) :
    nopenOf (mtabDel env st' path path).1 fd = (nopenOf st fd).map (· + 1) ∧
    nopenOf (mtabDel env st' path path).1 ff = (nopenOf st ff).map (· + 1) := by
  obtain ⟨fs, hfs⟩ := Option.ne_none_iff_exists'.mp hd
  rw [h.add, hfs] at ha
  cases ha
  have hm := nopen_mounted h fs (st.mtab ++ [⟨ff, fd, some fs⟩])
  unfold nopenOf at hm ⊢
  rw [mtabDel_fcb]
  exact hm

end

/-- `/mnt/` -/
def mntPath : List UInt8 := [0x2F, 0x6D, 0x6E, 0x74, 0x2F]

/-- `/dev/disk` -/
def devDisk : List UInt8 := devPath ++ [0x64, 0x69, 0x73, 0x6B]

/-- the root is mounted, and there are a disk and an empty directory -/
def mntDemo : LookState :=
  { mountDemo with fcb := (fcbAdd (fcbAdd mountDemo.fcb devDisk .device).1 mntPath .regDir).1 }

theorem mntDemo_req : MountReq mntDemo devDisk mntPath 3 4 :=
  ⟨by decide +kernel, by decide +kernel, by decide +kernel, by decide +kernel, by decide +kernel,
    by decide +kernel, by decide +kernel, by decide +kernel⟩

/-- a disk without a file system is refused -/
theorem mountLaw_blank : MountLaw { lookDemo with detect := fun _ => none } mntDemo devDisk mntPath 3 4 :=
  (mountLaw_iff _ mntDemo_req).mpr rfl

/-- the disk is mounted on `/mnt/`, but the value is -1; removing the mount leaves the counters at 1 -/
theorem mount_reports_failure : MountReq mntDemo devDisk mntPath 3 4 ∧
    (∃ st, mtabAddRet lookDemo mntDemo devDisk mntPath = some (st, mtabNone) ∧ Recorded st 3 4 ∧
      (mtabDel lookDemo st mntPath mntPath).2 = true ∧ nopenOf mntDemo 3 = some 0 ∧ nopenOf mntDemo 4 = some 0 ∧
      nopenOf (mtabDel lookDemo st mntPath mntPath).1 3 = some 1 ∧
      nopenOf (mtabDel lookDemo st mntPath mntPath).1 4 = some 1) ∧
    ¬ MountLaw lookDemo mntDemo devDisk mntPath 3 4 := by
  have hadd : ∃ st, mtabAdd lookDemo mntDemo devDisk mntPath = some st :=
    ⟨_, by rw [mntDemo_req.add]; rfl⟩
  obtain ⟨st, ha⟩ := hadd
  have hrec : Recorded st 3 4 := (mntDemo_req.recorded ha).mpr (by decide)
  have hret : mtabAddRet lookDemo mntDemo devDisk mntPath = some (st, mtabNone) := by
    rw [mtabAddRet, ha]
    rfl
  have hc := umount_counts mntDemo_req ha (by decide) mntPath
  refine ⟨mntDemo_req, ⟨st, hret, hrec, ?_, by decide +kernel, by decide +kernel, ?_, ?_⟩, ?_⟩
  · have hst : st = (mtabAdd lookDemo mntDemo devDisk mntPath).get (by decide +kernel) := by simp [ha]
    rw [hst]
    decide +kernel
  · rw [hc.1]
    decide +kernel
  · rw [hc.2]
    decide +kernel
  · rintro ⟨st1, r, hr, hiff, -⟩
    rw [hret] at hr
    cases hr
    exact hiff.mpr hrec rfl

end OsZ
