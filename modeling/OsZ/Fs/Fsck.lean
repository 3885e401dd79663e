import OsZ.Fs.Model

/-!
# File system checks (`dofsck` in `fs/vfs.c`, `SYS_fsck` in `fs/main.c`)

A check goes through four steps, and a step whose blocks are not in the cache is called again with the next
request; meanwhile `fsck.dev` locks the device.  But the failsafe at the start of `dofsck` refuses every
device: `fsck.dev` is always different from -1 or from the device.

* `dofsck`, `sysFsck`  the function and the request;
* `FsckLaw`            repeated requests for a device complete its check;
* `dofsck_refuses`     no call gets behind the failsafe;
* `fsck_never`         no request does anything, and the law holds for no device.
-/

namespace OsZ

/-- what `checkfs` returns; `delayed` is with `ackdelayed` set -/
inductive Checked where
  | done | delayed | failed

/-- the devices and the drivers; `check fd step n` answers the call number `n` for a step -/
structure FsckEnv where
  fcb : Nat → Fcb
  /-- `fsdrv_detect(dev)` -/
  detect : Nat → Nat
  /-- `fsdrv[i].checkfs` -/
  checkfs : List (Option (Nat → Nat → Nat → Checked))

/-- `fsck_t`, with the number of calls for the step and the steps that are completed -/
structure Fsck where
  dev : Nat
  step : Nat
  fix : Bool
  fs : Nat
  calls : Nat
  ran : List Nat

def Fsck.start : Fsck := ⟨minus1, 0, false, 0, 0, []⟩

/-- the loop, and the end of the function; `FSCKSTEP_DONE` is 4 -/
def fsckSteps (check : Nat → Nat → Checked) (s : Fsck) : Bool × Fsck :=
  if s.step < 4 then
    match check s.step s.calls with
    | .done => fsckSteps check { s with step := s.step + 1, calls := 0, ran := s.ran ++ [s.step] }
    | _ => (false, { s with calls := s.calls + 1 })
  else (true, { s with dev := minus1, step := 0 })
termination_by 4 - s.step

/-- `DEVFCB` is 1 -/
def dofsck (e : FsckEnv) (fd : Nat) (fix : Bool) (s : Fsck) : Option Errno × Bool × Fsck :=
  if fd = minus1 ∨ s.dev ≠ minus1 ∨ s.dev ≠ fd ∨ (e.fcb fd).type ≠ .device ∨ (e.fcb fd).storage ≠ 1 then
    (some .EPERM, false, s)
  else
    let s := if s.dev = minus1 then { s with dev := fd, fix := fix, step := 0, fs := e.detect fd } else s
    if s.fs = 0xffff then (some .EPERM, false, s)
    else
      match e.checkfs[s.fs]? with
      | some (some check) => (none, fsckSteps (check fd) s)
      | _ => (some .EPERM, false, s)

/-- a request: what `lookup` returns, whether it sets an error, and the type of the message -/
structure FsckReq where
  found : Nat
  error : Bool
  fix : Bool

/-- the answer, the error and the state -/
def sysFsck (e : FsckEnv) (q : FsckReq) (s : Fsck) : Int × Option Errno × Fsck :=
  if s.dev ≠ minus1 ∧ s.dev ≠ q.found then (-1, some .EBUSY, s)
  else if q.found ≠ minus1 ∧ q.error = false then
    let r := dofsck e q.found q.fix s
    if r.2.1 then (0, r.1, r.2.2) else (-1, some .ENODEV, r.2.2)
  else (-1, some .ENODEV, s)

def afterFsck (e : FsckEnv) (reqs : List FsckReq) : Fsck := reqs.foldl (fun s q => (sysFsck e q s).2.2) .start

/-- a device with a file system whose driver has `checkfs`, and every step is interrupted finitely often -/
structure Checkable (e : FsckEnv) (fd : Nat) (check : Nat → Nat → Nat → Checked) : Prop where
  valid : fd ≠ minus1
  device : (e.fcb fd).type = .device ∧ (e.fcb fd).storage = 1
  detected : e.detect fd ≠ 0xffff
  driver : e.checkfs[e.detect fd]? = some (some check)
  succeeds : ∀ step < 4, ∃ n, check fd step n = .done ∧ ∀ m < n, check fd step m = .delayed

/-- request `n+1` for the device succeeds with all steps done once and the lock released, and up to then the
device is locked -/
def FsckLaw (e : FsckEnv) (fd : Nat) (fix : Bool) : Prop :=
  ∃ n, (sysFsck e ⟨fd, false, fix⟩ (afterFsck e (List.replicate n ⟨fd, false, fix⟩))).1 = 0 ∧
    (afterFsck e (List.replicate (n + 1) ⟨fd, false, fix⟩)).ran = [0, 1, 2, 3] ∧
    (afterFsck e (List.replicate (n + 1) ⟨fd, false, fix⟩)).dev = minus1 ∧
    ∀ k, 0 < k → k ≤ n → (afterFsck e (List.replicate k ⟨fd, false, fix⟩)).dev = fd ∧
      ∀ q : FsckReq, q.found ≠ fd →
        (sysFsck e q (afterFsck e (List.replicate k ⟨fd, false, fix⟩))).2.1 = some .EBUSY

section
variable (e : FsckEnv)

/-- the failsafe: the lock is on another device than -1, or -1 is another device -/
theorem dofsck_refuses (fd : Nat) (fix : Bool) (s : Fsck) : dofsck e fd fix s = (some .EPERM, false, s) := by
  unfold dofsck
  refine if_pos ?_
  by_cases hfd : fd = minus1
  · exact Or.inl hfd
  · by_cases hdev : s.dev = minus1
    · exact Or.inr (Or.inr (Or.inl fun h => hfd (h ▸ hdev)))
    · exact Or.inr (Or.inl hdev)

theorem sysFsck_refuses (q : FsckReq) (s : Fsck) : (sysFsck e q s).1 = -1 ∧ (sysFsck e q s).2.2 = s := by
  unfold sysFsck
  rw [dofsck_refuses]
  split_ifs
  · exact ⟨rfl, rfl⟩
  · exact ⟨rfl, rfl⟩
  · exact ⟨rfl, rfl⟩

theorem afterFsck_start (reqs : List FsckReq) : afterFsck e reqs = .start := by
  unfold afterFsck
  induction reqs with
  | nil => rfl
  | cons q reqs ih => rw [List.foldl_cons, (sysFsck_refuses e q .start).2, ih]

/-- **File system checks.**  After any requests nothing is locked and no step was run, the next one fails,
and the law holds for no device, driver or pattern of interruptions. -/
theorem fsck_never (e : FsckEnv) : (∀ (reqs : List FsckReq) (q : FsckReq),
    afterFsck e reqs = .start ∧ (sysFsck e q (afterFsck e reqs)).1 = -1) ∧ ∀ fd fix, ¬ FsckLaw e fd fix := by
  refine ⟨fun reqs q => ⟨afterFsck_start e reqs, (sysFsck_refuses e q _).1⟩, ?_⟩
  rintro fd fix ⟨n, hret, -⟩
  rw [(sysFsck_refuses e _ _).1] at hret
  exact absurd hret (by decide)

end

/-- a device at 2, and a driver that needs no block -/
def readyFsck : FsckEnv where
  fcb := fun _ => ⟨some "/dev/disk", .device, 0, 0, 1, 0, 512, [], []⟩
  detect := fun _ => 0
  checkfs := [some fun _ _ _ => .done]

theorem fsck_refused : Checkable readyFsck 2 (fun _ _ _ => .done) ∧
    sysFsck readyFsck ⟨2, false, true⟩ .start = (-1, some .ENODEV, .start) :=
  ⟨⟨by decide, ⟨rfl, rfl⟩, by decide, rfl, fun _ _ => ⟨0, rfl, fun m hm => absurd hm (Nat.not_lt_zero m)⟩⟩, rfl⟩

end OsZ
