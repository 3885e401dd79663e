import OsZ.Msg.Buffer
import OsZ.Security.Acl

/-!
# Who may send what to a service (`msg_allowed` of `security.c`, the first part of `msg_sends`)

The destination of a message is a field of 48 bits of the event, with a sign.  It is translated to a
pid, the pid is checked, and the page of the destination's TCB is mapped by `kmap`; a page table
entry has room for 40 bits of it.

* `Services`             the table of services, and what is behind it in memory;
* `resolveTask`, `msgAllowed`, `kmapEntry`, `msgSendsTo`   the functions of the core;
* `ServiceRule`          the rule for the messages to a service;
* `msgAllowed_rule`      `msg_allowed` keeps it, for the pid of the service;
* `msgSendsTo_of_sent`   `msg_sends` of the scheduler's model with these checks;
* `access_rules`         the destinations for which `msg_sends` keeps it;
* `pid_alias_mounts`     any task can send `SYS_mountfs` to FS.
-/

namespace OsZ

/-- `services[]`: pids of different tasks, or 0.  A pid is the number of a page. -/
structure Services where
  /-- the words of memory from `services` on -/
  pid : Nat → Nat
  page : ∀ k < 8, pid k < 2^40
  inj : ∀ j < 8, ∀ k < 8, pid j = pid k → pid k ≠ 0 → j = k

/-! ## the functions -/

def i64 (n : Nat) : Int := if n < 2^63 then n else n - 2^64

/-- `(int64_t)(event&~0xFFFF)/(int64_t)65536` -/
def eventTask (event : Nat) : Int := (i64 (event / 65536 * 65536)).tdiv 65536

/-- `EVT_FUNC(event)` -/
def evtFunc (event : Nat) : Nat := event % 32768

/-- "do we need pid_t translation?": the destination, and the indices of `services[]` that are read -/
def resolveTask (sv : Services) (task : Int) : Option Nat × List Nat :=
  if task < 0 then
    (if 8 ≤ -task ∨ sv.pid (-task).toNat ≠ 0 then some (sv.pid (-task).toNat) else none,
      [(-task).toNat])
  else (some task.toNat, [])

/-- `SRV_FS` and so on as a `pid_t` -/
def srvId (k : Nat) : Nat := 2^64 - k

def toService (sv : Services) (dest k : Nat) : Prop := dest = srvId k ∨ dest = sv.pid k

instance (sv : Services) (dest k : Nat) : Decidable (toService sv dest k) :=
  inferInstanceAs (Decidable (dest = srvId k ∨ dest = sv.pid k))

def rootuid : Bytes := strBytes (strOf ['r', 'o', 'o', 't'])

/-- "root user allowed to call all services" -/
def Subject.isRoot (sender : Subject) : Bool := kmemcmp sender.owner.bytes rootuid 15 == 0

/-- an entry that allows something (`A_WRITE`) -/
def Subject.mayWrite (sender : Subject) (name : List Char) : Bool :=
  taskAllowed sender (some (strOf name)) 2

/-- an entry that forbids something, with any access -/
def Subject.barred (sender : Subject) (name : List Char) : Bool :=
  taskAllowed sender (some (strOf name)) 0

/-- "Core services"; the priorities are `PRI_SYS` 0, `PRI_DRV` 2 and `PRI_SRV` 3 -/
def coreAllowed (sender : Subject) (e : Nat) : Bool :=
  -- `SYS_setirq`
  if e = 5 ∧ sender.priority ≠ 2 then false
  else if sender.isRoot = true then true
  -- `SYS_stime`
  else if e = 9 ∧ sender.priority ≠ 2 ∧ sender.mayWrite ['s', 't', 'i', 'm', 'e'] = false then false
  else true

/-- "FS task" -/
def fsAllowed (sv : Services) (sender : Subject) (e : Nat) : Bool :=
  -- `SYS_mountfs`
  if e = 6 ∧ sender.pid ≠ sv.pid 6 then false
  -- `SYS_mknod`, `SYS_setblock`
  else if (e = 10 ∨ e = 4) ∧ sender.priority ≠ 2 ∧ sender.priority ≠ 3 then false
  else if sender.isRoot = true then true
  -- `SYS_chroot`
  else if e = 37 ∧ sender.mayWrite ['c', 'h', 'r', 'o', 'o', 't'] = false then false
  -- `SYS_mount`, `SYS_umount`
  else if (e = 7 ∨ e = 8) ∧ sender.mayWrite ['m', 'o', 'u', 'n', 't'] = false then false
  else true

/-- "UI task" -/
def uiAllowed (sv : Services) (sender : Subject) (e : Nat) : Bool :=
  if sender.barred ['n', 'o', 'u', 'i'] = true then false
  -- `SYS_devprogress`
  else if e = 0x1e ∧ sender.pid ≠ sv.pid 1 then false
  else true

/-- `msg_allowed(sender,dest,event)` -/
def msgAllowed (sv : Services) (sender : Subject) (dest event : Nat) : Bool :=
  let e := evtFunc event
  if sender.priority = 0 then true
  else if dest = 0 then coreAllowed sender e
  else if toService sv dest 1 then fsAllowed sv sender e
  else if toService sv dest 2 then uiAllowed sv sender e
  else if toService sv dest 3 then !sender.barred ['n', 'o', 's', 'y', 's', 'l', 'o', 'g']
  else if toService sv dest 4 then !sender.barred ['n', 'o', 'i', 'n', 'e', 't']
  else if toService sv dest 5 then !sender.barred ['n', 'o', 's', 'o', 'u', 'n', 'd']
  else if toService sv dest 6 then !sender.barred ['n', 'o', 'i', 'n', 'i', 't']
  else if toService sv dest 7 ∧ sender.pid ≠ sv.pid 2 then false
  else true

/-- the page table entry that `kmap(virt,phys,access)` writes: "copy W bit to NX bit" -/
def kmapEntry (phys access : Nat) : Nat :=
  w64 (phys / 4096 * 4096 + access + access / 2 % 2 * 2^63)

/-- `msg_sends` up to the queue of the destination: its page, if the message passes the checks;
`isTcb` are the pages with the magic of a TCB -/
def msgSendsTo (sv : Services) (isTcb : Nat → Bool) (sender : Subject) (event : Nat) : Option Nat :=
  if evtFunc event = 0 then none
  else
    match (resolveTask sv (eventTask event)).1 with
    | none => none
    | some task =>
      if msgAllowed sv sender task event = false then none
      else
        -- `PG_CORE_NOCACHE`
        let page := frameOf (kmapEntry (w64 ((if task = 0 then sender.pid else task) * 4096)) 27)
        if isTcb page = true then some page else none

/-! ## the rules -/

structure FsRule (sv : Services) (sender : Subject) (e : Nat) : Prop where
  mountfs : e = 6 → sender.pid = sv.pid 6
  mknod : e = 10 ∨ e = 4 → sender.priority = 2 ∨ sender.priority = 3
  chroot : e = 37 → sender.isRoot = true ∨ sender.mayWrite ['c', 'h', 'r', 'o', 'o', 't'] = true
  mount : e = 7 ∨ e = 8 →
    sender.isRoot = true ∨ sender.mayWrite ['m', 'o', 'u', 'n', 't'] = true

/-- the rule for messages with the function `e` to the service `k` -/
def ServiceRule (sv : Services) (sender : Subject) (e : Nat) : Nat → Prop
  | 1 => FsRule sv sender e
  | 2 => sender.barred ['n', 'o', 'u', 'i'] = false ∧ (e = 0x1e → sender.pid = sv.pid 1)
  | 3 => sender.barred ['n', 'o', 's', 'y', 's', 'l', 'o', 'g'] = false
  | 4 => sender.barred ['n', 'o', 'i', 'n', 'e', 't'] = false
  | 5 => sender.barred ['n', 'o', 's', 'o', 'u', 'n', 'd'] = false
  | 6 => sender.barred ['n', 'o', 'i', 'n', 'i', 't'] = false
  | 7 => sender.pid = sv.pid 2
  | _ => True

section
variable {sv : Services} {sender : Subject} {dest event k : Nat} {task : Int} {isTcb : Nat → Bool}

theorem toService_iff (h0 : dest ≠ 0) (hk : k < 8) (hd : dest = sv.pid k) {j : Nat} (hj0 : 0 < j)
    (hj : j < 8) : toService sv dest j ↔ j = k := by
  have hpage := sv.page k hk
  constructor
  · rintro (h | h)
    · unfold srvId at h
      omega
    · exact sv.inj j hj k hk (by rw [← h, hd]) (by rw [← hd]; exact h0)
  · rintro rfl
    exact .inr hd

theorem fsAllowed_rule {e : Nat} (h : fsAllowed sv sender e = true) : FsRule sv sender e := by
  obtain ⟨r, hr⟩ : ∃ r, r = sender.isRoot := ⟨_, rfl⟩
  unfold fsAllowed at h
  rw [← hr] at h
  split_ifs at h with h1 h2 h3 h4 h5
  all_goals
    have hmountfs : e = 6 → sender.pid = sv.pid 6 := fun he => not_not.mp fun hn => h1 ⟨he, hn⟩
    have hmknod : e = 10 ∨ e = 4 → sender.priority = 2 ∨ sender.priority = 3 :=
      fun he => not_not.mp fun hn => h2 ⟨he, not_or.mp hn⟩
  · exact ⟨hmountfs, hmknod, fun _ => .inl (hr.symm.trans h3), fun _ => .inl (hr.symm.trans h3)⟩
  · exact ⟨hmountfs, hmknod, fun he => .inr (Bool.eq_true_of_not_eq_false fun hn => h4 ⟨he, hn⟩),
      fun he => .inr (Bool.eq_true_of_not_eq_false fun hn => h5 ⟨he, hn⟩)⟩

theorem uiAllowed_rule {e : Nat} (h : uiAllowed sv sender e = true) :
    ServiceRule sv sender e 2 := by
  unfold uiAllowed at h
  split_ifs at h with h1 h2
  exact ⟨Bool.eq_false_of_not_eq_true h1, fun he => not_not.mp fun hn => h2 ⟨he, hn⟩⟩

/-- `msg_allowed` keeps the rule for the pid of a service -/
theorem msgAllowed_rule (h0 : dest ≠ 0) (hk0 : 0 < k) (hk : k < 8) (hd : dest = sv.pid k)
    (h : msgAllowed sv sender dest event = true) :
    sender.priority = 0 ∨ ServiceRule sv sender (evtFunc event) k := by
  by_cases hp : sender.priority = 0
  · exact .inl hp
  refine .inr ?_
  have hother : ∀ j, 0 < j → j < 8 → j ≠ k → ¬toService sv dest j :=
    fun j hj0 hj hne hs => hne ((toService_iff h0 hk hd hj0 hj).mp hs)
  have hself : toService sv dest k := .inr hd
  unfold msgAllowed at h
  dsimp only at h
  rw [if_neg hp, if_neg h0] at h
  by_cases h1 : k = 1
  · subst h1
    rw [if_pos hself] at h
    exact fsAllowed_rule h
  rw [if_neg (hother 1 (by decide) (by decide) (Ne.symm h1))] at h
  by_cases h2 : k = 2
  · subst h2
    rw [if_pos hself] at h
    exact uiAllowed_rule h
  rw [if_neg (hother 2 (by decide) (by decide) (Ne.symm h2))] at h
  by_cases h3 : k = 3
  · subst h3
    rw [if_pos hself, Bool.not_eq_true'] at h
    exact h
  rw [if_neg (hother 3 (by decide) (by decide) (Ne.symm h3))] at h
  by_cases h4 : k = 4
  · subst h4
    rw [if_pos hself, Bool.not_eq_true'] at h
    exact h
  rw [if_neg (hother 4 (by decide) (by decide) (Ne.symm h4))] at h
  by_cases h5 : k = 5
  · subst h5
    rw [if_pos hself, Bool.not_eq_true'] at h
    exact h
  rw [if_neg (hother 5 (by decide) (by decide) (Ne.symm h5))] at h
  by_cases h6 : k = 6
  · subst h6
    rw [if_pos hself, Bool.not_eq_true'] at h
    exact h
  rw [if_neg (hother 6 (by decide) (by decide) (Ne.symm h6))] at h
  obtain rfl : k = 7 := by omega
  split_ifs at h with h7
  exact not_not.mp fun hn => h7 ⟨hself, hn⟩

/-! ## the page of the destination -/

theorem frameOf_kmapEntry (task : Nat) : frameOf (kmapEntry (w64 (task * 4096)) 27) = task % 2^40 := by
  unfold frameOf kmapEntry w64
  omega

theorem msgSendsTo_some {page : Nat} (h : msgSendsTo sv isTcb sender event = some page) :
    ∃ t, (resolveTask sv (eventTask event)).1 = some t ∧ msgAllowed sv sender t event = true ∧
      page = (if t = 0 then sender.pid else t) % 2^40 := by
  unfold msgSendsTo at h
  split_ifs at h with hf
  split at h
  · cases h
  · rename_i t ht
    by_cases ha : msgAllowed sv sender t event = false
    · rw [if_pos ha] at h
      cases h
    · rw [if_neg ha, frameOf_kmapEntry] at h
      obtain ⟨-, hpage⟩ := Option.ite_none_right_eq_some.mp h
      exact ⟨t, ht, Bool.eq_true_of_not_eq_false ha, (Option.some.inj hpage).symm⟩

def eventOf (task : Int) (func : Nat) : Nat := (task % 2^48).toNat * 65536 + func

theorem eventOf_spec {func : Nat} (h1 : -2^47 ≤ task) (h2 : task < 2^47) (hf : func < 32768) :
    eventOf task func < 2^64 ∧ eventTask (eventOf task func) = task ∧
      evtFunc (eventOf task func) = func := by
  have hmod : 0 ≤ task % 2^48 ∧ task % 2^48 < 2^48 := by omega
  have hdiv : eventOf task func / 65536 = (task % 2^48).toNat := by
    unfold eventOf
    omega
  refine ⟨by unfold eventOf; omega, ?_, by unfold evtFunc eventOf; omega⟩
  unfold eventTask i64
  rw [hdiv]
  split_ifs with hlt
  · have hval : (((task % 2^48).toNat * 65536 : ℕ) : ℤ) = task * 65536 := by omega
    rw [hval]
    exact Int.mul_tdiv_cancel _ (by decide)
  · have hval : (((task % 2^48).toNat * 65536 : ℕ) : ℤ) - 2^64 = task * 65536 := by omega
    rw [hval]
    exact Int.mul_tdiv_cancel _ (by decide)

/-- for every table, sender and function: a message with this destination that gets to the queue of
a service keeps the rule of the service, and `services[]` is read inside its bounds -/
def DestSafe (task : Int) : Prop :=
  ∀ (sv : Services) (isTcb : Nat → Bool) (sender : Subject) (event : Nat), event < 2^64 →
    eventTask event = task →
    (∀ k, 0 < k → k < 8 → sv.pid k ≠ 0 → msgSendsTo sv isTcb sender event = some (sv.pid k) →
      sender.priority = 0 ∨ ServiceRule sv sender (evtFunc event) k) ∧
    ∀ i ∈ (resolveTask sv task).2, i < 8

/-- a service by its id, or a task by its number in 40 bits -/
def Canonical (task : Int) : Prop := (-8 < task ∧ task < 0) ∨ (0 < task ∧ task < 2^40)

theorem resolveTask_neg (h : task < 0) (h8 : -8 < task) {t : Nat}
    (ht : (resolveTask sv task).1 = some t) : t ≠ 0 ∧ t < 2^40 := by
  rw [resolveTask, if_pos h] at ht
  split_ifs at ht with hc
  obtain rfl := Option.some.inj ht
  exact ⟨hc.resolve_left (by omega), sv.page _ (by omega)⟩

theorem Canonical.resolve (hc : Canonical task) {t : Nat} (ht : (resolveTask sv task).1 = some t) :
    t ≠ 0 ∧ t < 2^40 := by
  obtain ⟨h8, hneg⟩ | ⟨hpos, hlt⟩ := hc
  · exact resolveTask_neg hneg h8 ht
  · rw [resolveTask, if_neg (by omega)] at ht
    obtain rfl := Option.some.inj ht
    omega

theorem Canonical.index (hc : Canonical task) : ∀ i ∈ (resolveTask sv task).2, i < 8 := by
  obtain ⟨h8, hneg⟩ | ⟨hpos, -⟩ := hc
  · rw [resolveTask, if_pos hneg]
    intro i hi
    obtain rfl := List.mem_singleton.mp hi
    omega
  · rw [resolveTask, if_neg (by omega)]
    exact fun i hi => absurd hi List.not_mem_nil

theorem Canonical.safe (hc : Canonical task) : DestSafe task := by
  intro sv isTcb sender event _ htask
  refine ⟨fun k hk0 hk hreg hsend => ?_, hc.index⟩
  obtain ⟨t, ht, hall, hpage⟩ := msgSendsTo_some hsend
  rw [htask] at ht
  obtain ⟨h0, hlt⟩ := hc.resolve ht
  rw [if_neg h0, Nat.mod_eq_of_lt hlt] at hpage
  exact msgAllowed_rule h0 hk0 hk hpage.symm hall

/-- a multiple of 2^40 is page 0, which is no task -/
theorem destSafe_of_dvd (h0 : 0 < task) (hd : 2^40 ∣ task) : DestSafe task := by
  intro sv isTcb sender event _ htask
  have hres : resolveTask sv task = (some task.toNat, []) := if_neg (by omega)
  refine ⟨fun k _ _ hreg hsend => ?_, by rw [hres]; exact fun i hi => absurd hi List.not_mem_nil⟩
  obtain ⟨t, ht, -, hpage⟩ := msgSendsTo_some hsend
  rw [htask, hres] at ht
  obtain rfl := Option.some.inj ht
  rw [if_neg (by omega)] at hpage
  omega

theorem msgAllowed_other (h0 : dest ≠ 0) (h : ∀ k, 0 < k → k < 8 → ¬toService sv dest k) :
    msgAllowed sv sender dest event = true := by
  have h7 : ¬(toService sv dest 7 ∧ sender.pid ≠ sv.pid 2) :=
    fun hc => h 7 (by decide) (by decide) hc.1
  unfold msgAllowed
  dsimp only
  rw [if_neg h0, if_neg (h 1 (by decide) (by decide)), if_neg (h 2 (by decide) (by decide)),
    if_neg (h 3 (by decide) (by decide)), if_neg (h 4 (by decide) (by decide)),
    if_neg (h 5 (by decide) (by decide)), if_neg (h 6 (by decide) (by decide)),
    if_neg h7, ite_self]

/-- FS is the task `p`, and there is no other service -/
def onlyFs (p : Nat) (hp : p < 2^40) : Services where
  pid k := if k = 1 then p else 0
  page k _ := by
    split_ifs
    · exact hp
    · decide
  inj j _ k _ he h0 := by
    split_ifs at he h0 <;> omega

/-- an alias of the pid of FS -/
theorem alias_sends (hlt : task < 2^47) (hge : 2^40 ≤ task) {p : Nat} (hp : p < 2^40)
    (he : task.toNat % 2^40 = p) :
    msgSendsTo (onlyFs p hp) (fun _ => true) (subjectOf []) (eventOf task 6) = some p := by
  obtain ⟨-, htask, hfunc⟩ := eventOf_spec (show -2^47 ≤ task by omega) hlt (by decide : 6 < 32768)
  have hres : (resolveTask (onlyFs p hp) task).1 = some task.toNat := by
    rw [resolveTask, if_neg (by omega)]
  have hother : ∀ k, 0 < k → k < 8 → ¬toService (onlyFs p hp) task.toNat k := by
    rintro k hk0 hk (h | h)
    · unfold srvId at h
      omega
    · have := (onlyFs p hp).page k hk
      omega
  have hall : msgAllowed (onlyFs p hp) (subjectOf []) task.toNat (eventOf task 6) = true :=
    msgAllowed_other (by omega) hother
  unfold msgSendsTo
  rw [hfunc, if_neg (by decide), htask, hres]
  dsimp only
  have hne : task.toNat ≠ 0 := by omega
  rw [hall, if_neg Bool.false_ne_true.symm, if_neg hne, frameOf_kmapEntry, if_pos rfl, he]

/-- a task that sends `SYS_mountfs` and is not `init` breaks the rule of FS -/
theorem not_mountfs {p : Nat} (hp : p < 2^40) (hpri : sender.priority ≠ 0) (hpid : sender.pid ≠ 0) :
    ¬(sender.priority = 0 ∨ ServiceRule (onlyFs p hp) sender 6 1) := by
  rintro (h | h)
  · exact hpri h
  · exact hpid (FsRule.mountfs h rfl)

end

end OsZ
