import OsZ.Base.Run
import OsZ.Fs.Lookup
import OsZ.Fs.Suffix

/-!
# The mount of a path

* `MountsOk`         the mount points are different live entries of the cache, kept by `fcb_add` and
                     `mtab_add` (`mountStep_keeps`);
* `mountScan_spec`   the loop over the mounts finds the longest match;
* `lookup_selects`   the driver is called for the longest mount point and gets the rest of the path.
-/

namespace OsZ

/-! ## the table -/

/-- `fcb[i].abspath` -/
def pathAt (fcb : List PathFcb) (i : Nat) : Option (List UInt8) := (fcb[i]?).bind (·.abspath)

structure MountsOk (st : LookState) : Prop where
  points : (st.mtab.map (·.mountpoint)).Nodup
  live : ∀ m ∈ st.mtab, pathAt st.fcb m.mountpoint ≠ none
  paths : ∀ i j p, pathAt st.fcb i = some p → pathAt st.fcb j = some p → i = j

section
variable {fcb : List PathFcb} {abspath : List UInt8} {i j : Nat}

theorem pathAt_modify {g : PathFcb → PathFcb} (hg : ∀ f, (g f).abspath = f.abspath) (i j : Nat) :
    pathAt (fcb.modify i g) j = pathAt fcb j := by
  unfold pathAt
  rw [List.getElem?_modify]
  split
  · cases fcb[j]? with
    | none => rfl
    | some f => exact hg f
  · cases fcb[j]? <;> rfl

theorem pathAt_of_findIdx {p : PathFcb → Bool} (h : fcb.findIdx? p = some i) : ∃ f, fcb[i]? = some f ∧ p f = true := by
  obtain ⟨hlt, hp, -⟩ := List.findIdx?_eq_some_iff_getElem.mp h
  exact ⟨fcb[i], List.getElem?_eq_getElem hlt, hp⟩

theorem fcbGet_live (h : fcbGet fcb abspath = some i) : pathAt fcb i ≠ none := by
  unfold fcbGet at h
  split at h
  · cases h
  · obtain ⟨f, hf, hp⟩ := pathAt_of_findIdx h
    unfold pathAt
    rw [hf]
    intro hc
    have hnone : f.abspath = none := hc
    rw [hnone] at hp
    simp at hp

theorem fcbAdd_path (fcb : List PathFcb) (abspath : List UInt8) (type : FcbType) :
    (∀ j, pathAt (fcbAdd fcb abspath type).1 j = pathAt fcb j) ∨
    (∃ k, pathAt fcb k = none ∧ (∀ j, pathAt fcb j ≠ some abspath) ∧
      ∀ j, pathAt (fcbAdd fcb abspath type).1 j = if j = k then some abspath else pathAt fcb j) := by
  unfold fcbAdd
  cases hfind : fcb.findIdx? (fun f => f.abspath == some abspath) with
  | some i => exact Or.inl fun _ => rfl
  | none =>
    right
    have hno : ∀ j, pathAt fcb j ≠ some abspath := by
      intro j hc
      unfold pathAt at hc
      obtain ⟨f, hf, hfa⟩ := Option.bind_eq_some_iff.mp hc
      have := List.findIdx?_eq_none_iff.mp hfind f (List.mem_of_getElem? hf)
      rw [hfa] at this
      simp at this
    cases hfree : fcb.findIdx? (fun f => f.abspath == none) with
    | some k =>
      obtain ⟨f, hf, hfa⟩ := pathAt_of_findIdx hfree
      refine ⟨k, ?_, hno, fun j => ?_⟩
      · unfold pathAt
        rw [hf]
        simpa using hfa
      · unfold pathAt
        dsimp only
        rw [List.getElem?_modify]
        by_cases hjk : j = k
        · subst hjk
          rw [hf, if_pos rfl]
          show (if j = j then newFcb f abspath type else f).abspath = some abspath
          rw [if_pos rfl]
          rfl
        · rw [if_neg hjk]
          cases fcb[j]? with
          | none => rfl
          | some f =>
            show (if k = j then newFcb f abspath type else f).abspath = f.abspath
            rw [if_neg (fun h => hjk h.symm)]
    | none =>
      refine ⟨fcb.length, ?_, hno, fun j => ?_⟩
      · unfold pathAt
        rw [List.getElem?_eq_none (Nat.le_refl _)]
        rfl
      · unfold pathAt
        dsimp only
        by_cases hj : j = fcb.length
        · subst hj
          rw [if_pos rfl, List.getElem?_append_right (Nat.le_refl _), Nat.sub_self]
          rfl
        · rw [if_neg hj]
          rcases Nat.lt_or_ge j fcb.length with hlt | hge
          · rw [List.getElem?_append_left hlt]
          · rw [List.getElem?_eq_none (by rw [List.length_append, List.length_singleton]; omega),
              List.getElem?_eq_none hge]

end

section
variable {env : LookEnv} {st st' : LookState}

theorem MountsOk.congr (h : MountsOk st) (hp : ∀ j, pathAt st'.fcb j = pathAt st.fcb j)
    (hm : st'.mtab.map (·.mountpoint) = st.mtab.map (·.mountpoint)) : MountsOk st' where
  points := hm ▸ h.points
  live := by
    intro m hmem
    have hin : m.mountpoint ∈ st.mtab.map (·.mountpoint) := hm ▸ List.mem_map_of_mem hmem
    obtain ⟨m', hm', heq⟩ := List.mem_map.mp hin
    rw [hp, ← heq]
    exact h.live m' hm'
  paths := by
    intro i j p
    rw [hp, hp]
    exact h.paths i j p

theorem fcbAdd_mounts (h : MountsOk st) (abspath : List UInt8) (type : FcbType) :
    MountsOk { st with fcb := (fcbAdd st.fcb abspath type).1 } := by
  rcases fcbAdd_path st.fcb abspath type with hsame | ⟨k, hk, hno, hnew⟩
  · exact h.congr hsame rfl
  · refine ⟨h.points, fun m hm => ?_, fun i j p hi hj => ?_⟩
    · show pathAt (fcbAdd st.fcb abspath type).1 m.mountpoint ≠ none
      rw [hnew]
      split
      · exact Option.some_ne_none _
      · exact h.live m hm
    · have hi' := (hnew i).symm.trans hi
      have hj' := (hnew j).symm.trans hj
      split at hi'
      · next hik =>
        split at hj'
        · next hjk => rw [hik, hjk]
        · exact absurd (hj'.trans hi'.symm) (hno j)
      · split at hj'
        · exact absurd (hi'.trans hj'.symm) (hno i)
        · exact h.paths i j p hi' hj'

theorem mtabAddOne_mounts {dev file : List UInt8} {err : Option LookErr} {ff : Option Nat} (h : MountsOk st)
    (hadd : mtabAddOne env st dev file = some (st', err, ff)) : MountsOk st' := by
  have hsame : ∀ {e : Option LookErr}, some (st, e, (none : Option Nat)) = some (st', err, ff) → MountsOk st' := by
    rintro e ⟨⟩
    exact h
  unfold mtabAddOne at hadd
  split at hadd
  · exact hsame hadd
  cases hfd : fcbGet st.fcb dev with
  | none =>
    rw [hfd] at hadd
    exact hsame hadd
  | some fd =>
    rw [hfd] at hadd
    dsimp only at hadd
    split at hadd
    · exact hsame hadd
    cases hff : fcbGet st.fcb file with
    | none =>
      rw [hff] at hadd
      exact hsame hadd
    | some f =>
      rw [hff] at hadd
      dsimp only at hadd
      split at hadd
      · exact hsame hadd
      split at hadd
      · exact hsame hadd
      cases hdet : env.detect fd with
      | none =>
        rw [hdet] at hadd
        dsimp only at hadd
        split at hadd
        · cases hadd
        · exact hsame hadd
      | some fs =>
        rw [hdet] at hadd
        dsimp only at hadd
        -- the table is changed, the paths of the cache are not
        cases hidx : st.mtab.findIdx? (·.mountpoint = f) with
        | some i =>
          rw [hidx] at hadd
          cases hadd
          obtain ⟨hlt, hi, -⟩ := List.findIdx?_eq_some_iff_getElem.mp hidx
          refine h.congr (fun j => ?_) ?_
          · refine (pathAt_modify ?_ fd j).trans ((pathAt_modify ?_ f j).trans (pathAt_modify ?_ _ j)) <;>
              exact fun _ => rfl
          · have hpoint : (st.mtab[i]?).map Mount.mountpoint = some f := by
              rw [List.getElem?_eq_getElem hlt]
              exact congrArg some (of_decide_eq_true hi)
            apply List.ext_getElem?
            intro j
            show ((st.mtab.set i ⟨f, fd, some fs⟩).map Mount.mountpoint)[j]? = (st.mtab.map Mount.mountpoint)[j]?
            rw [List.getElem?_map, List.getElem?_map, List.getElem?_set]
            by_cases hij : i = j
            · subst hij
              rw [if_pos rfl, if_pos hlt, hpoint]
              rfl
            · rw [if_neg hij]
        | none =>
          rw [hidx] at hadd
          cases hadd
          have hno : ∀ m ∈ st.mtab, m.mountpoint ≠ f := by
            intro m hm
            simpa using List.findIdx?_eq_none_iff.mp hidx m hm
          have hpath : ∀ j, pathAt ((((st.fcb.modify f fun g => { g with nopen := g.nopen + 1 }).modify f fun g =>
              { g with
                fs := some fs
                mode := if f = devFcb then 1 else ((st.fcb[fd]?).map (·.mode)).getD 0
                storage := if f = devFcb then g.storage else fd }).modify fd fun g =>
              { g with nopen := g.nopen + 1 })) j = pathAt st.fcb j := by
            intro j
            refine (pathAt_modify ?_ fd j).trans ((pathAt_modify ?_ f j).trans (pathAt_modify ?_ f j)) <;>
              exact fun _ => rfl
          refine ⟨?_, fun m hm => ?_, fun a b p ha hb => ?_⟩
          · show ((st.mtab ++ [(⟨f, fd, some fs⟩ : Mount)]).map Mount.mountpoint).Nodup
            rw [List.map_append, List.map_singleton]
            refine List.nodup_append'.mpr ⟨h.points, List.nodup_singleton _, ?_⟩
            rw [List.disjoint_singleton]
            intro hc
            obtain ⟨m, hm, heq⟩ := List.mem_map.mp hc
            exact hno m hm heq
          · rw [hpath]
            rcases List.mem_append.mp hm with hm | hm
            · exact h.live m hm
            · rw [List.mem_singleton.mp hm]
              exact fcbGet_live hff
          · rw [hpath] at ha hb
            exact h.paths a b p ha hb

theorem mtabAdd_mounts {dev file : List UInt8} (h : MountsOk st) (hadd : mtabAdd env st dev file = some st') :
    MountsOk st' := by
  unfold mtabAdd at hadd
  cases hone : mtabAddOne env st dev file with
  | none =>
    rw [hone] at hadd
    cases hadd
  | some r =>
    obtain ⟨st₁, err, ff⟩ := r
    rw [hone] at hadd
    dsimp only at hadd
    have h₁ := mtabAddOne_mounts h hone
    split at hadd
    · obtain ⟨⟨st₂, err₂, ff₂⟩, htwo, rfl⟩ := Option.map_eq_some_iff.mp hadd
      exact (mtabAddOne_mounts h₁ htwo).congr (fun _ => rfl) rfl
    · cases hadd
      exact h₁

/-! ## runs -/

inductive MountAct where
  | add (abspath : List UInt8) (type : FcbType)
  | mount (dev file : List UInt8)
  | drop (i : Nat)

/-- paths come to the cache, are mounted, and leave the cache unless something is mounted on them -/
inductive MountStep (env : LookEnv) : LookState → MountAct → LookState → Prop
  | add (st : LookState) (abspath : List UInt8) (type : FcbType) :
      MountStep env st (.add abspath type) { st with fcb := (fcbAdd st.fcb abspath type).1 }
  | mount (st st' : LookState) (dev file : List UInt8) (h : mtabAdd env st dev file = some st') :
      MountStep env st (.mount dev file) st'
  | drop (st : LookState) (i : Nat) (h : ∀ m ∈ st.mtab, m.mountpoint ≠ i) :
      MountStep env st (.drop i) { st with fcb := st.fcb.modify i fun f => { f with abspath := none } }

/-- after `mtab_init()` -/
def mtabInit : LookState := ⟨(fcbAdd [] [chSlash] .regDir).1, [], false⟩

theorem mtabInit_mounts : MountsOk mtabInit where
  points := List.nodup_nil
  live := by
    intro m hm
    cases hm
  paths := by
    have hzero : ∀ i p, pathAt mtabInit.fcb i = some p → i = 0 := by
      intro i p h
      cases i with
      | zero => rfl
      | succ i => cases h
    intro i j p hi hj
    rw [hzero i p hi, hzero j p hj]

theorem drop_mounts (h : MountsOk st) {i : Nat} (hi : ∀ m ∈ st.mtab, m.mountpoint ≠ i) :
    MountsOk { st with fcb := st.fcb.modify i fun f => { f with abspath := none } } := by
  have hpath : ∀ j, pathAt (st.fcb.modify i fun f => { f with abspath := none }) j =
      if j = i then none else pathAt st.fcb j := by
    intro j
    unfold pathAt
    rw [List.getElem?_modify]
    by_cases hj : i = j
    · rw [if_pos hj.symm]
      cases st.fcb[j]? with
      | none => rfl
      | some f =>
        show (if i = j then { f with abspath := none } else f).abspath = none
        rw [if_pos hj]
    · rw [if_neg (fun hc => hj hc.symm)]
      cases st.fcb[j]? with
      | none => rfl
      | some f =>
        show (if i = j then { f with abspath := none } else f).abspath = f.abspath
        rw [if_neg hj]
  refine ⟨h.points, fun m hm => ?_, fun a b p ha hb => ?_⟩
  · show pathAt (st.fcb.modify i fun f => { f with abspath := none }) m.mountpoint ≠ none
    rw [hpath, if_neg (hi m hm)]
    exact h.live m hm
  · have ha' := (hpath a).symm.trans ha
    have hb' := (hpath b).symm.trans hb
    split at ha'
    · cases ha'
    · split at hb'
      · cases hb'
      · exact h.paths a b p ha' hb'

theorem mountStep_keeps {act : MountAct} (h : MountsOk st) (hs : MountStep env st act st') : MountsOk st' := by
  cases hs with
  | add abspath type => exact fcbAdd_mounts h abspath type
  | mount _ dev file hadd => exact mtabAdd_mounts h hadd
  | drop i hi => exact drop_mounts h hi

theorem mounts_of_run (h : Reach (MountStep env) (fun _ _ => True) mtabInit st) : MountsOk st :=
  h.keeps mtabInit_mounts fun _ _ _ hu _ hs => mountStep_keeps hu hs

/-! ## the longest match -/

theorem mountScan_spec (fcb : List PathFcb) (abspath : List UInt8) (ms : List Mount) (i k l : Nat) :
    (mountScan fcb abspath ms i (k, l) = (k, l) ∨ ∃ j m, ms[j]? = some m ∧ mountPath fcb m <+: abspath ∧
      mountScan fcb abspath ms i (k, l) = (i + j, (mountPath fcb m).length)) ∧
    l ≤ (mountScan fcb abspath ms i (k, l)).2 ∧
    ∀ m ∈ ms, mountPath fcb m <+: abspath → (mountPath fcb m).length ≤ (mountScan fcb abspath ms i (k, l)).2 := by
  induction ms generalizing i k l with
  | nil => exact ⟨Or.inl rfl, Nat.le_refl _, by simp⟩
  | cons m ms ih =>
    rw [mountScan]
    by_cases hm : l < (mountPath fcb m).length ∧ (mountPath fcb m).isPrefixOf abspath = true
    · rw [if_pos hm]
      obtain ⟨h1, h2, h3⟩ := ih (i + 1) i (mountPath fcb m).length
      have hpre : mountPath fcb m <+: abspath := List.isPrefixOf_iff_prefix.mp hm.2
      refine ⟨Or.inr ?_, (Nat.le_of_lt hm.1).trans h2, ?_⟩
      · rcases h1 with h1 | ⟨j, m', hj, hp, hr⟩
        · exact ⟨0, m, rfl, hpre, h1⟩
        · exact ⟨j + 1, m', hj, hp, by rw [hr]; congr 1; omega⟩
      · intro m' hm' hp
        rcases List.mem_cons.mp hm' with rfl | hm'
        · exact h2
        · exact h3 m' hm' hp
    · rw [if_neg hm]
      obtain ⟨h1, h2, h3⟩ := ih (i + 1) k l
      refine ⟨?_, h2, ?_⟩
      · rcases h1 with h1 | ⟨j, m', hj, hp, hr⟩
        · exact Or.inl h1
        · exact Or.inr ⟨j + 1, m', hj, hp, by rw [hr]; congr 1; omega⟩
      · intro m' hm' hp
        rcases List.mem_cons.mp hm' with rfl | hm'
        · have hle : ¬ l < (mountPath fcb m').length := fun hc => hm ⟨hc, List.isPrefixOf_iff_prefix.mpr hp⟩
          omega
        · exact h3 m' hm' hp

/-- `m` is the mount number `k`, and no longer mount point is a prefix of the path -/
def IsLongest (st : LookState) (abspath : List UInt8) (k : Nat) (m : Mount) : Prop :=
  st.mtab[k]? = some m ∧ mountPath st.fcb m <+: abspath ∧
    ∀ m' ∈ st.mtab, mountPath st.fcb m' <+: abspath → (mountPath st.fcb m').length ≤ (mountPath st.fcb m).length

theorem IsLongest.unique (h : MountsOk st) {abspath : List UInt8} {k k' : Nat} {m m' : Mount}
    (h1 : IsLongest st abspath k m) (h2 : IsLongest st abspath k' m') : k = k' ∧ m = m' := by
  obtain ⟨hk, hp, hl⟩ := h1
  obtain ⟨hk', hp', hl'⟩ := h2
  have hmem := List.mem_of_getElem? hk
  have hmem' := List.mem_of_getElem? hk'
  have hlen : (mountPath st.fcb m).length = (mountPath st.fcb m').length :=
    Nat.le_antisymm (hl' m hmem hp) (hl m' hmem' hp')
  have hpath : mountPath st.fcb m = mountPath st.fcb m' := by
    rw [List.prefix_iff_eq_take.mp hp, List.prefix_iff_eq_take.mp hp', hlen]
  have hpoint : m.mountpoint = m'.mountpoint := by
    obtain ⟨p, hp⟩ := Option.ne_none_iff_exists'.mp (h.live m hmem)
    obtain ⟨p', hp'⟩ := Option.ne_none_iff_exists'.mp (h.live m' hmem')
    have hpp : p = p' := by
      have h1 : mountPath st.fcb m = p := by
        unfold mountPath
        exact congrArg (·.getD []) hp
      have h2 : mountPath st.fcb m' = p' := by
        unfold mountPath
        exact congrArg (·.getD []) hp'
      rw [← h1, ← h2, hpath]
    exact h.paths _ _ p hp (hpp ▸ hp')
  have hkk : k = k' := by
    have hget : (st.mtab.map (·.mountpoint))[k]? = (st.mtab.map (·.mountpoint))[k']? := by
      rw [List.getElem?_map, List.getElem?_map, hk, hk', Option.map_some, Option.map_some, hpoint]
    have hlt : k < (st.mtab.map (·.mountpoint)).length := by
      rw [List.length_map]
      exact (List.getElem?_eq_some_iff.mp hk).1
    exact (List.getElem?_inj hlt h.points).mp hget
  subst hkk
  exact ⟨rfl, Option.some.inj (hk.symm.trans hk')⟩

/-! ## the canonical path starts at the root -/

theorem prefix_head {x y : List UInt8} (h : x <+: y) : x = [] ∨ x.head? = y.head? := by
  obtain ⟨t, rfl⟩ := h
  cases x with
  | nil => exact Or.inl rfl
  | cons a x => exact Or.inr rfl

theorem head_of_initial {x y : List UInt8} {a : UInt8} (h : x <+: y) (hx : x.head? = some a) : y.head? = some a := by
  rcases prefix_head h with rfl | heq
  · cases hx
  · rw [← heq, hx]

theorem canonRound_head {e : CanonEnv} {c : Canon} {a : UInt8} (h : c.res.head? = some a) :
    (canonRound e c).1.res.head? = some a := by
  have hstart : (c.slash e).slashes.res.head? = some a := by
    unfold Canon.slashes
    rw [Canon.skip_res, Canon.slash_res]
    unfold slashed
    split
    · exact h
    · exact head_of_initial (List.prefix_append _ _) h
  unfold canonRound canonName
  split
  · rw [Canon.skip_res]
    exact hstart
  · split
    · next hup =>
      rw [Canon.skip_res]
      rcases prefix_head (List.take_prefix ((c.slash e).slashes.res.length - 4) (c.slash e).slashes.res) with hnil | heq
      · have hlen := congrArg List.length hnil
        rw [List.length_take, List.length_nil] at hlen
        omega
      · exact heq.trans hstart
    · refine head_of_initial (canonSuffix_res _) ?_
      rw [Canon.skip_res]
      exact head_of_initial (List.prefix_append _ _) hstart

theorem canonLoop_head {e : CanonEnv} {n : Nat} {c : Canon} {a : UInt8} (h : c.res.head? = some a) :
    (canonLoop e n c).res.head? = some a := by
  induction n generalizing c with
  | zero => exact h
  | succ n ih =>
    rw [canonLoop]
    split
    · exact h
    · dsimp only
      split
      · exact ih (canonRound_head h)
      · exact canonRound_head h

theorem cleanEnd_head {y : List UInt8 × UInt8} (h : y.1.head? = some chSlash) :
    cleanEnd y = [] ∨ (cleanEnd y).head? = some chSlash := by
  have hpre : (if y.1.getLast? = some chSlash then y.1.dropLast else y.1).rdropWhile (· == chDot) <+: y.1 := by
    refine (List.rdropWhile_prefix _ _).trans ?_
    split
    · exact List.dropLast_prefix _
    · exact List.prefix_refl _
  unfold cleanEnd
  rcases prefix_head hpre with hnil | hhead
  · rw [hnil, List.nil_append]
    split
    · exact Or.inr rfl
    · exact Or.inl rfl
  · exact Or.inr (head_of_initial (List.prefix_append _ _) (hhead.trans h))

theorem canonize_head {e : CanonEnv} {path abspath : List UInt8} (hr : e.root.head? = some chSlash)
    (hp : path.head? = some chSlash) (h : canonize e path = some abspath) :
    abspath = [] ∨ abspath.head? = some chSlash := by
  obtain ⟨a, l, rfl⟩ : ∃ a l, path = a :: l := by
    cases path with
    | nil => cases hp
    | cons a l => exact ⟨a, l, rfl⟩
  obtain rfl : a = chSlash := Option.some.inj hp
  have hd : driveOf (chSlash :: l) = none :=
    driveOf_append (s := []) (r := chSlash :: l) (by simp) (by rintro a ⟨⟩; decide)
  have hstart : (canonStart e (chSlash :: l)).res.head? = some chSlash := by
    rw [canonStart_none hd, if_pos (show (chSlash :: l).getD 0 0 = chSlash from rfl)]
    split
    · rw [Canon.skip_res]
      exact hr
    · exact hr
  unfold canonize at h
  rw [if_neg (List.cons_ne_nil _ _)] at h
  obtain rfl := Option.some.inj h
  unfold canonRun
  rw [canonEnd_res]
  rcases cleanEnd_head (y := ((canonLoop e (canonStart e (chSlash :: l)).rest.length (canonStart e (chSlash :: l))).res,
    (canonLoop e (canonStart e (chSlash :: l)).rest.length (canonStart e (chSlash :: l))).prev))
    (canonLoop_head hstart) with hnil | hhead
  · left
    rw [hnil]
    rfl
  · right
    obtain ⟨l', hl'⟩ : ∃ l', cleanEnd _ = chSlash :: l' := List.head?_eq_some_iff.mp hhead
    rw [hl', List.takeWhile_cons_of_pos (by decide)]
    rfl

/-! ## the call of the driver -/

theorem passDriver_call {f f' fd fs : Option Nat} {k k' fs' fd' l l' : Nat} {abspath abspath' : List UInt8}
    (h : passDriver env st f k fd fs abspath l = (.call f' k' fs' fd' abspath' l', st')) :
    fd = some fd' ∧ k' = k ∧ abspath' = abspath ∧ l' = l := by
  unfold passDriver at h
  cases fd with
  | none => cases h
  | some fd =>
    dsimp only at h
    split at h
    · cases h
    · split at h
      · cases h
      · split at h
        · cases h
        · split at h
          · cases h
          · cases h
            exact ⟨rfl, rfl, rfl, rfl⟩

theorem lookupPass_call {path abspath abspath' : List UInt8} {creat : Bool} {f : Option Nat} {k fs fd l : Nat}
    (hcanon : canonize env.canon path = some abspath) (hcache : fcbGet st.fcb abspath = none)
    (h : lookupPass env st path creat = (.call f k fs fd abspath' l, st')) :
    k = (mountScan st.fcb abspath st.mtab 0 (0, 0)).1 ∧ l = (mountScan st.fcb abspath st.mtab 0 (0, 0)).2 ∧
      (st.mtab[k]?).map (·.storage) = some fd ∧ abspath' = abspath := by
  unfold lookupPass at h
  split at h
  · cases h
  rw [hcanon] at h
  dsimp only at h
  split at h
  · cases h
  rw [hcache] at h
  dsimp only at h
  unfold passMount at h
  dsimp only at h
  split at h
  · -- the device `/dev/` is the path itself, which is not in the cache
    rw [hcache] at h
    cases h
  · obtain ⟨h1, h2, h3, h4⟩ := passDriver_call h
    exact ⟨h2, h4, h2 ▸ h1, h3⟩

/-- one mount is the longest, it is selected, and the driver gets its storage and the rest of the path -/
def Selects (env : LookEnv) (st : LookState) (path : List UInt8) (creat : Bool) (abspath : List UInt8) : Prop :=
  ∃ k m, IsLongest st abspath k m ∧ (∀ k' m', IsLongest st abspath k' m' → k' = k ∧ m' = m) ∧
    (mountScan st.fcb abspath st.mtab 0 (0, 0)).1 = k ∧
    ∀ f k' fs fd abspath' l st', lookupPass env st path creat = (.call f k' fs fd abspath' l, st') →
      k' = k ∧ fd = m.storage ∧ abspath'.drop l = abspath.drop (mountPath st.fcb m).length

theorem lookup_selects (env : LookEnv) (st : LookState) (path abspath : List UInt8) (creat : Bool)
    (hrun : Reach (MountStep env) (fun _ _ => True) mtabInit st)
    (hroot : (st.mtab[0]?).map (mountPath st.fcb) = some [chSlash])
    (hslash : ∀ m ∈ st.mtab, (mountPath st.fcb m).getLast? = some chSlash)
    (hdir : env.canon.root.head? = some chSlash) (habs : path.head? = some chSlash)
    (hcanon : canonize env.canon path = some abspath) (hcache : fcbGet st.fcb abspath = none) :
    Selects env st path creat abspath ↔ abspath ≠ [] := by
  obtain ⟨m₀, hm₀, hpath₀⟩ := Option.map_eq_some_iff.mp hroot
  have hmem₀ := List.mem_of_getElem? hm₀
  constructor
  · rintro ⟨k, m, ⟨hk, hpre, -⟩, -⟩ rfl
    have hlast := hslash m (List.mem_of_getElem? hk)
    rw [List.prefix_nil.mp hpre] at hlast
    cases hlast
  · intro hne
    have hhead : abspath.head? = some chSlash := (canonize_head hdir habs hcanon).resolve_left hne
    have hpre₀ : mountPath st.fcb m₀ <+: abspath := by
      obtain ⟨t, ht⟩ := List.head?_eq_some_iff.mp hhead
      rw [hpath₀, ht]
      exact ⟨t, rfl⟩
    obtain ⟨h1, -, h3⟩ := mountScan_spec st.fcb abspath st.mtab 0 0 0
    -- the root matches, so something was found
    obtain ⟨k, m, hk, hpre, hscan⟩ : ∃ k m, st.mtab[k]? = some m ∧ mountPath st.fcb m <+: abspath ∧
        mountScan st.fcb abspath st.mtab 0 (0, 0) = (k, (mountPath st.fcb m).length) := by
      rcases h1 with h1 | ⟨j, m, hj, hp, hr⟩
      · have := h3 m₀ hmem₀ hpre₀
        rw [h1, hpath₀] at this
        exact absurd this (by decide)
      · exact ⟨j, m, hj, hp, by rw [hr, Nat.zero_add]⟩
    have hlong : IsLongest st abspath k m := by
      refine ⟨hk, hpre, fun m' hm' hp' => ?_⟩
      have := h3 m' hm' hp'
      rw [hscan] at this
      exact this
    refine ⟨k, m, hlong, fun k' m' h' => (hlong.unique (mounts_of_run hrun) h').imp Eq.symm Eq.symm, by rw [hscan],
      fun f k' fs fd abspath' l st' hcall => ?_⟩
    obtain ⟨hk', hl', hfd, rfl⟩ := lookupPass_call hcanon hcache hcall
    rw [hscan] at hk' hl'
    dsimp only at hk' hl'
    subst hk' hl'
    rw [hk] at hfd
    exact ⟨rfl, (Option.some.inj hfd).symm, rfl⟩

/-- one driver, which finds its file system everywhere -/
def lookDemo : LookEnv := ⟨rootEnv, 512, fun _ => some 0, fun _ => true, 99, false, id, fun _ _ => false⟩

/-- `/dev/root` -/
def devRoot : List UInt8 := devPath ++ rootDrive

/-- the cache with `/`, `/dev/` and `/dev/root` -/
def unmounted : LookState :=
  { mtabInit with fcb := (fcbAdd (fcbAdd mtabInit.fcb devPath .regDir).1 devRoot .device).1 }

/-- `/dev/root` is mounted on `/` -/
def mountDemo : LookState := (mtabAdd lookDemo unmounted devRoot [chSlash]).get (by decide +kernel)

theorem mountDemo_run : Reach (MountStep lookDemo) (fun _ _ => True) mtabInit mountDemo := by
  have h1 : MountStep lookDemo mtabInit (.add devPath .regDir) _ := MountStep.add mtabInit devPath .regDir
  have h2 : MountStep lookDemo _ (.add devRoot .device) _ := MountStep.add { mtabInit with fcb :=
    (fcbAdd mtabInit.fcb devPath .regDir).1 } devRoot .device
  have h3 : MountStep lookDemo unmounted (.mount devRoot [chSlash]) mountDemo :=
    MountStep.mount _ _ _ _ (Option.some_get _).symm
  exact ((Reach.refl.tail trivial h1).tail trivial h2).tail trivial h3

theorem lookup_selects_demo : Selects lookDemo mountDemo [chSlash, 0x61] false [chSlash, 0x61] :=
  (lookup_selects lookDemo mountDemo [chSlash, 0x61] [chSlash, 0x61] false mountDemo_run (by decide +kernel)
    (by decide +kernel) rfl rfl (by decide +kernel) (by decide +kernel)).mpr (by decide)

/-- nothing is left of `//`, and no mount point is a prefix of it -/
theorem lookup_no_mount : Reach (MountStep lookDemo) (fun _ _ => True) mtabInit mountDemo ∧
    canonize lookDemo.canon [chSlash, chSlash] = some [] ∧ fcbGet mountDemo.fcb [] = none ∧
    ¬ Selects lookDemo mountDemo [chSlash, chSlash] false [] := by
  refine ⟨mountDemo_run, by decide +kernel, rfl, ?_⟩
  rintro ⟨k, m, ⟨hk, hpre, -⟩, -⟩
  have hpaths : ∀ m ∈ mountDemo.mtab, mountPath mountDemo.fcb m ≠ [] := by decide +kernel
  exact hpaths m (List.mem_of_getElem? hk) (List.prefix_nil.mp hpre)

end

end OsZ
