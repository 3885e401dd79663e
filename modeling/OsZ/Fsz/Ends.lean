import OsZ.Base.Recurse
import OsZ.Fsz.Updir

/-!
# The driver's search ends

* `locateFrom_succ`     a larger limit changes no result;
* `UpsFirst`            no `..` is behind a joker;
* `locateFrom_returns`  the search for such a path ends;
* `locateFrom_links`    only a symbolic link or a union sends the search back.

Behind a joker the stack may have directories whose place is behind the path that is looked at, so a
`..` there may copy a string over its own end.
-/

namespace OsZ

/-! ## the limit -/

theorem dirScan_mono {inner inner' : Nat → LocState → Option LocRes}
    (hin : ∀ fid st r, inner fid st = some r → inner' fid st = some r) {dir : Sector} {pathmax path e : Nat}
    {n k : Nat} {st : LocState} {r : DirScan} (h : dirScan inner dir pathmax path e n k st = some r) :
    dirScan inner' dir pathmax path e n k st = some r := by
  induction n generalizing k st with
  | zero => exact h
  | succ n ih =>
    rw [dirScan] at h ⊢
    refine ite_mono id (ite_mono (ite_mono (fun h => ?_) ih) (ite_mono id ih)) h
    cases hr : inner (entFid dir k) { st with fileblk := none } with
    | none =>
      rw [hr] at h
      cases h
    | some q =>
      rw [hr] at h
      rw [hin _ _ q hr]
      dsimp only at h ⊢
      split at h
      · exact h
      · exact ih h

section
variable {v : FszVol} {pathmax root : Nat} {spare creat : Bool} {fuel lsn path : Nat} {st : LocState} {r : LocRes}

theorem locateFrom_succ (h : locateFrom v pathmax root spare fuel creat lsn path st = some r) :
    locateFrom v pathmax root spare (fuel + 1) creat lsn path st = some r := by
  induction fuel generalizing creat lsn path st r with
  | zero => cases h
  | succ fuel ih =>
    rw [locateFrom] at h ⊢
    dsimp only at h ⊢
    refine ite_mono (fun h => ?_) (ite_mono id fun h => ?_) h
    · cases hstk : st.stack with
      | nil =>
        rw [hstk] at h
        exact h
      | cons top stack =>
        rw [hstk] at h
        exact ite_mono id ih h
    · cases hb : v.readblock lsn with
      | none =>
        rw [hb] at h
        exact h
      | some inode =>
        rw [hb] at h
        dsimp only at h ⊢
        refine ite_mono id (ite_mono id (ite_mono id (ite_mono id fun h => ?_))) h
        cases hdb : dirBlock v inode st.fileblk with
        | inl status =>
          rw [hdb] at h
          exact h
        | inr fileblk =>
          rw [hdb] at h
          dsimp only at h ⊢
          refine ite_mono id (ite_mono (fun h => ?_) id) h
          cases fileblk with
          | none => cases h
          | some dir =>
            dsimp only at h ⊢
            refine ite_mono id (fun h => ?_) h
            split at h
            · cases h
            · rename_i hscan
              rw [dirScan_mono (fun _ _ _ => ih) hscan]
              exact ih h
            · rename_i hscan
              rw [dirScan_mono (fun _ _ _ => ih) hscan]
              exact h
            · rename_i hscan
              rw [dirScan_mono (fun _ _ _ => ih) hscan]
              exact h

/-! ## one name -/

/-- no directory has its entries in a sector list -/
def Listless (v : FszVol) : Prop := ∀ lsn, ¬ ListDir v lsn

theorem pathTexts_length (s : List UInt8) : (pathTexts s).length ≤ s.length := by
  induction s with
  | nil => exact Nat.le_refl 0
  | cons a l ih =>
    rw [pathTexts]
    split_ifs
    · exact Nat.zero_le _
    · exact Nat.succ_le_succ ih
    · cases h : pathTexts l with
      | nil => simp
      | cons x xs =>
        rw [h] at ih
        exact Nat.le_succ_of_le ih

theorem locateFrom_stop (hend : pathEnd (st.buf path) = true) :
    ∃ r, locateFrom v pathmax root spare (fuel + 1) creat lsn path st = some r ∧ r.st.buf = st.buf := by
  rw [locateFrom]
  dsimp only
  rw [nameEnd_here hend, if_neg (by omega)]
  split
  · exact ⟨_, rfl, rfl⟩
  · cases v.readblock lsn with
    | none => exact ⟨_, rfl, rfl⟩
    | some inode =>
      dsimp only
      split
      · exact ⟨_, rfl, rfl⟩
      · split <;> exact ⟨_, rfl, rfl⟩

/-- a name other than `..`: the search returns, goes on with an entry, or tries all directories -/
theorem locateFrom_name {s x : List UInt8} {xs : List (List UInt8)} (hv : Listless v) (hs : StrAt st.buf path s)
    (hx : pathTexts s = x :: xs) (hl : s.length < pathmax) (hup : upText x = false) {y : Option LocRes}
    (hy : locateFrom v pathmax root spare (fuel + 1) creat lsn path st = y) :
    (∃ r, y = some r ∧ r.st.buf = st.buf) ∨
    (jokerText x = false ∧ ∃ fid blk, y = locateFrom v pathmax root spare fuel creat fid (path + x.length)
      (({ st with fileblk := blk } : LocState).pathpush lsn path)) ∨
    (jokerText x = true ∧ ∃ dir, ∀ q, dirScan (fun fid st => locateFrom v pathmax root spare fuel false
        (if fid = 0 then root else fid) (path + x.length) st) dir pathmax path (path + x.length) (numentries dir) 0
        { st with fileblk := some dir } = some q →
      (∀ status st', q = .joker status st' → y = some ⟨status, path, st'⟩) ∧
      ∀ st', q = .none st' → y = some ⟨notFound creat spare, path, st'⟩) := by
  obtain ⟨t, ht, -⟩ := pathTexts_cons hx
  obtain ⟨hdots, hjoker⟩ := dots_text hs ht
  have hchars : Chars st.buf path x := by
    have := hs.chars
    rw [ht.split] at this
    exact this.left
  rw [locateFrom] at hy
  dsimp only at hy
  rw [nameEnd_text hs ht hl, Nat.add_sub_cancel_left, if_neg (fun hc => by rw [hdots, hup] at hc; cases hc)] at hy
  split at hy
  · exact .inl ⟨_, hy.symm, rfl⟩
  cases hr : v.readblock lsn with
  | none =>
    rw [hr] at hy
    exact .inl ⟨_, hy.symm, rfl⟩
  | some inode =>
    rw [hr] at hy
    dsimp only at hy
    split at hy
    · exact .inl ⟨_, hy.symm, rfl⟩
    split at hy
    · exact .inl ⟨_, hy.symm, rfl⟩
    rw [if_neg (buf_name hs hx)] at hy
    split at hy
    · exact .inl ⟨_, hy.symm, rfl⟩
    cases hdb : dirBlock v inode st.fileblk with
    | inl status =>
      rw [hdb] at hy
      exact .inl ⟨_, hy.symm, rfl⟩
    | inr blk =>
      rw [hdb] at hy
      dsimp only at hy
      split at hy
      · exact .inl ⟨_, hy.symm, rfl⟩
      split at hy
      · rename_i hdir
        cases blk with
        | none => exact absurd hdb (dirBlock_set (fun hlist => hv lsn ⟨inode, hr, hdir, hlist⟩) none st.fileblk).2
        | some dir =>
          dsimp only at hy
          split at hy
          · exact .inl ⟨_, hy.symm, rfl⟩
          cases hj : jokerText x with
          | true =>
            refine .inr (.inr ⟨rfl, dir, fun q hq => ?_⟩)
            rw [hq] at hy
            refine ⟨fun status st' hq' => ?_, fun st' hq' => ?_⟩
            · rw [hq'] at hy
              exact hy.symm
            · rw [hq'] at hy
              exact hy.symm
          | false =>
            rw [dirScan_entry (show Chars ({ st with fileblk := some dir } : LocState).buf path x from hchars)
              (hjoker.trans hj)] at hy
            cases hscan : entryScan dir x (numentries dir) 0 with
            | none =>
              rw [hscan] at hy
              exact .inl ⟨_, hy.symm, rfl⟩
            | some fid =>
              rw [hscan] at hy
              exact .inr (.inl ⟨rfl, fid, some dir, hy.symm⟩)
      · exact .inl ⟨_, hy.symm, rfl⟩

/-! ## jokers -/

def LocRes.Fails (r : LocRes) : Prop := ∀ inode type size, r.status ≠ .success inode type size

/-- all directories are tried with the same path, unless one has it -/
theorem dirScan_joker {inner : Nat → LocState → Option LocRes} {dir : Sector} {e : Nat} {buf : Nat → UInt8}
    (hj : isJoker buf path e = true)
    (hin : ∀ fid st, st.buf = buf → ∃ r, inner fid st = some r ∧ (r.Fails → r.st.buf = buf)) (n k : Nat)
    (hst : st.buf = buf) :
    (∃ status st', dirScan inner dir pathmax path e n k st = some (.joker status st') ∧
      ∃ inode type size, status = .success inode type size) ∨
    ∃ st', dirScan inner dir pathmax path e n k st = some (.none st') ∧ st'.buf = buf := by
  induction n generalizing k st with
  | zero => exact .inr ⟨st, rfl, hst⟩
  | succ n ih =>
    rw [dirScan]
    split
    · exact .inr ⟨st, rfl, hst⟩
    have hjoker : isJoker st.buf path e = true := by rw [hst]; exact hj
    rw [if_pos hjoker]
    split
    · obtain ⟨r, hr, hfails⟩ := hin (entFid dir k) { st with fileblk := none } hst
      rw [hr]
      dsimp only
      split
      · rename_i inode type size hs
        exact .inl ⟨r.status, _, rfl, inode, type, size, hs⟩
      · rename_i hs
        exact ih (k + 1) (hfails hs)
    · exact ih (k + 1) hst

/-- no `..` behind a joker -/
def UpsFirst : List (List UInt8) → Prop
  | [] => True
  | x :: xs => (jokerText x = true → ∀ y ∈ xs, upText y = false) ∧ UpsFirst xs

/-- the search ends, and without `..` only a search that finds the path changes it -/
theorem locateFrom_returns {s : List UInt8} {xs : List (List UInt8)} (hv : Listless v) (hs : StrAt st.buf path s)
    (hx : pathTexts s = xs) (hl : s.length < pathmax) (hf : xs.length < fuel)
    (hp : (∀ y ∈ xs, upText y = false) ∨ Falling path st.stack) (hups : UpsFirst xs) :
    ∃ r, locateFrom v pathmax root spare fuel creat lsn path st = some r ∧
      ((∀ y ∈ xs, upText y = false) → r.Fails → r.st.buf = st.buf) := by
  induction xs generalizing s lsn path st fuel creat with
  | nil =>
    obtain ⟨n, rfl⟩ := Nat.exists_eq_succ_of_ne_zero (Nat.ne_zero_of_lt hf)
    obtain ⟨r, hr, hbuf⟩ := locateFrom_stop (buf_end hs hx)
    exact ⟨r, hr, fun _ _ => hbuf⟩
  | cons x xs ih =>
    obtain ⟨n, rfl⟩ := Nat.exists_eq_succ_of_ne_zero (Nat.ne_zero_of_lt hf)
    have hf' : xs.length < n := Nat.lt_of_succ_lt_succ hf
    have htail : (∀ y ∈ x :: xs, upText y = false) → ∀ y ∈ xs, upText y = false :=
      fun h y hy => h y (List.mem_cons_of_mem x hy)
    obtain ⟨t, ht, htx⟩ := pathTexts_cons hx
    obtain ⟨hst, htl⟩ := ht.rest hs hl
    cases hu : upText x with
    | false =>
      rcases locateFrom_name hv hs hx hl hu rfl with ⟨r, hr, hbuf⟩ | ⟨-, fid, blk, heq⟩ | ⟨hj, dir, heq⟩
      · exact ⟨r, hr, fun _ _ => hbuf⟩
      · obtain ⟨r, hr, hbuf⟩ := ih (show StrAt (({ st with fileblk := blk } : LocState).pathpush lsn path).buf _ t
          from hst)
          htx htl hf' (hp.imp htail fun h => h.push (Nat.le_add_right path x.length)) hups.2
        exact ⟨r, heq.trans hr, fun hall => hbuf (htail hall)⟩
      · have hup := hups.1 hj
        have hin : ∀ fid st', st'.buf = st.buf → ∃ r, locateFrom v pathmax root spare n false
            (if fid = 0 then root else fid) (path + x.length) st' = some r ∧ (r.Fails → r.st.buf = st.buf) := by
          intro fid st' hbuf
          rw [← hbuf] at hst ⊢
          obtain ⟨r, hr, hkeep⟩ := ih hst htx htl hf' (.inl hup) hups.2
          exact ⟨r, hr, hkeep hup⟩
        rcases dirScan_joker ((dots_text hs ht).2.trans hj) hin (numentries dir) 0
          (show ({ st with fileblk := some dir } : LocState).buf = st.buf from rfl) with
          ⟨status, st', hscan, inode, type, size, hs⟩ | ⟨st', hscan, hbuf⟩
        · exact ⟨_, (heq _ hscan).1 status st' rfl, fun _ hc => absurd hs (hc inode type size)⟩
        · exact ⟨_, (heq _ hscan).2 st' rfl, fun _ _ => hbuf⟩
    | true =>
      have hno : ¬ ∀ y ∈ x :: xs, upText y = false := fun hall =>
        Bool.false_ne_true ((hall x List.mem_cons_self).symm.trans hu)
      rw [locateFrom]
      dsimp only
      rw [nameEnd_text hs ht hl, Nat.add_sub_cancel_left, if_pos ((dots_text hs ht).1.mpr hu)]
      cases hstk : st.stack with
      | nil => exact ⟨_, rfl, fun hall => absurd hall hno⟩
      | cons top stack =>
        rw [hstk] at hp
        obtain ⟨hle, hpop⟩ := (hp.resolve_left hno).pop
        dsimp only
        rw [hst.span htl, if_neg (by omega)]
        refine Exists.imp (fun r hr => ⟨hr.1, fun hall => absurd hall hno⟩) (ih hst.strcpy htx htl hf' ?_ hups.2)
        exact .inr hpop

/-! ## what sends a search back -/

/-- a status that stands for an inode of that type on the volume -/
def LocStatus.Met (v : FszVol) (status : LocStatus) : Prop :=
  (status = .syminpath → ∃ lsn inode, v.readblock lsn = some inode ∧ inFiletype inode = typeSymlink) ∧
  (status = .unioninpath → ∃ lsn inode, v.readblock lsn = some inode ∧ inFiletype inode = typeUnion)

theorem LocStatus.Met.of_ne {status : LocStatus} (h : status ≠ .syminpath ∧ status ≠ .unioninpath) : status.Met v :=
  ⟨fun e => absurd e h.1, fun e => absurd e h.2⟩

theorem dirBlock_met {inode : Sector} {old : Option Sector} {status : LocStatus}
    (h : dirBlock v inode old = .inl status) : status.Met v := by
  have hfail : status = .noblock ∨ status = .fserror := by
    unfold dirBlock at h
    dsimp only at h
    split at h
    · cases h
    split at h
    · cases h
    split at h
    · split at h
      · exact .inl (Sum.inl.inj h).symm
      · cases h
    split at h
    · exact .inl (Sum.inl.inj h).symm
    split at h
    · exact .inl (Sum.inl.inj h).symm
    split at h
    · cases h
    split at h
    · exact .inr (Sum.inl.inj h).symm
    split at h
    · exact .inl (Sum.inl.inj h).symm
    · cases h
  rcases hfail with rfl | rfl
  · exact .of_ne (by simp)
  · exact .of_ne (by simp)

theorem notFound_met : (notFound creat spare).Met v := by
  unfold notFound
  split <;> exact .of_ne (by simp)

/-- a joker ends with `SUCCESS` only -/
theorem dirScan_met {inner : Nat → LocState → Option LocRes} {dir : Sector} {e n k : Nat} {status : LocStatus}
    {st' : LocState} (h : dirScan inner dir pathmax path e n k st = some (.joker status st')) : status.Met v := by
  induction n generalizing k st with
  | zero => cases h
  | succ n ih =>
    rw [dirScan] at h
    split at h
    · cases h
    split at h
    · split at h
      · split at h
        · cases h
        · split at h
          · rename_i hs
            obtain ⟨rfl, -⟩ := DirScan.joker.inj (Option.some.inj h)
            rw [hs]
            exact .of_ne (by simp)
          · exact ih h
      · exact ih h
    · split at h
      · cases h
      · exact ih h

theorem locateFrom_links (h : locateFrom v pathmax root spare fuel creat lsn path st = some r) : r.status.Met v := by
  induction fuel generalizing creat lsn path st with
  | zero => cases h
  | succ fuel ih =>
    rw [locateFrom] at h
    dsimp only at h
    split at h
    · split at h
      · cases h
        exact .of_ne (by simp)
      · split at h
        · cases h
        · exact ih h
    split at h
    · cases h
      exact .of_ne (by simp)
    split at h
    · cases h
      exact .of_ne (by simp)
    rename_i inode hblk
    split at h
    · cases h
      exact .of_ne (by simp)
    split at h
    · rename_i hlink
      cases h
      exact ⟨fun _ => ⟨lsn, inode, hblk, hlink⟩, fun hc => absurd hc (by simp)⟩
    split at h
    · cases h
      exact .of_ne (by simp)
    split at h
    · rename_i hunion
      cases h
      exact ⟨fun hc => absurd hc (by simp), fun _ => ⟨lsn, inode, hblk, hunion⟩⟩
    split at h
    · rename_i hdb
      cases h
      exact dirBlock_met hdb
    split at h
    · cases h
      exact .of_ne (by simp)
    split at h
    · split at h
      · cases h
      split at h
      · cases h
        exact .of_ne (by simp)
      split at h
      · cases h
      · exact ih h
      · rename_i hscan
        cases h
        exact dirScan_met hscan
      · cases h
        exact notFound_met
    · cases h
      exact notFound_met

end

end OsZ
