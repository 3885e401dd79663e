import OsZ.Fsz.Locate

/-!
# Which file the three searches find

A volume with a tree of directories whose entries are in the inode; a path is a list of directory
names and a last name.

* `FszDir`, `FszTree`   what is on the volume;
* `resolveBy`           the file that a path stands for, by a test for the last name: `exactName`, or
                        `beginsWith`, which is what a comparison of the length of the name tests;
* `locateFrom_path`, `coreWalk_path`, `mkfsLocate_path`  what each search returns;
* `locate_agree_iff`    all three find the file if and only if no longer name comes first.
-/

namespace OsZ

structure DirEnt where
  fid : Nat
  name : List UInt8

structure FileName (c : List UInt8) : Prop where
  ne_nil : c ≠ []
  ok : ∀ a ∈ c, a ≠ 0 ∧ a ≠ chSlash ∧ pathEnd a = false ∧ a ≠ chNewline

/-- directories have a slash behind their name -/
def EntryName (nm : List UInt8) : Prop := ∃ c, FileName c ∧ (nm = c ∨ nm = c ++ [chSlash])

def isDir (c : List UInt8) (e : DirEnt) : Bool := e.name == c ++ [chSlash]

def exactName (c : List UInt8) (e : DirEnt) : Bool := e.name == c || e.name == c ++ [chSlash]

def beginsWith (c : List UInt8) (e : DirEnt) : Bool := c.isPrefixOf e.name

/-- the inode in sector `lsn` is a directory with the entries `es`, all of them in the inode -/
structure FszDir (D : Disk) (bs lsn : Nat) (es : List DirEnt) : Prop where
  lsn_ne : lsn ≠ 0
  magic : bytesAt (D lsn) 0 4 = inMagic
  type : inFiletype (D lsn) = typeDir
  translation : inTranslation (D lsn) = 0xFF
  header : bytesAt (D lsn) inlinedata 4 = dirMagic
  count : numentries ((D lsn).from inlinedata) = es.length
  fids : ∀ k (h : k < es.length), entFid ((D lsn).from inlinedata) k = es[k].fid
  names : ∀ k (h : k < es.length), StrAt ((D lsn).from inlinedata) (entName k) es[k].name
  fits : 128 * (es.length + 1) ≤ bs - 1024
  rest : es.length < (bs - 1024) / 128 - 1 → entFid ((D lsn).from inlinedata) es.length = 0
  fid_ne : ∀ e ∈ es, e.fid ≠ 0
  valid : ∀ e ∈ es, EntryName e.name

structure FszTree (D : Disk) (bs : Nat) (dirs : Nat → Option (List DirEnt)) : Prop where
  bs_lt : bs < 2^31
  root : (dirs (rootdirfid (D 0))).isSome
  dir : ∀ {lsn es}, dirs lsn = some es → FszDir D bs lsn es
  inode : ∀ {lsn es}, dirs lsn = some es → ∀ e ∈ es, bytesAt (D e.fid) 0 4 = inMagic
  sub : ∀ {lsn es}, dirs lsn = some es → ∀ e ∈ es, ∀ c, e.name = c ++ [chSlash] → (dirs e.fid).isSome

section
variable (dirs : Nat → Option (List DirEnt))

/-- the directory behind the names `ds` -/
def walkDirs : List (List UInt8) → Nat → Option Nat
  | [], lsn => some lsn
  | c :: cs, lsn =>
    (dirs lsn).bind (fun es => (es.find? (isDir c)).bind (fun e => walkDirs cs e.fid))

/-- the first entry with `p` in that directory -/
def resolveBy (p : DirEnt → Bool) (ds : List (List UInt8)) (lsn : Nat) : Option Nat :=
  (walkDirs dirs ds lsn).bind (fun l => (dirs l).bind (fun es => (es.find? p).map DirEnt.fid))

/-- not one of the names that the driver takes for an up directory or a joker -/
def NoDots (c : List UInt8) : Prop := ¬ [chDot, chDot] <+: c

/-- the names that are looked for do not begin with `..`, and the directories that are entered have an inode
number that is an `int`; behind a directory that does not exist nothing is asked -/
def PlainWalk (c : List UInt8) : List (List UInt8) → Nat → Prop
  | [], _ => NoDots c
  | d :: ds, lsn => NoDots d ∧ ∀ es e, dirs lsn = some es → es.find? (isDir d) = some e →
      intFid e.fid = e.fid ∧ PlainWalk c ds e.fid

end

def pathOf (ds : List (List UInt8)) (c : List UInt8) : List UInt8 := ds.flatMap (· ++ [chSlash]) ++ c

variable {D : Disk} {bs lsn : Nat} {dirs : Nat → Option (List DirEnt)} {es : List DirEnt}
  {ds : List (List UInt8)} {c nm x : List UInt8} {p : DirEnt → Bool}

theorem resolveBy_cons (h : dirs lsn = some es) :
    resolveBy dirs p (c :: ds) lsn = (es.find? (isDir c)).bind (fun e => resolveBy dirs p ds e.fid) := by
  unfold resolveBy
  rw [walkDirs, h, Option.bind_some, Option.bind_assoc]

theorem resolveBy_nil (h : dirs lsn = some es) :
    resolveBy dirs p [] lsn = (es.find? p).map DirEnt.fid := by
  unfold resolveBy
  rw [walkDirs, Option.bind_some, h, Option.bind_some]

theorem pathOf_cons : pathOf (c :: ds) x = (c ++ [chSlash]) ++ pathOf ds x := by
  unfold pathOf
  rw [List.flatMap_cons, List.append_assoc]

theorem pathOf_nil : pathOf [] x = x := rfl

/-! ## names -/

theorem FileName.no_nul (h : FileName c) : 0 ∉ c := fun h0 => (h.ok 0 h0).1 rfl

theorem FileName.no_slash (h : FileName c) : chSlash ∉ c := fun h0 => (h.ok _ h0).2.1 rfl

theorem FileName.no_nul_slash (h : FileName c) : 0 ∉ c ++ [chSlash] := by
  rw [List.mem_append, List.mem_singleton]
  rintro (h0 | h0)
  · exact h.no_nul h0
  · cases h0

theorem EntryName.slash (h : EntryName nm) : c ++ [chSlash] <+: nm ↔ nm = c ++ [chSlash] := by
  constructor
  · rintro ⟨t, ht⟩
    obtain ⟨d, hd, rfl | rfl⟩ := h
    · exact absurd (by rw [← ht]; simp) hd.no_slash
    · cases t using List.reverseRecOn with
      | nil => rw [← ht, List.append_nil]
      | append_singleton t a =>
        exfalso
        rw [← List.append_assoc] at ht
        have h1 := (List.append_inj' ht rfl).1
        exact hd.no_slash (by rw [← h1]; simp)
  · rintro rfl
    exact List.prefix_refl _

theorem beginsWith_iff (e : DirEnt) : beginsWith c e = true ↔ c <+: e.name := by
  unfold beginsWith
  exact List.isPrefixOf_iff_prefix

theorem find_slash (he : ∀ e ∈ es, EntryName e.name) :
    es.find? (beginsWith (c ++ [chSlash])) = es.find? (isDir c) := by
  induction es with
  | nil => rfl
  | cons e es ih =>
    have h1 : beginsWith (c ++ [chSlash]) e = isDir c e := by
      rw [Bool.eq_iff_iff, beginsWith_iff, (he e List.mem_cons_self).slash, isDir, beq_iff_eq]
    rw [List.find?_cons, List.find?_cons, h1, ih (fun e h => he e (List.mem_cons_of_mem _ h))]

/-! ## the first name of a path -/

section
variable {f : Nat → UInt8} {o pathmax : Nat} {stop : UInt8 → Bool}

/-- the characters that end a name: no character of the name, but the slash and 0 -/
structure StopsAt (stop : UInt8 → Bool) (c : List UInt8) : Prop where
  inside : ∀ a ∈ c, stop a = false
  slash : stop chSlash = true
  nul : stop 0 = true

theorem StopsAt.span (hs : StopsAt stop c) (h : Chars f o c) (hend : f (o + c.length) = chSlash ∨
    f (o + c.length) = 0) (hl : c.length < pathmax) : spanTo stop f o pathmax = c.length := by
  apply spanTo_eq _ _ hl
  · intro i hi
    rw [h i hi]
    exact hs.inside _ (List.getElem_mem hi)
  · rcases hend with h1 | h1
    · rw [h1]
      exact hs.slash
    · rw [h1]
      exact hs.nul

theorem FileName.stops (hc : FileName c) : StopsAt (fun a => a == chSlash || pathEnd a) c where
  inside a ha := by simp [(hc.ok a ha).2.1, (hc.ok a ha).2.2.1]
  slash := rfl
  nul := rfl

theorem FileName.stops_core (hc : FileName c) :
    StopsAt (fun a => a == chSlash || a == 0 || a == chNewline) c where
  inside a ha := by simp [(hc.ok a ha).1, (hc.ok a ha).2.1, (hc.ok a ha).2.2.2]
  slash := rfl
  nul := rfl

theorem FileName.stops_mkfs (hc : FileName c) : StopsAt (fun a => a == chSlash || a == 0) c where
  inside a ha := by simp [(hc.ok a ha).1, (hc.ok a ha).2.1]
  slash := rfl
  nul := rfl

end

/-! ## a directory -/

namespace FszDir
variable {f : Nat → UInt8} {o k j : Nat}

theorem name_ne (hd : FszDir D bs lsn es) (hk : k < es.length) :
    (D lsn).from inlinedata (entName k) ≠ 0 := by
  have hs := hd.names k hk
  obtain ⟨d, hdn, hnm⟩ := hd.valid _ (List.getElem_mem hk)
  have hlen : 0 < es[k].name.length := by
    have hpos := List.length_pos_iff.mpr hdn.ne_nil
    rcases hnm with h | h
    · rwa [h]
    · rw [h, List.length_append]
      omega
  exact hs.chars.ne_zero hs.no_nul 0 hlen

/-- the driver's loop: the first entry whose name begins with what is compared -/
theorem scan {inner : Nat → LocState → Option LocRes} {pathmax path : Nat} (st : LocState)
    (hd : FszDir D bs lsn es) (hx : Chars st.buf path x) (hz : 0 ∉ x)
    (hj : isJoker st.buf path (path + x.length) = false) (hk : k + j = es.length) :
    dirScan inner ((D lsn).from inlinedata) pathmax path (path + x.length) j k st =
      some (match (es.drop k).find? (beginsWith x) with
        | some e => .entry e.fid st
        | none => .none st) := by
  induction j generalizing k with
  | zero =>
    rw [List.drop_eq_nil_of_le (by omega)]
    rfl
  | succ j ih =>
    have hlt : k < es.length := by omega
    have hcmp : memEq ((D lsn).from inlinedata) (entName k) st.buf path (path + x.length - path) =
        beginsWith x es[k] := by
      rw [Nat.add_sub_cancel_left, Bool.eq_iff_iff, beginsWith_iff]
      exact memEq_prefix (hd.names k hlt) hx hz
    rw [List.drop_eq_getElem_cons hlt, List.find?_cons, dirScan, if_neg (hd.name_ne hlt),
      hj, if_neg Bool.false_ne_true, hcmp, hd.fids k hlt]
    by_cases hb : beginsWith x es[k] = true
    · rw [if_pos hb, hb]
    · rw [if_neg hb, Bool.eq_false_of_not_eq_true hb]
      exact ih (by omega)

theorem coreScan_eq (hd : FszDir D bs lsn es) (hx : Chars f o x) (hz : 0 ∉ x) (hk : k + j = es.length) :
    (coreScan ((D lsn).from inlinedata) f o x.length j j k).map (entFid ((D lsn).from inlinedata)) =
      ((es.drop k).find? (beginsWith x)).map DirEnt.fid := by
  induction j generalizing k with
  | zero =>
    rw [List.drop_eq_nil_of_le (by omega)]
    rfl
  | succ j ih =>
    have hlt : k < es.length := by omega
    have hcmp : strnEq ((D lsn).from inlinedata) (entName k) f o x.length = beginsWith x es[k] := by
      rw [Bool.eq_iff_iff, beginsWith_iff]
      exact strnEq_prefix (hd.names k hlt) hx hz
    have hj : ((j + 1 : Nat) : Int) - 1 = j := by omega
    rw [List.drop_eq_getElem_cons hlt, List.find?_cons, coreScan, if_neg (by omega), hcmp, hj]
    by_cases hb : beginsWith x es[k] = true
    · rw [if_pos hb, hb]
      exact congrArg some (hd.fids k hlt)
    · rw [if_neg hb, Bool.eq_false_of_not_eq_true hb]
      exact ih (by omega)

end FszDir

/-- the entry that the loop of the image tool ends with -/
def MkfsScan.index : MkfsScan → Option Nat
  | .whole k => some k
  | .dir k => some k
  | .none => Option.none

namespace FszDir
variable {f : Nat → UInt8} {o k j : Nat}

theorem mkfsScan_slash (hd : FszDir D bs lsn es) (hc : FileName c) (hx : Chars f o (c ++ [chSlash]))
    (hk : k + j = (bs - 1024) / 128 - 1) (hl : k ≤ es.length) :
    (∃ i, mkfsScan ((D lsn).from inlinedata) f o c.length j k = .whole i ∧
      ((es.drop k).find? (isDir c)).map DirEnt.fid = some (entFid ((D lsn).from inlinedata) i)) ∨
    (mkfsScan ((D lsn).from inlinedata) f o c.length j k = .none ∧ (es.drop k).find? (isDir c) = none) := by
  have hfit := hd.fits
  induction j generalizing k with
  | zero =>
    right
    rw [List.drop_eq_nil_of_le (by omega)]
    exact ⟨rfl, rfl⟩
  | succ j ih =>
    rcases Nat.lt_or_eq_of_le hl with hlt | rfl
    · have hmem := List.getElem_mem hlt
      have hcmp : strnEq ((D lsn).from inlinedata) (entName k) f o (c.length + 1) = isDir c es[k] := by
        have hlen : c.length + 1 = (c ++ [chSlash]).length := by
          rw [List.length_append, List.length_singleton]
        rw [Bool.eq_iff_iff, hlen, strnEq_prefix (hd.names k hlt) hx hc.no_nul_slash,
          (hd.valid _ hmem).slash, isDir, beq_iff_eq]
      have hsl : f (o + c.length) ≠ 0 := by
        rw [hx.right.head]
        decide
      rw [List.drop_eq_getElem_cons hlt, List.find?_cons, mkfsScan, hcmp, hd.fids k hlt,
        if_neg (hd.fid_ne _ hmem)]
      by_cases hb : isDir c es[k] = true
      · left
        rw [if_pos hb, hb]
        exact ⟨k, rfl, congrArg some (hd.fids k hlt).symm⟩
      · rw [if_neg hb, Bool.eq_false_of_not_eq_true hb, beq_eq_false_iff_ne.mpr hsl, Bool.and_false,
          Bool.false_and, if_neg Bool.false_ne_true]
        exact ih (by omega) (by omega)
    · right
      have h0 := hd.rest (by omega)
      rw [mkfsScan, if_pos h0, List.drop_length]
      exact ⟨rfl, rfl⟩

theorem mkfsScan_last (hd : FszDir D bs lsn es) (hx : StrAt f o c)
    (hk : k + j = (bs - 1024) / 128 - 1) (hl : k ≤ es.length) :
    (mkfsScan ((D lsn).from inlinedata) f o c.length j k).index.map (entFid ((D lsn).from inlinedata)) =
      ((es.drop k).find? (exactName c)).map DirEnt.fid := by
  have hfit := hd.fits
  induction j generalizing k with
  | zero =>
    rw [List.drop_eq_nil_of_le (by omega)]
    rfl
  | succ j ih =>
    rcases Nat.lt_or_eq_of_le hl with hlt | rfl
    · have hmem := List.getElem_mem hlt
      have hs := hd.names k hlt
      have hcmp := strnEq_whole hs hx
      have hpre := strnEq_prefix hs hx.chars hx.no_nul
      -- a name that goes on with a slash is the name of a directory
      have hdir : c <+: es[k].name ∧ (D lsn).from inlinedata (entName k + c.length) = chSlash ↔
          es[k].name = c ++ [chSlash] := by
        constructor
        · rintro ⟨⟨t, ht⟩, h1⟩
          rw [← (hd.valid _ hmem).slash]
          rw [← ht] at hs ⊢
          cases t with
          | nil =>
            rw [List.append_nil] at hs
            rw [hs.nul] at h1
            cases h1
          | cons a t =>
            rw [hs.chars.right.head] at h1
            rw [h1]
            exact ⟨t, by simp⟩
        · intro h
          rw [h] at hs ⊢
          exact ⟨List.prefix_append _ _, hs.chars.right.head⟩
      rw [List.drop_eq_getElem_cons hlt, List.find?_cons, mkfsScan, hd.fids k hlt,
        if_neg (hd.fid_ne _ hmem)]
      by_cases h1 : es[k].name = c
      · have he : exactName c es[k] = true := by simp [exactName, h1]
        rw [if_pos (hcmp.mpr h1), he]
        exact congrArg some (hd.fids k hlt)
      · rw [if_neg (fun h => h1 (hcmp.mp h)), hx.nul]
        by_cases h2 : es[k].name = c ++ [chSlash]
        · obtain ⟨h3, h4⟩ := hdir.mpr h2
          have he : exactName c es[k] = true := by simp [exactName, h2]
          rw [if_pos (by simp [hpre.mpr h3, h4]), he]
          exact congrArg some (hd.fids k hlt)
        · have he : exactName c es[k] = false := by simp [exactName, h1, h2]
          rw [if_neg, he]
          · exact ih (by omega) (by omega)
          · intro h
            rw [Bool.and_eq_true, Bool.and_eq_true, beq_iff_eq, beq_iff_eq] at h
            exact h2 (hdir.mp ⟨hpre.mp h.1.1, h.2⟩)
    · have h0 := hd.rest (by omega)
      rw [mkfsScan, if_pos h0, List.drop_length]
      rfl

end FszDir

/-! ## the driver -/

section
variable {v : FszVol} {pathmax root fuel path : Nat} {spare creat : Bool} {st : LocState}

theorem Chars.cons {f : Nat → UInt8} {o : Nat} {a : UInt8} {s : List UInt8} (h : Chars f o (a :: s)) :
    Chars f (o + 1) s := Chars.right (a := [a]) h

theorem NoDots.at_path (hc : FileName c) (hn : NoDots c) (hx : x = c ∨ x = c ++ [chSlash])
    (h : Chars st.buf path x) :
    ¬ (2 ≤ x.length ∧ st.buf path = chDot ∧ st.buf (path + 1) = chDot) := by
  rintro ⟨hlen, h0, h1⟩
  match c, hc.ne_nil with
  | [a], _ =>
    rcases hx with rfl | rfl
    · simp at hlen
    · have hs : st.buf (path + 1) = chSlash := h.right.head
      rw [h1] at hs
      cases hs
  | a :: b :: c, _ =>
    apply hn
    have hh : Chars st.buf path (a :: b :: c) := by
      rcases hx with rfl | rfl
      · exact h
      · exact h.left
    rw [← hh.head, ← hh.cons.head, h0, h1]
    exact ⟨c, rfl⟩

theorem nameEnd_eq (hc : FileName c) (hx : x = c ∧ st.buf (path + x.length) = 0 ∨ x = c ++ [chSlash])
    (h : Chars st.buf path x) (hl : c.length < pathmax) :
    nameEnd pathmax st.buf path = path + x.length := by
  unfold nameEnd
  rcases hx with ⟨rfl, h0⟩ | rfl
  · rw [hc.stops.span h (Or.inr h0) hl]
    dsimp only
    rw [h0, if_neg (by decide)]
  · have hs := h.right.head
    rw [hc.stops.span h.left (Or.inl hs) hl]
    dsimp only
    rw [hs, if_pos rfl, List.length_append]
    rfl

theorem FszTree.sub_of_find {d : List UInt8} {e : DirEnt} (ht : FszTree D bs dirs) (hes : dirs lsn = some es)
    (he : es.find? (isDir d) = some e) : (dirs e.fid).isSome :=
  ht.sub hes e (List.mem_of_find?_eq_some he) d (by simpa [isDir] using List.find?_some he)

theorem pathOf_short {d : List UInt8} (h : (d ++ [chSlash] ++ pathOf ds c).length < pathmax) :
    d.length < pathmax ∧ (pathOf ds c).length < pathmax := by
  rw [List.length_append, List.length_append] at h
  omega

theorem FszDir.locate_step (root fuel : Nat) (spare creat : Bool) (hd : FszDir D bs lsn es) (hv : v.Cached D)
    (hc : FileName c) (hn : NoDots c)
    (hx : x = c ∧ st.buf (path + x.length) = 0 ∨ x = c ++ [chSlash]) (h : Chars st.buf path x)
    (hl : c.length < pathmax) :
    ∃ st', st'.buf = st.buf ∧
      locateFrom v pathmax root spare (fuel + 1) creat lsn path st =
        match es.find? (beginsWith x) with
        | some e => locateFrom v pathmax root spare fuel creat e.fid (path + x.length) st'
        | none => some ⟨notFound creat spare, path, st'⟩ := by
  have hdots := hn.at_path hc (hx.imp And.left id) h
  have hz : 0 ∉ x := by
    rcases hx with ⟨rfl, -⟩ | rfl
    · exact hc.no_nul
    · exact hc.no_nul_slash
  have hfirst : pathEnd (st.buf path) = false := by
    obtain ⟨a, c, rfl⟩ := List.exists_cons_of_ne_nil hc.ne_nil
    have ha : st.buf path = a := by
      rcases hx with ⟨rfl, -⟩ | rfl
      · exact h.head
      · exact h.head
    rw [ha]
    exact (hc.ok a List.mem_cons_self).2.2.1
  have hdir : dirBlock v (D lsn) st.fileblk = .inr (some ((D lsn).from inlinedata)) := by
    unfold dirBlock
    dsimp only
    rw [if_pos hd.translation]
  have hmag : bytesAt ((D lsn).from inlinedata) 0 4 = dirMagic := hd.header
  have hjoker : isJoker st.buf path (path + x.length) = false := by
    unfold isJoker
    rw [Nat.add_sub_cancel_left]
    exact decide_eq_false fun hh => hdots ⟨by omega, hh.2.1, hh.2.2.1⟩
  rw [locateFrom]
  dsimp only
  rw [nameEnd_eq hc hx h hl, Nat.add_sub_cancel_left,
    if_neg (fun hh => hdots ⟨hh.1, hh.2.1, hh.2.2.1⟩), if_neg hd.lsn_ne, hv.blocks]
  dsimp only
  rw [hd.magic, hd.type, if_neg (by decide), if_neg (by decide), hfirst, if_neg Bool.false_ne_true,
    if_neg (by decide), hdir]
  dsimp only
  rw [if_neg (by decide), if_pos rfl, if_neg (not_not.mpr hmag), hd.count,
    scan { st with fileblk := some ((D lsn).from inlinedata) } hd h hz hjoker (Nat.zero_add _), List.drop_zero]
  cases es.find? (beginsWith x) with
  | none => exact ⟨{ st with fileblk := some ((D lsn).from inlinedata) }, rfl, rfl⟩
  | some e =>
    exact ⟨({ st with fileblk := some ((D lsn).from inlinedata) } : LocState).pathpush lsn path, rfl, rfl⟩

/-- the status at the end of the path, by the entry that was found -/
def endStatus (D : Disk) (creat spare : Bool) : Option Nat → LocStatus
  | none => notFound creat spare
  | some f => if inFiletype (D f) = typeSymlink then .syminpath
    else .success f (locType (D f)) (inSize (D f))

theorem locateFrom_end (hv : v.Cached D) (h0 : st.buf path = 0) (hl : lsn ≠ 0)
    (hm : bytesAt (D lsn) 0 4 = inMagic) :
    ∃ r, locateFrom v pathmax root spare (fuel + 1) creat lsn path st = some r ∧
      r.status = endStatus D creat spare (some lsn) := by
  have hend : nameEnd pathmax st.buf path = path := by
    have hs : spanTo (fun a => a == chSlash || pathEnd a) st.buf path pathmax = 0 := by
      cases pathmax with
      | zero => rfl
      | succ n =>
        rw [spanTo, h0]
        rfl
    unfold nameEnd
    rw [hs]
    dsimp only
    rw [Nat.add_zero, h0, if_neg (by decide)]
  rw [locateFrom]
  dsimp only
  rw [hend, if_neg (by omega), if_neg hl, hv.blocks]
  dsimp only
  rw [if_neg (not_not.mpr hm), h0, endStatus]
  by_cases hlink : inFiletype (D lsn) = typeSymlink
  · rw [if_pos hlink, if_pos hlink]
    exact ⟨_, rfl, rfl⟩
  · rw [if_neg hlink, if_neg hlink, if_pos (show pathEnd 0 = true from rfl)]
    exact ⟨_, rfl, rfl⟩

theorem locateFrom_path (root : Nat) (spare creat : Bool) (ht : FszTree D bs dirs) (hv : v.Cached D)
    (hd : ∀ d ∈ ds, FileName d) (hc : FileName c) (hw : PlainWalk dirs c ds lsn) (hroot : (dirs lsn).isSome)
      (hs : StrAt st.buf path (pathOf ds c))
    (hl : (pathOf ds c).length < pathmax) (hf : ds.length + 2 ≤ fuel) :
    ∃ r, locateFrom v pathmax root spare fuel creat lsn path st = some r ∧
      r.status = endStatus D creat spare (resolveBy dirs (beginsWith c) ds lsn) := by
  obtain ⟨es, hes⟩ := Option.isSome_iff_exists.mp hroot
  obtain ⟨n, rfl⟩ : ∃ n, fuel = n + 1 := ⟨fuel - 1, by omega⟩
  induction ds generalizing lsn es path st n with
  | nil =>
    rw [pathOf_nil] at hs hl
    obtain ⟨st', hst, hstep⟩ := FszDir.locate_step root n spare creat (ht.dir hes) hv hc hw (Or.inl ⟨rfl, hs.nul⟩)
      hs.chars hl
    rw [hstep, resolveBy_nil hes]
    cases he : es.find? (beginsWith c) with
    | none => exact ⟨_, rfl, rfl⟩
    | some e =>
      obtain ⟨m, rfl⟩ : ∃ m, n = m + 1 := ⟨n - 1, by simp at hf; omega⟩
      have hmem := List.mem_of_find?_eq_some he
      have h0 : st'.buf (path + c.length) = 0 := by rw [hst]; exact hs.nul
      exact locateFrom_end hv h0 ((ht.dir hes).fid_ne e hmem) (ht.inode hes e hmem)
  | cons d ds ih =>
    rw [pathOf_cons] at hs hl
    have hdn := hd d List.mem_cons_self
    obtain ⟨hdl, hl'⟩ := pathOf_short hl
    obtain ⟨st', hst, hstep⟩ := FszDir.locate_step root n spare creat (ht.dir hes) hv hdn hw.1 (Or.inr rfl)
      hs.chars.left hdl
    rw [hstep, resolveBy_cons hes, find_slash (ht.dir hes).valid]
    cases he : es.find? (isDir d) with
    | none => exact ⟨_, rfl, rfl⟩
    | some e =>
      have hsub := ht.sub_of_find hes he
      obtain ⟨es', hes'⟩ := Option.isSome_iff_exists.mp hsub
      obtain ⟨m, rfl⟩ : ∃ m, n = m + 1 := ⟨n - 1, by simp at hf; omega⟩
      apply ih (fun x hx => hd x (List.mem_cons_of_mem _ hx)) (hw.2 es e hes he).2 hsub _ hl' es' hes' m
        (by simp at hf; omega)
      rw [hst]
      exact hs.right

end

/-! ## the core -/

section
variable {fn : Nat → UInt8} {pathmax fuel s : Nat}

theorem FszDir.count_int (hd : FszDir D bs lsn es) (hb : bs < 2^31) :
    i32 (numentries ((D lsn).from inlinedata)) = es.length := by
  have hfit := hd.fits
  rw [hd.count]
  unfold i32
  exact Int.bmod_eq_of_le (by omega) (by omega)

theorem FszDir.core_step (hd : FszDir D bs lsn es) (hb : bs < 2^31) (hc : FileName c)
    (hx : x = c ∧ fn (s + x.length) = 0 ∨ x = c ++ [chSlash] ∧ fn (s + x.length) ≠ 0 ∧
      fn (s + x.length) ≠ chNewline)
    (h : Chars fn s x) (hl : c.length < pathmax) :
    coreWalk D fn pathmax (fuel + 1) lsn s =
      match (es.find? (beginsWith x)).map DirEnt.fid with
      | none => some 0
      | some fid => if x = c then some (intFid fid) else coreWalk D fn pathmax fuel fid (s + x.length) := by
  have hz : 0 ∉ x := by
    rcases hx with ⟨rfl, -⟩ | ⟨rfl, -⟩
    · exact hc.no_nul
    · exact hc.no_nul_slash
  have hend : (if fn (s + spanTo (fun a => a == chSlash || a == 0 || a == chNewline) fn s pathmax) = chSlash
      then s + spanTo (fun a => a == chSlash || a == 0 || a == chNewline) fn s pathmax + 1
      else s + spanTo (fun a => a == chSlash || a == 0 || a == chNewline) fn s pathmax) = s + x.length := by
    rcases hx with ⟨rfl, h0⟩ | ⟨rfl, -⟩
    · rw [hc.stops_core.span h (Or.inr h0) hl, h0, if_neg (by decide)]
    · have hs := h.right.head
      rw [hc.stops_core.span h.left (Or.inl hs) hl, hs, if_pos rfl, List.length_append]
      rfl
  have hlast : (fn (s + x.length) = 0 ∨ fn (s + x.length) = chNewline) ↔ x = c := by
    rcases hx with ⟨rfl, h0⟩ | ⟨hxc, h0, h1⟩
    · exact iff_of_true (Or.inl h0) rfl
    · apply iff_of_false
      · rintro (h | h)
        · exact h0 h
        · exact h1 h
      · simp [hxc]
  have hdir : coreDir D lsn = some ((D lsn).from inlinedata) := if_pos hd.header
  have hscan := hd.coreScan_eq h hz (Nat.zero_add es.length)
  rw [List.drop_zero] at hscan
  rw [coreWalk, hend, if_neg (not_not.mpr hd.magic), hdir]
  dsimp only
  rw [hd.count_int hb, hd.count, Nat.add_sub_cancel_left, ← hscan]
  cases coreScan ((D lsn).from inlinedata) fn s x.length es.length es.length 0 with
  | none => dsimp only [Option.map_none]
  | some k =>
    dsimp only [Option.map_some]
    by_cases hxc : x = c
    · rw [if_pos hxc, if_pos (hlast.mpr hxc)]
    · rw [if_neg hxc, if_neg (fun hh => hxc (hlast.mp hh))]

theorem pathOf_head (hs : StrAt fn s (pathOf ds c)) (hd : ∀ d ∈ ds, FileName d) (hc : FileName c) :
    fn s ≠ 0 ∧ fn s ≠ chNewline ∧ fn s ≠ chSlash := by
  have hfirst : ∀ d rest, FileName d → Chars fn s (d ++ rest) →
      fn s ≠ 0 ∧ fn s ≠ chNewline ∧ fn s ≠ chSlash := by
    intro d rest hdn h
    obtain ⟨a, d, rfl⟩ := List.exists_cons_of_ne_nil hdn.ne_nil
    have ha := hdn.ok a List.mem_cons_self
    rw [h.left.head]
    exact ⟨ha.1, ha.2.2.2, ha.2.1⟩
  cases ds with
  | nil => exact hfirst c [] hc (by rw [List.append_nil]; exact hs.chars)
  | cons d ds =>
    rw [pathOf_cons, List.append_assoc] at hs
    exact hfirst d _ (hd d List.mem_cons_self) hs.chars

theorem coreWalk_path (ht : FszTree D bs dirs) (hd : ∀ d ∈ ds, FileName d) (hc : FileName c)
    (hroot : (dirs lsn).isSome) (hs : StrAt fn s (pathOf ds c))
    (hl : (pathOf ds c).length < pathmax) (hf : ds.length + 1 ≤ fuel) :
    coreWalk D fn pathmax fuel lsn s = some (((resolveBy dirs (beginsWith c) ds lsn).map intFid).getD 0) := by
  obtain ⟨es, hes⟩ := Option.isSome_iff_exists.mp hroot
  obtain ⟨n, rfl⟩ : ∃ n, fuel = n + 1 := ⟨fuel - 1, by omega⟩
  induction ds generalizing lsn es s n with
  | nil =>
    rw [pathOf_nil] at hs hl
    rw [(ht.dir hes).core_step ht.bs_lt hc (Or.inl ⟨rfl, hs.nul⟩) hs.chars hl, resolveBy_nil hes]
    cases he : es.find? (beginsWith c) with
    | none => rfl
    | some e =>
      dsimp only [Option.map_some]
      rw [if_pos rfl, Option.getD_some]
  | cons d ds ih =>
    rw [pathOf_cons] at hs hl
    have hdn := hd d List.mem_cons_self
    have hds : ∀ x ∈ ds, FileName x := fun x hx => hd x (List.mem_cons_of_mem _ hx)
    obtain ⟨hdl, hl'⟩ := pathOf_short hl
    obtain ⟨h0, h1, -⟩ := pathOf_head hs.right hds hc
    rw [(ht.dir hes).core_step ht.bs_lt hdn (Or.inr ⟨rfl, h0, h1⟩) hs.chars.left hdl,
      resolveBy_cons hes, find_slash (ht.dir hes).valid]
    cases he : es.find? (isDir d) with
    | none => rfl
    | some e =>
      have hsub := ht.sub_of_find hes he
      obtain ⟨es', hes'⟩ := Option.isSome_iff_exists.mp hsub
      obtain ⟨m, rfl⟩ : ∃ m, n = m + 1 := ⟨n - 1, by simp at hf; omega⟩
      dsimp only [Option.map_some, Option.bind_some]
      rw [if_neg (by simp)]
      exact ih hds hsub hs.right hl' es' hes' m (by simp at hf; omega)

end

/-! ## the image tool -/

section
variable {fn : Nat → UInt8} {pathmax fuel s inode : Nat}

theorem mkfsLocate_path (ht : FszTree D bs dirs) (hd : ∀ d ∈ ds, FileName d) (hc : FileName c)
    (hw : PlainWalk dirs c ds lsn) (hi : (if inode = 0 then rootdirfid (D 0) else inode) = lsn)
    (hroot : (dirs lsn).isSome) (hs : StrAt fn s (pathOf ds c)) (hl : (pathOf ds c).length < pathmax)
    (hf : ds.length + 1 ≤ fuel) :
    mkfsLocate D bs fn pathmax fuel inode s = some ((resolveBy dirs (exactName c) ds lsn).getD 0) := by
  obtain ⟨es, hes⟩ := Option.isSome_iff_exists.mp hroot
  obtain ⟨n, rfl⟩ : ∃ n, fuel = n + 1 := ⟨fuel - 1, by omega⟩
  obtain ⟨h0, -, h1⟩ := pathOf_head hs hd hc
  induction ds generalizing lsn es s n inode with
  | nil =>
    rw [pathOf_nil] at hs hl
    have hscan := (ht.dir hes).mkfsScan_last hs (Nat.zero_add _) (Nat.zero_le _)
    have hspan := hc.stops_mkfs.span hs.chars (Or.inr hs.nul) hl
    rw [mkfsLocate]
    dsimp only
    rw [hi, if_neg h0, if_neg h1, if_neg (fun hh => h1 hh.1), hspan, resolveBy_nil hes]
    rw [List.drop_zero] at hscan
    rw [← hscan]
    change (match mkfsScan ((D lsn).from inlinedata) fn s c.length ((bs - 1024) / 128 - 1) 0 with
      | .whole k => _
      | .dir k => _
      | .none => _) = _
    cases mkfsScan ((D lsn).from inlinedata) fn s c.length ((bs - 1024) / 128 - 1) 0 with
    | whole k =>
      dsimp only
      rw [if_pos hs.nul]
      rfl
    | dir k => rfl
    | none => rfl
  | cons d ds ih =>
    rw [pathOf_cons] at hs hl
    have hdn := hd d List.mem_cons_self
    have hds : ∀ x ∈ ds, FileName x := fun x hx => hd x (List.mem_cons_of_mem _ hx)
    obtain ⟨hdl, hl'⟩ := pathOf_short hl
    have hsl := hs.chars.left.right.head
    have hspan := hdn.stops_mkfs.span hs.chars.left.left (Or.inl hsl) hdl
    obtain ⟨h2, -, h3⟩ := pathOf_head hs.right hds hc
    rw [mkfsLocate]
    dsimp only
    rw [hi, if_neg h0, if_neg h1, if_neg (fun hh => h1 hh.1), hspan, resolveBy_cons hes]
    rcases (ht.dir hes).mkfsScan_slash hdn hs.chars.left (Nat.zero_add _) (Nat.zero_le _) with
      ⟨i, hscan, hfind⟩ | ⟨hscan, hfind⟩
    · rw [List.drop_zero] at hfind
      change mkfsScan ((D lsn).from 1024) fn s d.length ((bs - 1024) / 128 - 1) 0 = _ at hscan
      rw [hscan]
      dsimp only
      rw [hsl, if_neg (by decide)]
      obtain ⟨e, he, hfid⟩ := Option.map_eq_some_iff.mp hfind
      have hsub := ht.sub_of_find hes he
      obtain ⟨es', hes'⟩ := Option.isSome_iff_exists.mp hsub
      obtain ⟨m, rfl⟩ : ∃ m, n = m + 1 := ⟨n - 1, by simp at hf; omega⟩
      have hlen1 : s + d.length + 1 = s + (d ++ [chSlash]).length := by
        rw [List.length_append, List.length_singleton, Nat.add_assoc]
      change mkfsLocate D bs fn pathmax (m + 1) (intFid (entFid ((D lsn).from inlinedata) i))
        (s + d.length + 1) = _
      have hmem := List.mem_of_find?_eq_some he
      rw [he, Option.bind_some, ← hfid, (hw.2 es e hes he).1, hlen1]
      exact ih hds (hw.2 es e hes he).2 (if_neg ((ht.dir hes).fid_ne e hmem)) hsub hs.right hl' es' hes' m
        (by simp at hf; omega) h2 h3
    · rw [List.drop_zero] at hfind
      change mkfsScan ((D lsn).from 1024) fn s d.length ((bs - 1024) / 128 - 1) 0 = _ at hscan
      rw [hscan, hfind]
      rfl

end

/-! ## all three -/

/-- the inode that was found, or the failure -/
def LocStatus.Finds : LocStatus → Option Nat → Prop
  | .success inode _ _, some f => inode = f
  | .notfound, none => True
  | .nospace, none => True
  | _, _ => False

/-- a pointer to the data of the file, or NULL if there is none -/
def CoreRes.Finds (r : CoreRes) : Option Nat → Prop
  | some f => r.i = f ∧ ∃ sector offs, r.ptr = .data sector offs
  | none => r.ptr = .null

/-- the translations that `fs_locate` does not refuse -/
def coreReads (inode : Sector) : Prop := inTranslation inode ∈ [0xFF, 0x80, 0x7F, 0, 0x81, 1]

instance (inode : Sector) : Decidable (coreReads inode) := inferInstanceAs (Decidable (_ ∈ _))

theorem coreData_data (D : Disk) (i : Nat) :
    (∃ sector offs, coreData D i = .data sector offs) ↔ coreReads (D i) := by
  unfold coreReads coreData
  simp only [List.mem_cons, List.not_mem_nil, or_false]
  split_ifs with h1 h2 h3 h4
  · simp [h1]
  · simp only [CorePtr.data.injEq, exists_and_left, exists_eq', and_true, true_iff]
    omega
  · simp [h3]
  · simp only [CorePtr.data.injEq, exists_and_left, exists_eq', and_true, true_iff]
    omega
  · simp only [exists_false, false_iff]
    omega

section
variable {v : FszVol} {pathmax fuel path : Nat} {spare creat : Bool} {st : LocState} {fn : Nat → UInt8}

theorem resolveBy_entry (ht : FszTree D bs dirs) {f : Nat} (h : resolveBy dirs p ds lsn = some f) :
    f ≠ 0 ∧ bytesAt (D f) 0 4 = inMagic := by
  unfold resolveBy at h
  obtain ⟨l, -, h⟩ := Option.bind_eq_some_iff.mp h
  obtain ⟨es, hes, h⟩ := Option.bind_eq_some_iff.mp h
  obtain ⟨e, he, rfl⟩ := Option.map_eq_some_iff.mp h
  have hmem := List.mem_of_find?_eq_some he
  exact ⟨(ht.dir hes).fid_ne e hmem, ht.inode hes e hmem⟩

/-- the driver finds the target only if its entry is the first one that begins with the name -/
theorem endStatus_finds (creat spare : Bool) (found : Option Nat) {target : Option Nat}
    (hlink : ∀ f, target = some f → inFiletype (D f) ≠ typeSymlink) :
    (endStatus D creat spare found).Finds target ↔ found = target := by
  cases found with
  | none =>
    unfold endStatus notFound
    cases target with
    | none => split_ifs <;> simp [LocStatus.Finds]
    | some f => split_ifs <;> simp [LocStatus.Finds]
  | some g =>
    rw [endStatus]
    cases target with
    | none => split_ifs <;> simp [LocStatus.Finds]
    | some f =>
      by_cases hg : inFiletype (D g) = typeSymlink
      · rw [if_pos hg]
        refine iff_of_false (by simp [LocStatus.Finds]) ?_
        intro hgf
        obtain rfl := Option.some.inj hgf
        exact hlink g rfl hg
      · rw [if_neg hg]
        simp [LocStatus.Finds]

theorem fsLocate_finds (ht : FszTree D bs dirs) (hd : ∀ d ∈ ds, FileName d) (hc : FileName c)
    (hs : StrAt fn 0 (pathOf ds c)) (hl : (pathOf ds c).length < pathmax) (hf : ds.length + 1 ≤ fuel)
      {target : Option Nat}
    (hres : resolveBy dirs (beginsWith c) ds (rootdirfid (D 0)) = target) :
    (fsLocate D fn pathmax fuel).Finds target ↔ ∀ f, target = some f → coreReads (D f) ∧ intFid f = f := by
  have hwalk := coreWalk_path ht hd hc ht.root hs hl hf
  rw [hres] at hwalk
  unfold fsLocate
  cases target with
  | none =>
    rw [hwalk, Option.map_none, Option.getD_none]
    dsimp only
    rw [if_pos rfl]
    simp [CoreRes.Finds]
  | some f =>
    obtain ⟨hne, hm⟩ := resolveBy_entry ht hres
    rw [Option.map_some, Option.getD_some] at hwalk
    rw [hwalk]
    have hsame : (∀ g, some f = some g → coreReads (D g) ∧ intFid g = g) ↔ coreReads (D f) ∧ intFid f = f := by simp
    rw [hsame]
    generalize intFid f = i
    dsimp only
    by_cases hint : i = f
    · rw [hint, if_neg hne, if_neg (not_not.mpr hm)]
      unfold CoreRes.Finds
      dsimp only
      rw [coreData_data]
      exact and_comm
    · -- the core goes on with another inode
      refine iff_of_false ?_ fun h => hint h.2
      split_ifs
      · exact fun h => hint h.1
      · exact fun h => hint h.1
      · exact fun h => hint h.1

/-- For a path whose names and directories are plain as far as they exist: the three searches find the
file with the given name, or find out that there is none, if and only if the first entry that begins with
the last name has that name, its inode number is an `int`, and the core can read the file. -/
theorem locate_agree_iff (spare creat : Bool) (st : LocState) (ds : List (List UInt8)) (c : List UInt8)
    (pathmax fuel : Nat) (ht : FszTree D bs dirs) (hv : v.Cached D) (hd : ∀ d ∈ ds, FileName d) (hc : FileName c)
    (hw : PlainWalk dirs c ds (rootdirfid (D 0)))
    (hs : StrAt st.buf path (pathOf ds c)) (hfn : StrAt fn 0 (pathOf ds c))
    (hl : (pathOf ds c).length < pathmax) (hf : ds.length + 2 ≤ fuel)
    (hlink : ∀ f, resolveBy dirs (exactName c) ds (rootdirfid (D 0)) = some f →
      inFiletype (D f) ≠ typeSymlink) :
    ((∃ r, fszLocate v pathmax spare fuel 0 creat path st = some r ∧
        r.status.Finds (resolveBy dirs (exactName c) ds (rootdirfid (D 0)))) ∧
      (fsLocate D fn pathmax fuel).Finds (resolveBy dirs (exactName c) ds (rootdirfid (D 0))) ∧
      mkfsLocate D bs fn pathmax fuel 0 0 =
        some ((resolveBy dirs (exactName c) ds (rootdirfid (D 0))).getD 0)) ↔
    resolveBy dirs (beginsWith c) ds (rootdirfid (D 0)) = resolveBy dirs (exactName c) ds (rootdirfid (D 0)) ∧
      ∀ f, resolveBy dirs (exactName c) ds (rootdirfid (D 0)) = some f → coreReads (D f) ∧ intFid f = f := by
  have hmkfs := mkfsLocate_path ht hd hc hw (if_pos rfl) ht.root hfn hl (show ds.length + 1 ≤ fuel by omega)
  obtain ⟨r, hr, hstatus⟩ := locateFrom_path (rootdirfid (D 0)) spare creat ht hv hd hc hw ht.root hs hl hf
  have hdrv : fszLocate v pathmax spare fuel 0 creat path st = some r := by
    unfold fszLocate
    rw [if_neg (by simp [hv.fd_ne, hv.fd_lt]), hv.blocks]
    dsimp only
    rw [if_pos rfl, hr]
  have hfinds := endStatus_finds creat spare (resolveBy dirs (beginsWith c) ds (rootdirfid (D 0))) hlink
  have hcore := fun h : _ = resolveBy dirs (exactName c) ds (rootdirfid (D 0)) =>
    fsLocate_finds ht hd hc hfn hl (show ds.length + 1 ≤ fuel by omega) h
  constructor
  · rintro ⟨⟨r', hr', h⟩, hptr, -⟩
    obtain rfl : r = r' := Option.some.inj (hdrv.symm.trans hr')
    rw [hstatus] at h
    exact ⟨hfinds.mp h, (hcore (hfinds.mp h)).mp hptr⟩
  · rintro ⟨h, hread⟩
    exact ⟨⟨r, hdrv, by rw [hstatus]; exact hfinds.mpr h⟩, (hcore h).mpr hread, hmkfs⟩

end

/-! ## a volume with one file -/

/-- `ab` -/
def nameAb : List UInt8 := [0x61, 0x62]

theorem nameAb_file : FileName nameAb := ⟨by decide, by decide +kernel⟩

/-- the root directory has the one file `ab`, in sector 2 -/
def oneFile : Disk
  | 0 => bytesFrom [(560, [1])]
  | 1 => bytesFrom [(0, inMagic), (8, typeDir), (492, [0xFF]), (1024, dirMagic), (1040, [1]), (1152, [2]),
      (1169, nameAb)]
  | 2 => bytesFrom [(0, inMagic), (492, [0xFF])]
  | _ => fun _ => 0

def oneFileDirs (lsn : Nat) : Option (List DirEnt) := if lsn = 1 then some [⟨2, nameAb⟩] else none

theorem oneFile_tree : FszTree oneFile 4096 oneFileDirs := by
  have hdirs : ∀ {lsn es}, oneFileDirs lsn = some es → lsn = 1 ∧ es = [⟨2, nameAb⟩] := by
    intro lsn es h
    unfold oneFileDirs at h
    split_ifs at h with h1
    cases h
    exact ⟨h1, rfl⟩
  refine ⟨by norm_num, by decide +kernel, ?_, ?_, ?_⟩
  · intro lsn es h
    obtain ⟨rfl, rfl⟩ := hdirs h
    refine ⟨by norm_num, by decide +kernel, by decide +kernel, by decide +kernel, by decide +kernel,
      by decide +kernel, ?_, ?_, by decide, fun _ => by decide +kernel, ?_, ?_⟩
    · intro k hk
      obtain rfl : k = 0 := by simpa using hk
      show entFid ((oneFile 1).from inlinedata) 0 = 2
      decide +kernel
    · intro k hk
      obtain rfl : k = 0 := by simpa using hk
      show StrAt ((oneFile 1).from inlinedata) (entName 0) nameAb
      exact StrAt.of_bytes (by decide +kernel) (by decide +kernel) (by decide)
    · intro e he
      rw [List.mem_singleton.mp he]
      decide
    · intro e he
      rw [List.mem_singleton.mp he]
      exact ⟨nameAb, nameAb_file, Or.inl rfl⟩
  · intro lsn es h e he
    obtain ⟨rfl, rfl⟩ := hdirs h
    rw [List.mem_singleton.mp he]
    decide +kernel
  · intro lsn es h e he c hc
    obtain ⟨rfl, rfl⟩ := hdirs h
    rw [List.mem_singleton.mp he] at hc
    have hlast : nameAb.getLast? = some chSlash := by
      rw [show nameAb = c ++ [chSlash] from hc, List.getLast?_concat]
    cases hlast

/-- the path `ab` -/
def pathAb : Nat → UInt8 := bytesFrom [(0, nameAb)]

theorem locate_agree_ab :
    (∃ r, fszLocate (cachedVol 4096 oneFile) 512 false 2 0 false 0 ⟨pathAb, [], none⟩ = some r ∧
        r.status.Finds (resolveBy oneFileDirs (exactName nameAb) [] 1)) ∧
      (fsLocate oneFile pathAb 512 2).Finds (resolveBy oneFileDirs (exactName nameAb) [] 1) ∧
      mkfsLocate oneFile 4096 pathAb 512 2 0 0 =
        some ((resolveBy oneFileDirs (exactName nameAb) [] 1).getD 0) := by
  have hpath : StrAt pathAb 0 (pathOf [] nameAb) :=
    StrAt.of_bytes (by decide +kernel) (by decide +kernel) (by decide)
  have hroot : rootdirfid (oneFile 0) = 1 := by decide +kernel
  have hdots : NoDots nameAb := by unfold NoDots; decide
  have h := (locate_agree_iff false false ⟨pathAb, [], none⟩ [] nameAb 512 2 oneFile_tree
    (cachedVol_cached 4096 oneFile) (fun d hd => absurd hd List.not_mem_nil) nameAb_file hdots
    hpath hpath (by decide) le_rfl ?_).mpr ?_
  · rwa [hroot] at h
  · intro f hf
    rw [hroot] at hf
    have : f = 2 := by
      have h2 : resolveBy oneFileDirs (exactName nameAb) [] 1 = some 2 := by decide
      rw [h2] at hf
      exact (Option.some.inj hf).symm
    rw [this]
    decide +kernel
  · rw [hroot]
    have h2 : resolveBy oneFileDirs (exactName nameAb) [] 1 = some 2 := by decide
    have h3 : resolveBy oneFileDirs (beginsWith nameAb) [] 1 = some 2 := by decide
    rw [h2, h3]
    refine ⟨rfl, ?_⟩
    intro f hf
    cases hf
    decide +kernel

/-- there is no file `a`: the image tool says so, the driver and the core find `ab` -/
theorem locate_prefix_found :
    mkfsLocate oneFile 4096 (bytesFrom [(0, [0x61])]) 512 2 0 0 = some 0 ∧
    (fszLocate (cachedVol 4096 oneFile) 512 false 2 0 false 0 ⟨bytesFrom [(0, [0x61])], [], none⟩).map
      (·.status) = some (.success 2 .regFile 0) ∧
    (fsLocate oneFile (bytesFrom [(0, [0x61])]) 512 2).i = 2 ∧
    resolveBy oneFileDirs (exactName [0x61]) [] 1 = none ∧ FszTree oneFile 4096 oneFileDirs :=
  ⟨by decide +kernel, by decide +kernel, by decide +kernel, by decide, oneFile_tree⟩

end OsZ
