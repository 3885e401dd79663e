import OsZ.Fsz.Tree

/-!
# Up directories in the FS/Z driver

The path as a list of names, and the directories above as a stack: what `locate` does without the
buffer.

* `pathTexts`        the names of a path, each with the slash behind it;
* `walkTexts`        the walk over the names;
* `locateFrom_walk`  the driver is that walk, as long as there is no joker;
* `updir_cancels`    a directory with `..` behind it is no step, if its name does not begin with two dots.
-/

namespace OsZ

/-! ## the names of a path -/

/-- up to the end of the path, cut behind every slash -/
def pathTexts : List UInt8 → List (List UInt8)
  | [] => []
  | a :: l =>
    if pathEnd a then []
    else if a = chSlash then [a] :: pathTexts l
    else match pathTexts l with
      | [] => [[a]]
      | x :: xs => (a :: x) :: xs

def upText (x : List UInt8) : Bool := [chDot, chDot].isPrefixOf x && !([chDot, chDot, chDot].isPrefixOf x)

def jokerText (x : List UInt8) : Bool := [chDot, chDot, chDot].isPrefixOf x

/-- one name with its slash, or a last name -/
structure TextAt (s x t : List UInt8) : Prop where
  split : s = x ++ t
  name : ∃ nm, (∀ a ∈ nm, a ≠ chSlash ∧ pathEnd a = false) ∧
    (x = nm ++ [chSlash] ∨ (x = nm ∧ nm ≠ [] ∧ ∀ a, t.head? = some a → pathEnd a = true))

theorem pathTexts_nil {s : List UInt8} (h : pathTexts s = []) : s = [] ∨ ∃ a, s.head? = some a ∧ pathEnd a = true := by
  cases s with
  | nil => exact Or.inl rfl
  | cons a l =>
    right
    rw [pathTexts] at h
    split at h
    · next ha => exact ⟨a, rfl, ha⟩
    · split at h
      · cases h
      · split at h <;> cases h

theorem pathTexts_cons {s x : List UInt8} {xs : List (List UInt8)} (h : pathTexts s = x :: xs) :
    ∃ t, TextAt s x t ∧ pathTexts t = xs := by
  induction s generalizing x xs with
  | nil => cases h
  | cons a l ih =>
    rw [pathTexts] at h
    split at h
    · cases h
    next ha =>
    have ha' : pathEnd a = false := by simpa using ha
    split at h
    · next hs =>
      cases h
      exact ⟨l, ⟨rfl, [], by simp, Or.inl (by rw [hs]; rfl)⟩, rfl⟩
    next hs =>
    split at h
    · next hnil =>
      cases h
      refine ⟨l, ⟨rfl, [a], by simpa using ⟨hs, ha'⟩, Or.inr ⟨rfl, List.cons_ne_nil _ _, ?_⟩⟩, hnil⟩
      intro b hb
      rcases pathTexts_nil hnil with rfl | ⟨c, hc, hce⟩
      · cases hb
      · rw [hc] at hb
        exact Option.some.inj hb ▸ hce
    · next y ys hl =>
      cases h
      obtain ⟨t, ⟨hsplit, nm, hnm, hform⟩, ht⟩ := ih hl
      refine ⟨t, ⟨by rw [hsplit]; rfl, a :: nm, ?_, ?_⟩, ht⟩
      · intro b hb
        rcases List.mem_cons.mp hb with rfl | hb
        · exact ⟨hs, ha'⟩
        · exact hnm b hb
      · rcases hform with rfl | ⟨rfl, -, hend⟩
        · exact Or.inl rfl
        · exact Or.inr ⟨rfl, List.cons_ne_nil _ _, hend⟩

theorem pathTexts_append {nm s : List UInt8} (h : ∀ a ∈ nm, a ≠ chSlash ∧ pathEnd a = false) :
    pathTexts (nm ++ chSlash :: s) = (nm ++ [chSlash]) :: pathTexts s := by
  induction nm with
  | nil =>
    rw [List.nil_append, pathTexts, if_neg (by decide), if_pos rfl]
    rfl
  | cons a nm ih =>
    obtain ⟨h1, h2⟩ := h a List.mem_cons_self
    rw [List.cons_append, pathTexts, if_neg (by rw [h2]; decide), if_neg h1,
      ih (fun b hb => h b (List.mem_cons_of_mem a hb))]
    rfl

/-! ## the walk -/

/-- `while(i)`: the first entry whose name begins with the text -/
def entryScan (dir : Sector) (x : List UInt8) : Nat → Nat → Option Nat
  | 0, _ => none
  | i+1, k =>
    if dir (entName k) = 0 then none
    else if bytesAt dir (entName k) x.length = x then some (entFid dir k)
    else entryScan dir x i (k + 1)

section
variable (v : FszVol)

/-- the inode, if it is none of a link -/
def openInode (lsn : Nat) : LocStatus ⊕ Sector :=
  if lsn = 0 then .inl .noblock
  else match v.readblock lsn with
    | none => .inl .noblock
    | some inode =>
      if bytesAt inode 0 4 ≠ inMagic then .inl .fserror
      else if inFiletype inode = typeSymlink then .inl .syminpath
      else .inr inode

/-- the entry of a name in a directory, and the block it was found in; `none` is a pointer NULL that is used -/
def enterDir (spare creat : Bool) (lsn : Nat) (fileblk : Option Sector) (x : List UInt8) :
    Option (LocStatus ⊕ Nat × Option Sector) :=
  match openInode v lsn with
  | .inl status => some (.inl status)
  | .inr inode =>
    if inFiletype inode = typeUnion then some (.inl .unioninpath)
    else match dirBlock v inode fileblk with
    | .inl status => some (.inl status)
    | .inr fileblk =>
      if inFiletype inode = typeApp then some (.inl .fileinpath)
      else if inFiletype inode = typeDir then
        match fileblk with
        | none => none
        | some dir =>
          if bytesAt dir 0 4 ≠ dirMagic then some (.inl .fserror)
          else match entryScan dir x (numentries dir) 0 with
            | none => some (.inl (notFound creat spare))
            | some fid => some (.inr (fid, some dir))
      else some (.inl (notFound creat spare))

/-- the names one after the other; `..` goes back to the directory on the stack -/
def walkTexts (spare creat : Bool) : List (List UInt8) → Nat → List Nat → Option Sector → Option LocStatus
  | [], lsn, _, _ =>
    match openInode v lsn with
    | .inl status => some status
    | .inr inode => some (.success lsn (locType inode) (inSize inode))
  | x :: xs, lsn, stack, fileblk =>
    if upText x then
      match stack with
      | [] => some .updir
      | l :: stack => walkTexts spare creat xs l stack fileblk
    else match enterDir v spare creat lsn fileblk x with
      | none => none
      | some (.inl status) => some status
      | some (.inr (fid, fileblk)) => walkTexts spare creat xs fid ((lsn :: stack).take pathStackSize) fileblk

theorem walkTexts_cons (spare creat : Bool) (x : List UInt8) (xs : List (List UInt8)) (lsn : Nat) (stack : List Nat)
    (fileblk : Option Sector) : walkTexts v spare creat (x :: xs) lsn stack fileblk =
      if upText x then
        match stack with
        | [] => some .updir
        | l :: stack => walkTexts v spare creat xs l stack fileblk
      else match enterDir v spare creat lsn fileblk x with
        | none => none
        | some (.inl status) => some status
        | some (.inr (fid, fileblk)) =>
          walkTexts v spare creat xs fid ((lsn :: stack).take pathStackSize) fileblk := by
  rw [walkTexts.eq_def]

end

/-! ## the driver is the walk -/

section
variable {v : FszVol} {buf : Nat → UInt8} {path pathmax fuel lsn root : Nat} {s x t : List UInt8} {spare creat : Bool}
  {st : LocState}

theorem buf_end (hs : StrAt buf path s) (h : pathTexts s = []) : pathEnd (buf path) = true := by
  rcases pathTexts_nil h with rfl | ⟨a, ha, hend⟩
  · have hn := hs.nul
    rw [List.length_nil, Nat.add_zero] at hn
    rw [hn]
    decide
  · obtain ⟨l, rfl⟩ := List.head?_eq_some_iff.mp ha
    rw [hs.chars.head]
    exact hend

theorem buf_name {xs : List (List UInt8)} (hs : StrAt buf path s) (h : pathTexts s = x :: xs) :
    ¬ pathEnd (buf path) = true := by
  cases s with
  | nil => cases h
  | cons a l =>
    intro hc
    rw [hs.chars.head] at hc
    rw [pathTexts, if_pos hc] at h
    cases h

theorem nameEnd_here (h : pathEnd (buf path) = true) : nameEnd pathmax buf path = path := by
  have hspan : spanTo (fun a => a == chSlash || pathEnd a) buf path pathmax = 0 := by
    cases pathmax with
    | zero => rfl
    | succ n => rw [spanTo, h, Bool.or_true, if_pos rfl]
  have hslash : buf path ≠ chSlash := by
    intro hc
    rw [hc] at h
    exact absurd h (by decide)
  unfold nameEnd
  rw [hspan]
  exact if_neg hslash

theorem nameEnd_text (hs : StrAt buf path s) (ht : TextAt s x t) (hl : s.length < pathmax) :
    nameEnd pathmax buf path = path + x.length := by
  obtain ⟨rfl, nm, hnm, hform⟩ := ht
  have hlen : x.length ≤ (x ++ t).length := by
    rw [List.length_append]
    omega
  have hspan : ∀ k, k = nm.length → k < pathmax → (∀ i (h : i < nm.length), buf (path + i) = nm[i]) →
      (buf (path + k) = chSlash ∨ pathEnd (buf (path + k)) = true) →
      spanTo (fun a => a == chSlash || pathEnd a) buf path pathmax = k := by
    rintro k rfl hk hin hstop
    apply spanTo_eq _ _ hk
    · intro i hi
      obtain ⟨h1, h2⟩ := hnm nm[i] (List.getElem_mem hi)
      rw [hin i hi]
      simp [h1, h2]
    · rcases hstop with h | h
      · rw [h]
        rfl
      · rw [h, Bool.or_true]
  rcases hform with rfl | ⟨rfl, hne, hend⟩
  · have hslash : buf (path + nm.length) = chSlash := hs.chars.left.right.head
    unfold nameEnd
    rw [hspan nm.length rfl (by rw [List.length_append, List.length_singleton] at hlen; omega) hs.chars.left.left
      (Or.inl hslash)]
    dsimp only
    rw [if_pos hslash, List.length_append, List.length_singleton, Nat.add_assoc]
  · have hstop : pathEnd (buf (path + x.length)) = true := by
      cases t with
      | nil =>
        have hn := hs.nul
        rw [List.append_nil] at hn
        rw [hn]
        decide
      | cons a t =>
        have ha : buf (path + x.length) = a := hs.chars.right.head
        rw [ha]
        exact hend a rfl
    have hslash : buf (path + x.length) ≠ chSlash := by
      intro hc
      rw [hc] at hstop
      exact absurd hstop (by decide)
    unfold nameEnd
    rw [hspan x.length rfl (by omega) hs.chars.left (Or.inr hstop)]
    exact if_neg hslash

theorem dots_text (hs : StrAt buf path s) (ht : TextAt s x t) :
    ((2 ≤ x.length ∧ buf path = chDot ∧ buf (path + 1) = chDot ∧ buf (path + 2) ≠ chDot) ↔ upText x = true) ∧
    isJoker buf path (path + x.length) = jokerText x := by
  unfold isJoker
  rw [Nat.add_sub_cancel_left, Bool.eq_iff_iff (a := decide _), decide_eq_true_iff]
  obtain ⟨rfl, nm, hnm, hform⟩ := ht
  have hch := hs.chars.left
  match x, hch, hform with
  | [], _, _ => simp [upText, jokerText]
  | [a], _, _ => simp [upText, jokerText]
  | [a, b], hch, hform =>
    have h0 : buf path = a := hch.head
    have h1 : buf (path + 1) = b := hch 1 (by simp)
    have h2 : a = chDot → b = chDot → buf (path + 2) ≠ chDot := by
      intro ha hb
      rcases hform with hform | ⟨hform, -, hend⟩
      · -- a slash would be the second byte
        have hlast := congrArg List.getLast? hform
        rw [List.getLast?_concat] at hlast
        rw [hb] at hlast
        exact absurd hlast (show ¬ some chDot = some chSlash by decide)
      · cases t with
        | nil =>
          have hn : buf (path + 2) = 0 := hs.nul
          rw [hn]
          decide
        | cons c t =>
          have hc : buf (path + 2) = c := hs.chars.right.head
          have he := hend c rfl
          rw [hc]
          rintro rfl
          exact absurd he (by decide)
    rw [h0, h1]
    refine ⟨⟨fun h => ?_, fun h => ?_⟩, ⟨fun h => absurd h.1 (by simp), fun h => ?_⟩⟩
    · unfold upText
      rw [h.2.1, h.2.2.1]
      decide
    · have hab : a = chDot ∧ b = chDot := by
        unfold upText at h
        simp [List.isPrefixOf] at h
        exact ⟨h.1.symm, h.2.symm⟩
      exact ⟨by simp, hab.1, hab.2, h2 hab.1 hab.2⟩
    · unfold jokerText at h
      simp [List.isPrefixOf] at h
  | a :: b :: c :: l, hch, _ =>
    have h0 : buf path = a := hch.head
    have h1 : buf (path + 1) = b := hch 1 (by simp)
    have h2 : buf (path + 2) = c := hch 2 (by simp)
    rw [h0, h1, h2]
    unfold upText jokerText
    simp only [List.isPrefixOf, List.length_cons, Bool.and_eq_true, beq_iff_eq, Bool.not_eq_true', Bool.and_true,
      Bool.and_eq_false_iff, beq_eq_false_iff_ne]
    constructor
    · constructor
      · rintro ⟨-, rfl, rfl, h⟩
        exact ⟨⟨rfl, rfl⟩, Or.inr (Or.inr (Ne.symm h))⟩
      · rintro ⟨⟨rfl, rfl⟩, h⟩
        refine ⟨by omega, rfl, rfl, ?_⟩
        rcases h with h | h | h
        · exact absurd rfl h
        · exact absurd rfl h
        · exact Ne.symm h
    · constructor
      · rintro ⟨-, rfl, rfl, rfl⟩
        exact ⟨rfl, rfl, rfl⟩
      · rintro ⟨rfl, rfl, rfl⟩
        exact ⟨by omega, rfl, rfl, rfl⟩

theorem dirScan_entry {inner : Nat → LocState → Option LocRes} {dir : Sector} (hx : Chars st.buf path x)
    (hj : isJoker st.buf path (path + x.length) = false) (n k : Nat) :
    dirScan inner dir pathmax path (path + x.length) n k st =
      some (match entryScan dir x n k with
        | some fid => .entry fid st
        | none => .none st) := by
  induction n generalizing k with
  | zero => rfl
  | succ n ih =>
    have hcmp : memEq dir (entName k) st.buf path x.length = true ↔ bytesAt dir (entName k) x.length = x := by
      rw [memEq_iff]
      constructor
      · intro h
        apply List.ext_getElem
        · simp [bytesAt]
        · intro i h1 h2
          have hi : (bytesAt dir (entName k) x.length)[i] = dir (entName k + i) := by simp [bytesAt]
          rw [hi, h i h2, hx i h2]
      · intro h i hi
        have hlt : i < (bytesAt dir (entName k) x.length).length := by
          rw [h]
          exact hi
        have hget : (bytesAt dir (entName k) x.length)[i] = dir (entName k + i) := by simp [bytesAt]
        rw [hx i hi, ← hget]
        simp only [h]
    rw [dirScan, entryScan]
    by_cases h0 : dir (entName k) = 0
    · rw [if_pos h0, if_pos h0]
    · rw [if_neg h0, if_neg h0, hj, if_neg Bool.false_ne_true, Nat.add_sub_cancel_left]
      by_cases hm : bytesAt dir (entName k) x.length = x
      · rw [if_pos (hcmp.mpr hm), if_pos hm]
      · rw [if_neg (fun hc => hm (hcmp.mp hc)), if_neg hm]
        exact ih (k + 1)

theorem StrAt.strcpy {src dst : Nat} (h : StrAt buf src s) : StrAt (strcpy buf dst src s.length) dst s where
  chars := by
    intro i hi
    unfold OsZ.strcpy
    rw [if_pos (by omega), Nat.add_sub_cancel_left]
    exact h.chars i hi
  nul := by
    unfold OsZ.strcpy
    rw [if_pos (by omega), Nat.add_sub_cancel_left]
    exact h.nul
  no_nul := h.no_nul

theorem StrAt.span (h : StrAt buf path s) (hl : s.length < pathmax) :
    spanTo (fun a => a == 0) buf path pathmax = s.length := by
  apply spanTo_eq _ _ hl
  · intro i hi
    rw [h.chars i hi, beq_eq_false_iff_ne]
    exact fun hc => h.no_nul (hc ▸ List.getElem_mem hi)
  · rw [h.nul]
    rfl

/-- the path and the directories of the stack, each in front of the one above it -/
def Falling (path : Nat) (stack : List (Nat × Nat)) : Prop := (path :: stack.map Prod.snd).Pairwise (· ≥ ·)

theorem Falling.pop {stack : List (Nat × Nat)} {inode p : Nat} (h : Falling path ((inode, p) :: stack)) :
    p ≤ path ∧ Falling p stack :=
  ⟨List.rel_of_pairwise_cons h List.mem_cons_self, h.tail⟩

theorem Falling.push {stack : List (Nat × Nat)} {e : Nat} (h : Falling path stack) (he : path ≤ e) :
    Falling e (((lsn, path) :: stack).take pathStackSize) := by
  have hall : (e :: path :: stack.map Prod.snd).Pairwise (· ≥ ·) := by
    refine List.pairwise_cons.mpr ⟨fun p hp => ?_, h⟩
    rcases List.mem_cons.mp hp with rfl | hp
    · exact he
    · exact (List.rel_of_pairwise_cons h hp).trans he
  refine hall.sublist (List.Sublist.cons_cons e ?_)
  rw [List.map_take]
  exact List.take_sublist pathStackSize _

theorem TextAt.rest {x t : List UInt8} (ht : TextAt s x t) (hs : StrAt st.buf path s) (hl : s.length < pathmax) :
    StrAt st.buf (path + x.length) t ∧ t.length < pathmax := by
  rw [ht.split] at hs hl
  rw [List.length_append] at hl
  exact ⟨hs.right, by omega⟩

theorem locateFrom_walk {xs : List (List UInt8)} (hj : ∀ x ∈ xs, jokerText x = false) (hs : StrAt st.buf path s)
    (hx : pathTexts s = xs) (hl : s.length < pathmax) (hf : xs.length < fuel) (hp : Falling path st.stack) :
    (locateFrom v pathmax root spare fuel creat lsn path st).map (·.status) =
      walkTexts v spare creat xs lsn (st.stack.map Prod.fst) st.fileblk := by
  induction xs generalizing s lsn path st fuel with
  | nil =>
    obtain ⟨n, rfl⟩ := Nat.exists_eq_succ_of_ne_zero (Nat.ne_zero_of_lt hf)
    have hend := buf_end hs hx
    rw [locateFrom, walkTexts]
    dsimp only
    rw [nameEnd_here hend, if_neg (by omega)]
    unfold openInode
    by_cases h0 : lsn = 0
    · rw [if_pos h0, if_pos h0]
      rfl
    rw [if_neg h0, if_neg h0]
    cases hr : v.readblock lsn with
    | none => rfl
    | some inode =>
      dsimp only
      by_cases hm : bytesAt inode 0 4 ≠ inMagic
      · rw [if_pos hm, if_pos hm]
        rfl
      rw [if_neg hm, if_neg hm]
      by_cases hlink : inFiletype inode = typeSymlink
      · rw [if_pos hlink, if_pos hlink]
        rfl
      · rw [if_neg hlink, if_neg hlink, if_pos hend]
        rfl
  | cons x xs ih =>
    obtain ⟨n, rfl⟩ := Nat.exists_eq_succ_of_ne_zero (Nat.ne_zero_of_lt hf)
    have hf' : xs.length < n := Nat.lt_of_succ_lt_succ hf
    have hj' : ∀ x ∈ xs, jokerText x = false := fun y hy => hj y (List.mem_cons_of_mem x hy)
    obtain ⟨t, ht, htx⟩ := pathTexts_cons hx
    obtain ⟨hup, hjoker⟩ := dots_text hs ht
    have hstart := buf_name hs hx
    obtain ⟨hst, htl⟩ := ht.rest hs hl
    rw [locateFrom, walkTexts_cons]
    dsimp only
    rw [nameEnd_text hs ht hl, Nat.add_sub_cancel_left]
    by_cases hu : upText x = true
    · rw [if_pos (hup.mpr hu), if_pos hu]
      cases hstk : st.stack with
      | nil => rfl
      | cons top stack =>
        obtain ⟨inode, p⟩ := top
        rw [hstk] at hp
        obtain ⟨hle, hpop⟩ := hp.pop
        dsimp only
        rw [hst.span htl, if_neg (by omega)]
        exact ih hj' hst.strcpy htx htl hf' hpop
    · rw [if_neg (fun hc => hu (hup.mp hc)), if_neg hu]
      unfold enterDir openInode
      by_cases h0 : lsn = 0
      · rw [if_pos h0, if_pos h0]
        rfl
      rw [if_neg h0, if_neg h0]
      cases hr : v.readblock lsn with
      | none => rfl
      | some inode =>
        dsimp only
        by_cases hm : bytesAt inode 0 4 ≠ inMagic
        · rw [if_pos hm, if_pos hm]
          rfl
        rw [if_neg hm, if_neg hm]
        by_cases hlink : inFiletype inode = typeSymlink
        · rw [if_pos hlink, if_pos hlink]
          rfl
        rw [if_neg hlink, if_neg hlink, if_neg hstart]
        dsimp only
        by_cases hunion : inFiletype inode = typeUnion
        · rw [if_pos hunion, if_pos hunion]
          rfl
        rw [if_neg hunion, if_neg hunion]
        cases hblk : dirBlock v inode st.fileblk with
        | inl status => rfl
        | inr fileblk =>
          dsimp only
          by_cases happ : inFiletype inode = typeApp
          · rw [if_pos happ, if_pos happ]
            rfl
          rw [if_neg happ, if_neg happ]
          by_cases hdir : inFiletype inode = typeDir
          · rw [if_pos hdir, if_pos hdir]
            cases fileblk with
            | none => rfl
            | some dir =>
              dsimp only
              by_cases hmag : bytesAt dir 0 4 ≠ dirMagic
              · rw [if_pos hmag, if_pos hmag]
                rfl
              rw [if_neg hmag, if_neg hmag]
              have hchars : Chars st.buf path x := by
                have := hs.chars
                rw [ht.split] at this
                exact this.left
              rw [dirScan_entry (show Chars ({ st with fileblk := some dir } : LocState).buf path x from hchars)
                (hjoker.trans (hj x List.mem_cons_self))]
              cases hscan : entryScan dir x (numentries dir) 0 with
              | none => rfl
              | some fid =>
                dsimp only
                rw [ih hj' (show StrAt (({ st with fileblk := some dir } : LocState).pathpush lsn path).buf
                  (path + x.length) t from hst) htx htl hf' (hp.push (Nat.le_add_right path x.length))]
                show walkTexts v spare creat xs fid (List.map Prod.fst (((lsn, path) :: st.stack).take pathStackSize))
                  _ = _
                rw [List.map_take]
                rfl
          · rw [if_neg hdir, if_neg hdir]
            rfl

end

/-! ## a directory and back -/

/-- the names of directories, up to the last one of them -/
def walkDir (v : FszVol) : List (List UInt8) → Nat → List Nat → Option Sector → Option (Nat × List Nat × Option Sector)
  | [], lsn, stack, fileblk => some (lsn, stack, fileblk)
  | x :: xs, lsn, stack, fileblk =>
    if upText x then
      match stack with
      | [] => none
      | l :: stack => walkDir v xs l stack fileblk
    else match enterDir v false false lsn fileblk x with
      | some (.inr (fid, fileblk)) => walkDir v xs fid ((lsn :: stack).take pathStackSize) fileblk
      | _ => none

/-- the inode is a directory with its entries in a sector list, which the driver does not read -/
def ListDir (v : FszVol) (lsn : Nat) : Prop := ∃ inode, v.readblock lsn = some inode ∧ inFiletype inode = typeDir ∧
  0x80 ≤ inTranslation inode ∧ inTranslation inode ≤ 0x83

section
variable {v : FszVol} {spare creat : Bool} {x : List UInt8} {xs : List (List UInt8)} {lsn l : Nat}
  {stack S : List Nat} {fileblk blk : Option Sector}

theorem walkDir_cons (v : FszVol) (x : List UInt8) (xs : List (List UInt8)) (lsn : Nat) (stack : List Nat)
    (fileblk : Option Sector) : walkDir v (x :: xs) lsn stack fileblk =
      if upText x then
        match stack with
        | [] => none
        | l :: stack => walkDir v xs l stack fileblk
      else match enterDir v false false lsn fileblk x with
        | some (.inr (fid, fileblk)) => walkDir v xs fid ((lsn :: stack).take pathStackSize) fileblk
        | _ => none := by
  rw [walkDir.eq_def]

theorem enterDir_inr {r : Nat × Option Sector} : enterDir v spare creat lsn fileblk x = some (.inr r) ↔
    ∃ inode dir, openInode v lsn = .inr inode ∧ inFiletype inode = typeDir ∧
      dirBlock v inode fileblk = .inr (some dir) ∧ bytesAt dir 0 4 = dirMagic ∧
      entryScan dir x (numentries dir) 0 = some r.1 ∧ r.2 = some dir := by
  obtain ⟨fid, blk⟩ := r
  constructor
  · intro h
    unfold enterDir at h
    split at h
    · cases h
    · next inode hopen =>
      split at h
      · cases h
      split at h
      · cases h
      · next hblk =>
        split at h
        · cases h
        split at h
        · next hdir =>
          split at h
          · cases h
          · next dir =>
            split at h
            · cases h
            · next hm =>
              split at h
              · cases h
              · next hscan =>
                cases h
                exact ⟨inode, dir, hopen, hdir, hblk, not_not.mp hm, hscan, rfl⟩
        · cases h
  · rintro ⟨inode, dir, hopen, hdir, hblk, hm, hscan, rfl⟩
    unfold enterDir
    rw [hopen]
    dsimp only
    rw [if_neg (by rw [hdir]; decide), hblk]
    dsimp only
    rw [if_neg (by rw [hdir]; decide), if_pos hdir, if_neg (not_not.mpr hm), hscan]

/-- whether a new file is wanted decides about the status only -/
theorem enterDir_creat (spare creat : Bool) {r : Nat × Option Sector} :
    enterDir v spare creat lsn fileblk x = some (.inr r) ↔ enterDir v false false lsn fileblk x = some (.inr r) :=
  enterDir_inr.trans enterDir_inr.symm

theorem walkTexts_dirs (spare creat : Bool) (xs : List (List UInt8)) {ps : List (List UInt8)}
    (h : walkDir v ps lsn stack fileblk = some (l, S, blk)) :
    walkTexts v spare creat (ps ++ xs) lsn stack fileblk = walkTexts v spare creat xs l S blk ∧
      S.length ≤ stack.length + ps.length := by
  induction ps generalizing lsn stack fileblk with
  | nil =>
    cases h
    exact ⟨rfl, Nat.le_refl _⟩
  | cons y ps ih =>
    rw [walkDir_cons] at h
    rw [List.cons_append, walkTexts_cons, List.length_cons]
    split at h
    · next hu =>
      rw [if_pos hu]
      cases stack with
      | nil => cases h
      | cons a stack =>
        obtain ⟨h1, h2⟩ := ih h
        refine ⟨h1, ?_⟩
        rw [List.length_cons]
        omega
    · next hu =>
      rw [if_neg hu]
      split at h
      · next fid blk' hent =>
        obtain ⟨h1, h2⟩ := ih h
        rw [(enterDir_creat spare creat).mpr hent]
        refine ⟨h1, ?_⟩
        rw [List.length_take, List.length_cons] at h2
        omega
      · cases h

/-- a sector list leaves the pointer alone, anything else sets it -/
theorem dirBlock_list {inode : Sector} (h : 0x80 ≤ inTranslation inode ∧ inTranslation inode ≤ 0x83)
    (blk : Option Sector) : dirBlock v inode blk = .inr blk := by
  unfold dirBlock
  dsimp only
  rw [if_neg (by omega), if_pos h]

theorem dirBlock_set {inode : Sector} (h : ¬ (0x80 ≤ inTranslation inode ∧ inTranslation inode ≤ 0x83))
    (fileblk blk : Option Sector) :
    dirBlock v inode fileblk = dirBlock v inode blk ∧ dirBlock v inode blk ≠ .inr none := by
  unfold dirBlock
  dsimp only
  by_cases hin : inTranslation inode = 0xFF
  · rw [if_pos hin, if_pos hin]
    exact ⟨rfl, by simp⟩
  rw [if_neg hin, if_neg hin, if_neg h, if_neg h]
  refine ⟨rfl, ?_⟩
  by_cases hsd : inTranslation inode = 0x7F
  · rw [if_pos hsd]
    cases sdFirst v 1 (inode.from inlinedata) <;> simp
  rw [if_neg hsd]
  by_cases hsec : inSec inode = 0
  · rw [if_pos hsec]
    simp
  rw [if_neg hsec]
  cases v.readblock (inSec inode) with
  | none => simp
  | some b =>
    dsimp only
    split
    · simp
    · split
      · simp
      · cases sdFirst v (inTranslation inode) b <;> simp

theorem openInode_read {inode : Sector} (h : openInode v lsn = .inr inode) :
    v.readblock lsn = some inode := by
  unfold openInode at h
  split at h
  · cases h
  · split at h
    · cases h
    · next hr =>
      split at h
      · cases h
      · split at h
        · cases h
        · cases h
          exact hr

/-- the pointer of the last directory is not used again -/
theorem enterDir_fileblk (hv : ¬ ListDir v lsn) (spare creat : Bool) (x : List UInt8) (fileblk blk : Option Sector) :
    enterDir v spare creat lsn fileblk x = enterDir v spare creat lsn blk x := by
  unfold enterDir
  cases hopen : openInode v lsn with
  | inl status => rfl
  | inr inode =>
    dsimp only
    by_cases hlist : 0x80 ≤ inTranslation inode ∧ inTranslation inode ≤ 0x83
    · have hdir : inFiletype inode ≠ typeDir := fun hc => hv ⟨inode, openInode_read hopen, hc, hlist⟩
      rw [dirBlock_list hlist, dirBlock_list hlist]
      dsimp only
      rw [if_neg hdir, if_neg hdir]
    · rw [(dirBlock_set (v := v) hlist fileblk blk).1]

/-- in a directory with a sector list the pointer stays as it is -/
theorem enterDir_kept {r : Nat × Option Sector} (hv : ListDir v lsn)
    (h : enterDir v spare creat lsn blk x = some (.inr r)) : r.2 = blk := by
  obtain ⟨inode, hread, -, hlist⟩ := hv
  obtain ⟨inode', dir, hopen, -, hblk, -, -, hr⟩ := enterDir_inr.mp h
  obtain rfl := Option.some.inj (hread.symm.trans (openInode_read hopen))
  rw [dirBlock_list hlist] at hblk
  exact hr.trans (Sum.inr.inj hblk).symm

theorem enterDir_some (spare creat : Bool) (lsn : Nat) (x : List UInt8) (dir : Sector) :
    ∃ r, enterDir v spare creat lsn (some dir) x = some r := by
  unfold enterDir
  split
  · exact ⟨_, rfl⟩
  · rename_i inode _
    split
    · exact ⟨_, rfl⟩
    have hset : dirBlock v inode (some dir) ≠ .inr none := by
      by_cases hlist : 0x80 ≤ inTranslation inode ∧ inTranslation inode ≤ 0x83
      · rw [dirBlock_list hlist]
        simp
      · exact (dirBlock_set hlist none _).2
    split
    · exact ⟨_, rfl⟩
    · rename_i b hb
      split
      · exact ⟨_, rfl⟩
      split
      · cases b with
        | none => exact absurd hb hset
        | some d =>
          dsimp only
          split
          · exact ⟨_, rfl⟩
          · split <;> exact ⟨_, rfl⟩
      · exact ⟨_, rfl⟩

/-- behind the first directory the walk ends -/
theorem walkTexts_ends (spare creat : Bool) (xs : List (List UInt8)) (lsn : Nat) (stack : List Nat) (dir : Sector) :
    ∃ status, walkTexts v spare creat xs lsn stack (some dir) = some status := by
  induction xs generalizing lsn stack dir with
  | nil =>
    rw [walkTexts]
    cases openInode v lsn <;> exact ⟨_, rfl⟩
  | cons x xs ih =>
    rw [walkTexts_cons]
    split
    · cases stack with
      | nil => exact ⟨_, rfl⟩
      | cons a stack => exact ih a stack dir
    · obtain ⟨r, hr⟩ := enterDir_some spare creat lsn x dir
      rw [hr]
      cases r with
      | inl status => exact ⟨_, rfl⟩
      | inr r =>
        obtain ⟨-, dir', -, -, -, -, -, hdir⟩ := enterDir_inr.mp hr
        dsimp only
        rw [hdir]
        exact ih _ _ dir'

/-- two walks from a directory with no sector list in the directories above it -/
theorem walkTexts_fileblk (hl : fileblk = blk ∨ ¬ ListDir v lsn) (hS : ∀ a ∈ stack, ¬ ListDir v a) :
    walkTexts v spare creat xs lsn stack fileblk = walkTexts v spare creat xs lsn stack blk := by
  induction xs generalizing lsn stack with
  | nil => rfl
  | cons x xs ih =>
    rw [walkTexts_cons, walkTexts_cons]
    split
    · cases stack with
      | nil => rfl
      | cons a stack => exact ih (.inr (hS a List.mem_cons_self)) fun b hb => hS b (List.mem_cons_of_mem a hb)
    · rcases hl with rfl | hl
      · rfl
      · rw [enterDir_fileblk hl spare creat x fileblk blk]

/-- two steps up do not lead to the same directory -/
theorem walkTexts_astray {y : List UInt8} {r : Nat × Option Sector} (hx : upText x = true) (hy : lsn ∉ stack)
    (hent : enterDir v spare creat lsn fileblk y = some (.inr r)) :
    walkTexts v spare creat [x, [chDot, chDot, chSlash]] lsn stack fileblk ≠ walkTexts v spare creat [] lsn stack
      fileblk := by
  obtain ⟨inode, -, hopen, -⟩ := enterDir_inr.mp hent
  have hend : walkTexts v spare creat [] lsn stack fileblk = some (.success lsn (locType inode) (inSize inode)) := by
    rw [walkTexts, hopen]
  rw [hend, walkTexts_cons, if_pos hx]
  cases stack with
  | nil => simp
  | cons a stack =>
    dsimp only
    rw [walkTexts_cons, if_pos (by decide)]
    cases stack with
    | nil => simp
    | cons b stack =>
      have hb : b ≠ lsn := by
        rintro rfl
        exact hy (by simp)
      show walkTexts v spare creat [] b stack fileblk ≠ _
      rw [walkTexts]
      cases hob : openInode v b with
      | inr i =>
        intro hc
        simp at hc
        exact hb hc.1
      | inl status =>
        dsimp only
        intro hc
        obtain rfl := Option.some.inj hc
        unfold openInode at hob
        split at hob
        · cases hob
        · split at hob
          · cases hob
          · split at hob
            · cases hob
            · split at hob <;> cases hob

theorem walkTexts_back (hup : upText x = false) {r : Nat × Option Sector}
    (hent : enterDir v spare creat lsn fileblk x = some (.inr r)) (hlen : stack.length < pathStackSize) {y : List UInt8}
    (hy : upText y = true) :
    walkTexts v spare creat (x :: y :: xs) lsn stack fileblk = walkTexts v spare creat xs lsn stack r.2 := by
  rw [walkTexts_cons, if_neg (by rw [hup]; exact Bool.false_ne_true), hent]
  dsimp only
  have htake : (lsn :: stack).take pathStackSize = lsn :: stack := List.take_of_length_le (by
    rw [List.length_cons]
    omega)
  rw [htake, walkTexts_cons, if_pos hy]

end

/-! ## `p/c/../q` and `p/q` -/

def dirPath (ps : List (List UInt8)) : List UInt8 := ps.flatMap (· ++ [chSlash])

/-- the text `../` -/
def upDir : List UInt8 := [chDot, chDot, chSlash]

/-- the bytes of a name, and no joker -/
structure PathName (c : List UInt8) : Prop where
  chars : ∀ a ∈ c, a ≠ chSlash ∧ pathEnd a = false
  joker : jokerText (c ++ [chSlash]) = false

section
variable {v : FszVol} {spare creat : Bool} {pathmax : Nat} {ps : List (List UInt8)} {c q : List UInt8}

theorem PathName.no_nul (hc : PathName c) : 0 ∉ c := fun h => absurd (hc.chars 0 h).2 (by decide)

theorem dirPath_no_nul (hps : ∀ d ∈ ps, PathName d) : 0 ∉ dirPath ps := by
  intro h
  obtain ⟨d, hd, h0⟩ := List.mem_flatMap.mp h
  rcases List.mem_append.mp h0 with h0 | h0
  · exact (hps d hd).no_nul h0
  · exact absurd (List.mem_singleton.mp h0) (by decide)

theorem pathTexts_dirs (hps : ∀ d ∈ ps, PathName d) :
    pathTexts (dirPath ps ++ q) = ps.map (· ++ [chSlash]) ++ pathTexts q := by
  induction ps with
  | nil => rfl
  | cons d ps ih =>
    have hform : dirPath (d :: ps) ++ q = d ++ chSlash :: (dirPath ps ++ q) := by
      unfold dirPath
      simp
    rw [hform, pathTexts_append (hps d List.mem_cons_self).chars,
      ih (fun e he => hps e (List.mem_cons_of_mem d he))]
    rfl

theorem pathTexts_up (hc : PathName c) :
    pathTexts (c ++ chSlash :: (upDir ++ q)) = (c ++ [chSlash]) :: upDir :: pathTexts q := by
  have hup : pathTexts (upDir ++ q) = upDir :: pathTexts q :=
    pathTexts_append (show ∀ a ∈ [chDot, chDot], a ≠ chSlash ∧ pathEnd a = false by decide +kernel)
  rw [pathTexts_append hc.chars, hup]

theorem upText_iff (hc : PathName c) : upText (c ++ [chSlash]) = true ↔ ¬ NoDots c := by
  have hj := hc.joker
  unfold jokerText at hj
  unfold upText NoDots
  rw [hj, not_not, Bool.not_false, Bool.and_true, List.isPrefixOf_iff_prefix]
  constructor
  · intro h
    rcases List.prefix_concat_iff.mp h with heq | h
    · have hlast := congrArg List.getLast? heq
      rw [List.getLast?_concat] at hlast
      exact absurd hlast (by decide)
    · exact h
  · exact fun h => h.trans (List.prefix_append _ _)

theorem fszLocate_walk (spare creat : Bool) (st : LocState) {sb : Sector} {s : List UInt8} {path fuel : Nat}
    (hfd : v.fd ≠ minus1) (hlt : v.fd < v.nfcb) (hsb : v.readblock 0 = some sb)
      (hj : ∀ x ∈ pathTexts s, jokerText x = false)
    (hs : StrAt st.buf path s) (hl : s.length < pathmax) (hf : (pathTexts s).length < fuel)
    (hp : Falling path st.stack) :
    (fszLocate v pathmax spare fuel 0 creat path st).map (·.status) =
      walkTexts v spare creat (pathTexts s) (rootdirfid sb) (st.stack.map Prod.fst) st.fileblk := by
  unfold fszLocate
  rw [if_neg (by omega), hsb]
  dsimp only
  rw [if_pos rfl]
  exact locateFrom_walk hj hs rfl hl hf hp

/-- both paths give the same status, with the same inode, type and size; `lookup` empties the stack and sets
the pointer to NULL -/
def UpdirCancels (v : FszVol) (pathmax : Nat) (spare creat : Bool) (ps : List (List UInt8)) (c : List UInt8) : Prop :=
  ∀ q buf₁ buf₂ path₁ path₂ fuel, (∀ x ∈ pathTexts q, jokerText x = false) →
    ps.length + 2 + (pathTexts q).length < 64 → ps.length + 2 + (pathTexts q).length < fuel →
    StrAt buf₁ path₁ (dirPath ps ++ (c ++ chSlash :: (upDir ++ q))) → StrAt buf₂ path₂ (dirPath ps ++ q) →
    (dirPath ps ++ (c ++ chSlash :: (upDir ++ q))).length < pathmax →
    ∃ status, (fszLocate v pathmax spare fuel 0 creat path₁ ⟨buf₁, [], none⟩).map (·.status) = some status ∧
      (fszLocate v pathmax spare fuel 0 creat path₂ ⟨buf₂, [], none⟩).map (·.status) = some status

/-- `c` must not be taken for `..`, and that is enough if no directory above `p` has its entries in a sector list -/
theorem updir_cancels (v : FszVol) (pathmax : Nat) (spare creat : Bool) (ps : List (List UInt8)) (c : List UInt8)
    (sb : Sector) (l : Nat) (S : List Nat) (blk : Option Sector) (r : Nat × Option Sector)
    (hfd : v.fd ≠ minus1) (hlt : v.fd < v.nfcb) (hsb : v.readblock 0 = some sb)
    (hps : ∀ d ∈ ps, PathName d) (hc : PathName c) (hlen : ps.length + 2 < 64)
    (hfit : (dirPath ps ++ (c ++ chSlash :: upDir)).length < pathmax)
    (hdir : walkDir v (ps.map (· ++ [chSlash])) (rootdirfid sb) [] none = some (l, S, blk)) (htree : l ∉ S)
    (hmatch : enterDir v false false l blk (c ++ [chSlash]) = some (.inr r)) :
    (UpdirCancels v pathmax spare creat ps c → NoDots c) ∧
    (NoDots c → (∀ a ∈ S, ¬ ListDir v a) → UpdirCancels v pathmax spare creat ps c) := by
  have hmatch' := (enterDir_creat spare creat).mpr hmatch
  have hjp : ∀ x ∈ ps.map (· ++ [chSlash]), jokerText x = false := by
    intro x hx
    obtain ⟨d, hd, rfl⟩ := List.mem_map.mp hx
    exact (hps d hd).joker
  have hjoker : ∀ q, (∀ x ∈ pathTexts q, jokerText x = false) →
      (∀ x ∈ pathTexts (dirPath ps ++ q), jokerText x = false) ∧
      ∀ x ∈ pathTexts (dirPath ps ++ (c ++ chSlash :: (upDir ++ q))), jokerText x = false := by
    intro q hq
    rw [pathTexts_dirs hps, pathTexts_dirs hps, pathTexts_up hc]
    refine ⟨fun x hx => ?_, fun x hx => ?_⟩
    · rcases List.mem_append.mp hx with hx | hx
      · exact hjp x hx
      · exact hq x hx
    · rcases List.mem_append.mp hx with hx | hx
      · exact hjp x hx
      · rcases List.mem_cons.mp hx with rfl | hx
        · exact hc.joker
        · rcases List.mem_cons.mp hx with rfl | hx
          · decide
          · exact hq x hx
  have hcount : ∀ q, (pathTexts (dirPath ps ++ q)).length = ps.length + (pathTexts q).length ∧
      (pathTexts (dirPath ps ++ (c ++ chSlash :: (upDir ++ q)))).length = ps.length + 2 + (pathTexts q).length := by
    intro q
    rw [pathTexts_dirs hps, pathTexts_dirs hps, pathTexts_up hc, List.length_append, List.length_append,
      List.length_map, List.length_cons, List.length_cons]
    omega
  -- both runs as walks from the directory `p`
  have hruns : ∀ q buf₁ buf₂ path₁ path₂ fuel, (∀ x ∈ pathTexts q, jokerText x = false) →
      ps.length + 2 + (pathTexts q).length < fuel →
      StrAt buf₁ path₁ (dirPath ps ++ (c ++ chSlash :: (upDir ++ q))) → StrAt buf₂ path₂ (dirPath ps ++ q) →
      (dirPath ps ++ (c ++ chSlash :: (upDir ++ q))).length < pathmax →
      (fszLocate v pathmax spare fuel 0 creat path₁ ⟨buf₁, [], none⟩).map (·.status) =
        walkTexts v spare creat ((c ++ [chSlash]) :: upDir :: pathTexts q) l S blk ∧
      (fszLocate v pathmax spare fuel 0 creat path₂ ⟨buf₂, [], none⟩).map (·.status) =
        walkTexts v spare creat (pathTexts q) l S blk := by
    intro q buf₁ buf₂ path₁ path₂ fuel hq hfuel hs₁ hs₂ hl
    obtain ⟨hj₂, hj₁⟩ := hjoker q hq
    obtain ⟨hn₂, hn₁⟩ := hcount q
    have hl₂ : (dirPath ps ++ q).length < pathmax := by
      simp only [List.length_append, List.length_cons] at hl ⊢
      omega
    have h₁ := fszLocate_walk spare creat ⟨buf₁, [], none⟩ hfd hlt hsb hj₁ hs₁ hl
      (show (pathTexts (dirPath ps ++ (c ++ chSlash :: (upDir ++ q)))).length < fuel by omega)
      (List.pairwise_singleton _ _)
    have h₂ := fszLocate_walk spare creat ⟨buf₂, [], none⟩ hfd hlt hsb hj₂ hs₂ hl₂
      (show (pathTexts (dirPath ps ++ q)).length < fuel by omega) (List.pairwise_singleton _ _)
    rw [pathTexts_dirs hps, pathTexts_up hc] at h₁
    rw [pathTexts_dirs hps] at h₂
    rw [h₁, h₂]
    exact ⟨(walkTexts_dirs spare creat _ hdir).1, (walkTexts_dirs spare creat _ hdir).1⟩
  have hS : S.length < pathStackSize := by
    have := (walkTexts_dirs spare creat [] hdir).2
    rw [List.length_nil, List.length_map] at this
    unfold pathStackSize
    omega
  constructor
  · intro h
    by_contra hdots
    have hup : upText (c ++ [chSlash]) = true := (upText_iff hc).mpr hdots
    have hz₂ : 0 ∉ dirPath ps ++ [] := by
      rw [List.append_nil]
      exact dirPath_no_nul hps
    have hz₁ : 0 ∉ dirPath ps ++ (c ++ chSlash :: (upDir ++ [])) := by
      intro h0
      rcases List.mem_append.mp h0 with h0 | h0
      · exact dirPath_no_nul hps h0
      · rcases List.mem_append.mp h0 with h0 | h0
        · exact hc.no_nul h0
        · exact absurd h0 (by decide)
    have hfit' : (dirPath ps ++ (c ++ chSlash :: (upDir ++ []))).length < pathmax := by
      rw [List.append_nil]
      exact hfit
    have hnil : pathTexts [] = [] := rfl
    have hcnt : ps.length + 2 + (pathTexts []).length < 64 := by
      rw [hnil, List.length_nil]
      omega
    have hq : ∀ x ∈ pathTexts [], jokerText x = false := by simp [hnil]
    obtain ⟨status, h₁, h₂⟩ := h [] _ _ 0 0 64 hq hcnt hcnt (textBuf_str hz₁) (textBuf_str hz₂) hfit'
    obtain ⟨g₁, g₂⟩ := hruns [] _ _ 0 0 64 hq hcnt (textBuf_str hz₁) (textBuf_str hz₂) hfit'
    rw [g₁] at h₁
    rw [g₂] at h₂
    exact walkTexts_astray hup htree hmatch' (h₁.trans h₂.symm)
  · intro hdots hlist q buf₁ buf₂ path₁ path₂ fuel hq hcnt hfuel hs₁ hs₂ hl
    obtain ⟨h₁, h₂⟩ := hruns q buf₁ buf₂ path₁ path₂ fuel hq hfuel hs₁ hs₂ hl
    have hup : upText (c ++ [chSlash]) = false := by
      rw [Bool.eq_false_iff, ne_eq, upText_iff hc, not_not]
      exact hdots
    have hsame : walkTexts v spare creat (pathTexts q) l S r.2 = walkTexts v spare creat (pathTexts q) l S blk := by
      refine walkTexts_fileblk ?_ hlist
      by_cases hl : ListDir v l
      · exact .inl (enterDir_kept hl hmatch')
      · exact .inr hl
    obtain ⟨-, dir, -, -, -, -, -, hset⟩ := enterDir_inr.mp hmatch'
    obtain ⟨status, hstatus⟩ := walkTexts_ends (v := v) spare creat (pathTexts q) l S dir
    rw [walkTexts_back hup hmatch' hS (by decide), hset, hstatus] at h₁
    rw [← hsame, hset, hstatus] at h₂
    exact ⟨status, h₁, h₂⟩

end

/-! ## a volume with two directories -/

/-- `..x` -/
def dotsX : List UInt8 := [chDot, chDot, 0x78]

def emptyDir : Sector := bytesFrom [(0, inMagic), (8, typeDir), (492, [0xFF]), (1024, dirMagic)]

/-- the root directory has the directories `a/` and `..x/` -/
def twoDirs : Disk
  | 0 => bytesFrom [(560, [1])]
  | 1 => bytesFrom [(0, inMagic), (8, typeDir), (492, [0xFF]), (1024, dirMagic), (1040, [2]), (1152, [2]),
      (1169, [0x61, chSlash]), (1280, [3]), (1297, dotsX ++ [chSlash])]
  | 2 => emptyDir
  | 3 => emptyDir
  | _ => fun _ => 0

/-- `a/../q` is `q` -/
theorem updir_cancels_demo : UpdirCancels (cachedVol 4096 twoDirs) 256 false false [] [0x61] := by
  have hent : (enterDir (cachedVol 4096 twoDirs) false false 1 none ([0x61] ++ [chSlash])).map
      (fun r => r.elim (fun _ => 0) Prod.fst) = some 2 := by decide +kernel
  have hright : ∃ r, enterDir (cachedVol 4096 twoDirs) false false 1 none ([0x61] ++ [chSlash]) = some (.inr r) := by
    cases h : enterDir (cachedVol 4096 twoDirs) false false 1 none ([0x61] ++ [chSlash]) with
    | none =>
      rw [h] at hent
      cases hent
    | some r =>
      cases r with
      | inl status =>
        rw [h] at hent
        cases hent
      | inr r => exact ⟨r, rfl⟩
  obtain ⟨r, hr⟩ := hright
  have hroot : rootdirfid (twoDirs 0) = 1 := by decide +kernel
  exact (updir_cancels (cachedVol 4096 twoDirs) 256 false false [] [0x61] (twoDirs 0) 1 [] none r (by decide)
    (by decide)
    rfl (by simp) ⟨by decide +kernel, by decide +kernel⟩ (by decide) (by decide)
    (by rw [hroot]; rfl) (by simp) hr).2 (show ¬ [chDot, chDot] <+: [0x61] by decide) (by simp)

/-- the directory `..x/` is taken for `..` -/
theorem updir_dots : (entryScan ((twoDirs 1).from inlinedata) (dotsX ++ [chSlash]) 2 0 = some 3) ∧
    (fszLocate (cachedVol 4096 twoDirs) 256 false 9 0 false 0 ⟨textBuf (dotsX ++ chSlash :: upDir), [], none⟩).map
      (·.status) = some .updir ∧
    (fszLocate (cachedVol 4096 twoDirs) 256 false 9 0 false 0 ⟨textBuf [], [], none⟩).map (·.status) =
      some (.success 1 .regDir 0) := by
  refine ⟨?_, ?_, ?_⟩ <;> decide +kernel

end OsZ
