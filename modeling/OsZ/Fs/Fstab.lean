import Mathlib.Tactic

/-!
# The mount table of the boot (`fs/mtab.c`)

`mtab_fstab` makes a copy of `/etc/fstab` and goes through it once for each pass digit.  It ends the
fields of an entry with zeros in the copy, so that all passes but the first see an altered text.

* `fstabWord`, `fstabLine`  one field, and what follows the white space before a line;
* `fstabPass`               the loop for one pass digit;
* `mtabFstab`               `mtab_fstab(ptr,size)`;
* `FstabEntry`, `FsLine`    the lines of a well formed text;
* `fstabSpec`               the calls of `mtab_add` that the text asks for;
* `fstab_law_iff`           when these are the calls that are made, without an access outside the copy.

A pointer into the copy is the text from there on; a pass gives back the text that it leaves behind.
`mtab_add` is a parameter: it changes the state of the task, or it ends the task.  There is memory for
the copy when its size is not 0, and `errno` is not set.
-/

namespace OsZ

/-! ## the parser -/

/-- `'\n'`, `'\t'` or `' '` -/
def isSpace (c : UInt8) : Bool := c == 10 || c == 9 || c == 32

/-- `'\t'` or `' '` -/
def isBlank (c : UInt8) : Bool := c == 9 || c == 32

/-- `*ptr!=0 && *ptr!='\t' && *ptr!=' '` -/
def isWord (c : UInt8) : Bool := c != 0 && !isBlank c

/-- how the parser comes to an end before its time -/
inductive FstabStop where
  /-- an access outside of the copy -/
  | outside
  /-- `exit()` -/
  | exits
  /-- the loop goes on after the number of rounds that is given -/
  | hangs
deriving DecidableEq

/-- the arguments of `mtab_add` -/
structure FstabCall where
  dev : List UInt8
  file : List UInt8
  opts : List UInt8
deriving DecidableEq

/-- `for(ptr++;ptr<end && *(ptr-1)!='\n';ptr++)`: what is skipped, and the rest; the first argument is
`*(ptr-1)` -/
def skipComment : UInt8 → List UInt8 → List UInt8 × List UInt8
  | _, [] => ([], [])
  | p, c :: r =>
    if p = 10 then ([], c :: r)
    else
      let k := skipComment c r
      (c :: k.1, k.2)

inductive WordEnd where
  /-- `continue`, with what is left behind and the rest -/
  | newline (out rest : List UInt8)
  /-- the field, the white space behind the zero that ends it, and the rest -/
  | word (w sep rest : List UInt8)

/-- a field and the white space behind it; `none` is an access outside -/
def fstabWord (txt : List UInt8) : Option WordEnd :=
  match txt.dropWhile isWord with
  | [] => none
  | c :: r =>
    if c = 10 then some (.newline (txt.takeWhile isWord) (c :: r))
    else
      match r.dropWhile isBlank with
      | [] => none
      | d :: r' =>
        if d = 10 then some (.newline (txt.takeWhile isWord ++ 0 :: r.takeWhile isBlank) (d :: r'))
        else some (.word (txt.takeWhile isWord) (r.takeWhile isBlank) (d :: r'))

inductive LineEnd where
  | newline (out rest : List UInt8)
  /-- three fields and the character that is compared with the pass digit -/
  | entry (call : FstabCall) (d : UInt8) (out rest : List UInt8)

/-- "block device", "mount point", "opts and access", "pass" -/
def fstabLine (txt : List UInt8) : Option LineEnd :=
  match fstabWord txt with
  | none => none
  | some (.newline out rest) => some (.newline out rest)
  | some (.word dev sep rest) =>
    match fstabWord rest with
    | none => none
    | some (.newline out rest) => some (.newline (dev ++ 0 :: sep ++ out) rest)
    | some (.word file sep' rest) =>
      match fstabWord rest with
      | none => none
      | some (.newline out rest) => some (.newline (dev ++ 0 :: sep ++ (file ++ 0 :: sep' ++ out)) rest)
      | some (.word opts sep'' rest) =>
        match rest with
        | [] => none
        | d :: rest =>
          some (.entry ⟨dev, file, opts⟩ d (dev ++ 0 :: sep ++ (file ++ 0 :: sep' ++ (opts ++ 0 :: sep'' ++ [d]))) rest)

section
variable {σ : Type} (add : σ → FstabCall → Option σ) (rooted : σ → Bool)

/-- `while(ptr<end)` -/
def fstabPass (pass : UInt8) : Nat → List UInt8 → σ → Except FstabStop (List UInt8 × σ)
  | 0, txt, s => if txt = [] then .ok ([], s) else .error .hangs
  | n+1, txt, s =>
    if txt = [] then .ok ([], s)
    else
      -- the white space is skipped without a look at `end`
      let sp := txt.takeWhile isSpace
      match txt.dropWhile isSpace with
      | [] => .error .outside
      | c :: r =>
        if c = 35 then
          let k := skipComment c r
          (fstabPass pass n k.2 s).map (fun x => (sp ++ (c :: k.1 ++ x.1), x.2))
        else
          match fstabLine (c :: r) with
          | none => .error .outside
          | some (.newline out rest) => (fstabPass pass n rest s).map (fun x => (sp ++ (out ++ x.1), x.2))
          | some (.entry call d out rest) =>
            match if d = pass then add s call else some s with
            | none => .error .exits
            | some s' => (fstabPass pass n rest s').map (fun x => (sp ++ (out ++ x.1), x.2))

/-- `mtab_add("/dev/root", "/", "")` -/
def rootCall : FstabCall := ⟨[47, 100, 101, 118, 47, 114, 111, 111, 116], [47], []⟩

/-- "if we haven't mounted root in the first pass, add initrd manually" -/
def addRoot (d : UInt8) (s : σ) : Option σ :=
  if d = 49 ∧ rooted s = false then add s rootCall else some s

def fstabRun : List UInt8 → List UInt8 → σ → Except FstabStop σ
  | [], _, s => .ok s
  | d :: ds, txt, s =>
    match fstabPass add d (txt.length + 1) txt s with
    | .error e => .error e
    | .ok (txt', s') =>
      match addRoot add rooted d s' with
      | none => .error .exits
      | some s'' => fstabRun ds txt' s''

/-- `'1'` to `'9'` -/
def passDigits : List UInt8 := [49, 50, 51, 52, 53, 54, 55, 56, 57]

/-- `malloc(0)` is NULL -/
def mtabFstab (text : List UInt8) (s : σ) : Except FstabStop σ :=
  if text = [] then .error .exits else fstabRun add rooted passDigits text s

end

/-! ## well formed texts -/

/-- white space inside of a line -/
def Blanks : Type := { b : List UInt8 // ∀ c ∈ b, isBlank c = true }

/-- a field: at least one character, none of them white space or zero -/
def FstabField : Type := { w : List UInt8 // w ≠ [] ∧ ∀ c ∈ w, isWord c = true ∧ c ≠ 10 }

/-- a separator: at least one tab or space -/
def FstabSep : Type := { b : List UInt8 // b ≠ [] ∧ ∀ c ∈ b, isBlank c = true }

structure FstabEntry where
  lead : Blanks
  dev : FstabField
  sep : FstabSep
  file : FstabField
  sep' : FstabSep
  opts : FstabField
  sep'' : FstabSep
  digit : UInt8
  trail : Blanks
  /-- not a comment -/
  device : dev.1.head? ≠ some 35
  isDigit : 48 ≤ digit ∧ digit ≤ 57

inductive FsLine where
  | comment (lead : Blanks) (t : { t : List UInt8 // 10 ∉ t })
  | blank (b : Blanks)
  | entry (e : FstabEntry)

/-- a separator, with a zero in its first place after it was parsed -/
def FstabSep.text (z : Bool) (b : FstabSep) : List UInt8 := if z then 0 :: b.1.tail else b.1

theorem FstabSep.text_true (b : FstabSep) : b.text true = 0 :: b.1.tail := rfl

/-- an entry without the end of the line -/
def FstabEntry.text (z : Bool) (e : FstabEntry) : List UInt8 :=
  e.dev.1 ++ (e.sep.text z ++ (e.file.1 ++ (e.sep'.text z ++ (e.opts.1 ++ (e.sep''.text z ++ [e.digit])))))

def FsLine.text (z : Bool) : FsLine → List UInt8
  | .comment lead t => lead.1 ++ 35 :: (t.1 ++ [10])
  | .blank b => b.1 ++ [10]
  | .entry e => e.lead.1 ++ (e.text z ++ (e.trail.1 ++ [10]))

/-- the text as it is (`z` is false), or as a pass leaves it -/
def fstabText (z : Bool) (ls : List FsLine) : List UInt8 := ls.flatMap (FsLine.text z)

def FstabEntry.call (e : FstabEntry) : FstabCall := ⟨e.dev.1, e.file.1, e.opts.1⟩

def FsLine.callOf (d : UInt8) : FsLine → Option FstabCall
  | .entry e => if e.digit = d then some e.call else none
  | _ => none

/-- the entries with the pass digit `d`, in the order of the text -/
def callsOf (d : UInt8) (ls : List FsLine) : List FstabCall := ls.filterMap (FsLine.callOf d)

section
variable {σ : Type} (add : σ → FstabCall → Option σ) (rooted : σ → Bool)

/-- what a text asks for, pass by pass; `none` when a call ends the task -/
def fstabSpec (ls : List FsLine) : List UInt8 → σ → Option σ
  | [], s => some s
  | d :: ds, s => (((callsOf d ls).foldlM add s).bind (addRoot add rooted d)).bind (fstabSpec ls ds)

end

/-- a result, or the end of the task -/
def orExit {α : Type} : Option α → Except FstabStop α
  | some a => .ok a
  | none => .error .exits

/-- the calls of `mtab_add` are those that the text asks for, in their order, and all accesses are inside
of the copy -/
def FstabLaw (ls : List FsLine) : Prop :=
  ∀ (σ : Type) (add : σ → FstabCall → Option σ) (rooted : σ → Bool) (s : σ),
    mtabFstab add rooted (fstabText false ls) s = orExit (fstabSpec add rooted ls passDigits s)

/-- the last line is a comment -/
def LastComment (ls : List FsLine) : Prop := ∃ lead t, ls.getLast? = some (.comment lead t)

section
variable {d x : UInt8} {w r l : List UInt8}

/-! ## a field -/

theorem span_run {p : UInt8 → Bool} (h : ∀ c ∈ l, p c = true) (hr : ∀ c ∈ r.head?, p c = false) :
    (l ++ r).takeWhile p = l ∧ (l ++ r).dropWhile p = r := by
  rw [List.takeWhile_append_of_pos h, List.dropWhile_append_of_pos h]
  cases r with
  | nil => exact ⟨List.append_nil l, rfl⟩
  | cons c r =>
    have hc : p c = false := hr c rfl
    simp [hc]

theorem FstabSep.text_eq (z : Bool) (b : FstabSep) : ∃ c, b.text z = c :: b.1.tail ∧ isWord c = false ∧ c ≠ 10 := by
  obtain ⟨b, hne, hb⟩ := b
  obtain ⟨c, t, rfl⟩ := List.exists_cons_of_ne_nil hne
  have hc : isBlank c = true := hb c (List.mem_cons_self ..)
  cases z with
  | true => exact ⟨0, rfl, rfl, by decide⟩
  | false =>
    refine ⟨c, rfl, by simp [isWord, hc], ?_⟩
    rintro rfl
    cases hc

theorem fstabWord_field (f : FstabField) (b : FstabSep) (z : Bool) (hx : isBlank x = false) (hx' : x ≠ 10) :
    fstabWord (f.1 ++ (b.text z ++ x :: r)) = some (.word f.1 b.1.tail (x :: r)) := by
  obtain ⟨c, hc, hcw, hc10⟩ := b.text_eq z
  obtain ⟨h1, h2⟩ := span_run (r := c :: (b.1.tail ++ x :: r)) (fun c hc => (f.2.2 c hc).1)
    (fun c' hc' => by cases hc'; exact hcw)
  obtain ⟨h3, h4⟩ := span_run (r := x :: r) (fun c hc => b.2.2 c (List.mem_of_mem_tail hc))
    (fun c' hc' => by cases hc'; exact hx)
  unfold fstabWord
  rw [hc, List.cons_append, h2, h1]
  dsimp only
  rw [if_neg hc10, h4, h3]
  dsimp only
  rw [if_neg hx']

theorem FstabField.head_eq (f : FstabField) : ∃ x t, f.1 = x :: t ∧ isWord x = true ∧ x ≠ 10 := by
  obtain ⟨w, hne, hw⟩ := f
  obtain ⟨x, t, rfl⟩ := List.exists_cons_of_ne_nil hne
  exact ⟨x, t, rfl, hw x (List.mem_cons_self ..)⟩

theorem not_blank_of_word (h : isWord x = true) : isBlank x = false := by
  simp only [isWord, Bool.and_eq_true] at h
  simpa using h.2

theorem fstabWord_next (f g : FstabField) (b : FstabSep) (z : Bool) :
    fstabWord (f.1 ++ (b.text z ++ (g.1 ++ r))) = some (.word f.1 b.1.tail (g.1 ++ r)) := by
  obtain ⟨x, t, hg, hx, hx'⟩ := g.head_eq
  rw [hg]
  exact fstabWord_field f b z (not_blank_of_word hx) hx'

theorem digit_not_blank (h : 48 ≤ d ∧ d ≤ 57) : isBlank d = false ∧ d ≠ 10 := by
  constructor
  · by_contra hb
    simp only [isBlank, Bool.not_eq_false, Bool.or_eq_true, beq_iff_eq] at hb
    rcases hb with rfl | rfl
    · exact absurd h.1 (by decide)
    · exact absurd h.1 (by decide)
  · rintro rfl
    exact absurd h.1 (by decide)

theorem fstabLine_entry (e : FstabEntry) (z : Bool) :
    fstabLine (e.text z ++ r) = some (.entry e.call e.digit (e.text true) r) := by
  obtain ⟨hd, hd'⟩ := digit_not_blank e.isDigit
  have h3 : fstabWord (e.opts.1 ++ (e.sep''.text z ++ e.digit :: r)) =
    some (.word e.opts.1 e.sep''.1.tail (e.digit :: r)) :=
    fstabWord_field e.opts e.sep'' z hd hd'
  unfold fstabLine FstabEntry.text
  simp only [List.append_assoc, List.singleton_append]
  rw [fstabWord_next]
  dsimp only
  rw [fstabWord_next]
  dsimp only
  rw [h3]
  simp [FstabEntry.call, FstabSep.text_true]

/-! ## a comment -/

theorem skipComment_eq (hx : x ≠ 10) (hw : 10 ∉ w) (r : List UInt8) :
    skipComment x (w ++ 10 :: r) = (w ++ [10], r) := by
  induction w generalizing x with
  | nil =>
    rw [List.nil_append, skipComment, if_neg hx]
    cases r with
    | nil => rfl
    | cons c r => simp [skipComment]
  | cons c w ih =>
    obtain ⟨hc, hw⟩ : 10 ≠ c ∧ 10 ∉ w := by simpa using hw
    rw [List.cons_append, skipComment, if_neg hx]
    dsimp only
    rw [ih hc.symm hw]
    rfl

end

/-! ## one pass -/

section
variable {σ : Type} {add : σ → FstabCall → Option σ} {d : UInt8} {n : Nat} {z : Bool} {w : List UInt8}
    {ls : List FsLine} {s : σ}

theorem blank_space {c : UInt8} (h : isBlank c = true) : isSpace c = true := by
  simp only [isBlank, isSpace, Bool.or_eq_true, beq_iff_eq] at h ⊢
  tauto

theorem word_not_space {c : UInt8} (h : isWord c = true) (h' : c ≠ 10) : isSpace c = false := by
  have := not_blank_of_word h
  simp only [isBlank, isSpace, Bool.or_eq_false_iff, beq_eq_false_iff_ne] at this ⊢
  exact ⟨⟨h', this.1⟩, this.2⟩

theorem fstabPass_comment (hw : ∀ c ∈ w, isSpace c = true) {t : List UInt8} (ht : 10 ∉ t) (r : List UInt8) :
    fstabPass add d (n + 1) (w ++ 35 :: (t ++ 10 :: r)) s =
      (fstabPass add d n r s).map (fun x => (w ++ (35 :: (t ++ [10]) ++ x.1), x.2)) := by
  obtain ⟨h1, h2⟩ := span_run (r := 35 :: (t ++ 10 :: r)) hw (fun c hc => by cases hc; rfl)
  rw [fstabPass, if_neg (by simp)]
  dsimp only
  rw [h2, h1]
  dsimp only
  rw [if_pos rfl, skipComment_eq (by decide) ht]

theorem fstabPass_entry (hw : ∀ c ∈ w, isSpace c = true) (e : FstabEntry) (r : List UInt8) :
    fstabPass add d (n + 1) (w ++ (e.text z ++ r)) s =
      match if e.digit = d then add s e.call else some s with
      | none => .error .exits
      | some s' => (fstabPass add d n r s').map (fun x => (w ++ (e.text true ++ x.1), x.2)) := by
  obtain ⟨x, t, hx, hxw, hx10⟩ := e.dev.head_eq
  have h35 : x ≠ 35 := by
    rintro rfl
    exact e.device (by rw [hx]; rfl)
  obtain ⟨t', ht'⟩ : ∃ t', e.text z ++ r = x :: t' := by
    unfold FstabEntry.text
    rw [hx]
    exact ⟨_, rfl⟩
  have hline := fstabLine_entry (r := r) e z
  rw [ht'] at hline ⊢
  obtain ⟨h1, h2⟩ := span_run (r := x :: t') hw (fun c hc => by cases hc; exact word_not_space hxw hx10)
  rw [fstabPass, if_neg (by simp)]
  dsimp only
  rw [h2, h1]
  dsimp only
  rw [if_neg h35, hline]

theorem fstabText_cons (l : FsLine) : fstabText z (l :: ls) = l.text z ++ fstabText z ls := rfl

theorem lastComment_cons {l : FsLine} :
    LastComment (l :: ls) ↔ (ls = [] ∧ ∃ lead t, l = .comment lead t) ∨ LastComment ls := by
  unfold LastComment
  cases ls with
  | nil => simp
  | cons l' ls => simp [List.getLast?_cons_cons]

theorem lastComment_nil : ¬ LastComment [] := by
  rintro ⟨lead, t, h⟩
  cases h

/-- the text that is left, with white space before it, ends with a comment or is empty -/
def Closed (w : List UInt8) (ls : List FsLine) : Prop := (w = [] ∧ ls = []) ∨ LastComment ls

theorem closed_comment {lead : Blanks} {t : { t : List UInt8 // 10 ∉ t }} :
    Closed w (.comment lead t :: ls) ↔ Closed [] ls := by
  unfold Closed
  rw [lastComment_cons]
  constructor
  · rintro (⟨-, h⟩ | ⟨h, -⟩ | h)
    · cases h
    · exact Or.inl ⟨rfl, h⟩
    · exact Or.inr h
  · rintro (⟨-, h⟩ | h)
    · exact Or.inr (Or.inl ⟨h, lead, t, rfl⟩)
    · exact Or.inr (Or.inr h)

theorem closed_other {l : FsLine} {w' : List UInt8} (hl : ∀ lead t, l ≠ .comment lead t) (hw' : w' ≠ []) :
    Closed w (l :: ls) ↔ Closed w' ls := by
  unfold Closed
  rw [lastComment_cons]
  constructor
  · rintro (⟨-, h⟩ | ⟨-, lead, t, h⟩ | h)
    · cases h
    · exact absurd h (hl lead t)
    · exact Or.inr h
  · rintro (⟨h, -⟩ | h)
    · exact absurd h hw'
    · exact Or.inr (Or.inr h)

theorem spaces_append {w' : List UInt8} (hw : ∀ c ∈ w, isSpace c = true) (hw' : ∀ c ∈ w', isSpace c = true) :
    ∀ c ∈ w ++ w', isSpace c = true := by
  intro c hc
  rcases List.mem_append.mp hc with hc | hc
  · exact hw c hc
  · exact hw' c hc

theorem Blanks.spaces (b : Blanks) : ∀ c ∈ b.1, isSpace c = true := fun c hc => blank_space (b.2 c hc)

theorem Blanks.spaces_newline (b : Blanks) : ∀ c ∈ b.1 ++ [10], isSpace c = true :=
  spaces_append b.spaces (fun c hc => by rw [List.mem_singleton.mp hc]; rfl)

/-- what a pass returns behind the last line -/
def passEnd (w : List UInt8) (closed : Bool) (s : σ) : Except FstabStop (List UInt8 × σ) :=
  if closed then .ok (w, s) else .error .outside

theorem map_passEnd (o : Except FstabStop σ) (g : List UInt8 → List UInt8) (w : List UInt8) (b : Bool) :
    (o.bind (passEnd w b)).map (fun x => (g x.1, x.2)) = o.bind (passEnd (g w) b) := by
  cases o <;> cases b <;> rfl

/-- **One pass.**  A text that ends with an entry or a blank line is read beyond its end. -/
theorem fstabPass_eq (add : σ → FstabCall → Option σ) (d : UInt8) (z : Bool) (s : σ) (hw : ∀ c ∈ w, isSpace c = true)
    (hn : ls.length < n) : ∃ b, (b = true ↔ Closed w ls) ∧ fstabPass add d n (w ++ fstabText z ls) s =
      (orExit ((callsOf d ls).foldlM add s)).bind (passEnd (w ++ fstabText true ls) b) := by
  induction ls generalizing w n s with
  | nil =>
    obtain ⟨n, rfl⟩ : ∃ m, n = m + 1 := ⟨n - 1, by simp at hn; omega⟩
    by_cases hne : w = []
    · exact ⟨true, iff_of_true rfl (Or.inl ⟨hne, rfl⟩), by rw [hne]; rfl⟩
    · obtain ⟨h1, h2⟩ := span_run (r := []) hw (fun c hc => by cases hc)
      refine ⟨false, iff_of_false Bool.false_ne_true fun h => h.elim (fun h => hne h.1) lastComment_nil, ?_⟩
      rw [show fstabText z [] = [] from rfl, fstabPass, if_neg (by simpa using hne)]
      dsimp only
      rw [h2]
      rfl
  | cons l ls ih =>
    rw [List.length_cons] at hn
    obtain ⟨n, rfl⟩ : ∃ m, n = m + 1 := ⟨n - 1, by omega⟩
    cases l with
    | comment lead t =>
      obtain ⟨b, hb, hrest⟩ := ih s (n := n) (w := []) (fun c hc => by cases hc) (by omega)
      have htext : w ++ fstabText z (.comment lead t :: ls) = (w ++ lead.1) ++ 35 :: (t.1 ++ 10 :: fstabText z ls) := by
        simp [fstabText_cons, FsLine.text]
      refine ⟨b, hb.trans closed_comment.symm, ?_⟩
      rw [List.nil_append, List.nil_append] at hrest
      rw [htext, fstabPass_comment (spaces_append hw lead.spaces) t.2, hrest,
        map_passEnd _ fun x => w ++ lead.1 ++ (35 :: (t.1 ++ [10]) ++ x)]
      show _ = (orExit ((callsOf d ls).foldlM add s)).bind _
      simp [fstabText_cons, FsLine.text]
    | blank b =>
      have htext (z : Bool) : w ++ fstabText z (.blank b :: ls) = (w ++ (b.1 ++ [10])) ++ fstabText z ls := by
        simp [fstabText_cons, FsLine.text]
      obtain ⟨c, hc, hrest⟩ := ih s (n := n + 1) (spaces_append hw b.spaces_newline) (by omega)
      refine ⟨c, hc.trans (closed_other (fun _ _ h => by cases h) (by simp)).symm, ?_⟩
      rw [htext, htext]
      exact hrest
    | entry e =>
      have htext : w ++ fstabText z (.entry e :: ls) =
          (w ++ e.lead.1) ++ (e.text z ++ ((e.trail.1 ++ [10]) ++ fstabText z ls)) := by
        simp [fstabText_cons, FsLine.text]
      have hcalls : (callsOf d (.entry e :: ls)).foldlM add s =
          (if e.digit = d then add s e.call else some s).bind (fun s' => (callsOf d ls).foldlM add s') := by
        unfold callsOf
        rw [List.filterMap_cons]
        unfold FsLine.callOf
        split
        · next h => split at h <;> simp_all
        · next h => split at h <;> simp_all [List.foldlM_cons]
      have hrest := fun s' => ih s' (n := n) e.trail.spaces_newline (by omega)
      have hcl : Closed w (.entry e :: ls) ↔ Closed (e.trail.1 ++ [10]) ls :=
        closed_other (fun _ _ h => by cases h) (by simp)
      rw [htext, fstabPass_entry (spaces_append hw e.lead.spaces), hcalls]
      cases (if e.digit = d then add s e.call else some s) with
      | none =>
        obtain ⟨b, hb, -⟩ := hrest s
        exact ⟨b, hb.trans hcl.symm, rfl⟩
      | some s' =>
        obtain ⟨b, hb, hpass⟩ := hrest s'
        refine ⟨b, hb.trans hcl.symm, ?_⟩
        dsimp only
        rw [hpass, map_passEnd _ fun x => w ++ e.lead.1 ++ (e.text true ++ x)]
        simp [fstabText_cons, FsLine.text]

end

/-! ## all passes -/

section
variable {σ : Type} {add : σ → FstabCall → Option σ} {rooted : σ → Bool} {ls : List FsLine} {s : σ}

theorem length_le_text (z : Bool) (ls : List FsLine) : ls.length ≤ (fstabText z ls).length := by
  induction ls with
  | nil => exact le_rfl
  | cons l ls ih =>
    rw [fstabText_cons, List.length_cons, List.length_append]
    have h : 1 ≤ (l.text z).length := by
      cases l <;> simp [FsLine.text] <;> omega
    omega

/-- the passes see the text as it was or as another pass left it, and find the same entries -/
theorem fstabRun_closed (h : LastComment ls) (ds : List UInt8) (z : Bool) (s : σ) :
    fstabRun add rooted ds (fstabText z ls) s = orExit (fstabSpec add rooted ls ds s) := by
  induction ds generalizing z s with
  | nil => rfl
  | cons d ds ih =>
    obtain ⟨b, hb, hpass⟩ := fstabPass_eq add d z s (w := []) (fun c hc => by cases hc)
      (Nat.lt_succ_of_le (length_le_text z ls))
    rw [List.nil_append, List.nil_append, hb.mpr (Or.inr h)] at hpass
    rw [fstabRun, fstabSpec, hpass]
    cases (callsOf d ls).foldlM add s with
    | none => rfl
    | some s' =>
      show (match addRoot add rooted d s' with
        | none => Except.error FstabStop.exits
        | some s'' => fstabRun add rooted ds (fstabText true ls) s'') = _
      rw [Option.bind_some]
      cases addRoot add rooted d s' with
      | none => rfl
      | some s'' => exact ih true s''

theorem fstabText_ne_nil (h : ls ≠ []) : fstabText false ls ≠ [] := by
  intro he
  have := length_le_text false ls
  rw [he] at this
  exact h (List.length_eq_zero_iff.mp (Nat.le_zero.mp this))

/-- **`mtab_fstab`.**  The calls of `mtab_add` are those that the text asks for, without an access outside of
the copy, if and only if the last line is a comment. -/
theorem fstab_law_iff (ls : List FsLine) : FstabLaw ls ↔ LastComment ls := by
  constructor
  · intro h
    by_contra hlast
    -- with calls that always return, the task would have to go on to the end
    have hall := h Unit (fun _ _ => some ()) (fun _ => true) ()
    have hfold : ∀ l : List FstabCall, l.foldlM (fun _ _ => some ()) () = some () := by
      intro l
      induction l with
      | nil => rfl
      | cons c l ih => exact ih
    have hspec : ∀ ds, fstabSpec (fun _ _ => some ()) (fun _ => true) ls ds () = some () := by
      intro ds
      induction ds with
      | nil => rfl
      | cons d ds ih =>
        rw [fstabSpec, hfold]
        simpa [addRoot] using ih
    rw [hspec] at hall
    unfold mtabFstab at hall
    by_cases hne : ls = []
    · subst hne
      have hnil : fstabText false [] = [] := rfl
      rw [if_pos hnil] at hall
      cases hall
    · obtain ⟨b, hb, hopen⟩ := fstabPass_eq (fun (_ : Unit) _ => some ()) 49 false () (w := [])
        (fun c hc => by cases hc) (Nat.lt_succ_of_le (length_le_text false ls))
      have hb' : b = false := Bool.eq_false_iff.mpr fun h => (hb.mp h).elim (fun h => hne h.2) hlast
      rw [List.nil_append, hfold, hb'] at hopen
      rw [if_neg (fstabText_ne_nil hne), passDigits, fstabRun, hopen] at hall
      cases hall
  · intro h σ add rooted s
    have hne : ls ≠ [] := by
      rintro rfl
      exact lastComment_nil h
    unfold mtabFstab
    rw [if_neg (fstabText_ne_nil hne)]
    exact fstabRun_closed h passDigits false s

end

/-- `/dev/a / rw 1` -/
def rootEntry : FstabEntry where
  lead := ⟨[], by decide +kernel⟩
  dev := ⟨[47, 100, 101, 118, 47, 97], by decide +kernel⟩
  sep := ⟨[32], by decide +kernel⟩
  file := ⟨[47], by decide +kernel⟩
  sep' := ⟨[9, 32], by decide +kernel⟩
  opts := ⟨[114, 119], by decide +kernel⟩
  sep'' := ⟨[32], by decide +kernel⟩
  digit := 49
  trail := ⟨[], by decide +kernel⟩
  device := by decide +kernel
  isDigit := by decide +kernel

/-- a text that ends with its only entry: the second round skips the newline and reads the character behind the
copy -/
theorem fstab_overrun :
    mtabFstab (fun (s : List FstabCall) c => some (s ++ [c])) (fun s => !s.isEmpty)
      (fstabText false [.entry rootEntry]) [] = .error .outside ∧
    fstabSpec (fun (s : List FstabCall) c => some (s ++ [c])) (fun s => !s.isEmpty)
      [.entry rootEntry] passDigits [] = some [rootEntry.call] ∧
    ¬ FstabLaw [.entry rootEntry] := by
  have h1 : mtabFstab (fun (s : List FstabCall) c => some (s ++ [c])) (fun s => !s.isEmpty)
      (fstabText false [.entry rootEntry]) [] = .error .outside := by decide +kernel
  have h2 : fstabSpec (fun (s : List FstabCall) c => some (s ++ [c])) (fun s => !s.isEmpty)
      [.entry rootEntry] passDigits [] = some [rootEntry.call] := by decide +kernel
  refine ⟨h1, h2, fun h => ?_⟩
  have := h (List FstabCall) (fun s c => some (s ++ [c])) (fun s => !s.isEmpty) []
  rw [h1, h2] at this
  cases this

end OsZ
