import OsZ.Base.Word

/-!
# The run-time linker (`elf_rtlink` in `core/elf.c`)

The objects of a task begin at pages of its text segment.  First the relocations of all objects are
collected in a table of two pages, and those without a symbol are done at once.  Then all symbols of
all objects are looked up in the table.

* `collect`      the first loop over the pages;
* `resolve`      the second one;
* `elfRtlink`    `elf_rtlink()`; `none` is `kpanic`;
* `relocs`, `defs`  the relocations and the definitions of all objects, in the order of the loops;
* `collect_eq`, `resolve_eq`  the loops as folds over these.

The tables of an object are functions of the index, and a name is the string at its place in the string
table: `kmemcmp` over the length and the final zero compares two of them.  Memory is a function of the
physical address of aligned words.  What the core stores in the variables of drivers and processes is
the argument `exports`.  The table of interrupts, the entry points on the stack and `kentropy` are left
out.
-/

namespace OsZ

/-! ## objects -/

/-- `TEXT_ADDRESS` -/
def textAddress : Nat := 0x200000

/-- `Elf64_Sym` -/
structure ElfSym where
  name : Nat
  value : Nat

/-- `Elf64_Rela` -/
structure ElfRela where
  offset : Nat
  info : Nat

/-- The entries of the segment `PT_DYNAMIC` up to `DT_NULL`, with tag and value, and the tables they
point to: strings, symbols, `DT_JMPREL` and `DT_RELA`.  `entry` is the test `e_phoff!=e_entry`. -/
structure ElfObj where
  dyn : List (Nat × Nat)
  str : Nat → List UInt8
  sym : Nat → ElfSym
  rela : Nat → ElfRela
  relad : Nat → ElfRela
  entry : Bool

namespace ElfObj

def dynVal (o : ElfObj) (tag init : Nat) : Nat := o.dyn.foldl (fun v e => if e.1 = tag then e.2 else v) init

/-- `DT_RELAENT` -/
def relaent (o : ElfObj) : Int := i32 (o.dynVal 9 24)

/-- `reladsz / relaent`, with `DT_RELASZ` -/
def relads (o : ElfObj) : Nat := (Int.tdiv (i32 (o.dynVal 8 0)) o.relaent).toNat

/-- `relasz / relaent`, with `DT_PLTRELSZ` -/
def relas (o : ElfObj) : Nat := (Int.tdiv (i32 (o.dynVal 2 0)) o.relaent).toNat

/-- `DT_SYMENT` -/
def syment (o : ElfObj) : Int := i32 (o.dynVal 11 0)

/-- `(strtable-(char*)sym)/syment`, with `DT_STRTAB` and `DT_SYMTAB` -/
def syms (o : ElfObj) : Nat := (Int.tdiv ((o.dynVal 5 0 : Int) - o.dynVal 6 0) o.syment).toNat

/-- `DT_STRSZ`, compared as unsigned -/
def strsz (o : ElfObj) : Nat := o.dynVal 10 0 % 2^32

def symName (o : ElfObj) (i : Nat) : List UInt8 := o.str (o.sym i).name

/-- the name of the symbol `ELF64_R_SYM(r_info)` -/
def relaName (o : ElfObj) (r : ElfRela) : List UInt8 := o.symName (r.info / 2^32)

end ElfObj

/-- the page table at `tmpmap`, and the objects found by their magic -/
structure TextSeg where
  paging : Nat → Nat
  obj : Nat → Option ElfObj

/-- `paging[i]&~(__PAGESIZE-1)&~((uint64_t)1<<63)` -/
def pagePhys (e : Nat) : Nat := e % 2^63 / 4096 * 4096

/-- the physical address of an offset in the object at page `j` -/
def TextSeg.phys (g : TextSeg) (j offset : Nat) : Nat :=
  let vo := w64 (offset + j * 4096)
  pagePhys (g.paging (vo / 4096)) + vo % 4096

/-- where the object at page `j` is loaded -/
def loadAddress (j : Nat) : Nat := textAddress + j * 4096

/-! ## collecting -/

/-- `rela_t` -/
structure RelaT where
  offs : Nat
  sym : List UInt8
deriving DecidableEq, Repr

/-- the memory, and the table `relas` with `n` entries -/
structure LinkState where
  mem : Nat → Nat
  relas : List RelaT

/-- `2*__PAGESIZE/sizeof(rela_t)` -/
def relaMax : Nat := 512

def LinkState.record (st : LinkState) (offs : Nat) (sym : List UInt8) : LinkState :=
  { st with relas := st.relas ++ [⟨offs, sym⟩] }

/-- `*po += base` -/
def LinkState.rebase (st : LinkState) (po base : Nat) : LinkState :=
  { st with mem := Function.update st.mem po (w64 (st.mem po + base)) }

/-- entry `i` of "GOT data entries" -/
def gotEntry (g : TextSeg) (j : Nat) (o : ElfObj) (st : LinkState) (i : Nat) : LinkState :=
  let po := g.phys j (o.relad i).offset
  if o.relaName (o.relad i) ≠ [] then st.record po (o.relaName (o.relad i)) else st.rebase po (loadAddress j)

/-- entry `i` of "GOT plt entries" -/
def pltEntry (g : TextSeg) (j : Nat) (o : ElfObj) (st : LinkState) (i : Nat) : LinkState :=
  st.record (g.phys j (o.rela i).offset) (o.relaName (o.rela i))

/-- a loop over entries that ends when the table is full -/
def untilFull (body : LinkState → Nat → LinkState) : Nat → Nat → LinkState → LinkState
  | 0, _, st => st
  | n+1, i, st => if relaMax ≤ st.relas.length then st else untilFull body n (i + 1) (body st i)

def collectObj (g : TextSeg) (st : LinkState) (j : Nat) : LinkState :=
  match g.obj j with
  | none => st
  | some o => untilFull (pltEntry g j o) o.relas 0 (untilFull (gotEntry g j o) o.relads 0 st)

def collect (g : TextSeg) (mem : Nat → Nat) : LinkState := (List.range 512).foldl (collectObj g) ⟨mem, []⟩

/-! ## resolving -/

def matchRelas (offs : Nat) (name : List UInt8) : (Nat → Nat) → List RelaT → (Nat → Nat) × List RelaT
  | m, [] => (m, [])
  | m, r :: l =>
    if r.offs ≠ 0 ∧ r.sym = name then
      let x := matchRelas offs name (Function.update m r.offs offs) l
      (x.1, ⟨0, r.sym⟩ :: x.2)
    else
      let x := matchRelas offs name m l
      (x.1, r :: x.2)

section
variable (exports : Nat → Nat → (Nat → Nat) → Nat → Nat)

/-- symbol `i` of the object at page `j`, which is defined there -/
def exportSym (j : Nat) (o : ElfObj) (st : LinkState) (i : Nat) : LinkState :=
  let x := matchRelas (w64 ((o.sym i).value + loadAddress j)) (o.symName i) (exports j i st.mem) st.relas
  ⟨x.1, x.2⟩

def symLoop (j : Nat) (o : ElfObj) : Nat → Nat → LinkState → LinkState
  | 0, _, st => st
  | n+1, i, st =>
    if o.strsz < (o.sym i).name then st
    else symLoop j o n (i + 1) (if (o.sym i).value ≠ 0 then exportSym exports j o st i else st)

def resolveObj (g : TextSeg) (st : LinkState) (j : Nat) : LinkState :=
  match g.obj j with
  | none => st
  | some o => symLoop exports j o o.syms 0 st

def resolve (g : TextSeg) (st : LinkState) : LinkState := (List.range 512).foldl (resolveObj exports g) st

/-- the checks: all references are resolved, and there is an executor -/
def elfRtlink (g : TextSeg) (mem : Nat → Nat) : Option (Nat → Nat) :=
  let st := resolve exports g (collect g mem)
  if st.relas.any (fun r => decide (r.offs ≠ 0)) = true then none
  else
    match g.obj 0 with
    | none => none
    | some o => if o.entry = false then none else some st.mem

end

/-! ## the relocations and the definitions -/

/-- a relocation: the page of its object, the place, the name of the symbol -/
structure Reloc where
  page : Nat
  slot : Nat
  name : List UInt8
  plt : Bool
deriving DecidableEq, Repr

def relocsOf (g : TextSeg) (j : Nat) (o : ElfObj) : List Reloc :=
  (List.range o.relads).map (fun i => ⟨j, g.phys j (o.relad i).offset, o.relaName (o.relad i), false⟩) ++
    (List.range o.relas).map (fun i => ⟨j, g.phys j (o.rela i).offset, o.relaName (o.rela i), true⟩)

def relocs (g : TextSeg) : List Reloc := (List.range 512).flatMap (fun j => (g.obj j).elim [] (relocsOf g j))

/-- a symbol with a value: its page and index, the name, the address -/
structure SymDef where
  page : Nat
  index : Nat
  name : List UInt8
  addr : Nat

def defsOf (j : Nat) (o : ElfObj) : List SymDef :=
  ((List.range o.syms).filter (fun i => decide ((o.sym i).value ≠ 0))).map
    (fun i => ⟨j, i, o.symName i, w64 ((o.sym i).value + loadAddress j)⟩)

def defs (g : TextSeg) : List SymDef := (List.range 512).flatMap (fun j => (g.obj j).elim [] (defsOf j))

def firstDef (ds : List SymDef) (name : List UInt8) : Option Nat :=
  (ds.find? (fun d => decide (d.name = name))).map SymDef.addr

/-! ## the loops are folds -/

section
variable {g : TextSeg} {o : ElfObj} {st : LinkState} {j n i : Nat} {l : List Nat}
  {body : LinkState → Nat → LinkState} {exports : Nat → Nat → (Nat → Nat) → Nat → Nat}

def relocEntry (st : LinkState) (r : Reloc) : LinkState :=
  if relaMax ≤ st.relas.length then st
  else if r.name ≠ [] ∨ r.plt = true then st.record r.slot r.name
  else st.rebase r.slot (loadAddress r.page)

theorem foldl_full (h : relaMax ≤ st.relas.length) (l : List Nat) :
    l.foldl (fun st i => if relaMax ≤ st.relas.length then st else body st i) st = st := by
  induction l with
  | nil => rfl
  | cons i l ih => rw [List.foldl_cons, if_pos h, ih]

theorem untilFull_eq : untilFull body n i st
    = (List.range' i n).foldl (fun st i => if relaMax ≤ st.relas.length then st else body st i) st := by
  induction n generalizing i st with
  | zero => rfl
  | succ n ih =>
    rw [untilFull, List.range'_succ, List.foldl_cons]
    by_cases h : relaMax ≤ st.relas.length
    · rw [if_pos h, if_pos h, foldl_full h]
    · rw [if_neg h, if_neg h, ih]

theorem collectObj_eq (h : g.obj j = some o) : collectObj g st j = (relocsOf g j o).foldl relocEntry st := by
  have hgot : (fun st i => if relaMax ≤ st.relas.length then st else gotEntry g j o st i)
      = fun st i => relocEntry st ⟨j, g.phys j (o.relad i).offset, o.relaName (o.relad i), false⟩ := by
    funext st i
    unfold relocEntry gotEntry
    simp
  have hplt : (fun st i => if relaMax ≤ st.relas.length then st else pltEntry g j o st i)
      = fun st i => relocEntry st ⟨j, g.phys j (o.rela i).offset, o.relaName (o.rela i), true⟩ := by
    funext st i
    unfold relocEntry pltEntry
    simp
  unfold collectObj relocsOf
  rw [h]
  dsimp only
  rw [untilFull_eq, untilFull_eq, hgot, hplt, List.foldl_append, List.foldl_map, List.foldl_map,
    List.range_eq_range', List.range_eq_range']

theorem foldl_flatMap {α β γ : Type} {f : γ → β → γ} {h : α → List β} (l : List α) (c : γ) :
    (l.flatMap h).foldl f c = l.foldl (fun c a => (h a).foldl f c) c := by
  induction l generalizing c with
  | nil => rfl
  | cons a l ih => rw [List.flatMap_cons, List.foldl_append, ih, List.foldl_cons]

theorem collect_eq (g : TextSeg) (mem : Nat → Nat) : collect g mem = (relocs g).foldl relocEntry ⟨mem, []⟩ := by
  have hbody : collectObj g = fun st j => ((g.obj j).elim [] (relocsOf g j)).foldl relocEntry st := by
    funext st j
    cases h : g.obj j with
    | none =>
      unfold collectObj
      rw [h]
      rfl
    | some o => rw [collectObj_eq h, Option.elim_some]
  unfold collect relocs
  rw [foldl_flatMap, hbody]

def defEntry (exports : Nat → Nat → (Nat → Nat) → Nat → Nat) (st : LinkState) (d : SymDef) : LinkState :=
  let x := matchRelas d.addr d.name (exports d.page d.index st.mem) st.relas
  ⟨x.1, x.2⟩

theorem symLoop_eq (h : ∀ k, i ≤ k → k < i + n → (o.sym k).name ≤ o.strsz) :
    symLoop exports j o n i st = (((List.range' i n).filter (fun i => decide ((o.sym i).value ≠ 0))).map
      (fun i => ⟨j, i, o.symName i, w64 ((o.sym i).value + loadAddress j)⟩)).foldl (defEntry exports) st := by
  induction n generalizing i st with
  | zero => rfl
  | succ n ih =>
    have hname := h i le_rfl (by omega)
    rw [symLoop, if_neg (by omega), ih (fun k hk hk' => h k (by omega) (by omega)), List.range'_succ,
      List.filter_cons]
    by_cases hv : (o.sym i).value ≠ 0
    · rw [if_pos hv, if_pos (decide_eq_true hv), List.map_cons, List.foldl_cons]
      rfl
    · rw [if_neg hv, if_neg (by simpa using hv)]

theorem resolve_eq (g : TextSeg) (st : LinkState)
    (h : ∀ j o, g.obj j = some o → ∀ i < o.syms, (o.sym i).name ≤ o.strsz) :
    resolve exports g st = (defs g).foldl (defEntry exports) st := by
  have hbody : resolveObj exports g = fun st j => ((g.obj j).elim [] (defsOf j)).foldl (defEntry exports) st := by
    funext st j
    unfold resolveObj
    cases ho : g.obj j with
    | none => rfl
    | some o =>
      dsimp only
      rw [symLoop_eq (fun k _ hk => h j o ho k (by omega)), Option.elim_some, defsOf, List.range_eq_range']
  unfold resolve defs
  rw [foldl_flatMap, hbody]

end

end OsZ
