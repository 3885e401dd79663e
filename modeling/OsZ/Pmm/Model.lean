import OsZ.Base.Word
import OsZ.Base.Table
import OsZ.Base.Run

/-!
# Physical memory manager (`core/pmm.c`)

The free memory is a table of fragments `(base, size)`, `size` in pages of `4096` bytes
(`__PAGESIZE`); a slot is `2097152` bytes (`__SLOTSIZE`), `512` pages.

* `pmmAlloc`      `pmm_alloc(pages)`: first fit, carved from the front of the fragment;
* `pmmAllocslot`  `pmm_allocslot()`: one aligned slot, the fragment is split in place;
* `pmmFree`       `pmm_free(base,numpages)`: merged with the first neighbour, or a new entry.

`none` is `kpanic`, which never returns.  The entropy pool, the clearing of the pages that are
handed out and the debug output are left out: nothing here reads them.
-/

namespace OsZ

/-- `pmm_entry_t` -/
structure Entry where
  base : Nat
  size : Nat
deriving DecidableEq, Repr

/-- `pmm_t`, with the memory of the table and the configured number of pages reserved for it -/
structure Pmm where
  size : Nat
  freepages : Nat
  entries : Table Entry
  nrphymax : Nat

namespace Pmm

def frags (s : Pmm) : List Entry := s.entries.seg 0 s.size

/-- `sizeof(pmm_entry_t)` is 16: the `k`-th entry lies inside the reserved pages -/
def Room (s : Pmm) (k : Nat) : Prop := (k + 1) * 16 ≤ s.nrphymax * 4096

instance (s : Pmm) (k : Nat) : Decidable (s.Room k) := inferInstanceAs (Decidable (_ ≤ _))

end Pmm

/-- the test of the search loop of `pmm_alloc` -/
def fits (s : Pmm) (pages : Int) (i : Nat) : Bool := u64 pages ≤ (s.entries.cell i).size

def pmmAlloc (s : Pmm) (pages : Int) : Option (Pmm × Nat) :=
  match scan (fits s pages) 0 s.size with
  | none => none
  | some i =>
    let e := s.entries.cell i
    -- `pages*__PAGESIZE` is an `int` product
    let e' : Entry := ⟨w64 (e.base + u64 (i32 (pages * 4096))), sub64 e.size (u64 pages)⟩
    let t := s.entries.put i e'
    let s' : Pmm :=
      if e'.size = 0 then { s with entries := t.down i (s.size - 1 - i), size := s.size - 1 }
      else { s with entries := t }
    some ({ s' with freepages := sub64 s.freepages (u64 pages) }, e.base)

def slotOf (e : Entry) : Nat := roundUp 2097152 e.base

/-- the test of the search loop of `pmm_allocslot` -/
def hasSlot (s : Pmm) (i : Nat) : Bool :=
  let e := s.entries.cell i
  w64 (slotOf e + 2097152) ≤ w64 (e.base + w64 (e.size * 4096))

/-- the second half of `pmm_allocslot`: the slot is cut from the front of entry `f` (`fmem`),
`c` pages of which stay in the entry before it.  The deleted entry is entry `i`. -/
def takeSlot (s : Pmm) (i f b c : Nat) : Pmm × Nat :=
  let e : Entry := ⟨w64 (b + 2097152), sub64 (s.entries.cell f).size (c + 512)⟩
  let t := s.entries.put f e
  let s' : Pmm :=
    if e.size = 0 then { s with entries := t.down i (s.size - 1 - i), size := s.size - 1 }
    else { s with entries := t }
  ({ s' with freepages := sub64 s.freepages 512 }, b)

def pmmAllocslot (s : Pmm) : Option (Pmm × Nat) :=
  match scan (hasSlot s) 0 s.size with
  | none => none
  | some i =>
    let e := s.entries.cell i
    let b := slotOf e
    if b ≠ e.base then
      if ¬ s.Room s.size then none
      else
        let t := s.entries.up s.size (s.size - i)
        let c := sub64 b e.base / 4096
        let t := t.put i { t.cell i with size := c }
        some (takeSlot { s with entries := t, size := s.size + 1 } i (i+1) b c)
    else some (takeSlot s i i b 0)

/-- the two tests of the search loop of `pmm_free` -/
def before (s : Pmm) (base numpages i : Nat) : Bool :=
  (s.entries.cell i).base = w64 (base + w64 (numpages * 4096))

def behind (s : Pmm) (base i : Nat) : Bool :=
  let e := s.entries.cell i
  w64 (e.base + w64 (e.size * 4096)) = base

def pmmFree (s : Pmm) (base numpages : Nat) : Pmm :=
  let s' : Pmm :=
    match scan (fun i => before s base numpages i || behind s base i) 0 s.size with
    | none => { s with entries := s.entries.put s.size ⟨base, w64 numpages⟩, size := s.size + 1 }
    | some i =>
      let e := s.entries.cell i
      if before s base numpages i then
        { s with entries := s.entries.put i ⟨base, w64 (e.size + numpages)⟩ }
      else { s with entries := s.entries.put i ⟨e.base, w64 (e.size + numpages)⟩ }
  { s' with freepages := w64 (s.freepages + numpages) }

/-! ## runs -/

def pagesAt (base n : Nat) : Set Nat := Set.Ico (base / 4096) (base / 4096 + n)

def Entry.pages (e : Entry) : Set Nat := pagesAt e.base e.size

def Pmm.free (s : Pmm) : Set Nat := {p | ∃ e ∈ s.frags, p ∈ e.pages}

inductive PmmOp where
  | alloc (pages : Int)
  | allocslot
  | free (base numpages : Nat)

/-- the manager and the pages that are handed out -/
structure PmmWorld where
  pmm : Pmm
  held : Set Nat

/-- one call: only ranges of pages that are handed out are freed, and a call that panics has no
next state -/
inductive PmmStep : PmmWorld → PmmOp → PmmWorld → Prop
  | alloc {w : PmmWorld} {pages : Int} {s : Pmm} {b : Nat} (h : pmmAlloc w.pmm pages = some (s, b)) :
      PmmStep w (.alloc pages) ⟨s, w.held ∪ pagesAt b pages.toNat⟩
  | allocslot {w : PmmWorld} {s : Pmm} {b : Nat} (h : pmmAllocslot w.pmm = some (s, b)) :
      PmmStep w .allocslot ⟨s, w.held ∪ pagesAt b 512⟩
  | free {w : PmmWorld} {base n : Nat} (ha : 4096 ∣ base) (hn : 0 < n)
      (h : pagesAt base n ⊆ w.held) :
      PmmStep w (.free base n) ⟨pmmFree w.pmm base n, w.held \ pagesAt base n⟩

end OsZ
