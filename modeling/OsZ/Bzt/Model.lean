import OsZ.Base.Word
import OsZ.Base.Bitmap
import OsZ.Base.Run

/-!
# The memory allocator (`lib/libc/bztalloc.c`)

An arena is a table of allocmaps, an allocmap a table of chunks.  A chunk serves requests of one
`quantum`.  Below `2097152` bytes (`ALLOCSIZE`) it has 512 units of that size and a bitmap; its
memory is mapped at once if the quantum is below `4096` (`__PAGESIZE`) and unit by unit if not.
From `ALLOCSIZE` on a chunk is one block, and `map[0]` is its length.

* `bztFree`   `bzt_free(arena,ptr)`;
* `bztAlloc`  `bzt_alloc(arena,a,ptr,s,flag)`;
* `Eff`       what the two ask of the kernel and do to memory, in order.

The lock is left out.  `Site` names the calls of `mmap`, so that each may fail; `MAP_SPARE` is the
only bit of `flag` that the function looks at.  The moves of `memcpy` inside an allocmap are the
deletion of a list element.  A result `none` of `bztAlloc` is a loop that does not end, or one that
leaves the bitmap.
-/

namespace OsZ
open Function (update)

/-- `chunksize(q)` -/
def chunksize (q : Nat) : Nat := w64 (q * 512) / 4096 * 4096

/-- `chunkmap_t` -/
structure Chunk where
  quantum : Nat
  ptr : Nat
  map : Nat → BitVec 64

namespace Chunk

/-- number of bytes of address space -/
def extent (c : Chunk) : Nat :=
  if c.quantum < 2097152 then chunksize c.quantum else (c.map 0).toNat

def fin (c : Chunk) : Nat := w64 (c.ptr + c.extent)

def bit (c : Chunk) (k : Nat) : Bool := Bitmap.bit c.map k

def hasPtr (c : Chunk) (ptr : Nat) : Bool := decide (c.ptr ≤ ptr) && decide (ptr < c.fin)

end Chunk

/-- `allocmap_t` at its address -/
structure AllocMap where
  addr : Nat
  chunks : List Chunk

/-- `count` is `numallocmaps`, `slot i` is `arena[i]` (`none` is 0) -/
structure Arena where
  base : Nat
  count : Nat
  slot : Nat → Option AllocMap

def Arena.put (ar : Arena) (i : Nat) (am : AllocMap) : Arena :=
  { ar with slot := update ar.slot i (some am) }

/-- `arena[i]->numchunks` -/
def Arena.numchunks (ar : Arena) (i : Nat) : Nat := ((ar.slot i).map (·.chunks.length)).getD 0

inductive Eff where
  | mmap (addr len : Nat)
  | munmap (addr len : Nat)
  | memzero (addr len : Nat)
  | memcpy (dst src len : Nat)
deriving DecidableEq

/-- the calls of `mmap` in `bzt_alloc`, in the order of the source -/
inductive Site where
  | firstMap | newMap | arenaPage | chunk | unit | large

inductive BztErr where
  | ENOMEM | EFAULT
deriving DecidableEq

structure BztOut where
  arena : Arena
  ret : Nat
  err : Option BztErr
  effs : List Eff

/-! ## giving back -/

/-- the bit of the block `ptr` is cleared -/
def Chunk.cleared (c : Chunk) (ptr : Nat) : Chunk :=
  if c.quantum < 2097152 then { c with map := Bitmap.clear c.map ((ptr - c.ptr) / c.quantum) } else c

/-- "was it the last allocation in this chunk?": the words of the bitmap are added up, in `uint64_t`
by `bzt_free` (`m` is `2^64`) and in `int` by `bzt_alloc` (`m` is `2^32`) -/
def Chunk.last (m : Nat) (c : Chunk) (ptr : Nat) : Bool :=
  if c.quantum < 2097152 then decide (Bitmap.sum (c.cleared ptr).map 8 % m = 0) else true

/-- the memory that is given back to the kernel -/
def Chunk.unmaps (m : Nat) (c : Chunk) (ptr : Nat) : List Eff :=
  if c.quantum < 2097152 then
    if c.quantum < 4096 then if c.last m ptr = true then [.munmap c.ptr (chunksize c.quantum)] else []
    else [.munmap ptr c.quantum]
  else [.munmap c.ptr (c.map 0).toNat]

/-- "free old memory": the block `ptr` of chunk `j` of allocmap `i`; `n` is the `am->numchunks` of
the test before the move -/
def release (m n : Nat) (ar : Arena) (i j ptr : Nat) : Arena × List Eff :=
  match ar.slot i with
  | none => (ar, [])
  | some am =>
    match am.chunks[j]? with
    | none => (ar, [])
    | some c =>
      let chunks := am.chunks.set j (c.cleared ptr)
      if c.last m ptr = false then (ar.put i { am with chunks := chunks }, c.unmaps m ptr)
      else
        let chunks := if j + 1 < n then chunks.eraseIdx j else chunks.dropLast
        if chunks.isEmpty = true then
          ({ ar with count := ar.count - 1, slot := update ar.slot i none },
            c.unmaps m ptr ++ [.munmap am.addr 2097152])
        else (ar.put i { am with chunks := chunks }, c.unmaps m ptr)

/-- the two loops of `bzt_free`, from allocmap `i` on; `cnt` allocmaps were seen -/
def freeScan (ar : Arena) (ptr : Nat) : Nat → Nat → Nat → Option (Nat × Nat)
  | 0, _, _ => none
  | n+1, i, cnt =>
    if cnt < ar.count then
      match ar.slot i with
      | none => freeScan ar ptr n (i+1) cnt
      | some am =>
        match am.chunks.findIdx? (fun c => c.hasPtr ptr) with
        | some j => some (i, j)
        | none => freeScan ar ptr n (i+1) (cnt+1)
    else none

/-- `MAXARENA` is 262143 -/
def bztFree (ar : Arena) (ptr : Nat) : BztOut :=
  if ptr = 0 then ⟨ar, 0, none, []⟩
  else
    match freeScan ar ptr 262142 1 0 with
    | none => ⟨ar, 0, some .EFAULT, []⟩
    | some (i, j) =>
      let r := release (2^64) (ar.numchunks i) ar i j ptr
      ⟨r.1, 0, none, r.2⟩

/-! ## searching -/

/-- `for(q=8;q<s;q<<=1)` -/
def quantumLoop (s : Nat) : Nat → Nat → Option Nat
  | 0, _ => none
  | n+1, q => if q < s then quantumLoop s n (w64 (2 * q)) else some q

/-- after 61 rounds `q` is 0 and stays 0 -/
def quantumOf (s : Nat) : Option Nat := quantumLoop s 64 8

/-- "minimum alignment is quantum" -/
def alignOf (a q : Nat) : Nat := if a < q then q else a

/-- `for(k=0;k<BITMAPSIZE*64;k+=sf)`, where `k` is an `int` that is compared without its sign -/
def unitLoop (map : Nat → BitVec 64) (sf : Nat) : Nat → Int → Option (Option Nat)
  | 0, _ => none
  | n+1, k =>
    if k < 0 then some none
    else if 512 ≤ k then some none
    else if Bitmap.bit map k.toNat = false then some (some k.toNat)
    else unitLoop map sf n (i32 (k + sf))

/-- the local variables after the search; pointers are 0 for NULL -/
structure Scan where
  fp : Nat
  sp : Nat
  lp : Nat
  fc : Nat
  /-- the last allocmap seen -/
  am : Nat
  /-- `ncm` and `sh`: allocmap, chunk and unit -/
  ncm : Option (Nat × Nat × Nat)
  ocm : Option (Nat × Nat)

/-- the loop over the chunks of allocmap `i` -/
def scanChunks (q a ptr i : Nat) : List Chunk → Nat → Scan → Option Scan
  | [], _, r => some r
  | c :: cs, j, r =>
    match if c.quantum = q ∧ q < 2097152 ∧ c.ptr &&& (a - 1) = 0 then unitLoop c.map (a / q) 513 0
        else some none with
    | none => none
    | some u =>
      scanChunks q a ptr i cs (j+1)
        { r with
          ncm := match u with
            | some k => some (i, j, k)
            | none => r.ncm
          ocm := if ptr ≠ 0 ∧ c.hasPtr ptr = true then some (i, j) else r.ocm
          sp := if r.sp = 0 ∨ c.ptr < r.sp then c.ptr else r.sp
          fp := max r.fp c.fin }

/-- the loop over the allocmaps, and the value of `i` behind it -/
def scanMaps (ar : Arena) (q a ptr : Nat) : Nat → Nat → Nat → Scan → Option (Nat × Scan)
  | 0, i, _, r => some (i, r)
  | n+1, i, cnt, r =>
    if cnt < ar.count then
      match ar.slot i with
      | none => scanMaps ar q a ptr n (i+1) cnt r
      | some am =>
        let e := w64 (am.addr + 2097152)
        match scanChunks q a ptr i am.chunks 0
            { r with
              fp := max r.fp e
              lp := if r.lp = 0 ∨ e < r.lp then e else r.lp
              fc := if r.fc = 0 ∧ am.chunks.length < 26214 then i else r.fc
              am := i } with
        | none => none
        | some r => scanMaps ar q a ptr n (i+1) (cnt+1) r
    else some (i, r)

/-! ## allocating -/

/-- the chunk and unit for the request, and what was done to get there -/
structure Place where
  arena : Arena
  am : Nat
  i : Nat
  j : Nat
  k : Nat
  effs : List Eff

section
variable (mok : Site → Bool)

/-- "if we don't have any allocmaps yet" -/
def firstMap (ar : Arena) : Except BztOut (Arena × List Eff) :=
  if ar.count = 0 then
    let p := w64 (ar.base + 2097152)
    if mok .firstMap = false then .error ⟨ar, 0, some .ENOMEM, []⟩
    else .ok (⟨ar.base, ar.count + 1, update ar.slot 1 (some ⟨p, []⟩)⟩, [.mmap p 2097152])
  else .ok (ar, [])

/-- a new allocmap in slot `i` when all are full (`fc==0`) -/
def newMap (ar : Arena) (i ptr fp : Nat) (effs : List Eff) : Except BztOut (Arena × Nat × List Eff) :=
  if ar.count ≤ i ∨ mok .newMap = false then .error ⟨ar, ptr, some .ENOMEM, effs⟩
  else
    let effs := effs ++ [.mmap fp 2097152]
    let n := ar.count + 1
    let page : Bool := decide (n * 8 / 4096 ≠ (n + 1) * 8 / 4096)
    if page = true ∧ mok .arenaPage = false then .error ⟨{ ar with count := n }, ptr, some .ENOMEM, effs⟩
    else
      let effs := if page = true then effs ++ [.mmap (w64 (ar.base + n * 8)) 4096] else effs
      .ok (⟨ar.base, n, update ar.slot i (some ⟨fp, []⟩)⟩, w64 (fp + 2097152), effs)

/-- "add a new chunk" at `fp`, in allocmap `fc` -/
def addChunk (ar : Arena) (fc q a ptr fp : Nat) (spare : Bool) (effs : List Eff) : Except BztOut Place :=
  match ar.slot fc with
  | none => .error ⟨ar, ptr, some .ENOMEM, effs⟩
  | some am =>
    let fp := if 2097152 ≤ q then roundUp a fp else fp
    let ar := ar.put fc { am with chunks := am.chunks ++ [⟨q, fp, fun _ => 0⟩] }
    if spare = false ∧ q < 4096 then
      if mok .chunk = false then .error ⟨ar, ptr, some .ENOMEM, effs⟩
      else .ok ⟨ar, fc, fc, am.chunks.length, 0, effs ++ [.mmap fp (chunksize q)]⟩
    else .ok ⟨ar, fc, fc, am.chunks.length, 0, effs⟩

def choose (ar : Arena) (i : Nat) (r : Scan) (q a ptr s : Nat) (spare : Bool) (effs : List Eff) :
    Except BztOut Place :=
  match r.ncm with
  | some (i, j, k) => .ok ⟨ar, r.am, i, j, k, effs⟩
  | none =>
    -- "if we have a big enough, aligned space after allocmap, use that area"
    let fp :=
      if r.lp ≠ 0 ∧ r.sp ≠ 0 ∧ w64 (r.lp + roundUp 2097152 s) < r.sp ∧ r.lp &&& (a - 1) = 0 then r.lp
      else r.fp
    if r.fc = 0 then
      match newMap mok ar i ptr fp effs with
      | .error o => .error o
      | .ok (ar, fp, effs) => addChunk mok ar i q a ptr fp spare effs
    else addChunk mok ar r.fc q a ptr fp spare effs

/-- unit `k` of a chunk is marked, or the length of a large chunk is noted -/
def Chunk.taken (c : Chunk) (k q s : Nat) : Chunk :=
  if q < 2097152 then { c with map := Bitmap.set c.map k }
  else { c with map := update c.map 0 (BitVec.ofNat 64 (roundUp 2097152 s)) }

/-- the unit is marked, its memory mapped; returned is its address (0 when `mmap` failed) -/
def takeUnit (p : Place) (q s : Nat) (spare : Bool) : Arena × Nat × List Eff :=
  match p.arena.slot p.i with
  | none => (p.arena, 0, p.effs)
  | some am =>
    match am.chunks[p.j]? with
    | none => (p.arena, 0, p.effs)
    | some c =>
      let ar := p.arena.put p.i { am with chunks := am.chunks.set p.j (c.taken p.k q s) }
      if q < 2097152 then
        let fp := w64 (c.ptr + p.k * c.quantum)
        if spare = false ∧ 4096 ≤ q then
          if mok .unit = false then (ar, 0, p.effs) else (ar, fp, p.effs ++ [.mmap fp c.quantum])
        else (ar, fp, p.effs)
      else if spare = false then
        if mok .large = false then (p.arena, 0, p.effs)
        else (ar, c.ptr, p.effs ++ [.mmap c.ptr (roundUp 2097152 s)])
      else (ar, c.ptr, p.effs)

/-- `quantum` of a chunk -/
def Arena.quantum (ar : Arena) (i j : Nat) : Nat :=
  (((ar.slot i).bind (fun am => am.chunks[j]?)).map Chunk.quantum).getD 0

/-- from the choice of a chunk to the end of `bzt_alloc` -/
def allocIn (ar : Arena) (i : Nat) (r : Scan) (q a ptr s : Nat) (spare : Bool) (effs : List Eff) : BztOut :=
  match choose mok ar i r q a ptr s spare effs with
  | .error o => o
  | .ok p =>
    let (ar, fp, effs) := takeUnit mok p q s spare
    if fp = 0 then ⟨ar, ptr, some .ENOMEM, effs⟩
    else
      match r.ocm with
      | none => ⟨ar, fp, none, effs ++ if spare = false then [.memzero fp q] else []⟩
      | some (oi, oj) =>
        let oq := ar.quantum oi oj
        let copy : List Eff :=
          if spare = false then
            .memcpy fp ptr oq :: if oq < q then [.memzero (w64 (fp + oq)) (q - oq)] else []
          else []
        let d := release (2^32) (ar.numchunks p.am) ar oi oj ptr
        ⟨d.1, fp, none, effs ++ copy ++ d.2⟩

/-- "same as before, new size fits in quantum" -/
def Scan.same (r : Scan) : Bool :=
  match r.ncm, r.ocm with
  | some (i, j, _), some (i', j') => decide (i = i' ∧ j = j')
  | _, _ => false

def bztAlloc (ar : Arena) (a ptr s : Nat) (spare : Bool) : Option BztOut :=
  if s = 0 then some { bztFree ar ptr with ret := 0 }
  else
    match quantumOf s with
    | none => none
    | some q =>
      let a := alignOf a q
      match firstMap mok ar with
      | .error o => some o
      | .ok (ar, effs) =>
        match scanMaps ar q a ptr 262142 1 0 ⟨w64 (ar.base + 4194304), 0, 0, 0, 0, none, none⟩ with
        | none => none
        | some (i, r) =>
          if q < 2097152 ∧ ptr ≠ 0 ∧ r.same = true then some ⟨ar, ptr, none, effs⟩
          else some (allocIn mok ar i r q a ptr s spare effs)

end

/-! ## runs -/

/-- a block a program holds: `size` bytes were asked for -/
structure Block where
  ptr : Nat
  size : Nat
deriving DecidableEq

structure BztWorld where
  arena : Arena
  live : List Block

inductive BztOp where
  | alloc (a ptr s : Nat) (spare : Bool)
  | free (ptr : Nat)

/-- every `mmap` succeeds -/
def mapped : Site → Bool := fun _ => true

/-- the pointer a call returned, if it is not NULL, is a block of the size asked for -/
def got (out : BztOut) (s : Nat) : List Block := if out.ret = 0 then [] else [⟨out.ret, s⟩]

/-- calls of a program that frees and reallocates only blocks it holds -/
inductive BztStep : BztWorld → BztOp → BztWorld → Prop
  | alloc {w : BztWorld} {k s : Nat} {spare : Bool} {out : BztOut} (hk : k < 64) (hs : s < 2^64)
      (h : bztAlloc mapped w.arena (2^k) 0 s spare = some out) :
      BztStep w (.alloc (2^k) 0 s spare) ⟨out.arena, got out s ++ w.live⟩
  | realloc {w : BztWorld} {k s : Nat} {spare : Bool} {b : Block} {out : BztOut} (hk : k < 64)
      (hs : s < 2^64) (hb : b ∈ w.live)
      (h : bztAlloc mapped w.arena (2^k) b.ptr s spare = some out) :
      BztStep w (.alloc (2^k) b.ptr s spare) ⟨out.arena, got out s ++ w.live.erase b⟩
  | free {w : BztWorld} {b : Block} (hb : b ∈ w.live) :
      BztStep w (.free b.ptr) ⟨(bztFree w.arena b.ptr).arena, w.live.erase b⟩
  | freeNull {w : BztWorld} : BztStep w (.free 0) ⟨(bztFree w.arena 0).arena, w.live⟩

end OsZ
