import OsZ.Base.Word
import OsZ.Base.SList
import OsZ.Base.Run
import OsZ.Fs.Model

/-!
# The block cache (`fs/cache.c`)

Blocks of devices are kept in `cachelines` chains, singly linked, the block `lsn` in the chain
`lsn%cachelines`.  The upper four bits of a block's `fd` say that it is dirty and how urgent it is.

* `cacheGetblock`    `cache_getblock(fd,lsn)`;
* `cacheSetblock`    `cache_setblock(fd,lsn,blk,prio)`;
* `cacheFreeblocks`  `cache_freeblocks(fd,needed)`;
* `cacheFlush`       `cache_flush()`;
* `cacheCleardirty`  `cache_cleardirty(fd,lsn)`;
* `cacheFree`        `cache_free()`.

A block is known by the address of its `cache_t`, and 0 is NULL.  The loops over a chain count their
rounds; `none` is a call that does not end within them, or that goes on with a NULL pointer.  What
`malloc` answers is an argument: an address (0 for no memory), or how much it has.  The debug
output is left out.
-/

namespace OsZ
open Function (update)

abbrev BlkData := Nat → UInt8

/-- `cache_t` -/
structure CacheBlk where
  fd : Nat
  lsn : Nat
  blk : BlkData
  next : Nat

/-- the fields of `fcb_t` for a device -/
structure DevFcb where
  type : FcbType
  inode : Nat
  blksize : Nat
  filesize : Nat

/-- `devfs_t` -/
structure Devfs where
  fid : Nat
  drivertask : Nat
  device : Nat
  recent : Nat
  total : Nat
  out : Nat

inductive CacheMsg where
  /-- `mq_send(task,DRV_read,device,lsn,bs,pid,k)` -/
  | drvRead (task device lsn bs pid k : Nat)
  /-- `mq_send(task,DRV_write|MSG_PTRDATA,blk,bs,device,fd,lsn,k,pid)` -/
  | drvWrite (task : Nat) (blk : BlkData) (bs device fd lsn k pid : Nat)
  /-- `mq_send(SRV_UI,SYS_devprogress,fd,out,total)` -/
  | devProgress (fd out total : Nat)

structure Cache where
  fcb : Nat → DevFcb
  nfcb : Nat
  dev : Nat → Devfs
  ndev : Nat
  devRecent : Nat
  /-- `ctx->pid` -/
  pid : Nat
  cachelines : Nat
  node : Nat → CacheBlk
  /-- `cache[]` -/
  line : Nat → Nat
  /-- what `malloc` handed out for blocks and is not freed -/
  live : List Nat
  /-- `cache_inflush` -/
  inflush : Nat
  ackdelayed : Bool
  errno : Option Errno
  sent : List CacheMsg

def cacheFd (x : Nat) : Nat := x % 2^60

def cachePrio (x : Nat) : Nat := x / 2^60

/-- `fd|((uint64_t)(prio*0xF)<<60)` -/
def packPrio (fd prio : Nat) : Nat := fd ||| w64 (prio * 15 * 2^60)

/-- `BUFSIZ` -/
def bufsiz : Nat := 65536

namespace Cache

def next (s : Cache) (x : Nat) : Nat := (s.node x).next

def seterr (s : Cache) (e : Errno) : Cache := { s with errno := some e }

/-- `fd==-1||fd>=nfcb||lsn==-1||fcb[fd].type!=FCB_TYPE_DEVICE` -/
def Refused (s : Cache) (fd lsn : Nat) : Prop :=
  fd = minus1 ∨ s.nfcb ≤ fd ∨ lsn = minus1 ∨ (s.fcb fd).type ≠ .device

instance (s : Cache) (fd lsn : Nat) : Decidable (s.Refused fd lsn) :=
  inferInstanceAs (Decidable (_ ∨ _))

/-- `(lsn+1)*fcb[fd].device.blksize>fcb[fd].device.filesize` -/
def Outside (s : Cache) (fd lsn : Nat) : Prop :=
  (s.fcb fd).filesize < w64 ((lsn + 1) * (s.fcb fd).blksize)

instance (s : Cache) (fd lsn : Nat) : Decidable (s.Outside fd lsn) :=
  inferInstanceAs (Decidable (_ < _))

def slot (s : Cache) (lsn : Nat) : Nat := lsn % s.cachelines

/-- `x->next=y` -/
def setNext (s : Cache) (x y : Nat) : Cache :=
  { s with node := update s.node x { s.node x with next := y } }

/-- `if(l!=NULL) l->next=c->next; c->next=cache[j]; cache[j]=c` -/
def toFront (s : Cache) (j l c : Nat) : Cache :=
  let s := if l ≠ 0 then s.setNext l (s.next c) else s
  let s := s.setNext c (s.line j)
  { s with line := update s.line j c }

/-- `CACHE_FD(c->fd)==fd && c->lsn==lsn` -/
def isBlock (s : Cache) (fd lsn c : Nat) : Bool :=
  decide (cacheFd (s.node c).fd = fd) && decide ((s.node c).lsn = lsn)

/-- `c->fd==fd && c->lsn==lsn`, the test of `cache_setblock` -/
def isClean (s : Cache) (fd lsn c : Nat) : Bool :=
  decide ((s.node c).fd = fd) && decide ((s.node c).lsn = lsn)

end Cache

def cacheGetblock (fuel : Nat) (s : Cache) (fd lsn : Nat) : Option (Cache × Option BlkData) :=
  let j := s.slot lsn
  if s.Refused fd lsn ∨ s.line j = 0 then some (s, none)
  else if s.Outside fd lsn then some (s.seterr .EFAULT, none)
  else
    match SList.search s.next (s.isBlock fd lsn) fuel 0 (s.line j) with
    | none => none
    | some (some (l, c)) => some (s.toFront j l c, some (s.node c).blk)
    | some none =>
      let i := (s.fcb fd).inode
      let bs := if lsn = 0 ∧ (s.fcb fd).blksize < bufsiz then bufsiz else (s.fcb fd).blksize
      some ({ s with
          sent := s.sent ++ [.drvRead (s.dev i).drivertask (s.dev i).device lsn bs s.pid i]
          ackdelayed := true }, none)

/-- "update cache block": `nc->fd=fd|..; memcpy(nc->blk,blk,bs)` -/
def Cache.fill (s : Cache) (c fd prio : Nat) (blk : BlkData) : Cache :=
  { s with node := update s.node c { s.node c with
      fd := packPrio fd prio
      blk := fun i => if i < (s.fcb fd).blksize then blk i else (s.node c).blk i } }

/-- `nc` and `nb` are the answers of `malloc` for the `cache_t` and for the data -/
def cacheSetblock (fuel : Nat) (s : Cache) (fd lsn : Nat) (blk : BlkData) (prio nc : Nat) (nb : Bool) :
    Option (Cache × Bool) :=
  let j := s.slot lsn
  if s.Refused fd lsn then some (s, false)
  else if (s.fcb fd).blksize ≤ 1 then some (s, false)
  else if s.Outside fd lsn then some (s.seterr .EFAULT, false)
  else
    match SList.search s.next (s.isClean fd lsn) fuel 0 (s.line j) with
    | none => none
    | some (some (l, c)) => some ((s.toFront j l c).fill c fd prio blk, true)
    | some none =>
      if nc = 0 then some (s, false)
      else if nb = false then some ({ s with live := nc :: s.live }, false)
      else
        let s : Cache := { s with
          live := nc :: s.live
          node := update s.node nc ⟨fd, lsn, fun _ => 0, (s.node nc).next⟩ }
        some ((s.toFront j 0 nc).fill nc fd prio blk, true)

/-! ## freeing -/

/-- `free(c->blk); free(c)` -/
def Cache.drop (s : Cache) (c : Nat) : Cache := { s with live := s.live.erase c }

/-- "build an index": the blocks of a chain from `c` on, when `i` of them are in the index, which has
`k` entries, and its size behind them.  `some none` when there is no memory for `2*k` entries. -/
def buildIndex (next : Nat → Nat) (cap : Nat) : Nat → Nat → Nat → Nat → Option (Option (List Nat × Nat))
  | 0, _, k, c => if c = 0 then some (some ([], k)) else none
  | n+1, i, k, c =>
    if c = 0 then some (some ([], k))
    else if i + 1 + 1 < k then
      (buildIndex next cap n (i + 1) k (next c)).map (Option.map (fun r => (c :: r.1, r.2)))
    else if 2 * k ≤ cap then
      (buildIndex next cap n (i + 1) (2 * k) (next c)).map (Option.map (fun r => (c :: r.1, r.2)))
    else some none

/-- "free up blocks, going in reverse order": `r` is the index, `i` the number of blocks left in it -/
def freeFrom (fd j : Nat) (r : List Nat) : Nat → Cache × Nat → Cache × Nat
  | 0, x => x
  | i+1, (s, cnt) =>
    if i32 i < 0 then (s, cnt)
    else
      let c := r.getD i 0
      if cacheFd (s.node c).fd = fd then
        let s' := if 0 < i then s.setNext (r.getD (i - 1) 0) (s.next c)
          else { s with line := update s.line j (s.next c) }
        freeFrom fd j r i (s'.drop c, cnt + 1)
      else freeFrom fd j r i (s, cnt)

inductive Freed where
  | hangs
  | done (s : Cache) (cnt : Nat)
  | failsafe (s : Cache) (cnt : Nat)

/-- the chains `j-1, .., 0`, with an index of `k` entries -/
def freeLines (fuel fd needed cap : Nat) : Nat → Nat → Cache → Nat → Freed
  | 0, _, s, cnt => .done s cnt
  | j+1, k, s, cnt =>
    if needed = 0 ∨ cnt < needed then
      match buildIndex s.next cap fuel 0 k (s.line j) with
      | none => .hangs
      | some none => .failsafe s cnt
      | some (some (r, k')) =>
        let x := freeFrom fd j r r.length (s, cnt)
        freeLines fuel fd needed cap j k' x.1 x.2
    else .done s cnt

/-- one chain of the failsafe implementation.  Behind a block that is freed, `c` is the next block,
and `c=c->next` is done on top of it. -/
def failsafeLine (fd : Nat) : Nat → Nat → Nat → Cache × Nat → Option (Cache × Nat)
  | 0, _, c, x => if c = 0 then some x else none
  | n+1, l, c, (s, cnt) =>
    if c = 0 then some (s, cnt)
    else if cacheFd (s.node c).fd = fd then
      let s := s.setNext l (s.next c)
      let l := s.next c
      if l = 0 then none else failsafeLine fd n l (s.next l) (s.drop c, cnt + 1)
    else failsafeLine fd n c (s.next c) (s, cnt)

def failsafeLines (fuel fd needed : Nat) : Nat → Cache × Nat → Option (Cache × Nat)
  | 0, x => some x
  | j+1, x =>
    if needed = 0 ∨ x.2 < needed then
      match failsafeLine fd fuel (x.1.line j) (x.1.line j) x with
      | none => none
      | some x' => failsafeLines fuel fd needed j x'
    else some x

/-- there is memory for an index of `cap` entries -/
def cacheFreeblocks (fuel : Nat) (s : Cache) (fd needed cap : Nat) : Option (Cache × Nat) :=
  if fd = minus1 ∨ s.nfcb ≤ fd ∨ (s.fcb fd).type ≠ .device ∨ (s.fcb fd).blksize ≤ 1 then some (s, 0)
  else if cap < 512 then failsafeLines fuel fd needed s.cachelines (s, 0)
  else
    match freeLines fuel fd needed cap s.cachelines 512 s 0 with
    | .hangs => none
    | .done s' cnt => some (s', cnt)
    | .failsafe s' cnt => failsafeLines fuel fd needed s.cachelines (s', cnt)

/-! ## writing out -/

def flushMsg (s : Cache) (c : Nat) : CacheMsg :=
  let f := cacheFd (s.node c).fd
  let k := (s.fcb f).inode
  .drvWrite (s.dev k).drivertask (s.node c).blk (s.fcb f).blksize (s.dev k).device f (s.node c).lsn k s.pid

/-- the body of the inner loop of `cache_flush` -/
def flushBlk (p : Nat) (s : Cache) (c : Nat) : Cache :=
  if cachePrio (s.node c).fd = p then
    let k := (s.fcb (cacheFd (s.node c).fd)).inode
    { s with
      sent := s.sent ++ [flushMsg s c]
      dev := update s.dev k { s.dev k with total := w64 ((s.dev k).total + 1) }
      inflush := w64 (s.inflush + 1) }
  else s

def flushLine (fuel p : Nat) (s : Cache) (i : Nat) : Option Cache :=
  (SList.walk s.next fuel (s.line i)).map (fun r => r.foldl (flushBlk p) s)

/-- `BLKPRIO_CRIT` to `BLKPRIO_META` are 1 to 4 -/
def cacheFlush (fuel : Nat) (s : Cache) : Option Cache :=
  [1, 2, 3, 4].foldlM (fun s p => (List.range s.cachelines).foldlM (flushLine fuel p) s)
    { s with inflush := 0 }

def cacheCleardirty (fuel : Nat) (s : Cache) (fd lsn : Nat) : Option (Cache × Bool) :=
  let j := s.slot lsn
  if s.Refused fd lsn ∨ s.line j = 0 then some (s, false)
  else
    match SList.search s.next (s.isBlock fd lsn) fuel 0 (s.line j) with
    | none => none
    | some r =>
      let s : Cache := match r with
        | some (_, c) => { s with node := update s.node c { s.node c with fd := cacheFd fd } }
        | none => s
      let i := (s.fcb fd).inode
      let out := w64 ((s.dev i).out + 1)
      let d : Devfs := if (s.dev i).total ≤ out then { s.dev i with out := 0, total := 0 }
        else { s.dev i with out := out }
      let s : Cache := { s with
        dev := update s.dev i d
        sent := s.sent ++ [.devProgress fd d.out d.total]
        inflush := sub64 s.inflush 1 }
      some (s, decide (s.inflush = 0))

/-! ## out of memory -/

/-- `devfs_lastused(false)`: the loop keeps the index `l` and the value `k` found so far -/
def lastusedLoop (dev : Nat → Devfs) : Nat → Nat → Nat → Nat → Nat
  | 0, _, l, _ => l
  | n+1, i, l, k =>
    if (dev i).fid ≠ minus1 ∧ (dev i).recent < k ∧ (dev i).recent ≠ 0 then
      lastusedLoop dev n (i + 1) i (dev i).recent
    else lastusedLoop dev n (i + 1) l k

def devfsLastused (s : Cache) : Cache × Nat :=
  let l := lastusedLoop s.dev s.ndev 0 0 s.devRecent
  ({ s with dev := update s.dev l { s.dev l with recent := 0 } }, l)

/-- the number of blocks in the chains `0 .. n-1` -/
def countBlocks (fuel : Nat) (s : Cache) : Nat → Option Nat
  | 0 => some 0
  | n+1 =>
    match countBlocks fuel s n, SList.walk s.next fuel (s.line n) with
    | some k, some r => some (k + r.length)
    | _, _ => none

/-- `while(freed<total && i!=k)` -/
def freeLoop (fuel cap total : Nat) : Nat → Nat → Nat → Nat → Cache → Option Cache
  | 0, _, _, _, _ => none
  | n+1, freed, i, k, s =>
    if freed < total ∧ i ≠ k then
      let x := devfsLastused s
      match cacheFreeblocks fuel x.1 (x.1.dev x.2).fid (total - freed) cap with
      | none => none
      | some (s', cnt) => freeLoop fuel cap total n (freed + cnt) k x.2 s'
    else some s

def cacheFree (fuel cap : Nat) (s : Cache) : Option Cache :=
  match countBlocks fuel s s.cachelines with
  | none => none
  | some n => freeLoop fuel cap (n / 2) fuel 0 0 minus1 s

end OsZ
