import OsZ.Fs.Write

/-!
# Writing buffers out (`fs/fcb.c`)

`fcb_flush` enlarges the write buffers of a file to whole blocks, with what the file holds around
them, and passes them to the file system driver.  A block that has to be read may be missing from the
block cache; then `ackdelayed` is set, the call returns false and is made again later.

* `widenFront`, `widenBack`  a buffer gets the rest of its first block, and of its last block;
* `flushBuf`                 one round of the loop;
* `fcbFlush`                 `fcb_flush(idx)`;
* `flushSession`             the calls for one message.

`none` is a call that stores behind the end of a block or goes on with a buffer that is freed.
Allocations succeed, and `malloc` clears what it returns.

* `fcb_flush_exact`  a list of buffers is written out as it should, with every driver that reads
                     blocks, if and only if it is empty or has one buffer, at the start of a block
                     and not with a part of a block behind the end of the file.
-/

namespace OsZ

/-- the answer of `read`, or NULL for a driver that cannot read: the call ends, or a block -/
def flushRead (fs : FcbState) (f : Fcb) (offs bs : Nat) : FcbState × Option (Option (Nat → UInt8)) :=
  match fs.fsdrv.getD f.fs none with
  | none => (fs, some none)
  | some read =>
    match read fs.calls f.storage f.inode offs bs with
    | .miss => ({ fs with calls := fs.calls + 1, ackdelayed := true }, none)
    | .data blk s =>
      -- "skip if block is not in cache or eof"
      if fs.ackdelayed ∨ s = 0 then ({ fs with calls := fs.calls + 1 }, none)
      else ({ fs with calls := fs.calls + 1 }, some blk)

/-- the buffer with `a` bytes of the block before it; `none` for a block of `bs` bytes that does not
fit into the `w->size+a` bytes allocated for both -/
def widenFront (w : WriteBuf) (a bs : Nat) (blk : Option (Nat → UInt8)) : Option WriteBuf :=
  if blk.isSome ∧ w.size + a < bs then none
  else some ⟨w.offs - a, w.size + a,
    fun i => if i < a then blk.getD (fun _ => 0) i else w.data (i - a)⟩

/-- the buffer with the bytes of its last block from `a` on -/
def widenBack (w : WriteBuf) (a bs : Nat) (blk : Option (Nat → UInt8)) : WriteBuf :=
  ⟨w.offs, w.size - a + bs,
    fun i => if i < w.size then w.data i else blk.getD (fun _ => 0) (a + (i - w.size))⟩

inductive Flushed where
  | fault
  /-- the call returns false, with this buffer in the place of the first one -/
  | again (fs : FcbState) (w : WriteBuf)
  /-- the buffer is written out -/
  | done (fs : FcbState)

/-- the second half of a round, from `if(w->size%bs!=0)` on -/
def flushTail (fs : FcbState) (f : Fcb) (bs : Nat) (w : WriteBuf) : Flushed :=
  let out (fs : FcbState) (w : WriteBuf) : Flushed :=
    let fs' : FcbState := { fs with calls := fs.calls + 1, drvlog := fs.drvlog ++ [.write w] }
    match fs.writer f.fs with
    | none => .fault
    | some write =>
      if write fs.calls f.storage f.inode w.offs w.data w.size then .done fs' else .again fs' w
  if w.size % bs = 0 then out fs w
  else
    match flushRead fs f (w.offs + w.size - w.size % bs) bs with
    | (fs', none) => .again fs' w
    | (fs', some blk) => out fs' (widenBack w (w.size % bs) bs blk)

def flushBuf (fs : FcbState) (f : Fcb) (bs : Nat) (w : WriteBuf) : Flushed :=
  if w.offs % bs = 0 then flushTail fs f bs w
  else
    match flushRead fs f w.offs bs with
    | (fs', none) => .again fs' w
    | (fs', some blk) =>
      match widenFront w (w.offs % bs) bs blk with
      | none => .fault
      | some w' => flushTail fs' f bs w'

def flushCheck (fs : FcbState) (f : Fcb) (bs : Nat) : Option Errno :=
  if f.type ≠ .regFile then some .EBADF
  else if f.storage ≠ minus1 ∧ fs.fsckdev = f.storage then some .EBUSY
  else if oWrite f.mode = false then some .EACCES
  else if (fs.writer f.fs).isNone then some .EROFS
  else if bs < 1 then some .EINVAL
  else none

def flushLoop (fs : FcbState) (tc : TaskCtx) (idx : Nat) : Option (FcbState × TaskCtx × Bool) :=
  let f := fs.fcb idx
  let finish (fs : FcbState) : FcbState × TaskCtx × Bool :=
    ({ fs with drvlog := fs.drvlog ++ if (fs.transact f.fs).2 then [.writetre] else [] },
      { tc with workleft := minus1 }, true)
  match f.buf with
  | [] => some (finish fs)
  | w :: ws =>
    match flushBuf fs f (fs.fcb f.storage).blksize w with
    | .fault => none
    | .again fs' w' => some (fs'.setBuf idx (w' :: ws), tc, false)
    | .done fs' =>
      match ws with
      | [] => some (finish (fs'.setBuf idx []))
      -- `w` is freed, and the next round uses it again
      | _ :: _ => none

def fcbFlush (fs : FcbState) (tc : TaskCtx) (idx : Nat) : Option (FcbState × TaskCtx × Bool) :=
  if idx = minus1 ∨ fs.nfcb ≤ idx then some (fs.seterr .EFAULT, tc, false)
  else if tc.workleft = minus1 then
    let f := fs.fcb idx
    match flushCheck fs f (fs.fcb f.storage).blksize with
    | some e => some (fs.seterr e, tc, false)
    | none =>
      flushLoop { fs with drvlog := fs.drvlog ++ if (fs.transact f.fs).1 then [.writetrb] else [] }
        { tc with workleft := 0 } idx
  else flushLoop fs tc idx

def FcbState.clear (fs : FcbState) (nomem : Bool) : FcbState :=
  { fs with errno := none, ackdelayed := nomem }

/-- the calls for one message: a message that was delayed is served again.
The inner `none` says that the last call of the list was still delayed. -/
def flushSession (idx : Nat) :
    List Bool → FcbState → TaskCtx → Option (Option (FcbState × TaskCtx × Bool))
  | [], _, _ => some none
  | nomem :: rest, fs, tc =>
    match fcbFlush (fs.clear nomem) tc idx with
    | none => none
    | some r => if r.1.ackdelayed then flushSession idx rest r.1 r.2.1 else some (some r)

/-! ## what a flush should do -/

/-- the answer for a block-aligned offset is the block there, and nothing behind the `size` bytes of the file -/
def BlockReply (content : Nat → UInt8) (bs size o : Nat) : Reply → Prop
  | .miss => True
  | .data blk s => if o < size then s ≠ 0 ∧ ∃ b, blk = some b ∧ ∀ i < bs, b i = content (o + i) else s = 0

def ReadsBlocks (content : Nat → UInt8) (bs size storage inode : Nat) (read : ReadFn) : Prop :=
  ∀ c o, o % bs = 0 → BlockReply content bs size o (read c storage inode o bs)

def writesOf (l : List DrvCall) : List WriteBuf :=
  l.filterMap (fun | .write w => some w | _ => none)

/-- the file `idx` with the write buffers `bufs`, on a device with blocks of `bs` bytes -/
structure Flushing (fs : FcbState) (idx bs : Nat) (bufs : List WriteBuf) (read : ReadFn) : Prop where
  file : Writable fs idx
  buf : (fs.fcb idx).buf = bufs
  bs : (fs.fcb (fs.fcb idx).storage).blksize = bs
  read : fs.fsdrv.getD (fs.fcb idx).fs none = some read
  /-- "Should never return false" -/
  write : ∀ write, fs.writer (fs.fcb idx).fs = some write →
    ∀ c o d n, write c (fs.fcb idx).storage (fs.fcb idx).inode o d n = true

/-- the call returned true, the list of buffers is empty, whole blocks were written, and they change
the file to what the buffers say -/
structure FlushOk (content : Nat → UInt8) (idx bs : Nat) (bufs : List WriteBuf)
    (x : FcbState × TaskCtx × Bool) : Prop where
  ret : x.2.2 = true
  buf : (x.1.fcb idx).buf = []
  aligned : ∀ w ∈ writesOf x.1.drvlog, w.offs % bs = 0 ∧ w.size % bs = 0
  effect : writeOut content ((writesOf x.1.drvlog).map WriteBuf.piece)
    = patch content (bufs.map WriteBuf.piece)

/-- where the last block of a buffer begins that ends inside of a block -/
def WriteBuf.lastBlock (w : WriteBuf) (bs : Nat) : Nat := w.offs + w.size - w.size % bs

/-- buffers that `fcb_flush` can write out: none, or one that starts with a block, and the file has the block in
which it ends -/
def Flushable (bs size : Nat) (bufs : List WriteBuf) : Prop :=
  bufs = [] ∨ ∃ w, bufs = [w] ∧ w.offs % bs = 0 ∧ (w.size % bs = 0 ∨ w.lastBlock bs < size)

/-- every call for the message returns; when it is answered, it was served as it should be; and it is
answered when `n` calls of `read` may find a block missing and `n+1` calls are made -/
def FlushGood (bs size : Nat) (bufs : List WriteBuf) : Prop :=
  ∀ (content : Nat → UInt8) (fs : FcbState) (tc : TaskCtx) (idx : Nat) (read : ReadFn),
    Flushing fs idx bs bufs read →
    ReadsBlocks content bs size (fs.fcb idx).storage (fs.fcb idx).inode read →
    tc.workleft = minus1 → fs.drvlog = [] → ∀ nomem : List Bool,
    ∃ r, flushSession idx nomem fs tc = some r ∧ (∀ x, r = some x → FlushOk content idx bs bufs x) ∧
      ∀ n, (∀ c, fs.calls + n ≤ c → ∀ st ino o b, read c st ino o b ≠ .miss) →
        nomem = List.replicate (n + 1) false → r ≠ none

/-! ## states of a message -/

section
variable {fs fs' : FcbState} {idx bs size : Nat} {l l' : List WriteBuf} {read : ReadFn} {content : Nat → UInt8}

theorem Flushing.keep (h : Flushing fs idx bs l read)
    (hf : fs'.fcb = Function.update fs.fcb idx { fs.fcb idx with buf := l' })
    (hn : fs'.nfcb = fs.nfcb) (hk : fs'.fsckdev = fs.fsckdev) (hd : fs'.fsdrv = fs.fsdrv)
    (hw : fs'.writers = fs.writers) : Flushing fs' idx bs l' read := by
  have hi : fs'.fcb idx = { fs.fcb idx with buf := l' } := by rw [hf, Function.update_self]
  have hb : ∀ k, (fs'.fcb k).blksize = (fs.fcb k).blksize := by
    intro k
    rw [hf]
    rcases eq_or_ne k idx with rfl | hk
    · rw [Function.update_self]
    · rw [Function.update_of_ne hk]
  have hwr : ∀ k, fs'.writer k = fs.writer k := by
    intro k
    rw [FcbState.writer, FcbState.writer, hw]
  obtain ⟨⟨a1, a2, a3, a4, a5, a6⟩, -, c, d, e⟩ := h
  constructor
  · exact ⟨a1, by rw [hn]; exact a2, by rw [hi]; exact a3, by rw [hi, hk]; exact a4,
      by rw [hi]; exact a5, by rw [hi, hwr]; exact a6⟩
  · rw [hi]
  · rw [hi, hb]; exact c
  · rw [hi, hd]; exact d
  · rw [hi]
    intro w hww
    rw [hwr] at hww
    exact e w hww

theorem Flushing.same (h : Flushing fs idx bs l read) (hf : fs'.fcb = fs.fcb) (hn : fs'.nfcb = fs.nfcb)
    (hk : fs'.fsckdev = fs.fsckdev) (hd : fs'.fsdrv = fs.fsdrv) (hw : fs'.writers = fs.writers) :
    Flushing fs' idx bs l read := by
  refine h.keep ?_ hn hk hd hw
  have e : { fs.fcb idx with buf := l } = fs.fcb idx := by rw [← h.buf]
  rw [e, Function.update_eq_self, hf]

theorem Flushing.check (h : Flushing fs idx bs l read) (hbs : 0 < bs) :
    flushCheck fs (fs.fcb idx) bs = none := by
  have hd : (fs.writer (fs.fcb idx).fs).isNone = false := by
    rw [← Bool.not_eq_true, Option.isNone_iff_eq_none]
    intro e
    have hs := h.file.drv
    rw [e] at hs
    cases hs
  unfold flushCheck
  rw [if_neg (by simp [h.file.regular]), if_neg h.file.unlocked, if_neg (by simp [h.file.mode]),
    if_neg (by simp [hd]), if_neg (by omega)]

/-! ## one buffer at the start of a block -/

/-- the state behind a call of `read` that ends the round -/
def delayed (fs : FcbState) : FcbState := { fs with calls := fs.calls + 1, ackdelayed := true }

theorem flushRead_cases (h : Flushing fs idx bs l read)
    (hr : ReadsBlocks content bs size (fs.fcb idx).storage (fs.fcb idx).inode read) {o : Nat} (ho : o % bs = 0)
    (hlt : o < size) :
    (flushRead fs (fs.fcb idx) o bs = (delayed fs, none) ∧ (fs.ackdelayed = false →
      read fs.calls (fs.fcb idx).storage (fs.fcb idx).inode o bs = .miss)) ∨
    ∃ b, flushRead fs (fs.fcb idx) o bs = ({ fs with calls := fs.calls + 1 }, some (some b)) ∧
      ∀ i < bs, b i = content (o + i) := by
  have hg := hr fs.calls o ho
  unfold flushRead
  rw [h.read]
  dsimp only
  cases e : read fs.calls (fs.fcb idx).storage (fs.fcb idx).inode o bs with
  | miss => exact Or.inl ⟨rfl, fun _ => rfl⟩
  | data blk s =>
    rw [e, BlockReply, if_pos hlt] at hg
    obtain ⟨hs, b, rfl, hb⟩ := hg
    by_cases ha : fs.ackdelayed = true
    · refine Or.inl ⟨?_, fun h0 => by rw [ha] at h0; cases h0⟩
      dsimp only
      rw [if_pos (Or.inl ha), delayed, ← ha]
    · refine Or.inr ⟨b, ?_, hb⟩
      dsimp only
      rw [if_neg (by rintro (h1 | h1); exacts [ha h1, hs h1])]

theorem patch_widenBack {w : WriteBuf} (hbs : 0 < bs) {b : Nat → UInt8}
    (hb : ∀ i < bs, b i = content (w.offs + w.size - w.size % bs + i)) :
    patch content [(widenBack w (w.size % bs) bs (some b)).piece] = patch content [w.piece] := by
  have hmod := Nat.mod_lt w.size hbs
  have hle := Nat.mod_le w.size bs
  funext p
  by_cases hc : w.piece.Covers p
  · have hc' : (widenBack w (w.size % bs) bs (some b)).piece.Covers p := by
      obtain ⟨h1, h2⟩ := hc
      refine ⟨h1, ?_⟩
      simp only [widenBack, WriteBuf.piece, Piece.stop] at h1 h2 ⊢
      omega
    rw [patch_cons_of_covers hc, patch_cons_of_covers hc']
    obtain ⟨h1, h2⟩ := hc
    simp only [widenBack, WriteBuf.piece, Piece.stop] at h1 h2 ⊢
    rw [if_pos (by omega)]
  · rw [patch_cons_of_not hc, patch_nil]
    by_cases hc' : (widenBack w (w.size % bs) bs (some b)).piece.Covers p
    · rw [patch_cons_of_covers hc']
      have hout : ¬ p < w.offs + w.size := fun hlt => hc ⟨hc'.1, hlt⟩
      obtain ⟨h1, h2⟩ := hc'
      simp only [widenBack, WriteBuf.piece, Piece.stop, Option.getD_some] at h1 h2 ⊢
      rw [if_neg (by omega), hb _ (by omega)]
      congr 1
      omega
    · rw [patch_cons_of_not hc', patch_nil]

theorem aligned_lastBlock {w : WriteBuf} (ho : w.offs % bs = 0) : w.lastBlock bs % bs = 0 := by
  rw [WriteBuf.lastBlock, Nat.add_sub_assoc (Nat.mod_le w.size bs), Nat.add_mod, ho, Nat.zero_add, Nat.mod_mod]
  exact Nat.sub_mod_eq_zero_of_mod_eq (Nat.mod_mod _ _).symm

/-- a buffer at the start of a block is written out with its last block filled up, or the block is
missing and nothing happens -/
theorem flushBuf_cases (h : Flushing fs idx bs l read)
    (hr : ReadsBlocks content bs size (fs.fcb idx).storage (fs.fcb idx).inode read) (hbs : 0 < bs)
    {w : WriteBuf} (ho : w.offs % bs = 0) (hend : w.size % bs = 0 ∨ w.lastBlock bs < size) :
    (flushBuf fs (fs.fcb idx) bs w = .again (delayed fs) w ∧ (fs.ackdelayed = false →
      ∃ o, read fs.calls (fs.fcb idx).storage (fs.fcb idx).inode o bs = .miss)) ∨
    ∃ c w', flushBuf fs (fs.fcb idx) bs w
        = .done { fs with calls := c, drvlog := fs.drvlog ++ [.write w'] } ∧
      w'.offs % bs = 0 ∧ w'.size % bs = 0 ∧ patch content [w'.piece] = patch content [w.piece] := by
  obtain ⟨write, hwr⟩ := Option.isSome_iff_exists.mp h.file.drv
  have hput : ∀ c o d n, write c (fs.fcb idx).storage (fs.fcb idx).inode o d n = true := h.write write hwr
  unfold flushBuf
  rw [if_pos ho]
  unfold flushTail
  by_cases hs : w.size % bs = 0
  · refine Or.inr ⟨fs.calls + 1, w, ?_, ho, hs, rfl⟩
    simp only [hs, if_true, hwr, hput]
  · rcases flushRead_cases h hr (aligned_lastBlock ho) (hend.resolve_left hs) with ⟨e, hm⟩ | ⟨b, e, hb⟩
    · refine Or.inl ⟨?_, fun h0 => ⟨_, hm h0⟩⟩
      simp only [hs, if_false, show w.offs + w.size - w.size % bs = w.lastBlock bs from rfl, e]
    · refine Or.inr ⟨fs.calls + 1 + 1, widenBack w (w.size % bs) bs (some b), ?_, ho, ?_,
        patch_widenBack hbs hb⟩
      · have hwr' : ({ fs with calls := fs.calls + 1 } : FcbState).writer (fs.fcb idx).fs = some write := hwr
        simp only [hs, if_false, show w.offs + w.size - w.size % bs = w.lastBlock bs from rfl, e, hwr', hput, if_true]
      · show (w.size - w.size % bs + bs) % bs = 0
        rw [Nat.add_mod_right]
        exact Nat.sub_mod_eq_zero_of_mod_eq (Nat.mod_mod _ _).symm

/-! ## the calls for a message -/

/-- the buffers are still there, or they were written out -/
inductive FlushInv (content : Nat → UInt8) (idx bs : Nat) (bufs : List WriteBuf) (read : ReadFn)
    (fs : FcbState) : Prop
  | todo (h : Flushing fs idx bs bufs read) (hl : writesOf fs.drvlog = [])
  | done (h : Flushing fs idx bs [] read)
      (ha : ∀ w ∈ writesOf fs.drvlog, w.offs % bs = 0 ∧ w.size % bs = 0)
      (he : writeOut content ((writesOf fs.drvlog).map WriteBuf.piece)
        = patch content (bufs.map WriteBuf.piece))

variable {bufs : List WriteBuf}

theorem FlushInv.flushing (h : FlushInv content idx bs bufs read fs) :
    ∃ l, Flushing fs idx bs l read := by
  cases h with
  | todo h => exact ⟨_, h⟩
  | done h => exact ⟨_, h⟩

theorem FlushInv.same (h : FlushInv content idx bs bufs read fs) (hf : fs'.fcb = fs.fcb)
    (hn : fs'.nfcb = fs.nfcb) (hk : fs'.fsckdev = fs.fsckdev) (hd : fs'.fsdrv = fs.fsdrv)
    (hw : fs'.writers = fs.writers) (hl : writesOf fs'.drvlog = writesOf fs.drvlog) :
    FlushInv content idx bs bufs read fs' := by
  cases h with
  | todo h h1 => exact .todo (h.same hf hn hk hd hw) (by rw [hl, h1])
  | done h ha he => exact .done (h.same hf hn hk hd hw) (by rw [hl]; exact ha) (by rw [hl]; exact he)

@[simp] theorem writesOf_append (a b : List DrvCall) :
    writesOf (a ++ b) = writesOf a ++ writesOf b := by simp [writesOf]

@[simp] theorem writesOf_begin (b : Bool) : writesOf (if b then [DrvCall.writetrb] else []) = [] := by
  cases b <;> rfl

@[simp] theorem writesOf_end (b : Bool) : writesOf (if b then [DrvCall.writetre] else []) = [] := by
  cases b <;> rfl


/-- what a call leaves behind: it is done, or a block was missing -/
structure CallOk (content : Nat → UInt8) (idx bs : Nat) (bufs : List WriteBuf) (read : ReadFn)
    (fs : FcbState) (x : FcbState × TaskCtx × Bool) : Prop where
  inv : FlushInv content idx bs bufs read x.1
  id : (x.1.fcb idx).storage = (fs.fcb idx).storage ∧ (x.1.fcb idx).inode = (fs.fcb idx).inode
  end_ : (x.2.2 = true ∧ (x.1.fcb idx).buf = [] ∧ x.1.ackdelayed = fs.ackdelayed) ∨
    (x.1.ackdelayed = true ∧ x.1.calls = fs.calls + 1 ∧
      (fs.ackdelayed = false → ∃ st ino o b, read fs.calls st ino o b = .miss))

theorem flushLoop_nil (tc : TaskCtx) (h0 : (fs.fcb idx).buf = []) : flushLoop fs tc idx =
    some ({ fs with drvlog :=
        fs.drvlog ++ if (fs.transact (fs.fcb idx).fs).2 then [.writetre] else [] },
      { tc with workleft := minus1 }, true) := by
  unfold flushLoop
  simp only [h0]

theorem flushLoop_cons (tc : TaskCtx) {w : WriteBuf} {ws : List WriteBuf}
    (h0 : (fs.fcb idx).buf = w :: ws) : flushLoop fs tc idx =
    match flushBuf fs (fs.fcb idx) (fs.fcb (fs.fcb idx).storage).blksize w with
    | .fault => none
    | .again fs' w' => some (fs'.setBuf idx (w' :: ws), tc, false)
    | .done fs' =>
      if ws = [] then
        some ({ fs'.setBuf idx [] with drvlog :=
            fs'.drvlog ++ if (fs'.transact (fs.fcb idx).fs).2 then [.writetre] else [] },
          { tc with workleft := minus1 }, true)
      else none := by
  unfold flushLoop
  simp only [h0]
  cases flushBuf fs (fs.fcb idx) (fs.fcb (fs.fcb idx).storage).blksize w with
  | fault => rfl
  | again fs' w' => rfl
  | done fs' =>
    cases ws with
    | nil => rfl
    | cons x xs => rfl

theorem flushLoop_ok (tc : TaskCtx) (hbs : 0 < bs) (hb : Flushable bs size bufs)
    (hi : FlushInv content idx bs bufs read fs)
    (hr : ReadsBlocks content bs size (fs.fcb idx).storage (fs.fcb idx).inode read) :
    ∃ x, flushLoop fs tc idx = some x ∧ CallOk content idx bs bufs read fs x := by
  -- the end of a call whose list of buffers is empty
  have hempty : (fs.fcb idx).buf = [] →
      ∃ x, flushLoop fs tc idx = some x ∧ CallOk content idx bs bufs read fs x := by
    intro h0
    refine ⟨_, flushLoop_nil tc h0, ⟨?_, ⟨rfl, rfl⟩, Or.inl ⟨rfl, h0, rfl⟩⟩⟩
    exact hi.same rfl rfl rfl rfl rfl (by simp)
  cases hi with
  | done h => exact hempty h.buf
  | todo h hl =>
    rcases hb with rfl | ⟨w, rfl, ho, hend⟩
    · exact hempty h.buf
    · have hloop := flushLoop_cons tc h.buf
      rw [h.bs] at hloop
      rcases flushBuf_cases h hr hbs ho hend with ⟨e, hm⟩ | ⟨c, w', e, h1, h2, h3⟩
      · rw [e] at hloop
        refine ⟨_, hloop, ⟨?_, ?_, Or.inr ⟨rfl, rfl, fun h0 => ?_⟩⟩⟩
        · refine .todo (h.keep rfl rfl rfl rfl rfl) hl
        · simp [FcbState.setBuf, delayed]
        · obtain ⟨o, hmiss⟩ := hm h0
          exact ⟨_, _, o, bs, hmiss⟩
      · rw [e] at hloop
        refine ⟨_, hloop, ⟨?_, ?_, Or.inl ⟨rfl, ?_, rfl⟩⟩⟩
        · refine .done (h.keep rfl rfl rfl rfl rfl) ?_ ?_
          · simp only [writesOf_append, hl, List.nil_append, writesOf_end, List.append_nil]
            intro x hx
            obtain rfl := List.mem_singleton.mp hx
            exact ⟨h1, h2⟩
          · simp only [writesOf_append, hl, List.nil_append, writesOf_end, List.append_nil]
            exact h3
        · simp [FcbState.setBuf]
        · simp [FcbState.setBuf]

theorem fcbFlush_ok (hbs : 0 < bs) (hb : Flushable bs size bufs)
    (hi : FlushInv content idx bs bufs read fs)
    (hr : ReadsBlocks content bs size (fs.fcb idx).storage (fs.fcb idx).inode read) (tc : TaskCtx) :
    ∃ x, fcbFlush fs tc idx = some x ∧ CallOk content idx bs bufs read fs x := by
  obtain ⟨l, h⟩ := hi.flushing
  unfold fcbFlush
  rw [if_neg (by have := h.file.lt; have := h.file.ne; omega)]
  by_cases hw : tc.workleft = minus1
  · rw [if_pos hw]
    dsimp only
    rw [h.bs, h.check hbs]
    have hi' : FlushInv content idx bs bufs read { fs with drvlog :=
        fs.drvlog ++ if (fs.transact (fs.fcb idx).fs).1 then [.writetrb] else [] } :=
      hi.same rfl rfl rfl rfl rfl (by simp)
    obtain ⟨x, hx, hok⟩ := flushLoop_ok { tc with workleft := 0 } hbs hb hi' hr
    exact ⟨x, hx, hok.inv, hok.id, hok.end_⟩
  · rw [if_neg hw]
    exact flushLoop_ok tc hbs hb hi hr

theorem flushSession_ok (hbs : 0 < bs) (hb : Flushable bs size bufs) (nomem : List Bool) (fs : FcbState)
    (tc : TaskCtx) (hi : FlushInv content idx bs bufs read fs)
    (hr : ReadsBlocks content bs size (fs.fcb idx).storage (fs.fcb idx).inode read) :
    ∃ r, flushSession idx nomem fs tc = some r ∧ (∀ x, r = some x → FlushOk content idx bs bufs x) ∧
      ∀ n, (∀ c, fs.calls + n ≤ c → ∀ st ino o b, read c st ino o b ≠ .miss) →
        nomem = List.replicate (n + 1) false → r ≠ none := by
  induction nomem generalizing fs tc with
  | nil => exact ⟨none, rfl, fun x hx => absurd hx (by simp), fun n _ hn => absurd hn (by simp)⟩
  | cons b rest ih =>
    have hi' : FlushInv content idx bs bufs read (fs.clear b) := hi.same rfl rfl rfl rfl rfl rfl
    obtain ⟨x, hx, hinv, ⟨hst, hino⟩, hend⟩ := fcbFlush_ok hbs hb hi' hr tc
    rw [flushSession, hx]
    dsimp only
    by_cases ha : x.1.ackdelayed = true
    · rw [if_pos ha]
      have hr' : ReadsBlocks content bs size (x.1.fcb idx).storage (x.1.fcb idx).inode read := by
        rw [hst, hino]
        exact hr
      obtain ⟨r, h1, h2, h3⟩ := ih x.1 x.2.1 hinv hr'
      refine ⟨r, h1, h2, fun n hn hrep => ?_⟩
      rw [List.replicate_succ, List.cons.injEq] at hrep
      obtain ⟨rfl, hrest⟩ := hrep
      obtain ⟨-, -, hfalse⟩ | ⟨-, hcalls, hmiss⟩ := hend
      · rw [ha] at hfalse
        cases hfalse
      · obtain ⟨st, ino, o, b, hmiss⟩ := hmiss rfl
        cases n with
        | zero => exact absurd hmiss (hn _ (le_refl _) st ino o b)
        | succ n =>
          refine h3 n (fun c hc => hn c ?_) hrest
          have e : (fs.clear false).calls = fs.calls := rfl
          omega
    · rw [if_neg ha]
      refine ⟨some x, rfl, fun y hy => ?_, fun n _ _ => by simp⟩
      cases hy
      obtain ⟨hret, hbuf, -⟩ := hend.resolve_right (fun h => ha h.1)
      cases hinv with
      | todo h hl =>
        rw [h.buf] at hbuf
        subst hbuf
        exact ⟨hret, h.buf, by rw [hl]; exact fun w hw => absurd hw List.not_mem_nil, by rw [hl]; rfl⟩
      | done h h1 h2 => exact ⟨hret, h.buf, h1, h2⟩

end

/-! ## lists that are not written out -/

/-- the driver of a file of `size` zeros that answers at once, and with ones for an offset inside a block -/
def oddRead (bs size : Nat) : ReadFn := fun _ _ _ o _ =>
  .data (some (fun _ => if o % bs = 0 then 0 else 1)) (if o % bs = 0 ∧ size ≤ o then 0 else bs)

/-- a file with blocks of `bs` bytes on a driver that writes -/
def flushFile (bufs : List WriteBuf) (bs : Nat) (read : ReadFn) : FcbState :=
  { demoFile bufs (some read) with fcb := fun _ => ⟨some "/a", .regFile, 0, 3, 0, 2, bs, bufs, []⟩ }

/-- no message is suspended -/
def freshCtx : TaskCtx := ⟨0, minus1, []⟩

theorem flushFile_flushing (bufs : List WriteBuf) (bs : Nat) (read : ReadFn) :
    Flushing (flushFile bufs bs read) 0 bs bufs read where
  file := ⟨(by decide : minus1 ≠ 0).symm, Nat.one_pos, rfl, fun h => (by decide : minus1 ≠ 0) h.2,
    (by decide : oWrite 3 = true), rfl⟩
  buf := rfl
  bs := rfl
  read := rfl
  write := by
    intro write hw c o d n
    cases hw
    rfl

theorem oddRead_blocks {bs : Nat} (hbs : 0 < bs) (size storage inode : Nat) :
    ReadsBlocks (fun _ => 0) bs size storage inode (oddRead bs size) := by
  intro c o ho
  rw [oddRead, BlockReply]
  split_ifs with h1 h2 h2
  · omega
  · exact ⟨by omega, _, rfl, fun i _ => by simp⟩
  · rfl
  · omega

section
variable {fs : FcbState} {idx bs size : Nat} {l : List WriteBuf}

theorem flushRead_odd (h : Flushing fs idx bs l (oddRead bs size)) (hbs : 0 < bs) (ha : fs.ackdelayed = false)
    (o : Nat) : flushRead fs (fs.fcb idx) o bs = ({ fs with calls := fs.calls + 1 },
      if o % bs = 0 ∧ size ≤ o then none else some (some (fun _ => if o % bs = 0 then 0 else 1))) := by
  unfold flushRead
  rw [h.read]
  simp only [oddRead, ha, Bool.false_eq_true, false_or]
  by_cases ho : o % bs = 0 ∧ size ≤ o
  · rw [if_pos ho, if_pos ho, if_pos rfl]
  · rw [if_neg ho, if_neg ho, if_neg hbs.ne']

/-- what a round with this driver does to `w`: the call fails at the end of the file, or a buffer is written out -/
inductive OddRound (fs : FcbState) (P : WriteBuf → Prop) : Flushed → Prop
  | fault : OddRound fs P .fault
  | stop (c : Nat) (w : WriteBuf) : OddRound fs P (.again { fs with calls := c } w)
  | out (c : Nat) (w : WriteBuf) (h : P w) :
      OddRound fs P (.done { fs with calls := c, drvlog := fs.drvlog ++ [.write w] })

theorem OddRound.imp {P Q : WriteBuf → Prop} {x : Flushed} {c : Nat} (h : OddRound { fs with calls := c } P x)
    (hi : ∀ w, P w → Q w) : OddRound fs Q x := by
  cases h with
  | fault => exact .fault
  | stop c w => exact .stop c w
  | out c w hw => exact .out c w (hi w hw)

/-- the second half of a round writes a buffer out that begins with the bytes of `w` -/
theorem flushTail_odd (h : Flushing fs idx bs l (oddRead bs size)) (hbs : 0 < bs) (ha : fs.ackdelayed = false)
    {w : WriteBuf} (ho : w.offs % bs = 0) : OddRound fs (fun w' => w'.offs = w.offs ∧ w.size ≤ w'.size ∧
      (∀ i < w.size, w'.data i = w.data i) ∧ (w.size % bs = 0 ∨ w.lastBlock bs < size))
        (flushTail fs (fs.fcb idx) bs w) := by
  obtain ⟨write, hwr⟩ := Option.isSome_iff_exists.mp h.file.drv
  have hput : ∀ c o d n, write c (fs.fcb idx).storage (fs.fcb idx).inode o d n = true := h.write write hwr
  unfold flushTail
  by_cases hs : w.size % bs = 0
  · simp only [hs, if_true, hwr, hput]
    exact .out _ _ ⟨rfl, le_rfl, fun i _ => rfl, Or.inl trivial⟩
  · have hmod := Nat.mod_lt w.size hbs
    have ha0 := aligned_lastBlock ho
    simp only [hs, if_false, show w.offs + w.size - w.size % bs = w.lastBlock bs from rfl, flushRead_odd h hbs ha]
    by_cases he : w.lastBlock bs % bs = 0 ∧ size ≤ w.lastBlock bs
    · rw [if_pos he]
      exact .stop _ _
    · have hwr' : ({ fs with calls := fs.calls + 1 } : FcbState).writer (fs.fcb idx).fs = some write := hwr
      rw [if_neg he]
      simp only [hwr', hput, if_true]
      refine .out _ _ ⟨rfl, ?_, fun i hi => if_pos hi, Or.inr (by omega)⟩
      show w.size ≤ w.size - w.size % bs + bs
      omega

/-- a round with this driver: a buffer with a start inside a block gets ones before it -/
theorem flushBuf_odd (h : Flushing fs idx bs l (oddRead bs size)) (hbs : 0 < bs) (ha : fs.ackdelayed = false)
    (w : WriteBuf) : OddRound fs (fun w' => if w.offs % bs = 0 then w.size % bs = 0 ∨ w.lastBlock bs < size
        else w'.offs = w.offs - w.offs % bs ∧ 0 < w'.size ∧ w'.data 0 = 1) (flushBuf fs (fs.fcb idx) bs w) := by
  unfold flushBuf
  by_cases ho : w.offs % bs = 0
  · simp only [if_pos ho]
    exact (flushTail_odd h hbs ha ho).imp fun w' hw => hw.2.2.2
  · rw [if_neg ho, flushRead_odd h hbs ha, if_neg (fun hc => ho hc.1)]
    dsimp only
    rw [widenFront]
    by_cases hfit : w.size + w.offs % bs < bs
    · rw [if_pos ⟨rfl, hfit⟩]
      exact .fault
    · rw [if_neg (fun hc => hfit hc.2)]
      have h1 : Flushing { fs with calls := fs.calls + 1 } idx bs l (oddRead bs size) :=
        h.same rfl rfl rfl rfl rfl
      have hpos : 0 < w.offs % bs := Nat.pos_of_ne_zero ho
      have ho' : (w.offs - w.offs % bs) % bs = 0 := Nat.sub_mod_eq_zero_of_mod_eq (Nat.mod_mod _ _).symm
      simp only [if_neg ho]
      refine (flushTail_odd h1 hbs ha ho').imp fun w' hw =>
        ⟨hw.1, lt_of_lt_of_le (Nat.add_pos_right _ hpos) hw.2.1, ?_⟩
      rw [hw.2.2.1 0 (Nat.add_pos_right _ hpos)]
      simp [hpos]

end

/-- **Writing the buffers of a file out.**  Whatever the driver and the file, and however often a
block is missing, the buffers are written out as they should if and only if there is none, or one
that starts with a block, and it does not end inside of a block behind the end of the file. -/
theorem fcb_flush_exact {bs : Nat} (hbs : 0 < bs) (size : Nat) (bufs : List WriteBuf) :
    FlushGood bs size bufs ↔ Flushable bs size bufs := by
  constructor
  · intro hg
    have hf := flushFile_flushing bufs bs (oddRead bs size)
    obtain ⟨r, hr, hok, hne⟩ := hg (fun _ => 0) (flushFile bufs bs (oddRead bs size)) freshCtx 0 (oddRead bs size)
      hf (oddRead_blocks hbs _ _ _) rfl rfl [false]
    have hne' := hne 0 (fun c _ st ino o b => by simp [oddRead]) rfl
    -- the call is its loop
    have hcall : fcbFlush ((flushFile bufs bs (oddRead bs size)).clear false) freshCtx 0
        = flushLoop ((flushFile bufs bs (oddRead bs size)).clear false) { freshCtx with workleft := 0 } 0 := by
      have h1 : Flushing ((flushFile bufs bs (oddRead bs size)).clear false) 0 bs bufs (oddRead bs size) :=
        hf.same rfl rfl rfl rfl rfl
      unfold fcbFlush
      rw [if_neg (by have := h1.file.lt; have := h1.file.ne; omega),
        if_pos (show freshCtx.workleft = minus1 from rfl)]
      dsimp only
      rw [h1.bs, h1.check hbs]
      rfl
    rw [flushSession, hcall] at hr
    cases bufs with
    | nil => exact Or.inl rfl
    | cons w ws =>
      have h1 : Flushing ((flushFile (w :: ws) bs (oddRead bs size)).clear false) 0 bs (w :: ws) (oddRead bs size) :=
        hf.same rfl rfl rfl rfl rfl
      rw [flushLoop_cons _ h1.buf, h1.bs] at hr
      generalize hfl : flushBuf _ _ bs w = fl at hr
      have hround := flushBuf_odd h1 hbs rfl w
      rw [hfl] at hround
      cases hround with
      | fault => cases hr
      | stop c w' =>
        -- the end of the file: the call fails
        cases hr
        exact Bool.noConfusion (hok _ rfl).ret
      | out c w' hw =>
        dsimp only at hr
        by_cases hws : ws = []
        · subst hws
          rw [if_pos rfl] at hr
          cases hr
          by_cases ho : w.offs % bs = 0
          · rw [if_pos ho] at hw
            exact Or.inr ⟨w, rfl, ho, hw⟩
          rw [if_neg ho] at hw
          obtain ⟨e1, e2, e3⟩ := hw
          have heff := congrFun (hok _ rfl).effect (w.offs - w.offs % bs)
          have hle := Nat.mod_le w.offs bs
          have hin : w'.piece.Covers (w.offs - w.offs % bs) := by
            refine ⟨le_of_eq e1, ?_⟩
            show _ < w'.offs + w'.size
            omega
          have hout : ¬ w.piece.Covers (w.offs - w.offs % bs) := fun hc => by
            have := hc.1
            simp only [WriteBuf.piece] at this
            omega
          change writeOut (fun _ => 0) [w'.piece] (w.offs - w.offs % bs)
            = patch (fun _ => 0) [w.piece] (w.offs - w.offs % bs) at heff
          rw [writeOut_singleton, patch_cons_of_covers hin, patch_cons_of_not hout, patch_nil,
            show (w.offs - w.offs % bs) - w'.piece.offs = 0 by simp [WriteBuf.piece, e1]] at heff
          change w'.data 0 = 0 at heff
          rw [e3] at heff
          exact absurd heff (by decide)
        · rw [if_neg hws] at hr
          cases hr
  · intro hb content fs tc idx read hf hr hw hl nomem
    exact flushSession_ok hbs hb nomem fs tc (.todo hf (by rw [hl]; rfl)) hr

/-- one buffer of two bytes at the start of the second block, of which the file has one byte -/
theorem fcb_flush_exact_demo : FlushGood 4 5 [⟨4, 2, fun _ => 7⟩] :=
  (fcb_flush_exact (by decide) 5 _).mpr (Or.inr ⟨_, rfl, rfl, Or.inr (by decide)⟩)

/-- Two buffers that are whole blocks: behind the first one the loop goes on with a buffer that is
freed.  One buffer of two bytes at offset 3: the driver is asked for offset 3 and not for the block,
and what it answers goes to the bytes before the buffer. -/
theorem flush_spoils :
    InOrder ([⟨0, 4, fun _ => 7⟩, ⟨8, 4, fun _ => 7⟩].map WriteBuf.piece) ∧
    ReadsBlocks (fun _ => 0) 4 12 0 2 (oddRead 4 12) ∧
    fcbFlush (flushFile [⟨0, 4, fun _ => 7⟩, ⟨8, 4, fun _ => 7⟩] 4 (oddRead 4 12)) freshCtx 0 = none ∧
    (fcbFlush (flushFile [⟨3, 2, fun _ => 7⟩] 4 (oddRead 4 12)) freshCtx 0).map
        (fun x => (writesOf x.1.drvlog).map (fun w => (w.offs, w.size, (List.range 8).map w.data)))
      = some [(0, 8, [1, 1, 1, 7, 7, 0, 0, 0])] ∧
    ¬ FlushGood 4 12 [⟨0, 4, fun _ => 7⟩, ⟨8, 4, fun _ => 7⟩] := by
  refine ⟨?_, oddRead_blocks (by decide) 12 0 2, rfl, rfl, fun hg => ?_⟩
  · simp [InOrder, WriteBuf.piece, Piece.stop]
  · obtain ⟨r, hr, -⟩ := hg (fun _ => 0) (flushFile _ 4 (oddRead 4 12)) freshCtx 0 (oddRead 4 12)
      (flushFile_flushing _ 4 (oddRead 4 12)) (oddRead_blocks (by decide) _ _ _) rfl rfl [false]
    cases hr

end OsZ
