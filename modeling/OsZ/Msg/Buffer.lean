import OsZ.Base.Run
import OsZ.Msg.Queue

/-!
# Buffers that are sent with a message (`MSG_PTRDATA` in `msg_sends` of `msg.c`)

The pages of a private buffer are mapped into the page table of the destination, from the entry
`mq_buffstart` of its queue header on.

* `mapPages`, `msgBuffer`   the loop over the pages and the code around it, with the entries written;
* `msgBuffer_hdr`           what the scheduler sees of it (`ptrBuf`);
* `BufStep`                 messages to one destination, one after the other;
* `buffers_in_window`       the entries written in a run, as long as every buffer has room;
* `second_buffer_outside`   two buffers of 1M have no room;
* `translate`               an address of the receiver, through the entries of one message;
* `delivered_pointer`       when the delivered pointer is the sender's buffer;
* `unaligned_buffer_cut`    a buffer over the end of a page.
-/

namespace OsZ

/-- `int bs`, converted to `uint64_t` -/
def bufPages (arg1 : Nat) : Nat := u64 (i32 (w64 (arg1 + 4095) / 4096 : Nat))

/-- "limit check" -/
def limitCheck (nrmqmax : Nat) (q : Msghdr) (arg1 : Nat) : Msghdr :=
  if nrmqmax + 1 + q.mqBuffsize ≤ w64 (q.mqBuffstart / 4096 + bufPages arg1) then
    { q with mqBuffstart := (nrmqmax + 1) * 4096 } else q

/-- `(pte & ~(__PAGESIZE-1)) + PG_USER_RO` -/
def bufEntry (pte : Nat) : Nat := pte / 4096 * 4096 + 5

/-- "get mapping for message buffer": the loop for `s` pages from `p` on, where `pte` is
`*kmap_getpte`; the header, and the entries written to `paging` with their indices -/
def mapPages (pte : Nat → Nat) : Nat → Nat → Msghdr → Msghdr × List (Nat × Nat)
  | 0, _, q => (q, [])
  | s+1, p, q =>
    let r := mapPages pte s (w64 (p + 4096)) { q with mqBuffstart := q.mqBuffstart + 1 }
    (r.1, (q.mqBuffstart, bufEntry (pte p)) :: r.2)

/-- a buffer of the sender's own memory -/
def IsPrivate (arg0 : Nat) : Prop := 0 < arg0 / 4096 * 4096 ∧ arg0 / 4096 * 4096 < 2^63

instance (arg0 : Nat) : Decidable (IsPrivate arg0) :=
  inferInstanceAs (Decidable (0 < arg0 / 4096 * 4096 ∧ arg0 / 4096 * 4096 < 2^63))

/-- `msg_sends` with `MSG_PTRDATA`, up to the call of `ksend`: the header, the new `arg0` and the
entries written; or the header and the error -/
def msgBuffer (nrmqmax : Nat) (pte : Nat → Nat) (q : Msghdr) (arg0 arg1 : Nat) :
    Except (Msghdr × CoreErr) (Msghdr × Nat × List (Nat × Nat)) :=
  let p := arg0 / 4096 * 4096
  let q := limitCheck nrmqmax q arg1
  if 2^63 ≤ p ∧ 0xfffffffffc000000 < p then .error (q, .EFAULT)
  else if IsPrivate arg0 then
    if 1048576 < arg1 then .error (q, .ENOTSHM)
    else
      let r := mapPages pte (bufPages arg1) p q
      .ok (r.1, w64 (arg0 % 4096 + w64 (q.mqBuffstart * 4096)), r.2)
  else .ok (q, arg0, [])

section
variable {nrmqmax arg0 arg1 : Nat} {pte : Nat → Nat} {q : Msghdr}

/-! ## one message -/

theorem bufPages_eq (h : arg1 ≤ 1048576) : bufPages arg1 = (arg1 + 4095) / 4096 := by
  unfold bufPages
  rw [w64_of_lt (by omega), u64_i32 (by omega) (by omega)]
  omega

theorem mapPages_hdr (pte : Nat → Nat) (s p : Nat) (q : Msghdr) :
    (mapPages pte s p q).1 = { q with mqBuffstart := q.mqBuffstart + s } := by
  induction s generalizing p q with
  | zero => rfl
  | succ s ih =>
    rw [mapPages]
    dsimp only
    rw [ih, Nat.add_right_comm]
    rfl

theorem mapPages_writes (pte : Nat → Nat) (s p : Nat) (q : Msghdr) (hp : p + 4096 * s ≤ 2^64) :
    (mapPages pte s p q).2 =
      (List.range s).map (fun k => (q.mqBuffstart + k, bufEntry (pte (p + 4096 * k)))) := by
  induction s generalizing p q with
  | zero => rfl
  | succ s ih =>
    rw [mapPages, List.range_succ_eq_map, List.map_cons, List.map_map]
    dsimp only
    rcases s with _ | s
    · rfl
    · have hlt : p + 4096 < 2^64 := by omega
      have hle : p + 4096 + 4096 * (s + 1) ≤ 2^64 := by linarith
      rw [w64_of_lt hlt, ih (p + 4096) _ hle]
      refine congrArg _ (List.map_congr_left fun k _ => ?_)
      have hc : q.mqBuffstart + 1 + k = q.mqBuffstart + k.succ := by omega
      have hk : p + 4096 + 4096 * k = p + 4096 * k.succ := by omega
      simp only [Function.comp_apply, hc, hk]

theorem mapPages_index (pte : Nat → Nat) (s p : Nat) (q : Msghdr) :
    (mapPages pte s p q).2.map Prod.fst = (List.range s).map (q.mqBuffstart + ·) := by
  induction s generalizing p q with
  | zero => rfl
  | succ s ih =>
    rw [mapPages, List.range_succ_eq_map, List.map_cons, List.map_cons, List.map_map, ih]
    refine congrArg _ (List.map_congr_left fun k _ => ?_)
    simp only [Function.comp_apply]
    omega

theorem msgBuffer_cases (nrmqmax : Nat) (pte : Nat → Nat) (q : Msghdr) (arg0 arg1 : Nat) :
    (IsPrivate arg0 ∧ arg1 ≤ 1048576 ∧ msgBuffer nrmqmax pte q arg0 arg1 =
      .ok ((mapPages pte (bufPages arg1) (arg0 / 4096 * 4096) (limitCheck nrmqmax q arg1)).1,
        w64 (arg0 % 4096 + w64 ((limitCheck nrmqmax q arg1).mqBuffstart * 4096)),
        (mapPages pte (bufPages arg1) (arg0 / 4096 * 4096) (limitCheck nrmqmax q arg1)).2)) ∨
    (¬(IsPrivate arg0 ∧ arg1 ≤ 1048576) ∧
      ((∃ e, msgBuffer nrmqmax pte q arg0 arg1 = .error (limitCheck nrmqmax q arg1, e)) ∨
        msgBuffer nrmqmax pte q arg0 arg1 = .ok (limitCheck nrmqmax q arg1, arg0, []))) := by
  unfold msgBuffer
  dsimp only
  by_cases hcore : 2^63 ≤ arg0 / 4096 * 4096 ∧ 0xfffffffffc000000 < arg0 / 4096 * 4096
  · refine .inr ⟨fun h => absurd h.1.2 (Nat.not_lt.mpr hcore.1), .inl ⟨.EFAULT, if_pos hcore⟩⟩
  rw [if_neg hcore]
  by_cases hpriv : IsPrivate arg0
  · rw [if_pos hpriv]
    by_cases hbig : 1048576 < arg1
    · exact .inr ⟨fun h => absurd h.2 (Nat.not_le.mpr hbig), .inl ⟨.ENOTSHM, if_pos hbig⟩⟩
    · exact .inl ⟨hpriv, Nat.not_lt.mp hbig, if_neg hbig⟩
  · exact .inr ⟨fun h => hpriv h.1, .inr (if_neg hpriv)⟩

end

/-! ## messages to one destination -/

/-- the header and the page table of the destination, and the indices written so far -/
structure BufRun where
  hdr : Msghdr
  paging : Nat → Nat
  log : List Nat

inductive BufOp where
  /-- a message with `MSG_PTRDATA`; `pte` are the entries of the sender's pages -/
  | send (pte : Nat → Nat) (arg0 arg1 : Nat)
  /-- the destination takes a message -/
  | recv

def writeEntries (t : Nat → Nat) (ws : List (Nat × Nat)) : Nat → Nat :=
  ws.foldl (fun t w => Function.update t w.1 w.2) t

def BufRun.next (nrmqmax : Nat) (s : BufRun) : BufOp → BufRun
  | .send pte arg0 arg1 =>
    match msgBuffer nrmqmax pte s.hdr arg0 arg1 with
    | .error (q, _) => { s with hdr := q }
    | .ok (q, _, ws) => ⟨(ksend q).1, writeEntries s.paging ws, s.log ++ ws.map Prod.fst⟩
  | .recv => if s.hdr.mqEnd = s.hdr.mqStart then s else { s with hdr := s.hdr.taken }

def BufStep (nrmqmax : Nat) (s : BufRun) (a : BufOp) (s' : BufRun) : Prop := s' = s.next nrmqmax a

/-- the header is as `task_new` sets it up -/
def BufRun.Start (nrmqmax : Nat) (s : BufRun) : Prop :=
  (∃ q : Mq, s.hdr = (q.taskNew nrmqmax).hdr) ∧ s.log = []

/-- the buffer window of the destination -/
def InWindow (nrmqmax : Nat) (q : Msghdr) (i : Nat) : Prop :=
  nrmqmax + 1 ≤ i ∧ i < nrmqmax + 1 + q.mqBuffsize

/-- the limit check lets the message through, and the pages of a private buffer end inside the
window -/
def Room (nrmqmax : Nat) (s : BufRun) : BufOp → Prop
  | .send _ arg0 arg1 =>
    w64 (s.hdr.mqBuffstart / 4096 + bufPages arg1) < nrmqmax + 1 + s.hdr.mqBuffsize ∧
    (IsPrivate arg0 → arg1 ≤ 1048576 →
      s.hdr.mqBuffstart + bufPages arg1 ≤ nrmqmax + 1 + s.hdr.mqBuffsize)
  | .recv => True

structure BufInv (nrmqmax : Nat) (s0 s : BufRun) : Prop where
  size : s.hdr.mqBuffsize = s0.hdr.mqBuffsize
  low : nrmqmax + 1 ≤ s.hdr.mqBuffstart
  high : s.hdr.mqBuffstart ≤ nrmqmax + 1 + s.hdr.mqBuffsize
  log : ∀ i ∈ s.log, InWindow nrmqmax s0.hdr i
  frame : ∀ i, ¬InWindow nrmqmax s0.hdr i → s.paging i = s0.paging i

section
variable {nrmqmax : Nat} {s s' s0 : BufRun} {a : BufOp}

theorem ksend_buff (q : Msghdr) : (ksend q).1.mqBuffstart = q.mqBuffstart ∧
    (ksend q).1.mqBuffsize = q.mqBuffsize := by
  unfold ksend
  dsimp only
  split_ifs <;> exact ⟨rfl, rfl⟩

theorem writeEntries_of_not_mem (ws : List (Nat × Nat)) (t : Nat → Nat) (i : Nat)
    (h : i ∉ ws.map Prod.fst) : writeEntries t ws i = t i := by
  induction ws generalizing t with
  | nil => rfl
  | cons w ws ih =>
    rw [List.map_cons, List.mem_cons, not_or] at h
    exact (ih (Function.update t w.1 w.2) h.2).trans (Function.update_of_ne h.1 ..)

theorem limitCheck_size (nrmqmax : Nat) (q : Msghdr) (arg1 : Nat) :
    (limitCheck nrmqmax q arg1).mqBuffsize = q.mqBuffsize := by
  unfold limitCheck
  split_ifs <;> rfl

theorem next_send (nrmqmax : Nat) (s : BufRun) (pte : Nat → Nat) (arg0 arg1 : Nat) :
    (s.next nrmqmax (.send pte arg0 arg1)).hdr.mqBuffsize = s.hdr.mqBuffsize ∧
    ((IsPrivate arg0 ∧ arg1 ≤ 1048576 ∧
      (s.next nrmqmax (.send pte arg0 arg1)).hdr.mqBuffstart =
        (limitCheck nrmqmax s.hdr arg1).mqBuffstart + bufPages arg1 ∧
      (s.next nrmqmax (.send pte arg0 arg1)).log = s.log ++
        (List.range (bufPages arg1)).map ((limitCheck nrmqmax s.hdr arg1).mqBuffstart + ·) ∧
      ∀ i, i ∉ (List.range (bufPages arg1)).map
          ((limitCheck nrmqmax s.hdr arg1).mqBuffstart + ·) →
        (s.next nrmqmax (.send pte arg0 arg1)).paging i = s.paging i) ∨
    (¬(IsPrivate arg0 ∧ arg1 ≤ 1048576) ∧
      (s.next nrmqmax (.send pte arg0 arg1)).hdr.mqBuffstart =
        (limitCheck nrmqmax s.hdr arg1).mqBuffstart ∧
      (s.next nrmqmax (.send pte arg0 arg1)).log = s.log ∧
      (s.next nrmqmax (.send pte arg0 arg1)).paging = s.paging)) := by
  obtain ⟨l, hl⟩ : ∃ l, l = limitCheck nrmqmax s.hdr arg1 := ⟨_, rfl⟩
  obtain ⟨b, hb⟩ : ∃ b, b = bufPages arg1 := ⟨_, rfl⟩
  have hsize : l.mqBuffsize = s.hdr.mqBuffsize := by rw [hl, limitCheck_size]
  have hcases := msgBuffer_cases nrmqmax pte s.hdr arg0 arg1
  rw [BufRun.next]
  rw [← hl, ← hb] at hcases ⊢
  obtain ⟨hp, h1, hok⟩ | ⟨hn, ⟨e, herr⟩ | hok⟩ := hcases
  · rw [hok]
    obtain ⟨hstart, hsz⟩ := ksend_buff (mapPages pte b (arg0 / 4096 * 4096) l).1
    rw [mapPages_hdr] at hstart hsz
    refine ⟨?_, .inl ⟨hp, h1, ?_, ?_, fun i hi => ?_⟩⟩
    · dsimp only
      rw [mapPages_hdr, hsz, hsize]
    · dsimp only
      rw [mapPages_hdr, hstart]
    · dsimp only
      rw [mapPages_index]
    · refine writeEntries_of_not_mem _ _ i ?_
      rw [mapPages_index]
      exact hi
  · rw [herr]
    exact ⟨hsize, .inr ⟨hn, rfl, rfl, rfl⟩⟩
  · rw [hok]
    obtain ⟨hstart, hsz⟩ := ksend_buff l
    exact ⟨hsz.trans hsize, .inr ⟨hn, hstart, List.append_nil _, rfl⟩⟩

theorem BufInv.start (h : s0.Start nrmqmax) : BufInv nrmqmax s0 s0 := by
  obtain ⟨⟨q, hq⟩, hlog⟩ := h
  have hstart : s0.hdr.mqBuffstart = nrmqmax + 1 := by
    rw [hq]
    simp [Mq.taskNew, Mq.hdr, Mq.set_word]
  refine ⟨rfl, by omega, by omega, ?_, fun _ _ => rfl⟩
  rw [hlog]
  exact fun i hi => absurd hi List.not_mem_nil

theorem BufInv.step (h : BufInv nrmqmax s0 s) (hr : Room nrmqmax s a) (hs : BufStep nrmqmax s a s') :
    BufInv nrmqmax s0 s' := by
  subst hs
  cases a with
  | recv =>
    rw [BufRun.next]
    split_ifs
    · exact h
    · exact ⟨h.size, h.low, h.high, h.log, h.frame⟩
  | send pte arg0 arg1 =>
    obtain ⟨hlim, hroom⟩ := hr
    have hl : limitCheck nrmqmax s.hdr arg1 = s.hdr := if_neg (Nat.not_le.mpr hlim)
    obtain ⟨hsize, hcases⟩ := next_send nrmqmax s pte arg0 arg1
    rw [hl] at hcases
    have hlow := h.low
    have hhigh := h.high
    have hsz := h.size
    obtain ⟨hp, h1, hstart, hlog, hframe⟩ | ⟨-, hstart, hlog, hpag⟩ := hcases
    · have hfit := hroom hp h1
      have hin : ∀ i ∈ (List.range (bufPages arg1)).map (s.hdr.mqBuffstart + ·),
          InWindow nrmqmax s0.hdr i := by
        intro i hi
        obtain ⟨k, hk, rfl⟩ := List.mem_map.mp hi
        rw [List.mem_range] at hk
        exact ⟨by omega, by omega⟩
      refine ⟨hsize.trans hsz, by omega, by omega, ?_, ?_⟩
      · rw [hlog]
        intro i hi
        exact (List.mem_append.mp hi).elim (h.log i) (hin i)
      · intro i hi
        rw [hframe i fun hm => hi (hin i hm)]
        exact h.frame i hi
    · refine ⟨hsize.trans hsz, by omega, by omega, ?_, ?_⟩
      · rw [hlog]
        exact h.log
      · rw [hpag]
        exact h.frame

/-- in a run where every buffer has room, the entries written are in the window, and the others are
as they were -/
theorem buffers_in_window (h0 : s0.Start nrmqmax)
    (h : Reach (BufStep nrmqmax) (Room nrmqmax) s0 s) :
    (∀ i ∈ s.log, InWindow nrmqmax s0.hdr i) ∧
      ∀ i, ¬InWindow nrmqmax s0.hdr i → s.paging i = s0.paging i := by
  have hinv : BufInv nrmqmax s0 s := h.keeps (.start h0) fun _ _ _ hu hc hs => hu.step hc hs
  exact ⟨hinv.log, hinv.frame⟩

end

/-- a new task with one page for its queue -/
def demoBuf : BufRun := ⟨((⟨fun _ => 0⟩ : Mq).taskNew 1).hdr, fun _ => 0, []⟩

theorem demoBuf_start : demoBuf.Start 1 := ⟨⟨_, rfl⟩, rfl⟩

theorem buffers_in_window_demo :
    (∀ i ∈ (demoBuf.next 1 (.send id 0x200800 5000)).log, InWindow 1 demoBuf.hdr i) ∧
      ∀ i, ¬InWindow 1 demoBuf.hdr i →
        (demoBuf.next 1 (.send id 0x200800 5000)).paging i = demoBuf.paging i :=
  buffers_in_window demoBuf_start
    (Reach.tail .refl (show Room 1 demoBuf (.send id 0x200800 5000) from
      ⟨by decide +kernel, fun _ _ => by decide +kernel⟩) rfl)

/-- a second buffer of 1M begins behind the window -/
theorem second_buffer_outside :
    Reach (BufStep 1) (fun _ a => ∃ arg0, a = .send id arg0 1048576 ∧ IsPrivate arg0) demoBuf
      ((demoBuf.next 1 (.send id 0x200000 1048576)).next 1 (.send id 0x200000 1048576)) ∧
    ∃ i ∈ ((demoBuf.next 1 (.send id 0x200000 1048576)).next 1 (.send id 0x200000 1048576)).log,
      ¬InWindow 1 demoBuf.hdr i := by
  have hp : IsPrivate 0x200000 := by decide
  refine ⟨.tail (.tail .refl ⟨_, rfl, hp⟩ rfl) ⟨_, rfl, hp⟩ rfl, 258, ?_, ?_⟩
  · decide +kernel
  · exact fun h => absurd h.2 (by decide +kernel)

/-! ## the delivered pointer -/

/-- the frame of a page table entry: bits 12 to 51 -/
def frameOf (pte : Nat) : Nat := pte / 4096 % 2^40

def senderByte (pte : Nat → Nat) (a : Nat) : Nat := frameOf (pte (a / 4096 * 4096)) * 4096 + a % 4096

/-- the physical address of a byte of the receiver, when `ws` are the entries of the page table of
its first 2M -/
def translate (ws : List (Nat × Nat)) (v : Nat) : Option Nat :=
  if v < 2097152 then (ws.lookup (v / 4096)).map (fun e => frameOf e * 4096 + v % 4096) else none

/-- the number of pages that the bytes of the buffer are on -/
def touchedPages (arg0 arg1 : Nat) : Nat := (arg0 % 4096 + arg1 + 4095) / 4096

section
variable {nrmqmax arg0 arg1 : Nat} {pte : Nat → Nat} {q : Msghdr}

theorem frameOf_bufEntry (e : Nat) : frameOf (bufEntry e) = frameOf e := by
  have h : (e / 4096 * 4096 + 5) / 4096 = e / 4096 := by omega
  unfold frameOf bufEntry
  rw [h]

theorem lookup_range (c n j : Nat) (f : Nat → Nat) :
    ((List.range n).map (fun k => (c + k, f k))).lookup j =
      if c ≤ j ∧ j < c + n then some (f (j - c)) else none := by
  induction n with
  | zero => rw [if_neg (by omega)]; rfl
  | succ n ih =>
    rw [List.range_succ, List.map_append, List.lookup_append, ih]
    by_cases hj : j = c + n
    · subst hj
      rw [if_neg (by omega), if_pos (by omega)]
      simp
    · have hlast : ([n].map (fun k => (c + k, f k))).lookup j = none := by
        simp [beq_eq_false_iff_ne.mpr hj]
      rw [hlast, Option.or_none]
      refine if_congr ?_ rfl rfl
      omega

theorem translate_mapPages (hp : IsPrivate arg0) (h1 : arg1 ≤ 1048576) (v : Nat) :
    translate (mapPages pte (bufPages arg1) (arg0 / 4096 * 4096) q).2 v =
      if v < 2097152 ∧ q.mqBuffstart ≤ v / 4096 ∧ v / 4096 < q.mqBuffstart + bufPages arg1 then
        some (frameOf (pte (arg0 / 4096 * 4096 + 4096 * (v / 4096 - q.mqBuffstart))) * 4096 +
          v % 4096)
      else none := by
  obtain ⟨-, hlt⟩ := hp
  have hb := bufPages_eq h1
  have hend : arg0 / 4096 * 4096 + 4096 * bufPages arg1 ≤ 2^64 := by
    rw [hb]
    omega
  rw [translate, mapPages_writes _ _ _ _ hend, lookup_range]
  by_cases hv : v < 2097152
  · rw [if_pos hv]
    by_cases hi : q.mqBuffstart ≤ v / 4096 ∧ v / 4096 < q.mqBuffstart + bufPages arg1
    · rw [if_pos hi, if_pos ⟨hv, hi⟩, Option.map_some, frameOf_bufEntry]
    · rw [if_neg hi, if_neg fun h => hi h.2, Option.map_none]
  · rw [if_neg hv, if_neg fun h => hv h.1]

/-- a byte of the delivered pointer, in a page table that has room for it -/
theorem translate_delivered (hp : IsPrivate arg0) (h1 : arg1 ≤ 1048576) {i : Nat}
    (hi : (arg0 % 4096 + i) / 4096 < bufPages arg1)
    (htab : q.mqBuffstart + (arg0 % 4096 + i) / 4096 < 512) :
    translate (mapPages pte (bufPages arg1) (arg0 / 4096 * 4096) q).2
      (arg0 % 4096 + q.mqBuffstart * 4096 + i) = some (senderByte pte (arg0 + i)) := by
  have hidx : (arg0 % 4096 + q.mqBuffstart * 4096 + i) / 4096 =
      q.mqBuffstart + (arg0 % 4096 + i) / 4096 := by omega
  have hpage : arg0 / 4096 * 4096 + 4096 * ((arg0 % 4096 + i) / 4096) =
      (arg0 + i) / 4096 * 4096 := by omega
  have hoff : (arg0 % 4096 + q.mqBuffstart * 4096 + i) % 4096 = (arg0 + i) % 4096 := by omega
  rw [translate_mapPages hp h1, hidx, if_pos (by omega), Nat.add_sub_cancel_left, hpage, hoff]
  rfl

/-- the entries of the message translate the delivered pointer and the bytes behind it to the
sender's buffer if and only if there are as many of them as pages of the buffer, and they are in the
page table -/
theorem delivered_pointer (hp : IsPrivate arg0) (h0 : 0 < arg1) (h1 : arg1 ≤ 1048576)
    (hwrap : limitCheck nrmqmax q arg1 = q) :
    ∃ q' ptr ws, msgBuffer nrmqmax pte q arg0 arg1 = .ok (q', ptr, ws) ∧
      ((∀ i < arg1, translate ws (ptr + i) = some (senderByte pte (arg0 + i))) ↔
        touchedPages arg0 arg1 ≤ bufPages arg1 ∧
          q.mqBuffstart + touchedPages arg0 arg1 ≤ 512) := by
  obtain ⟨-, -, hok⟩ | ⟨hn, -⟩ := msgBuffer_cases nrmqmax pte q arg0 arg1
  swap
  · exact absurd ⟨hp, h1⟩ hn
  rw [hwrap] at hok
  refine ⟨_, _, _, hok, ?_, ?_⟩
  · intro h
    -- the first byte: the cursor is in the page table, and nothing wraps
    have hfirst := h 0 h0
    rw [translate_mapPages hp h1] at hfirst
    split_ifs at hfirst with hc
    have hptr : w64 (arg0 % 4096 + w64 (q.mqBuffstart * 4096)) =
        arg0 % 4096 + q.mqBuffstart * 4096 := by
      rw [w64_of_lt (by omega : q.mqBuffstart * 4096 < 2^64), w64_of_lt (by omega)]
    -- the last byte
    have hlast := h (arg1 - 1) (by omega)
    rw [hptr, translate_mapPages hp h1] at hlast
    split_ifs at hlast with hd
    unfold touchedPages
    omega
  · rintro ⟨hpages, htab⟩ i hi
    unfold touchedPages at hpages htab
    have hptr : w64 (arg0 % 4096 + w64 (q.mqBuffstart * 4096)) =
        arg0 % 4096 + q.mqBuffstart * 4096 := by
      rw [w64_of_lt (by omega : q.mqBuffstart * 4096 < 2^64), w64_of_lt (by omega)]
    rw [hptr]
    exact translate_delivered hp h1 (by omega) (by omega)

end

theorem delivered_pointer_demo : ∃ q ptr ws,
    msgBuffer 1 id demoBuf.hdr 0x200000 5000 = .ok (q, ptr, ws) ∧
      ∀ i < 5000, translate ws (ptr + i) = some (senderByte id (0x200000 + i)) := by
  obtain ⟨q, ptr, ws, hok, h⟩ := @delivered_pointer 1 0x200000 5000 id demoBuf.hdr (by decide)
    (by decide) (by decide) rfl
  exact ⟨q, ptr, ws, hok, h.mpr (by decide +kernel)⟩

/-- two bytes over the end of a page: one page is mapped, and the second byte is on the next -/
theorem unaligned_buffer_cut : IsPrivate 8191 ∧ limitCheck 1 demoBuf.hdr 2 = demoBuf.hdr ∧
    ∃ q ptr ws, msgBuffer 1 id demoBuf.hdr 8191 2 = .ok (q, ptr, ws) ∧
      translate ws (ptr + 1) = none :=
  ⟨by decide, rfl, _, _, _, rfl, by decide +kernel⟩

end OsZ
