import Mathlib.Data.List.DropRight
import OsZ.Base.Ring
import OsZ.Sched.Syscall

/-!
# The message queue (`ksend` of `x86_64/libk.S`, `SYS_recv` in `x86_64/isrc.S`)

The pages of a queue are words of 64 bits.  Slot 0, the words 0 to 7, is the header `msghdr_t`; the
message in slot `i` is the words from `8*i` on.

* `Mq.ksend`, `Mq.recv`   the two ends of the queue, word by word;
* `Mq.ksend_hdr`          what the scheduler sees of them;
* `MqStep`                calls in any order, with what was sent, received and written so far;
* `MqInv`                 the queue is a ring (`Ring`) of the messages sent;
* `mq_ring`               the indices, the header and the order of messages in every run;
* `mq_lossless`           no message is lost in a run that never sends to a full queue;
* `full_loses`            otherwise the oldest message is lost, and `ksend` returns true.
-/

namespace OsZ
open Function (update update_apply update_of_ne)

/-- `msg_t` -/
structure Msg where
  evt : Nat
  arg0 : Nat
  arg1 : Nat
  arg2 : Nat
  arg3 : Nat
  arg4 : Nat
  arg5 : Nat
  serial : Nat
deriving DecidableEq

structure Mq where
  word : Nat → Nat

namespace Mq

def set (q : Mq) (a v : Nat) : Mq := ⟨update q.word a v⟩

/-- the message in slot `i` -/
def msg (q : Mq) (i : Nat) : Msg :=
  ⟨q.word (8 * i), q.word (8 * i + 1), q.word (8 * i + 2), q.word (8 * i + 3), q.word (8 * i + 4),
    q.word (8 * i + 5), q.word (8 * i + 6), q.word (8 * i + 7)⟩

/-- "copy message" -/
def store (q : Mq) (i : Nat) (x : Msg) : Mq :=
  (((((((q.set (8 * i) x.evt).set (8 * i + 1) x.arg0).set (8 * i + 2) x.arg1).set (8 * i + 3)
    x.arg2).set (8 * i + 4) x.arg3).set (8 * i + 5) x.arg4).set (8 * i + 6) x.arg5).set (8 * i + 7)
    x.serial

/-- "check if message queue is full" -/
def Full (q : Mq) : Prop :=
  q.word 0 + 1 = q.word 1 ∨ q.word 0 + 1 = q.word 2 ∧ q.word 1 = 1

instance (q : Mq) : Decidable q.Full := by
  unfold Full
  infer_instance

/-- a word of the header is incremented, and `mq_size` becomes 1 -/
def step (q : Mq) (a : Nat) : Mq :=
  let q := q.set a (q.word a + 1)
  if q.word a = q.word 2 then q.set a 1 else q

/-- `ksend(mq,...)` with the message `x` -/
def ksend (q : Mq) (x : Msg) : Mq × Bool :=
  -- `mqhdr->mq_end++`
  let q := if q.Full then q.step 1 else q
  let q := q.store (q.word 0) x
  -- `mqhdr->mq_start++`
  (q.step 0, true)

/-- `SYS_recv`: the slot of the message; without a message the task is blocked -/
def recv (q : Mq) : Option (Mq × Nat) :=
  if q.word 1 = q.word 0 then none else some (q.step 1, q.word 1)

/-- the header, as `task_new` sets it up -/
def taskNew (q : Mq) (nrmqmax : Nat) : Mq :=
  let q := (q.set 0 1).set 1 1
  let q := q.set 2 (nrmqmax * 4096 / 64)
  let q := ((q.set 4 (nrmqmax + 1)).set 5 (nrmqmax + 1)).set 7 (nrmqmax + 1)
  q.set 6 (2097152 / 4096 / 2)

/-- the fields of the header that the scheduler works with -/
def hdr (q : Mq) : Msghdr := ⟨q.word 0, q.word 1, q.word 2, q.word 4, q.word 6⟩

/-- the messages between `mq_end` and `mq_start` -/
def pending (q : Mq) : List Msg :=
  (List.range (slotDist (q.word 2) (q.word 1) (q.word 0))).map
    (fun j => q.msg (slot (q.word 2) (q.word 1 - 1 + j)))

/-- `k` calls of `SYS_recv` -/
def drain : Nat → Mq → List Msg
  | 0, _ => []
  | k+1, q =>
    match q.recv with
    | none => []
    | some (q', i) => q.msg i :: drain k q'

end Mq

section
variable {q q' : Mq} {x : Msg} {i j n t w a : Nat} {l : List Msg}

/-! ## one call -/

namespace Mq

theorem set_word (q : Mq) (a v w : Nat) : (q.set a v).word w = if w = a then v else q.word w :=
  update_apply ..

theorem store_word (q : Mq) (i : Nat) (x : Msg) (w : Nat) (hw : w < 8 * i ∨ 8 * i + 8 ≤ w) :
    (q.store i x).word w = q.word w := by
  unfold store
  simp only [set_word]
  rw [if_neg (by omega), if_neg (by omega), if_neg (by omega), if_neg (by omega), if_neg (by omega),
    if_neg (by omega), if_neg (by omega), if_neg (by omega)]

theorem store_msg (q : Mq) (i : Nat) (x : Msg) : (q.store i x).msg i = x := by
  simp [store, msg, set_word]

theorem store_msg_ne (q : Mq) (x : Msg) (h : j ≠ i) : (q.store i x).msg j = q.msg j := by
  unfold msg
  rw [store_word, store_word, store_word, store_word, store_word, store_word, store_word, store_word]
  all_goals omega

theorem step_word (ha : a < 2) : (q.step a).word w =
    if w = a then nextSlot (q.word 2) (q.word a) else q.word w := by
  unfold step nextSlot
  dsimp only
  rw [set_word, set_word, if_pos rfl, if_neg (show ¬2 = a by omega)]
  by_cases hn : q.word a + 1 = q.word 2
  · rw [if_pos hn, if_pos hn, set_word, set_word]
    by_cases hw : w = a
    · rw [if_pos hw, if_pos hw]
    · rw [if_neg hw, if_neg hw, if_neg hw]
  · rw [if_neg hn, if_neg hn, set_word]

theorem step_msg (ha : a < 2) (hi : 1 ≤ i) : (q.step a).msg i = q.msg i := by
  unfold msg
  simp only [step_word ha]
  rw [if_neg (by omega), if_neg (by omega), if_neg (by omega), if_neg (by omega), if_neg (by omega),
    if_neg (by omega), if_neg (by omega), if_neg (by omega)]

theorem ksend_word (h0 : 1 ≤ q.word 0) (hw : w < 8) : (q.ksend x).1.word w =
    if w = 0 then nextSlot (q.word 2) (q.word 0)
    else if w = 1 ∧ q.Full then nextSlot (q.word 2) (q.word 1) else q.word w := by
  obtain ⟨u, hu⟩ : ∃ u, u = if q.Full then q.step 1 else q := ⟨_, rfl⟩
  have huw : ∀ v, u.word v = if v = 1 ∧ q.Full then nextSlot (q.word 2) (q.word 1) else q.word v := by
    intro v
    rw [hu]
    by_cases hf : q.Full
    · rw [if_pos hf, step_word (by decide)]
      simp only [hf, and_true]
    · rw [if_neg hf, if_neg (fun e => hf e.2)]
  have hu0 : u.word 0 = q.word 0 := by rw [huw, if_neg (fun e => absurd e.1 (by decide))]
  have hu2 : u.word 2 = q.word 2 := by rw [huw, if_neg (fun e => absurd e.1 (by decide))]
  have hs : ∀ v < 8, (u.store (u.word 0) x).word v = u.word v := by
    intro v hv
    exact store_word _ _ _ _ (Or.inl (by omega))
  have he : (q.ksend x).1 = (u.store (u.word 0) x).step 0 := by
    rw [hu]
    rfl
  rw [he, step_word (by decide), hs 0 (by decide), hs 2 (by decide), hs w hw, hu0, hu2, huw]

theorem ksend_msg (hi : 1 ≤ i) :
    (q.ksend x).1.msg i = if i = q.word 0 then x else q.msg i := by
  obtain ⟨u, hu⟩ : ∃ u, u = if q.Full then q.step 1 else q := ⟨_, rfl⟩
  have hum : ∀ j, 1 ≤ j → u.msg j = q.msg j := by
    intro j hj
    rw [hu]
    split_ifs
    · exact step_msg (by decide) hj
    · rfl
  have hu0 : u.word 0 = q.word 0 := by
    rw [hu]
    split_ifs
    · rw [step_word (by decide), if_neg (by decide)]
    · rfl
  have he : (q.ksend x).1 = (u.store (u.word 0) x).step 0 := by
    rw [hu]
    rfl
  rw [he, step_msg (by decide) hi, hu0]
  split_ifs with hiw
  · rw [hiw, store_msg]
  · rw [store_msg_ne _ _ hiw, hum i hi]

end Mq

/-! ## runs -/

/-- a queue, what has been sent and received, and the slots written since they were received -/
structure MqRun where
  q : Mq
  sent : List Msg
  got : List Msg
  fresh : Nat → Bool

inductive MqOp where
  | send (x : Msg)
  | recv

inductive MqStep : MqRun → MqOp → MqRun → Prop
  | send (r : MqRun) (x : Msg) : MqStep r (.send x) { r with
      q := (r.q.ksend x).1
      sent := if (r.q.ksend x).2 = true then r.sent ++ [x] else r.sent
      fresh := update r.fresh (r.q.word 0) true }
  | recv {r : MqRun} {q : Mq} {i : Nat} (h : r.q.recv = some (q, i)) :
      MqStep r .recv ⟨q, r.sent, r.got ++ [r.q.msg i], update r.fresh i false⟩
  | empty {r : MqRun} (h : r.q.recv = none) : MqStep r .recv r

structure MqRun.Start (n : Nat) (r : MqRun) : Prop where
  start : r.q.word 0 = 1
  fin : r.q.word 1 = 1
  size : r.q.word 2 = n
  sent : r.sent = []
  got : r.got = []
  fresh : ∀ i, r.fresh i = false

/-- the messages with the numbers `idx` have been received, in the order in which they were sent -/
structure Received (sent got : List Msg) (idx : List Nat) : Prop where
  sorted : idx.Pairwise (· < ·)
  got : List.Forall₂ (fun i x => sent[i]? = some x) idx got

/-- the number after the last one -/
def after (idx : List Nat) : Nat := (idx.getLast?.map (· + 1)).getD 0

/-- `t` messages have left the queue, those with the numbers `idx` were received -/
structure MqInv (n : Nat) (q0 : Mq) (t : Nat) (idx : List Nat) (r : MqRun) : Prop where
  ring : Ring n r.q.msg (r.q.word 0) (r.q.word 1) r.sent t
  size : r.q.word 2 = n
  header : ∀ w, 2 ≤ w → w < 8 → r.q.word w = q0.word w
  received : Received r.sent r.got idx
  old : ∀ i ∈ idx, i < t
  left : t = max (after idx) (r.sent.length - (n - 2))
  fresh : ∀ i, t ≤ i → i < r.sent.length → r.fresh (slot n i) = true

theorem Received.append {sent got : List Msg} {idx : List Nat} (h : Received sent got idx) (x : Msg) :
    Received (sent ++ [x]) got idx := by
  refine ⟨h.sorted, h.got.imp (fun {i y} hy => ?_)⟩
  rw [List.getElem?_append_left (List.getElem?_eq_some_iff.mp hy).1]
  exact hy

theorem after_append (idx : List Nat) (t : Nat) : after (idx ++ [t]) = t + 1 := by
  simp [after]

theorem Received.snoc {sent got : List Msg} {idx : List Nat} (h : Received sent got idx)
    (hi : ∀ i ∈ idx, i < t) (hx : sent[t]? = some x) : Received sent (got ++ [x]) (idx ++ [t]) := by
  refine ⟨List.pairwise_append.mpr ⟨h.sorted, List.pairwise_singleton .., fun i hi' j hj => ?_⟩,
    List.rel_append h.got (.cons hx .nil)⟩
  rw [List.mem_singleton.mp hj]
  exact hi i hi'

namespace MqInv
variable {r : MqRun} {q0 : Mq} {idx : List Nat}

theorem full_iff (h : MqInv n q0 t idx r) : r.q.Full ↔ r.sent.length = t + (n - 2) := by
  have h1 := slot_lt h.ring.size t
  have h2 := slot_pos n t
  rw [← h.ring.fin] at h1 h2
  rw [← h.ring.full_iff]
  unfold Mq.Full nextSlot
  rw [h.size]
  split_ifs with hn
  · omega
  · omega

theorem send (h : MqInv n q0 t idx r) (x : Msg) :
    MqInv n q0 (if r.q.Full then t + 1 else t) idx { r with
      q := (r.q.ksend x).1
      sent := if (r.q.ksend x).2 = true then r.sent ++ [x] else r.sent
      fresh := update r.fresh (r.q.word 0) true } := by
  have hn := h.ring.size
  have h0 : 1 ≤ r.q.word 0 := by
    rw [h.ring.start]
    exact slot_pos n _
  have hle := h.ring.le
  have hcap := h.ring.cap
  have hleft := h.left
  -- the oldest message leaves a full queue
  obtain ⟨t', ht', a, hring, ht, ha, hlt, hleft'⟩ : ∃ t', t' = (if r.q.Full then t + 1 else t) ∧
      ∃ a, Ring n r.q.msg (r.q.word 0) a r.sent t' ∧ t ≤ t' ∧
      a = (if r.q.Full then nextSlot (r.q.word 2) (r.q.word 1) else r.q.word 1) ∧
      r.sent.length < t' + (n - 2) ∧ t' = max (after idx) (r.sent.length + 1 - (n - 2)) := by
    by_cases hf : r.q.Full
    · have hlen := h.full_iff.mp hf
      refine ⟨t + 1, (if_pos hf).symm, _, h.ring.drop (by omega), by omega, ?_, by omega, by omega⟩
      rw [if_pos hf, h.size]
    · have hlen : r.sent.length ≠ t + (n - 2) := fun e => hf (h.full_iff.mpr e)
      exact ⟨t, (if_neg hf).symm, _, h.ring, le_rfl, (if_neg hf).symm, by omega, by omega⟩
  have hw : ∀ w, 2 ≤ w → w < 8 → (r.q.ksend x).1.word w = r.q.word w := by
    intro w h2 h8
    rw [Mq.ksend_word h0 h8, if_neg (by omega), if_neg (by omega)]
  have hsent : (if (r.q.ksend x).2 = true then r.sent ++ [x] else r.sent) = r.sent ++ [x] := if_pos rfl
  rw [← ht']
  refine ⟨?_, ?_, fun w h2 h8 => ?_, ?_, fun i hi => ?_, ?_, fun i hi hi' => ?_⟩
  · show Ring n (r.q.ksend x).1.msg ((r.q.ksend x).1.word 0) ((r.q.ksend x).1.word 1) _ t'
    have hw1 : (r.q.ksend x).1.word 1 = a := by
      rw [Mq.ksend_word h0 (by decide), if_neg (by decide), ha]
      simp only [true_and]
    rw [Mq.ksend_word h0 (by decide), if_pos rfl, hw1, h.size, hsent]
    refine hring.push hlt ?_ (fun j hj hne => ?_)
    · rw [Mq.ksend_msg h0, if_pos rfl]
    · rw [Mq.ksend_msg hj, if_neg hne]
  · exact (hw 2 le_rfl (by decide)).trans h.size
  · exact (hw w h2 h8).trans (h.header w h2 h8)
  · show Received (if (r.q.ksend x).2 = true then r.sent ++ [x] else r.sent) r.got idx
    rw [hsent]
    exact h.received.append x
  · exact (h.old i hi).trans_le ht
  · show t' = max (after idx) ((if (r.q.ksend x).2 = true then r.sent ++ [x] else r.sent).length - _)
    rw [hsent, List.length_append, List.length_singleton]
    exact hleft'
  · rw [hsent, List.length_append, List.length_singleton] at hi'
    show update r.fresh (r.q.word 0) true (slot n i) = true
    rw [update_apply]
    split_ifs with hs
    · rfl
    · refine h.fresh i (ht.trans hi) ?_
      have hne : i ≠ r.sent.length := by
        rintro rfl
        exact hs h.ring.start.symm
      omega

theorem recv (h : MqInv n q0 t idx r) (hr : r.q.recv = some (q, i)) :
    MqInv n q0 (t + 1) (idx ++ [t]) ⟨q, r.sent, r.got ++ [r.q.msg i], update r.fresh i false⟩ ∧
      r.fresh i = true ∧ t < r.sent.length := by
  have hn := h.ring.size
  have hle := h.ring.le
  have hcap := h.ring.cap
  unfold Mq.recv at hr
  split_ifs at hr with he
  obtain ⟨rfl, rfl⟩ := Prod.mk.inj (Option.some.inj hr)
  have hlt : t < r.sent.length := by
    have hne : r.sent.length ≠ t := fun e => he (h.ring.empty_iff.mpr e)
    omega
  have hleft := h.left
  refine ⟨⟨?_, ?_, fun w h2 h8 => ?_, ?_, fun i hi => ?_, ?_, fun i hi hi' => ?_⟩, ?_, hlt⟩
  · show Ring n (r.q.step 1).msg ((r.q.step 1).word 0) ((r.q.step 1).word 1) r.sent (t + 1)
    rw [Mq.step_word (by decide), Mq.step_word (by decide), if_neg (by decide), if_pos rfl, h.size]
    have hd := h.ring.drop hlt
    refine ⟨hd.size, hd.start, hd.fin, hd.le, hd.cap, fun i x hi hx => ?_⟩
    rw [Mq.step_msg (by decide) (slot_pos n i)]
    exact hd.holds i x hi hx
  · show (r.q.step 1).word 2 = n
    rw [Mq.step_word (by decide), if_neg (by decide), h.size]
  · show (r.q.step 1).word w = q0.word w
    rw [Mq.step_word (by decide), if_neg (by omega)]
    exact h.header w h2 h8
  · exact h.received.snoc h.old (h.ring.head hlt)
  · obtain hi | hi := List.mem_append.mp hi
    · exact (h.old i hi).trans (Nat.lt_succ_self t)
    · rw [List.mem_singleton.mp hi]
      exact Nat.lt_succ_self t
  · rw [after_append]
    show t + 1 = max (t + 1) (r.sent.length - (n - 2))
    omega
  · show update r.fresh (r.q.word 1) false (slot n i) = true
    have hne : slot n i ≠ r.q.word 1 := by
      rw [h.ring.fin]
      intro e
      have hi2 : i < r.sent.length := hi'
      have := slot_inj (show t ≤ i by omega) (by omega) e.symm
      omega
    rw [update_of_ne hne]
    exact h.fresh i (by omega) hi'
  · rw [h.ring.fin]
    exact h.fresh t le_rfl hlt

theorem start (h3 : 3 ≤ n) (h : r.Start n) : MqInv n r.q 0 [] r := by
  refine ⟨⟨h3, ?_, ?_, Nat.zero_le _, ?_, fun i x _ hx => ?_⟩, h.size, fun _ _ _ => rfl,
    ⟨List.Pairwise.nil, ?_⟩, fun i hi => ?_, ?_, fun i _ hi => ?_⟩
  · rw [h.start, h.sent]
    simp [slot]
  · rw [h.fin]
    simp [slot]
  · rw [h.sent]
    exact Nat.zero_le _
  · rw [h.sent] at hx
    cases hx
  · rw [h.got]
    exact .nil
  · cases hi
  · rw [h.sent]
    simp [after]
  · rw [h.sent] at hi
    cases hi

theorem step {o : MqOp} {r' : MqRun} (h : MqInv n q0 t idx r) (hs : MqStep r o r') :
    ∃ t' idx', MqInv n q0 t' idx' r' := by
  cases hs with
  | send x => exact ⟨_, _, h.send x⟩
  | recv hr => exact ⟨_, _, (h.recv hr).1⟩
  | empty => exact ⟨t, idx, h⟩

theorem pending_eq (h : MqInv n q0 t idx r) : r.q.pending = r.sent.drop t := by
  unfold Mq.pending
  rw [h.size]
  exact h.ring.contents

end MqInv

def unreceived (sent : List Msg) (idx : List Nat) : List Msg :=
  (sent.zipIdx.filter (fun p => decide (p.2 ∉ idx))).map Prod.fst

theorem lt_after {idx : List Nat} (h : idx.Pairwise (· < ·)) : ∀ i ∈ idx, i < after idx := by
  intro i hi
  obtain rfl | ⟨l, m, rfl⟩ := List.eq_nil_or_concat' idx
  · cases hi
  · rw [after_append]
    obtain hi | hi := List.mem_append.mp hi
    · exact ((List.pairwise_append.mp h).2.2 i hi m (by simp)).trans (Nat.lt_succ_self m)
    · rw [List.mem_singleton.mp hi]
      exact Nat.lt_succ_self m

/-- nothing that was sent after the last message received has been received -/
theorem unreceived_eq {sent : List Msg} {idx : List Nat} (h : idx.Pairwise (· < ·))
    (hle : after idx ≤ sent.length) : ∃ lost, unreceived sent idx = lost ++ sent.drop (after idx) := by
  refine ⟨((sent.take (after idx)).zipIdx.filter (fun p => decide (p.2 ∉ idx))).map Prod.fst, ?_⟩
  have hd : ((sent.drop (after idx)).zipIdx (after idx)).filter (fun p => decide (p.2 ∉ idx)) =
      (sent.drop (after idx)).zipIdx (after idx) := by
    refine List.filter_eq_self.mpr (fun p hp => decide_eq_true (fun hm => ?_))
    have h1 := List.le_snd_of_mem_zipIdx hp
    have h2 := lt_after h p.2 hm
    omega
  unfold unreceived
  conv_lhs => rw [← List.take_append_drop (after idx) sent]
  rw [List.zipIdx_append, List.filter_append, List.map_append, List.length_take, Nat.zero_add,
    min_eq_left hle, hd, List.zipIdx_map_fst]

/-- **The message queue is a ring.**  In every run the indices are those of slots, the rest of the
header is as it was, a slot is received only after it was written again, messages are received in
the order in which they were sent, none twice, and the queue has the most recent ones of those that
were not received: all that were sent after the last one received, or `n - 2` of them. -/
theorem mq_ring {r0 r : MqRun} (h3 : 3 ≤ n) (h0 : r0.Start n)
    (h : Reach MqStep (fun _ _ => True) r0 r) :
    (1 ≤ r.q.word 0 ∧ r.q.word 0 ≤ n - 1) ∧ (1 ≤ r.q.word 1 ∧ r.q.word 1 ≤ n - 1) ∧
    (∀ w, 2 ≤ w → w < 8 → r.q.word w = r0.q.word w) ∧
    (∀ q i, r.q.recv = some (q, i) → r.fresh i = true) ∧
    ∃ idx, Received r.sent r.got idx ∧ r.q.pending =
      (unreceived r.sent idx).rtake (min (n - 2) (r.sent.length - after idx)) := by
  have hinv : ∃ t idx, MqInv n r0.q t idx r := by
    refine h.keeps (I := fun r => ∃ t idx, MqInv n r0.q t idx r) ⟨0, [], .start h3 h0⟩ ?_
    rintro u o u' ⟨t, idx, hi⟩ - hs
    exact hi.step hs
  obtain ⟨t, idx, hi⟩ := hinv
  have hs : ∀ i, 1 ≤ slot n i ∧ slot n i ≤ n - 1 :=
    fun i => ⟨slot_pos n i, Nat.le_sub_one_of_lt (slot_lt h3 i)⟩
  refine ⟨?_, ?_, hi.header, fun q i hr => (hi.recv hr).2.1, idx, hi.received, ?_⟩
  · rw [hi.ring.start]
    exact hs _
  · rw [hi.ring.fin]
    exact hs _
  · have hleft := hi.left
    have hle := hi.ring.le
    obtain ⟨lost, hl⟩ := unreceived_eq hi.received.sorted (show after idx ≤ r.sent.length by omega)
    have hk : (lost ++ r.sent.drop (after idx)).length -
        min (n - 2) (r.sent.length - after idx) = lost.length + (t - after idx) := by
      rw [List.length_append, List.length_drop]
      omega
    have hnil : lost.drop (lost.length + (t - after idx)) = [] :=
      List.drop_eq_nil_of_le (Nat.le_add_right ..)
    rw [hi.pending_eq, hl, List.rtake, hk, List.drop_append, hnil, List.nil_append,
      Nat.add_sub_cancel_left, List.drop_drop]
    congr 1
    omega

/-! ## no message is lost -/

/-- messages are sent when the queue is not full -/
def MqSafe (r : MqRun) : MqOp → Prop
  | .send _ => ¬r.q.Full
  | .recv => True

theorem Received.eq_take {sent got : List Msg} (h : Received sent got (List.range t)) :
    got = sent.take t := by
  refine List.ext_getElem? (fun i => ?_)
  have hlen := h.got.length_eq
  rw [List.length_range] at hlen
  rw [List.getElem?_take]
  split_ifs with hi
  · have hg : i < got.length := by omega
    have hr : i < (List.range t).length := by rw [List.length_range]; exact hi
    have := List.Forall₂.get h.got hr hg
    simp only [List.get_eq_getElem, List.getElem_range] at this
    rw [this, List.getElem?_eq_getElem hg]
  · exact List.getElem?_eq_none (by omega)

theorem Mq.drain_eq {k : Nat} (h : Ring n q.msg (q.word 0) (q.word 1) l t) (hn : q.word 2 = n)
    (hk : l.length - t ≤ k) : q.drain k = l.drop t := by
  induction k generalizing q t with
  | zero => rw [List.drop_eq_nil_of_le (by omega)]; rfl
  | succ k ih =>
    unfold drain recv
    by_cases he : q.word 1 = q.word 0
    · rw [if_pos he, List.drop_eq_nil_of_le (h.empty_iff.mp he).le]
    · rw [if_neg he]
      have hne : l.length ≠ t := fun e => he (h.empty_iff.mpr e)
      have hle := h.le
      have hlt : t < l.length := by omega
      have hd := h.drop hlt
      have hr : Ring n (q.step 1).msg ((q.step 1).word 0) ((q.step 1).word 1) l (t + 1) := by
        rw [step_word (by decide), step_word (by decide), if_neg (by decide), if_pos rfl, hn]
        refine ⟨hd.size, hd.start, hd.fin, hd.le, hd.cap, fun i x hi hx => ?_⟩
        rw [step_msg (by decide) (slot_pos n i)]
        exact hd.holds i x hi hx
      have hn' : (q.step 1).word 2 = n := by rw [step_word (by decide), if_neg (by decide), hn]
      have hx := h.head hlt
      rw [List.getElem?_eq_getElem hlt] at hx
      dsimp only
      rw [ih hr hn' (by omega), List.drop_eq_getElem_cons hlt, Option.some.inj hx]

/-- **Every message is received once**, in the order of sending, when enough receives are made: in
every run in which no message is sent to a full queue. -/
theorem mq_lossless {r0 r : MqRun} (h3 : 3 ≤ n) (h0 : r0.Start n) (h : Reach MqStep MqSafe r0 r)
    {k : Nat} (hk : r.q.pending.length ≤ k) : r.got ++ r.q.drain k = r.sent := by
  have hinv : ∃ t, MqInv n r0.q t (List.range t) r := by
    refine h.keeps (I := fun r => ∃ t, MqInv n r0.q t (List.range t) r) ⟨0, .start h3 h0⟩ ?_
    rintro u o u' ⟨t, hi⟩ hc hs
    cases hs with
    | send x =>
      have hs := hi.send x
      rw [if_neg hc] at hs
      exact ⟨t, hs⟩
    | recv hr =>
      refine ⟨t + 1, ?_⟩
      rw [List.range_succ]
      exact (hi.recv hr).1
    | empty => exact ⟨t, hi⟩
  obtain ⟨t, hi⟩ := hinv
  rw [hi.pending_eq, List.length_drop] at hk
  rw [Mq.drain_eq hi.ring hi.size hk, hi.received.eq_take, List.take_append_drop]

/-! ## a new task -/

theorem Mq.taskNew_start (q : Mq) (nrmqmax : Nat) :
    (⟨q.taskNew nrmqmax, [], [], fun _ => false⟩ : MqRun).Start (nrmqmax * 64) := by
  have hsize : nrmqmax * 4096 / 64 = nrmqmax * 64 := by omega
  refine ⟨?_, ?_, ?_, rfl, rfl, fun _ => rfl⟩
  · simp [taskNew, set_word]
  · simp [taskNew, set_word]
  · simp [taskNew, set_word, hsize]

end

/-- the queue of a task after `task_new`, with one page -/
def demoRun : MqRun := ⟨Mq.taskNew ⟨fun _ => 0⟩ 1, [], [], fun _ => false⟩

def demoMsg (k : Nat) : Msg := ⟨k, 0, 0, 0, 0, 0, 0, k⟩

theorem mq_ring_demo : ∃ r0 r : MqRun, r0.Start 64 ∧ Reach MqStep (fun _ _ => True) r0 r ∧
    r.sent = [demoMsg 1, demoMsg 2, demoMsg 3] ∧ r.got = [demoMsg 1] ∧
    (1 ≤ r.q.word 0 ∧ r.q.word 0 ≤ 63) ∧ ∃ idx, Received r.sent r.got idx ∧ r.q.pending =
      (unreceived r.sent idx).rtake (min 62 (r.sent.length - after idx)) := by
  have h0 : demoRun.Start 64 := Mq.taskNew_start _ 1
  have r0 : Reach MqStep (fun _ _ => True) demoRun demoRun := Reach.refl
  have r1 := r0.tail trivial (.send _ (demoMsg 1))
  have r2 := r1.tail trivial (.send _ (demoMsg 2))
  have r3 := r2.tail trivial (.send _ (demoMsg 3))
  have r4 := r3.tail trivial (.recv (q := _) (i := 1) rfl)
  obtain ⟨h1, -, -, -, h2⟩ := mq_ring (by decide) h0 r4
  exact ⟨_, _, h0, r4, rfl, rfl, h1, h2⟩

theorem mq_lossless_demo : ∃ r0 r : MqRun, r0.Start 64 ∧ Reach MqStep MqSafe r0 r ∧
    r.sent = [demoMsg 1, demoMsg 2] ∧ r.got ++ r.q.drain 1 = r.sent := by
  have h0 : demoRun.Start 64 := Mq.taskNew_start _ 1
  have r0 : Reach MqStep MqSafe demoRun demoRun := Reach.refl
  have c1 : MqSafe demoRun (.send (demoMsg 1)) := show ¬demoRun.q.Full by decide
  have r1 := r0.tail c1 (.send _ (demoMsg 1))
  have r2 := r1.tail (show MqSafe _ .recv from trivial) (.recv (q := _) (i := 1) rfl)
  have c3 : ¬((demoRun.q.ksend (demoMsg 1)).1.step 1).Full := by decide
  have r3 := r2.tail (show MqSafe _ (.send (demoMsg 2)) from c3) (.send _ (demoMsg 2))
  exact ⟨_, _, h0, r3, rfl, mq_lossless (by decide) h0 r3 (by decide)⟩

theorem Mq.drain_none {q : Mq} (h : q.recv = none) (k : Nat) : q.drain k = [] := by
  cases k with
  | zero => rfl
  | succ k =>
    unfold drain
    rw [h]

/-- a queue of three slots -/
def tinyMq : Mq := ⟨fun w => if w = 2 then 3 else 1⟩

/-- it keeps one message: a second one takes its place, and `ksend` returns true -/
theorem full_loses : ∃ r0 r1 r2 : MqRun, r0.Start 3 ∧ MqStep r0 (.send (demoMsg 1)) r1 ∧
    MqStep r1 (.send (demoMsg 2)) r2 ∧ r1.q.Full ∧ (r1.q.ksend (demoMsg 2)).2 = true ∧
    r2.q.hdr ≠ r1.q.hdr ∧ r2.sent = [demoMsg 1, demoMsg 2] ∧ ∀ k, demoMsg 1 ∉ r2.q.drain k := by
  let r0 : MqRun := ⟨tinyMq, [], [], fun _ => false⟩
  have h0 : r0.Start 3 := ⟨rfl, rfl, rfl, rfl, rfl, fun _ => rfl⟩
  obtain ⟨r1, s1, h1, e1⟩ : ∃ r1, MqStep r0 (.send (demoMsg 1)) r1 ∧
      r1.q = (tinyMq.ksend (demoMsg 1)).1 ∧ r1.sent = [demoMsg 1] := ⟨_, .send _ _, rfl, rfl⟩
  obtain ⟨r2, s2, h2, e2⟩ : ∃ r2, MqStep r1 (.send (demoMsg 2)) r2 ∧
      r2.q = (r1.q.ksend (demoMsg 2)).1 ∧ r2.sent = r1.sent ++ [demoMsg 2] :=
    ⟨_, .send _ _, rfl, rfl⟩
  have hend : r2.q.word 1 ≠ r1.q.word 1 := by
    rw [h2, h1]
    decide +kernel
  refine ⟨r0, r1, r2, h0, s1, s2, ?_, rfl, fun e => hend (congrArg Msghdr.mqEnd e), ?_, fun k => ?_⟩
  · rw [h1]
    decide +kernel
  · rw [e2, e1]
    rfl
  · rw [h2, h1]
    cases k with
    | zero => exact List.not_mem_nil
    | succ k =>
      obtain ⟨q, hq⟩ : ∃ q, q = ((tinyMq.ksend (demoMsg 1)).1.ksend (demoMsg 2)).1 := ⟨_, rfl⟩
      rw [← hq]
      have hr : q.recv = some (q.step 1, q.word 1) := by
        unfold Mq.recv
        rw [if_neg (by rw [hq]; decide +kernel)]
      have hm : q.msg (q.word 1) = demoMsg 2 := by
        rw [hq]
        decide +kernel
      have he : (q.step 1).recv = none := by
        unfold Mq.recv
        rw [if_pos (by rw [hq]; decide +kernel)]
      unfold Mq.drain
      rw [hr]
      dsimp only
      rw [hm, Mq.drain_none he]
      decide

end OsZ
