import OsZ.Base.Crc
import OsZ.Fsz.Mkfs

/-!
# Filling a directory (`link_inode` in `tools/mkfs.c`)

A directory has its header and entries in its own sector, behind the inode.  The scan for a free entry stops
when all entries are taken, and then the next one is written: it is in the next sector.

* `DirAt`         a directory holds a list of entries: count, size, checksums and the bytes of each entry;
* `LinkLaw`       every one of some calls adds its name, or does not, and touches only the two sectors;
* `linkAt_holds`  a call with room for the name;
* `link_law_iff`  the law holds if and only if there is room for all names.
-/

namespace OsZ

/-- `secsize` is an `unsigned int`, and an inode and some entries have room in a sector -/
structure MkfsOk (e : MkfsEnv) : Prop where
  least : 2048 ≤ e.secsize
  lt : e.secsize < 2^32
  crc : e.crc = crc32Calc

/-! ## entries -/

/-- `n` entries at the address `o` -/
def records (f : Nat → UInt8) (o n : Nat) : List (List UInt8) := (List.range n).map fun j => bytesAt f (o + 128 * j) 128

def entryLen (r : List UInt8) : Nat := (r.getD 16 0).toNat

def entryOf (r : List UInt8) : Nat × List UInt8 := (leBytes (dataOf r) 0 8, (r.drop 17).take (entryLen r))

/-- the entry is used, and its name is closed by zeros or fills the entry -/
structure GoodEntry (r : List UInt8) : Prop where
  size : r.length = 128
  used : (entryOf r).1 ≠ 0
  short : entryLen r ≤ 111
  chars : 0 ∉ (entryOf r).2
  closed : ∀ i < 111, entryLen r ≤ i → r.getD (17 + i) 0 = 0

/-- the directory in sector `par` holds the entries `L` -/
structure DirAt (e : MkfsEnv) (f : Nat → UInt8) (par : Nat) (L : List (Nat × List UInt8)) : Prop where
  room : L.length ≤ maxEntries e
  count : le64 f (par * e.secsize + 1024 + 16) = L.length
  size : le64 f (par * e.secsize + 464) = 128 * (L.length + 1)
  entries : ((records f (par * e.secsize + 1024 + 128) L.length).map entryOf).Perm L
  good : ∀ r ∈ records f (par * e.secsize + 1024 + 128) L.length, GoodEntry r
  free : ∀ i, 1024 + 128 * (L.length + 1) ≤ i → i < e.secsize → f (par * e.secsize + i) = 0
  entsum : leBytes f (par * e.secsize + 1024 + 4) 4 = e.crc f (par * e.secsize + 1024 + 128) (L.length * 128)
  insum : leBytes f (par * e.secsize + 4) 4 = e.crc f (par * e.secsize + 8) 1016

/-- the name of a directory gets a slash -/
def storedName (e : MkfsEnv) (f : Nat → UInt8) (inode : Nat) (name : List UInt8) : List UInt8 :=
  if bytesAt f (inode * e.secsize + 8) 4 = typeDir then name ++ [chSlash] else name

def SameOutside (e : MkfsEnv) (par inode : Nat) (f f' : Nat → UInt8) : Prop :=
  Within (fun i => i / e.secsize = par ∨ i / e.secsize = inode) f f'

/-- the calls `link_inode(inode,name,toinode)`, for a directory that holds `L` -/
def LinkLaw (e : MkfsEnv) (toinode par : Nat) (f : Nat → UInt8) (L : List (Nat × List UInt8)) :
    List (Nat × List UInt8) → Prop
  | [] => True
  | x :: links => ∃ f', linkInode e f x.1 (x.2.length + 1) x.2 toinode = some f' ∧ SameOutside e par x.1 f f' ∧
    (DirAt e f' par (L ++ [(x.1, storedName e f x.1 x.2)]) ∧
        LinkLaw e toinode par f' (L ++ [(x.1, storedName e f x.1 x.2)]) links ∨
      DirAt e f' par L ∧ LinkLaw e toinode par f' L links)

section
variable {e : MkfsEnv} {f g : Nat → UInt8} {o n i j par inode cnt : Nat} {path : List UInt8}
    {L : List (Nat × List UInt8)}

theorem bytesAt_getD (f : Nat → UInt8) (o : Nat) (h : i < n) : (bytesAt f o n).getD i 0 = f (o + i) := by
  unfold bytesAt
  rw [List.getD_eq_getElem?_getD, List.getElem?_map, List.getElem?_range h]
  rfl

theorem bytesAt_length (f : Nat → UInt8) (o n : Nat) : (bytesAt f o n).length = n := by simp [bytesAt]

theorem records_length (f : Nat → UInt8) (o n : Nat) : (records f o n).length = n := by simp [records]

theorem records_succ (f : Nat → UInt8) (o n : Nat) : records f o (n + 1) =
    records f o n ++ [bytesAt f (o + 128 * n) 128] := by
  unfold records
  rw [List.range_succ, List.map_append]
  rfl

theorem records_congr (h : ∀ i < 128 * n, f (o + i) = g (o + i)) : records f o n = records g o n := by
  refine List.map_congr_left fun j hj => bytesAt_congr fun i hi => ?_
  have hj' := List.mem_range.mp hj
  rw [Nat.add_assoc]
  exact h (128 * j + i) (by omega)

theorem records_sort (f : Nat → UInt8) (o n : Nat) :
    records (sortEntries f o n) o n = (records f o n).mergeSort direntLe := by
  have hlen : ((records f o n).mergeSort direntLe).length = n := by rw [List.length_mergeSort, records_length]
  refine List.ext_getElem (by rw [records_length, hlen]) fun j hj hj' => ?_
  have hjn : j < n := by rwa [records_length] at hj
  have hsize : (((records f o n).mergeSort direntLe)[j]).length = 128 := by
    have hmem := (List.mergeSort_perm (records f o n) direntLe).mem_iff.mp (List.getElem_mem hj')
    obtain ⟨k, _, hk⟩ := List.mem_map.mp hmem
    rw [← hk, bytesAt_length]
  refine List.ext_getElem (by rw [hsize]; simp [records, bytesAt_length]) fun i hi hi' => ?_
  have hi128 : i < 128 := hsize ▸ hi'
  have hdiv : (128 * j + i) / 128 = j := by omega
  have hmod : (128 * j + i) % 128 = i := by omega
  have hget : (records (sortEntries f o n) o n)[j][i] = sortEntries f o n (o + (128 * j + i)) := by
    simp [records, bytesAt, Nat.add_assoc]
  rw [hget]
  unfold sortEntries
  rw [store_at (by omega), hdiv, hmod]
  show (((records f o n).mergeSort direntLe).getD j []).getD i 0 = _
  rw [List.getD_eq_getElem _ _ hj', List.getD_eq_getElem _ _ hi']

/-! ## the scan -/

theorem entFid_from (f : Nat → UInt8) (hdr k : Nat) : entFid (Sector.from f hdr) k = le64 f (hdr + 128 + 128 * k) := by
  unfold entFid le64 Sector.from
  rw [leBytes_add]
  congr 1
  omega

theorem entryOf_fid (f : Nat → UInt8) (o : Nat) : (entryOf (bytesAt f o 128)).1 = le64 f o := by
  show leBytes _ 0 8 = leBytes f o 8
  rw [← Nat.zero_add o, Nat.add_comm, ← leBytes_add]
  refine leBytes_congr fun i hi => ?_
  rw [Nat.zero_add]
  exact bytesAt_getD f _ (by omega)

theorem linkScan_free {dir : Sector} {ns c : Nat} (m k : Nat) (hk : k ≤ c) (hc : c ≤ k + m)
    (hno : ∀ x, k ≤ x → x < c → entFid dir x ≠ 0 ∧ strnEq dir (entName x) (dataOf path) 0 (ns + 1) = false)
    (hfree : c = k + m ∨ entFid dir c = 0) : linkScan dir path ns m k = .free c := by
  induction m generalizing k with
  | zero => rw [linkScan, show k = c by omega]
  | succ m ih =>
    rw [linkScan]
    rcases Nat.eq_or_lt_of_le hk with rfl | hlt
    · rw [if_pos (hfree.resolve_left (by omega))]
    · have h := hno k le_rfl hlt
      rw [if_neg h.1, h.2, if_neg Bool.false_ne_true]
      exact ih (k + 1) hlt (by omega) (fun x hx => hno x (by omega)) (hfree.imp_left (by omega))

theorem entry_match {r : List UInt8} {dir : Sector} {q : Nat} (hr : r = bytesAt f o 128) (h : GoodEntry r)
    (hz : 0 ∉ path)
    (hshort : path.length ≤ 111) (hdir : ∀ i, dir (q + i) = f (o + 17 + i))
    (hm : strnEq dir q (dataOf path) 0 (path.length + 1) = true) : (entryOf r).2 = path := by
  have hne : ∀ i < path.length, dataOf path (0 + i) ≠ 0 := (textBuf_str hz).chars.ne_zero hz
  rw [strnEq_memEq fun i hi => hne i (by omega)] at hm
  have hchars := memEq_iff.mp hm
  have hbyte : ∀ i < 111, r.getD (17 + i) 0 = f (o + 17 + i) := by
    intro i hi
    rw [hr, bytesAt_getD f o (by omega), Nat.add_assoc]
  simp only [hdir, Nat.zero_add] at hchars hne
  have hlen : entryLen r = path.length := by
    rcases Nat.lt_trichotomy (entryLen r) path.length with hlt | heq | hgt
    · -- the name goes on where the entry has zeros
      refine absurd (h.closed _ (by omega) le_rfl) ?_
      rw [hbyte _ (by omega), hchars _ (by omega)]
      exact hne _ hlt
    · exact heq
    · -- the closing 0 is inside of the entry's name
      refine absurd ?_ h.chars
      have h0 : r.getD (17 + path.length) 0 = 0 := by
        have := h.short
        rw [hbyte _ (by omega), hchars _ (Nat.lt_succ_self _)]
        exact List.getD_eq_default _ _ le_rfl
      have hidx : 17 + path.length < r.length := by have := h.short; rw [h.size]; omega
      have hget : ((r.drop 17).take (entryLen r))[path.length]? = some 0 := by
        rw [List.getElem?_take_of_lt hgt, List.getElem?_drop, List.getElem?_eq_getElem hidx,
          ← List.getD_eq_getElem r 0 hidx, h0]
      exact List.mem_of_getElem? hget
  refine List.ext_getElem? fun i => ?_
  show ((r.drop 17).take (entryLen r))[i]? = path[i]?
  rw [hlen]
  by_cases hi : i < path.length
  · have hidx : 17 + i < r.length := by rw [h.size]; omega
    rw [List.getElem?_take_of_lt hi, List.getElem?_drop, List.getElem?_eq_getElem hidx, List.getElem?_eq_getElem hi,
      ← List.getD_eq_getElem r 0 hidx, hbyte i (by omega), hchars i (by omega)]
    exact congrArg some (List.getD_eq_getElem path 0 hi)
  · rw [List.getElem?_eq_none (by rw [List.length_take]; omega), List.getElem?_eq_none (by omega)]

theorem firstName_eq (h : chSlash ∉ path) : firstName path = path.length := by
  unfold firstName
  rw [List.takeWhile_eq_self_iff.mpr fun x hx => decide_eq_true (ne_of_mem_of_not_mem hx h)]

theorem linkInode_free {toinode : Nat} (h : DirAt e f par L) (hs : 2048 ≤ e.secsize) (hpar : dirOf f toinode = par)
    (hz : 0 ∉ path) (hslash : chSlash ∉ path) (hshort : path.length ≤ 111) (hnew : ∀ x ∈ L, x.2 ≠ path) :
    linkInode e f inode (path.length + 1) path toinode = some (linkAt e f inode path par L.length) := by
  have hmax : 1024 + 128 * (maxEntries e + 1) ≤ e.secsize := by unfold maxEntries; omega
  have hscan : linkScan (Sector.from f (par * e.secsize + 1024)) path (firstName path) (maxEntries e) 0 =
    .free L.length := by
    refine linkScan_free _ 0 (Nat.zero_le _) (by have := h.room; omega) (fun x _ hx => ?_) ?_
    · have hmem : bytesAt f (par * e.secsize + 1024 + 128 + 128 * x) 128 ∈
          records f (par * e.secsize + 1024 + 128) L.length := List.mem_map.mpr ⟨x, List.mem_range.mpr hx, rfl⟩
      refine ⟨?_, ?_⟩
      · rw [entFid_from, ← entryOf_fid]
        exact (h.good _ hmem).used
      · rw [firstName_eq hslash]
        refine Bool.eq_false_iff.mpr fun hm => ?_
        have hin := h.entries.mem_iff.mp (List.mem_map_of_mem hmem)
        refine hnew _ hin (entry_match rfl (h.good _ hmem) hz hshort (fun i => ?_) hm)
        unfold Sector.from entName
        congr 1
        ring
    · rcases Nat.lt_or_ge L.length (maxEntries e) with hlt | hge
      · right
        rw [entFid_from]
        refine leBytes_zero fun i hi => ?_
        rw [show par * e.secsize + 1024 + 128 + 128 * L.length + i =
          par * e.secsize + (1024 + 128 * (L.length + 1) + i) by ring]
        exact h.free _ (by omega) (by omega)
      · left
        have := h.room
        omega
  unfold linkInode
  dsimp only
  rw [hpar, hscan]

/-! ## the entry -/

/-- the first writes of `linkAt` -/
def newEntry (e : MkfsEnv) (f : Nat → UInt8) (inode : Nat) (path : List UInt8) (par cnt : Nat) : Nat → UInt8 :=
  let ent := par * e.secsize + 1024 + 128 * (cnt + 1)
  let f := putLe f ent 8 inode
  let f := putList f (ent + 17) path
  let isdir := decide (bytesAt f (inode * e.secsize + 8) 4 = typeDir)
  let f := if isdir then putList f (ent + 17 + path.length % 256) [chSlash] else f
  putLe f (ent + 16) 1 (path.length + if isdir then 1 else 0)

/-- and the last ones -/
def linkSums (e : MkfsEnv) (f : Nat → UInt8) (inode par n : Nat) : Nat → UInt8 :=
  let dir := par * e.secsize
  let new := inode * e.secsize
  let f := putLe f (dir + 1024 + 4) 4 (e.crc f (dir + 1024 + 128) (n * 128))
  let f := putLe f (dir + 4) 4 (e.crc f (dir + 8) 1016)
  let f := putLe f (new + 104) 8 (le64 f (new + 104) + 1)
  putLe f (new + 4) 4 (e.crc f (new + 8) 1016)

/-- between them the header counts the entry, and the entries are sorted -/
def countEntry (e : MkfsEnv) (f : Nat → UInt8) (par n : Nat) : Nat → UInt8 :=
  let f := putLe (putLe f (par * e.secsize + 1024 + 16) 8 n) (par * e.secsize + 480) 8 e.ts
  putLe f (par * e.secsize + 464) 8 (le64 f (par * e.secsize + 464) + 128)

theorem linkAt_eq (e : MkfsEnv) (f : Nat → UInt8) (inode : Nat) (path : List UInt8) (par cnt : Nat) :
    linkAt e f inode path par cnt =
      let g := newEntry e f inode path par cnt
      let n := le64 g (par * e.secsize + 1024 + 16) + 1
      linkSums e (sortEntries (countEntry e g par n) (par * e.secsize + 1024 + 128) n) inode par n := rfl

theorem sectors_apart (ss a b : Nat) : a * ss = b * ss ∨ a * ss + ss ≤ b * ss ∨ b * ss + ss ≤ a * ss := by
  rcases Nat.lt_trichotomy a b with h | h | h
  · exact Or.inr (Or.inl ((Nat.succ_mul a ss).symm.le.trans (Nat.mul_le_mul_right ss h)))
  · exact Or.inl (congrArg (· * ss) h)
  · exact Or.inr (Or.inr ((Nat.succ_mul b ss).symm.le.trans (Nat.mul_le_mul_right ss h)))

theorem putList_append (f : Nat → UInt8) (o : Nat) (l m : List UInt8) :
    putList (putList f o l) (o + l.length) m = putList f o (l ++ m) := by
  funext i
  unfold putList store
  rw [List.length_append]
  by_cases hm : o + l.length ≤ i ∧ i < o + l.length + m.length
  · rw [if_pos hm, if_pos (by omega)]
    dsimp only
    rw [List.getD_append_right l m 0 (i - o) (by omega), Nat.sub_sub]
  · rw [if_neg hm]
    by_cases hl : o ≤ i ∧ i < o + l.length
    · rw [if_pos hl, if_pos (by omega)]
      dsimp only
      rw [List.getD_append l m 0 (i - o) (by omega)]
    · rw [if_neg hl, if_neg (by omega)]

theorem storedName_length (h : (storedName e f inode path).length ≤ 111) : path.length ≤ 111 := by
  unfold storedName at h
  split_ifs at h
  · rw [List.length_append] at h
    omega
  · exact h

theorem newEntry_count (e : MkfsEnv) (f : Nat → UInt8) (inode : Nat) (path : List UInt8) (par cnt : Nat) :
    le64 (newEntry e f inode path par cnt) (par * e.secsize + 1024 + 16) = le64 f (par * e.secsize + 1024 + 16) := by
  refine leBytes_congr fun i hi => ?_
  unfold newEntry putLe putList
  split_ifs
  · rw [store_out (by omega), store_out (by omega), store_out (by omega), store_out (by omega)]
  · rw [store_out (by omega), store_out (by omega), store_out (by omega)]

section
variable (hs : 2048 ≤ e.secsize) (hcnt : cnt < maxEntries e) (hfit : (storedName e f inode path).length ≤ 111)
include hs hcnt hfit

theorem newEntry_eq : newEntry e f inode path par cnt =
    putLe (putList (putLe f (par * e.secsize + 1024 + 128 * (cnt + 1)) 8 inode)
      (par * e.secsize + 1024 + 128 * (cnt + 1) + 17) (storedName e f inode path))
      (par * e.secsize + 1024 + 128 * (cnt + 1) + 16) 1 (storedName e f inode path).length := by
  have hmax : 1024 + 128 * (maxEntries e + 1) ≤ e.secsize := by unfold maxEntries; omega
  have hlen := storedName_length hfit
  have htype : bytesAt (putList (putLe f (par * e.secsize + 1024 + 128 * (cnt + 1)) 8 inode)
      (par * e.secsize + 1024 + 128 * (cnt + 1) + 17) path) (inode * e.secsize + 8) 4 =
      bytesAt f (inode * e.secsize + 8) 4 := by
    refine bytesAt_congr fun i hi => ?_
    have hsec := sectors_apart e.secsize par inode
    unfold putList putLe
    rw [store_out (by omega), store_out (by omega)]
  unfold newEntry storedName
  dsimp only
  rw [htype]
  by_cases hd : bytesAt f (inode * e.secsize + 8) 4 = typeDir
  · simp only [hd, decide_true, if_true]
    rw [Nat.mod_eq_of_lt (by omega), putList_append, List.length_append]
    rfl
  · simp only [hd, decide_false, Bool.false_eq_true, if_false]
    rfl

end

theorem entry_written {st : List UInt8} (hzero : ∀ i < 128, f (o + i) = 0) (h0 : inode ≠ 0) (hlt : inode < 2^64)
    (hst : st.length ≤ 111) (hz : 0 ∉ st)
    (hg : g = putLe (putList (putLe f o 8 inode) (o + 17) st) (o + 16) 1 st.length) :
    entryOf (bytesAt g o 128) = (inode, st) ∧ GoodEntry (bytesAt g o 128) := by
  have hname : ∀ i < 111, g (o + (17 + i)) = st.getD i 0 := by
    intro i hi
    rw [hg]
    unfold putLe putList
    rw [store_out (by omega)]
    by_cases his : i < st.length
    · rw [← Nat.add_assoc, store_at his]
    · rw [store_out (by omega), store_out (by omega), hzero _ (by omega), List.getD_eq_default _ _ (by omega)]
  have hlen : entryLen (bytesAt g o 128) = st.length := by
    unfold entryLen
    rw [bytesAt_getD g o (by decide), hg]
    show (store _ (o + 16) 1 (leByte st.length) (o + 16 + 0)).toNat = _
    rw [store_at (by decide), leByte, pow_zero, Nat.div_one, UInt8.toNat_ofNat']
    omega
  have hfid : le64 g o = inode := by
    rw [hg]
    unfold le64 putList
    rw [putLe, leBytes_store_out (by omega), leBytes_store_out (by omega)]
    exact le64_putLe hlt
  have hent : entryOf (bytesAt g o 128) = (inode, st) := by
    refine Prod.ext ((entryOf_fid g o).trans hfid) (List.ext_getElem? fun i => ?_)
    show (((bytesAt g o 128).drop 17).take (entryLen (bytesAt g o 128)))[i]? = st[i]?
    rw [hlen]
    by_cases hi : i < st.length
    · have hidx : 17 + i < (bytesAt g o 128).length := by rw [bytesAt_length]; omega
      rw [List.getElem?_take_of_lt hi, List.getElem?_drop, List.getElem?_eq_getElem hidx, List.getElem?_eq_getElem hi,
        ← List.getD_eq_getElem _ 0 hidx, bytesAt_getD g o (by omega), hname i (by omega), List.getD_eq_getElem _ _ hi]
    · rw [List.getElem?_eq_none (by rw [List.length_take]; omega), List.getElem?_eq_none (by omega)]
  refine ⟨hent, bytesAt_length g o 128, ?_, hlen ▸ hst, ?_, fun i hi hle => ?_⟩
  · rw [hent]
    exact h0
  · rw [hent]
    exact hz
  · rw [bytesAt_getD g o (by omega), hname i hi, List.getD_eq_default _ _ (hlen ▸ hle)]

theorem storedName_chars (hz : 0 ∉ path) : 0 ∉ storedName e f inode path := by
  unfold storedName
  split_ifs
  · simp only [List.mem_append, List.mem_singleton, not_or]
    exact ⟨hz, by decide⟩
  · exact hz

theorem linkSums_holds (he : MkfsOk e) (n : Nat) (hg : g = linkSums e f inode par n) :
    leBytes g (par * e.secsize + 1024 + 4) 4 = e.crc f (par * e.secsize + 1024 + 128) (n * 128) ∧
    leBytes g (par * e.secsize + 4) 4 = e.crc g (par * e.secsize + 8) 1016 ∧
    ∀ i, (i < par * e.secsize + 4 ∨ par * e.secsize + 8 ≤ i ∧ i < par * e.secsize + 1024 + 4 ∨
        par * e.secsize + 1024 + 8 ≤ i) →
      (i < inode * e.secsize + 4 ∨ inode * e.secsize + 8 ≤ i ∧ i < inode * e.secsize + 104 ∨
        inode * e.secsize + 112 ≤ i) → g i = f i := by
  have hss := he.least
  have hsec := sectors_apart e.secsize par inode
  have hmod : ∀ (f : Nat → UInt8) (o n : Nat), e.crc f o n % 256 ^ 4 = e.crc f o n := by
    intro f o n
    rw [he.crc]
    exact Nat.mod_eq_of_lt (crc32Calc_lt f o n)
  have hcongr : ∀ {f g : Nat → UInt8} {o n : Nat}, (∀ i < n, f (o + i) = g (o + i)) → e.crc f o n = e.crc g o n := by
    intro f g o n h
    rw [he.crc]
    exact crc32Calc_congr h
  unfold linkSums at hg
  dsimp only at hg
  generalize par * e.secsize = D at hsec hg ⊢
  generalize inode * e.secsize = W at hsec hg ⊢
  obtain ⟨f1, h1⟩ : ∃ f1, f1 = putLe f (D + 1024 + 4) 4 (e.crc f (D + 1024 + 128) (n * 128)) := ⟨_, rfl⟩
  obtain ⟨f2, h2⟩ : ∃ f2, f2 = putLe f1 (D + 4) 4 (e.crc f1 (D + 8) 1016) := ⟨_, rfl⟩
  obtain ⟨f3, h3⟩ : ∃ f3, f3 = putLe f2 (W + 104) 8 (le64 f2 (W + 104) + 1) := ⟨_, rfl⟩
  rw [← h1, ← h2, ← h3] at hg
  refine ⟨?_, ?_, fun i hi hi' => ?_⟩
  · rw [hg, putLe, leBytes_store_out (by omega), h3, putLe, leBytes_store_out (by omega), h2, putLe,
      leBytes_store_out (by omega), h1, leBytes_putLe, hmod]
  · rcases hsec with hsec | hsec
    · -- the directory itself is linked
      rw [hsec, hg, leBytes_putLe, hmod]
      exact hcongr fun i hi => (store_out (by omega)).symm
    · have hhead : ∀ i < 1016, f1 (D + 8 + i) = g (D + 8 + i) := by
        intro i hi
        rw [hg, putLe, store_out (by omega), h3, putLe, store_out (by omega), h2, putLe, store_out (by omega)]
      rw [← hcongr hhead, hg, putLe, leBytes_store_out (by omega), h3, putLe, leBytes_store_out (by omega), h2,
        leBytes_putLe, hmod]
  · rw [hg, putLe, store_out (by omega), h3, putLe, store_out (by omega), h2, putLe, store_out (by omega), h1, putLe,
      store_out (by omega)]

section
variable (he : MkfsOk e) (hcnt : L.length < maxEntries e) (hfit : (storedName e f inode path).length ≤ 111)
include he hcnt hfit

theorem countEntry_holds (h : DirAt e f par L) (hz : 0 ∉ path) (h0 : inode ≠ 0) (hlt : inode < 2^64)
    (hg : g = countEntry e (newEntry e f inode path par L.length) par (L.length + 1)) :
    le64 g (par * e.secsize + 1024 + 16) = L.length + 1 ∧ le64 g (par * e.secsize + 464) = 128 * (L.length + 2) ∧
    ((records g (par * e.secsize + 1024 + 128) (L.length + 1)).map entryOf).Perm
      (L ++ [(inode, storedName e f inode path)]) ∧
    (∀ r ∈ records g (par * e.secsize + 1024 + 128) (L.length + 1), GoodEntry r) ∧
    ∀ i, i < par * e.secsize + 464 ∨ par * e.secsize + 472 ≤ i ∧ i < par * e.secsize + 480 ∨
      par * e.secsize + 488 ≤ i ∧ i < par * e.secsize + 1024 + 16 ∨
      par * e.secsize + 1024 + 24 ≤ i ∧ i < par * e.secsize + 1024 + 128 * (L.length + 1) ∨
      par * e.secsize + 1024 + 128 * (L.length + 2) ≤ i → g i = f i := by
  have hss := he.least
  have hss' := he.lt
  have hmax : 1024 + 128 * (maxEntries e + 1) ≤ e.secsize := by unfold maxEntries; omega
  obtain ⟨D, hD⟩ : ∃ D, D = par * e.secsize := ⟨_, rfl⟩
  obtain ⟨st, hst⟩ : ∃ st, st = storedName e f inode path := ⟨_, rfl⟩
  have hnew : newEntry e f inode path par L.length = _ := newEntry_eq he.least hcnt hfit
  have hcount := h.count
  have hsize := h.size
  rw [← hD] at hcount hsize
  rw [← hst] at hfit
  obtain ⟨c, hc⟩ : ∃ c, c = newEntry e f inode path par L.length := ⟨_, rfl⟩
  have hcout : ∀ i, i < D + 1024 + 128 * (L.length + 1) ∨ D + 1024 + 128 * (L.length + 2) ≤ i → c i = f i := by
    intro i hi
    rw [hc, hnew, ← hst, ← hD]
    unfold putLe putList
    rw [store_out (by omega), store_out (by omega), store_out (by omega)]
  have hgout : ∀ i, i < D + 464 ∨ D + 472 ≤ i ∧ i < D + 480 ∨ D + 488 ≤ i ∧ i < D + 1024 + 16 ∨ D + 1024 + 24 ≤ i →
      g i = c i := by
    intro i hi
    rw [hg, ← hc]
    unfold countEntry putLe
    rw [← hD, store_out (by omega), store_out (by omega), store_out (by omega)]
  have hlast : bytesAt g (D + 1024 + 128 + 128 * L.length) 128 = bytesAt c (D + 1024 + 128 + 128 * L.length) 128 :=
    bytesAt_congr fun i hi => hgout _ (by omega)
  have hentry := entry_written (g := c) (o := D + 1024 + 128 + 128 * L.length) (f := f) (fun i hi => by
    rw [hD, show par * e.secsize + 1024 + 128 + 128 * L.length + i =
      par * e.secsize + (1024 + 128 * (L.length + 1) + i) by ring]
    exact h.free _ (by omega) (by omega)) h0 hlt hfit (hst ▸ storedName_chars hz) (by
    rw [hc, hnew, ← hst, ← hD, show D + 1024 + 128 * (L.length + 1) = D + 1024 + 128 + 128 * L.length by ring])
  have hrec : records g (D + 1024 + 128) (L.length + 1) =
      records f (D + 1024 + 128) L.length ++ [bytesAt c (D + 1024 + 128 + 128 * L.length) 128] := by
    rw [records_succ, hlast]
    refine congrArg (· ++ _) (records_congr fun i hi => ?_)
    rw [hgout _ (by omega), hcout _ (by omega)]
  rw [← hD, ← hst, hrec]
  refine ⟨?_, ?_, ?_, ?_, fun i hi => ?_⟩
  · rw [hg]
    unfold countEntry
    rw [← hD, le64_putLe_out (by omega), le64_putLe_out (by omega), le64_putLe (by omega)]
  · have hold : le64 (putLe (putLe c (D + 1024 + 16) 8 (L.length + 1)) (D + 480) 8 e.ts) (D + 464) =
        128 * (L.length + 1) := by
      rw [le64_putLe_out (by omega), le64_putLe_out (by omega), ← hsize]
      exact leBytes_congr fun i hi => hcout _ (by omega)
    rw [hg, ← hc]
    unfold countEntry
    dsimp only
    rw [← hD, hold, le64_putLe (by omega)]
    ring
  · rw [List.map_append, List.map_singleton, hentry.1]
    exact (hD ▸ h.entries).append_right _
  · intro r hr
    rcases List.mem_append.mp hr with hr | hr
    · exact h.good r (hD ▸ hr)
    · rw [List.mem_singleton.mp hr]
      exact hentry.2
  · rw [hgout _ (by omega), hcout _ (by omega)]

/-- **A call with room for the name.** -/
theorem linkAt_holds (h : DirAt e f par L) (hz : 0 ∉ path) (h0 : inode ≠ 0) (hlt : inode < 2^64) :
    DirAt e (linkAt e f inode path par L.length) par (L ++ [(inode, storedName e f inode path)]) ∧
    ∀ i, (∀ x, i = par * e.secsize + x → x < e.secsize → x < 4 ∨ 8 ≤ x ∧ x < 464 ∨ 472 ≤ x ∧ x < 480 ∨ 488 ≤ x ∧
      x < 1024) →
      (∀ x, i = inode * e.secsize + x → x < e.secsize → x < 4 ∨ 8 ≤ x ∧ x < 104 ∨ 112 ≤ x) →
      linkAt e f inode path par L.length i = f i := by
  obtain ⟨g, hg⟩ : ∃ g, g = countEntry e (newEntry e f inode path par L.length) par (L.length + 1) := ⟨_, rfl⟩
  obtain ⟨hgn, hgs, hge, hgg, hgout⟩ := countEntry_holds he hcnt hfit h hz h0 hlt hg
  have hss := he.least
  have hmax : 1024 + 128 * (maxEntries e + 1) ≤ e.secsize := by unfold maxEntries; omega
  have hsec := sectors_apart e.secsize par inode
  obtain ⟨s, hsort⟩ : ∃ s, s = sortEntries g (par * e.secsize + 1024 + 128) (L.length + 1) := ⟨_, rfl⟩
  have hcount : le64 (newEntry e f inode path par L.length) (par * e.secsize + 1024 + 16) = L.length := by
    rw [newEntry_count]
    exact h.count
  have hlink : linkAt e f inode path par L.length = linkSums e s inode par (L.length + 1) := by
    rw [linkAt_eq]
    dsimp only
    rw [hcount, ← hg, ← hsort]
  have hsout : ∀ i, i < par * e.secsize + 1024 + 128 ∨ par * e.secsize + 1024 + 128 + 128 * (L.length + 1) ≤ i → s i =
    g i := by
    intro i hi
    rw [hsort]
    unfold sortEntries
    exact store_out hi
  obtain ⟨t, ht⟩ : ∃ t, t = linkSums e s inode par (L.length + 1) := ⟨_, rfl⟩
  obtain ⟨hte, hti, htout⟩ := linkSums_holds he (L.length + 1) ht
  rw [hlink, ← ht]
  have hlen : (L ++ [(inode, storedName e f inode path)]).length = L.length + 1 := by simp
  have hrec : records t (par * e.secsize + 1024 + 128) (L.length + 1) =
      (records g (par * e.secsize + 1024 + 128) (L.length + 1)).mergeSort direntLe := by
    rw [← records_sort, ← hsort]
    exact records_congr fun i hi => htout _ (by omega) (by omega)
  refine ⟨⟨?_, ?_, ?_, ?_, ?_, fun i hi hi' => ?_, ?_, hti⟩, fun i hi hi' => ?_⟩
  · omega
  · rw [hlen, ← hgn]
    exact leBytes_congr fun i hi => by rw [htout _ (by omega) (by omega), hsout _ (by omega)]
  · rw [hlen, ← hgs]
    exact leBytes_congr fun i hi => by rw [htout _ (by omega) (by omega), hsout _ (by omega)]
  · rw [hlen, hrec]
    exact ((List.mergeSort_perm _ _).map entryOf).trans hge
  · rw [hlen, hrec]
    exact fun r hr => hgg r ((List.mergeSort_perm _ _).mem_iff.mp hr)
  · rw [hlen] at hi
    rw [htout _ (by omega) (by omega), hsout _ (by omega), hgout _ (by omega)]
    exact h.free i (by omega) hi'
  · rw [hlen, hte, he.crc]
    exact crc32Calc_congr fun i hi => (htout _ (by omega) (by omega)).symm
  · have hpar := hi (i - par * e.secsize)
    have hnew := hi' (i - inode * e.secsize)
    rw [htout i (by omega) (by omega), hsout i (by omega), hgout i (by omega)]

end

/-! ## all calls -/

/-- the calls go to the directory `par`, for inodes and names that there are, and no name twice -/
structure Linkable (e : MkfsEnv) (f : Nat → UInt8) (toinode par : Nat) (L links : List (Nat × List UInt8)) : Prop where
  par_ne : par ≠ 0
  dir : dirOf f toinode = par
  inodes : ∀ x ∈ links, x.1 ≠ 0 ∧ x.1 < 2^64
  names : ∀ x ∈ links, 0 ∉ x.2 ∧ chSlash ∉ x.2
  distinct : (links.map Prod.snd).Nodup
  fresh : ∀ x ∈ links, ∀ y ∈ L, y.2 ≠ x.2

/-- there is room for the entries, and every name fits into one -/
def LinkRoom (e : MkfsEnv) (f : Nat → UInt8) (L links : List (Nat × List UInt8)) : Prop :=
  L.length + links.length ≤ maxEntries e ∧ ∀ x ∈ links, (storedName e f x.1 x.2).length ≤ 111

theorem linkAt_count (he : MkfsOk e) : le64 (linkAt e f inode path par cnt) (par * e.secsize + 1024 + 16) =
    (le64 f (par * e.secsize + 1024 + 16) + 1) % 2^64 := by
  have hss := he.least
  have hsec := sectors_apart e.secsize par inode
  rw [linkAt_eq]
  dsimp only
  rw [newEntry_count]
  generalize newEntry e f inode path par cnt = g
  generalize le64 f (par * e.secsize + 1024 + 16) + 1 = m
  obtain ⟨t, ht⟩ : ∃ t, t = linkSums e (sortEntries (countEntry e g par m) (par * e.secsize + 1024 + 128) m) inode par
    m :=
    ⟨_, rfl⟩
  have hsums := (linkSums_holds he m ht).2.2
  have hout : le64 t (par * e.secsize + 1024 + 16) = le64 (countEntry e g par m) (par * e.secsize + 1024 + 16) := by
    refine leBytes_congr fun i hi => ?_
    rw [hsums _ (by omega) (by omega)]
    unfold sortEntries
    exact store_out (by omega)
  rw [← ht, hout]
  unfold countEntry
  rw [le64_putLe_out (by omega), le64_putLe_out (by omega), le64, leBytes_putLe]
  rfl

theorem sector_div {ss y : Nat} (a : Nat) (h : y < ss) : (a * ss + y) / ss = a := by
  rw [Nat.mul_comm, Nat.mul_add_div (by omega), Nat.div_eq_of_lt h, Nat.add_zero]

section
variable {toinode : Nat} {x : Nat × List UInt8} {links : List (Nat × List UInt8)}

theorem Linkable.step (hl : Linkable e f toinode par L (x :: links)) (he : MkfsOk e) (h : DirAt e f par L)
    (hcnt : L.length < maxEntries e) (hfit : (storedName e f x.1 x.2).length ≤ 111)
    (hg : g = linkAt e f x.1 x.2 par L.length) :
    linkInode e f x.1 (x.2.length + 1) x.2 toinode = some g ∧ SameOutside e par x.1 f g ∧
    DirAt e g par (L ++ [(x.1, storedName e f x.1 x.2)]) ∧
    Linkable e g toinode par (L ++ [(x.1, storedName e f x.1 x.2)]) links ∧
    ∀ y : Nat × List UInt8, storedName e g y.1 y.2 = storedName e f y.1 y.2 := by
  have hss := he.least
  have hx := List.mem_cons_self (a := x) (l := links)
  obtain ⟨h0, hlt⟩ := hl.inodes x hx
  obtain ⟨hz, hslash⟩ := hl.names x hx
  obtain ⟨hdir, hframe⟩ := linkAt_holds he hcnt hfit h hz h0 hlt
  rw [← hg] at hdir hframe
  have hroot : dirOf g toinode = par := by
    have hp := Nat.le_mul_of_pos_left e.secsize (Nat.pos_of_ne_zero hl.par_ne)
    have hn := Nat.le_mul_of_pos_left e.secsize (Nat.pos_of_ne_zero h0)
    have hsame : rootdirfid g = rootdirfid f := leBytes_congr fun i hi =>
      hframe _ (fun y hy hys => by omega) (fun y hy hys => by omega)
    rw [← hl.dir]
    unfold dirOf
    rw [hsame]
  refine ⟨?_, fun i hi => hframe i (fun y hy hys => ?_) (fun y hy hys => ?_), hdir,
    ⟨hl.par_ne, hroot, fun y hy => hl.inodes y (List.mem_cons_of_mem x hy),
      fun y hy => hl.names y (List.mem_cons_of_mem x hy),
      (List.nodup_cons.mp hl.distinct).2, fun y hy z hz' => ?_⟩, fun y => ?_⟩
  · rw [hg]
    exact linkInode_free h he.least hl.dir hz hslash (storedName_length hfit) fun y hy => hl.fresh x hx y hy
  · exact absurd (Or.inl (hy ▸ sector_div par hys)) hi
  · exact absurd (Or.inr (hy ▸ sector_div x.1 hys)) hi
  · rcases List.mem_append.mp hz' with hz' | hz'
    · exact hl.fresh y (List.mem_cons_of_mem x hy) z hz'
    · rw [List.mem_singleton.mp hz']
      show storedName e f x.1 x.2 ≠ y.2
      unfold storedName
      split_ifs
      · intro heq
        refine (hl.names y (List.mem_cons_of_mem x hy)).2 ?_
        rw [← heq]
        exact List.mem_append_right _ List.mem_cons_self
      · exact fun heq => (List.nodup_cons.mp hl.distinct).1 (heq ▸ List.mem_map_of_mem hy)
  · have hp := sectors_apart e.secsize par y.1
    have hn := sectors_apart e.secsize x.1 y.1
    have hsame : bytesAt g (y.1 * e.secsize + 8) 4 = bytesAt f (y.1 * e.secsize + 8) 4 := bytesAt_congr fun i hi =>
      hframe _ (fun z hz hzs => by omega) (fun z hz hzs => by omega)
    unfold storedName
    rw [hsame]

theorem linkLaw_of_room (he : MkfsOk e) (h : DirAt e f par L) (hl : Linkable e f toinode par L links)
    (hroom : LinkRoom e f L links) : LinkLaw e toinode par f L links := by
  induction links generalizing f L with
  | nil => exact trivial
  | cons x links ih =>
    have hcnt : L.length < maxEntries e := by
      have := hroom.1
      rw [List.length_cons] at this
      omega
    obtain ⟨hcall, hsame, hdir, hnext, hnames⟩ := hl.step he h hcnt (hroom.2 x List.mem_cons_self) rfl
    refine ⟨_, hcall, hsame, Or.inl ⟨hdir, ih hdir hnext ⟨?_, fun y hy => ?_⟩⟩⟩
    · have := hroom.1
      rw [List.length_cons] at this
      rw [List.length_append, List.length_singleton]
      omega
    · rw [hnames y]
      exact hroom.2 y (List.mem_cons_of_mem x hy)

theorem DirAt.name_length (h : DirAt e f par L) (hx : x ∈ L) : x.2.length ≤ 111 := by
  obtain ⟨r, hr, rfl⟩ := List.mem_map.mp (h.entries.mem_iff.mpr hx)
  have hshort := (h.good r hr).short
  show ((r.drop 17).take (entryLen r)).length ≤ 111
  rw [List.length_take]
  omega

theorem linkLaw_room (he : MkfsOk e) (h : DirAt e f par L) (hl : Linkable e f toinode par L links)
    (hlaw : LinkLaw e toinode par f L links) : LinkRoom e f L links := by
  induction links generalizing f L with
  | nil => exact ⟨h.room, fun x hx => absurd hx List.not_mem_nil⟩
  | cons x links ih =>
    obtain ⟨f', hcall, -, hcase⟩ := hlaw
    have hcount : le64 f' (par * e.secsize + 1024 + 16) = (L.length + 1) % 2^64 := by
      unfold linkInode at hcall
      dsimp only at hcall
      rw [hl.dir] at hcall
      split at hcall
      · rw [if_pos (firstName_eq (hl.names x List.mem_cons_self).2).ge] at hcall
        exact absurd hcall (by simp)
      · rw [← Option.some.inj hcall, linkAt_count he, h.count]
    rcases hcase with ⟨hdir, hrest⟩ | ⟨hdir, -⟩
    · have hcnt : L.length < maxEntries e := by
        have := hdir.room
        rw [List.length_append, List.length_singleton] at this
        omega
      have hfit : (storedName e f x.1 x.2).length ≤ 111 :=
        hdir.name_length (List.mem_append_right L (List.mem_singleton.mpr rfl))
      obtain ⟨hcall', -, hdir', hnext, hnames⟩ := hl.step he h hcnt hfit rfl
      rw [hcall'] at hcall
      rw [← Option.some.inj hcall] at hrest
      obtain ⟨hlen, hshort⟩ := ih hdir' hnext hrest
      rw [List.length_append, List.length_singleton] at hlen
      refine ⟨by rw [List.length_cons]; omega, fun y hy => ?_⟩
      rcases List.mem_cons.mp hy with rfl | hy
      · exact hfit
      · rw [← hnames y]
        exact hshort y hy
    · rw [hdir.count] at hcount
      omega

end

/-- **Filling a directory.**  For a directory that holds `L`, the calls for other names add them one after the
other and leave all other sectors as they are if and only if there is room for the entries and for each name. -/
theorem link_law_iff {toinode : Nat} {links : List (Nat × List UInt8)} (he : MkfsOk e) (h : DirAt e f par L)
    (hl : Linkable e f toinode par L links) : LinkLaw e toinode par f L links ↔ LinkRoom e f L links :=
  ⟨linkLaw_room he h hl, linkLaw_of_room he h hl⟩

end

/-- sectors of 2048 bytes have room for seven entries -/
def smallMkfs : MkfsEnv := ⟨2048, 0, false, crc32Calc⟩

theorem smallMkfs_ok : MkfsOk smallMkfs := ⟨by decide, by decide, rfl⟩

/-- the inode of an empty directory in sector 1, and its checksum -/
def bareDir (sum : Nat) : Nat → UInt8 := putLe (putLe zeros (2048 + 464) 8 128) (2048 + 4) 4 sum

theorem bareDir_zero (sum : Nat) {i : Nat} (h : 3000 ≤ i) : bareDir sum i = 0 := by
  unfold bareDir putLe
  rw [store_out (by omega), store_out (by omega)]
  rfl

theorem bareDir_at {sum : Nat} (hsum : sum = crc32Calc (bareDir 0) (2048 + 8) 1016) :
    DirAt smallMkfs (bareDir sum) 1 [] where
  room := Nat.zero_le _
  count := leBytes_zero fun i hi => bareDir_zero sum (show 3000 ≤ 1 * 2048 + 1024 + 16 + i by omega)
  size := (le64_putLe_out (Or.inr (by decide))).trans (le64_putLe (by decide))
  entries := List.Perm.refl []
  good := fun r hr => absurd hr List.not_mem_nil
  free := fun i hi _ => bareDir_zero sum (show 3000 ≤ 1 * 2048 + i by simp at hi; omega)
  entsum := leBytes_zero fun i hi => bareDir_zero sum (show 3000 ≤ 1 * 2048 + 1024 + 4 + i by omega)
  insum := by
    have hlt : sum < 2^32 := hsum ▸ crc32Calc_lt _ _ _
    have hsame : crc32Calc (bareDir 0) (2048 + 8) 1016 = crc32Calc (bareDir sum) (2048 + 8) 1016 := by
      refine crc32Calc_congr fun i hi => ?_
      unfold bareDir putLe
      exact (store_out (by omega)).trans (store_out (by omega)).symm
    rw [smallMkfs_ok.crc, show smallMkfs.secsize = 2048 from rfl, Nat.one_mul, ← hsame, ← hsum]
    unfold bareDir
    rw [leBytes_putLe]
    exact Nat.mod_eq_of_lt hlt

theorem link_law_one : ∃ sum, DirAt smallMkfs (bareDir sum) 1 [] ∧ LinkLaw smallMkfs 1 1 (bareDir sum) [] [(2, [97])] :=
  ⟨_, bareDir_at rfl, (link_law_iff smallMkfs_ok (bareDir_at rfl)
    ⟨by decide, rfl, by decide, by decide, by decide, fun _ _ y hy => absurd hy List.not_mem_nil⟩).mpr
    ⟨by decide, fun x hx => by
      rw [List.mem_singleton.mp hx]
      unfold storedName
      split_ifs <;> decide⟩⟩

/-- the eighth name has no room, and is not refused -/
theorem link_overflows : ∃ sum, DirAt smallMkfs (bareDir sum) 1 [] ∧ ∃ links : List (Nat × List UInt8),
    links.length = 8 ∧ Linkable smallMkfs (bareDir sum) 1 1 [] links ∧
      ¬ LinkLaw smallMkfs 1 1 (bareDir sum) [] links := by
  have hl : Linkable smallMkfs (bareDir (crc32Calc (bareDir 0) (2048 + 8) 1016)) 1 1 []
      [(2, [97]), (3, [98]), (4, [99]), (5, [100]), (6, [101]), (7, [102]), (8, [103]), (9, [104])] :=
    ⟨by decide, rfl, by decide, by decide, by decide, fun _ _ y hy => absurd hy List.not_mem_nil⟩
  exact ⟨_, bareDir_at rfl, _, rfl, hl, fun h => absurd (linkLaw_room smallMkfs_ok (bareDir_at rfl) hl h).1 (by decide)⟩

end OsZ
