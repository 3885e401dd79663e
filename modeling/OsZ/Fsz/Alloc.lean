import OsZ.Fsz.Detect

/-!
# The free sectors of a volume

`allocateblock` takes sectors from the list in the inode `freesecfid`, then from the tail of the volume.

* `FszDev.free`   the free sectors, as the device describes them;
* `TakeSafe`      the block of the list is written to its own sector, entries are not doubled, and the
                  change reaches the device;
* `alloc_run`     in every run of such calls, with reads between them, each sector is a free one and is
                  handed out once, the device loses exactly these, and no other block is changed;
* `alloc_spoils`  without a `read` of the list before, the superblock is overwritten with it.
-/

namespace OsZ
open Function (update update_of_ne update_self)

/-! ## statement -/

def slCount (bs : Nat) : Nat := (bs - inlinedata) / 32

def slExtent (inode : Sector) (k : Nat) : Set Nat := Set.Ico (slSec inode k) (slSec inode k + slNumsec inode k)

namespace FszDev

def fid (d : FszDev) : Nat := sbFreesecfid (d.kept 0)

def listed (d : FszDev) : Set Nat :=
  {i | d.fid ≠ 0 ∧ ∃ k < slCount d.blksize, i ∈ slExtent (d.kept d.fid) k}

def tailArea (d : FszDev) : Set Nat := Set.Ico (sbFreesec (d.kept 0)) (sbNumsec (d.kept 0))

def free (d : FszDev) : Set Nat := d.listed ∪ d.tailArea

end FszDev

/-- the list and the tail describe disjoint sectors of the volume -/
structure FreeOk (d : FszDev) : Prop where
  block : ∃ m, 11 ≤ m ∧ d.blksize = 2^m
  inside : d.fid ≠ 0 → ∀ k < slCount d.blksize, 0 < slNumsec (d.kept d.fid) k →
    slSec (d.kept d.fid) k + slNumsec (d.kept d.fid) k ≤ sbNumsec (d.kept 0)
  apart : d.fid ≠ 0 → ∀ j < slCount d.blksize, ∀ k < slCount d.blksize, j ≠ k →
    Disjoint (slExtent (d.kept d.fid) j) (slExtent (d.kept d.fid) k)
  tail : Disjoint d.listed d.tailArea

/-- the buffers of the superblock and the list are what is on the device -/
structure Synced (d : FszDev) : Prop where
  super : ∀ i < d.blksize, d.cur 0 i = d.kept 0 i
  list : ∀ i < d.blksize, d.cur d.fid i = d.kept d.fid i

/-- a device, and the sectors it has handed out -/
structure AllocWorld where
  dev : FszDev
  got : List Nat

inductive AllocOp where
  | alloc (c : BlkEnv)
  | read (c : BlkEnv) (nfcb fd file offs s : Nat)
  | reload (lsn : Nat) (behind : Sector)

inductive AllocStep : AllocWorld → AllocOp → AllocWorld → Prop where
  | alloc {w : AllocWorld} {c : BlkEnv} {i : Nat} {d' : FszDev} (h : fszAllocateblock w.dev c = some (i, d')) :
      AllocStep w (.alloc c) ⟨d', if i = minus1 then w.got else i :: w.got⟩
  | read {w : AllocWorld} {c : BlkEnv} {nfcb fd file offs s : Nat} {d' : FszDev}
      (h : w.dev.read c nfcb fd file offs s = some d') : AllocStep w (.read c nfcb fd file offs s) ⟨d', w.got⟩
  | reload {w : AllocWorld} {lsn : Nat} {behind : Sector} (h : w.dev.ram = false) :
      AllocStep w (.reload lsn behind) ⟨w.dev.reload lsn behind, w.got⟩

/-- A sector from the tail: the superblock reaches the device.  A sector from the list: it is not taken
from behind the block, `lastsec` is the sector of the list (or nothing can be written there) and its
buffer is at a multiple of the block size, the change reaches the device, and no entry is doubled by the
shift of the entries, that is, the last one is empty. -/
structure TakeOk (d : FszDev) (c : BlkEnv) : Prop where
  tail : ∀ sb, allocSource d c = .tail sb → d.Persists c 0
  inside : ∀ fid inode k, allocSource d c = .entry fid inode k → k < slCount d.blksize
  place : ∀ fid inode k, allocSource d c = .entry fid inode k → d.CanWrite c d.lastsec →
    d.lastsec = fid ∧ d.blksize ∣ c.addr
  reaches : ∀ fid inode k, allocSource d c = .entry fid inode k →
    d.ram = true ∨ d.dirty fid = true ∨ d.CanWrite c d.lastsec
  last : ∀ fid inode k, allocSource d c = .entry fid inode k → slNumsec inode k = 1 →
    k + 1 < slCount d.blksize → slNumsec inode (slCount d.blksize - 1) = 0

def TakeSafe (w : AllocWorld) : AllocOp → Prop
  | .alloc c => TakeOk w.dev c
  | _ => True

/-- of the results, compared with the device at the beginning -/
structure AllocOk (d₀ : FszDev) (w : AllocWorld) : Prop where
  free : ∀ i ∈ w.got, i ∈ d₀.free
  once : w.got.Nodup
  left : w.dev.free = d₀.free \ {i | i ∈ w.got}
  rest : ∀ l, l ≠ 0 → l ≠ d₀.fid → w.dev.kept l = d₀.kept l

/-! ## the entries -/

section
variable {d d' : FszDev} {c : BlkEnv} {l lsn i bs k j n fid v size : Nat} {blk sb inode f g : Sector}

theorem slCount_le (hk : k < slCount bs) : inlinedata + 32 * k + 32 ≤ bs := by
  unfold slCount inlinedata at *
  omega

theorem slEntry_congr (h : ∀ i < bs, f i = g i) (hk : k < slCount bs) :
    slSec f k = slSec g k ∧ slNumsec f k = slNumsec g k := by
  have hle := slCount_le hk
  exact ⟨leBytes_congr (fun i hi => h _ (by omega)), leBytes_congr (fun i hi => h _ (by omega))⟩

theorem slExtent_congr (h : ∀ i < bs, f i = g i) (hk : k < slCount bs) : slExtent f k = slExtent g k := by
  obtain ⟨h1, h2⟩ := slEntry_congr h hk
  unfold slExtent
  rw [h1, h2]

/-- the entry behind an entry that is used up moves to its place -/
def origin (inode : Sector) (k j : Nat) : Nat := if slNumsec inode k = 1 ∧ k ≤ j then j + 1 else j

/-- the three fields that are changed before the shift -/
def slCut (bs : Nat) (inode : Sector) (k : Nat) : Sector :=
  let f := putLe inode 464 8 (sub64 (inSize inode) bs)
  let f := putLe f (inlinedata + 32 * k) 8 (w64 (slSec inode k + 1))
  putLe f (inlinedata + 32 * k + 16) 8 (slNumsec inode k - 1)

theorem slTake_eq : slTake bs inode k = if slNumsec inode k = 1 then
    store (slCut bs inode k) (inlinedata + 32 * k) (bs - inlinedata - 32 * k - 32)
      (fun i => slCut bs inode k (inlinedata + 32 * (k + 1) + i)) else slCut bs inode k := rfl

theorem slCut_ne (h : j ≠ k) :
    slSec (slCut bs inode k) j = slSec inode j ∧ slNumsec (slCut bs inode k) j = slNumsec inode j := by
  unfold slCut slSec slNumsec inlinedata
  constructor
  · rw [le64_putLe_out (by omega), le64_putLe_out (by omega), le64_putLe_out (by omega)]
  · rw [le64_putLe_out (by omega), le64_putLe_out (by omega), le64_putLe_out (by omega)]

theorem slCut_self : slSec (slCut bs inode k) k = w64 (slSec inode k + 1) ∧
    slNumsec (slCut bs inode k) k = slNumsec inode k - 1 := by
  have hn : slNumsec inode k < 2^64 := le64_lt _ _
  constructor
  · have hout : slSec (slCut bs inode k) k = le64 (putLe (putLe inode 464 8 (sub64 (inSize inode) bs))
        (inlinedata + 32 * k) 8 (w64 (slSec inode k + 1))) (inlinedata + 32 * k) :=
      le64_putLe_out (by omega)
    rw [hout, le64_putLe (w64_lt _)]
  · exact le64_putLe (by omega)

theorem slTake_shifted (h1 : slNumsec inode k = 1) (hkj : k ≤ j) (hj : j + 1 < slCount bs) :
    slSec (slTake bs inode k) j = slSec inode (j + 1) ∧ slNumsec (slTake bs inode k) j = slNumsec inode (j + 1) := by
  have hle := slCount_le hj
  obtain ⟨e1, e2⟩ := @slCut_ne bs k (j + 1) inode (by omega)
  rw [slTake_eq, if_pos h1, ← e1, ← e2]
  unfold inlinedata at *
  constructor
  · have hpos : 1024 + 32 * j = 1024 + 32 * k + (32 * j - 32 * k) := by omega
    have hsrc : 1024 + 32 * (k + 1) + (32 * j - 32 * k) = 1024 + 32 * (j + 1) := by omega
    unfold slSec le64 inlinedata
    rw [hpos, leBytes_store_in (by omega), leBytes_add, hsrc]
  · have hpos : 1024 + 32 * j + 16 = 1024 + 32 * k + (32 * j - 32 * k + 16) := by omega
    have hsrc : 1024 + 32 * (k + 1) + (32 * j - 32 * k + 16) = 1024 + 32 * (j + 1) + 16 := by omega
    unfold slNumsec le64 inlinedata
    rw [hpos, leBytes_store_in (by omega), leBytes_add, hsrc]

theorem slTake_out (h : slNumsec inode k = 1 → j < k ∨ bs ≤ inlinedata + 32 * j + 32) :
    slSec (slTake bs inode k) j = slSec (slCut bs inode k) j ∧
      slNumsec (slTake bs inode k) j = slNumsec (slCut bs inode k) j := by
  rw [slTake_eq]
  split
  · next h1 =>
    have h2 := h h1
    unfold inlinedata at h2
    unfold slSec slNumsec le64 inlinedata
    constructor
    · exact leBytes_store_out (by omega)
    · exact leBytes_store_out (by omega)
  · exact ⟨rfl, rfl⟩

/-- the list before a sector is taken from entry `k` -/
structure ListOk (bs : Nat) (inode : Sector) (k : Nat) : Prop where
  block : bs = inlinedata + 32 * slCount bs
  lt : k < slCount bs
  pos : 0 < slNumsec inode k
  sum : slSec inode k + slNumsec inode k < 2^64
  apart : ∀ i < slCount bs, ∀ j < slCount bs, i ≠ j → Disjoint (slExtent inode i) (slExtent inode j)
  last : slNumsec inode k = 1 → k + 1 < slCount bs → slNumsec inode (slCount bs - 1) = 0

theorem ListOk.mem (h : ListOk bs inode k) : slSec inode k ∈ slExtent inode k := by
  have hpos := h.pos
  exact ⟨le_rfl, by omega⟩

theorem ListOk.other (h : ListOk bs inode k) (hj : j < slCount bs) (hne : j ≠ k) :
    slExtent inode j \ {slSec inode k} = slExtent inode j := by
  apply Set.sdiff_singleton_eq_self
  intro hmem
  exact Set.disjoint_left.mp (h.apart j hj k h.lt hne) hmem h.mem

theorem ListOk.extent_take (h : ListOk bs inode k) (hj : j < slCount bs) :
    slExtent (slTake bs inode k) j
      = if origin inode k j < slCount bs then slExtent inode (origin inode k j) \ {slSec inode k} else ∅ := by
  have hblock := h.block
  have hk := h.lt
  by_cases h1 : slNumsec inode k = 1
  · by_cases hjk : j < k
    · have ho : origin inode k j = j := if_neg (fun hc => by omega)
      obtain ⟨e1, e2⟩ := @slTake_out bs k j inode (fun _ => Or.inl hjk)
      obtain ⟨e3, e4⟩ := @slCut_ne bs k j inode (by omega)
      rw [ho, if_pos hj, h.other hj (by omega)]
      unfold slExtent
      rw [e1, e2, e3, e4]
    · have ho : origin inode k j = j + 1 := if_pos ⟨h1, by omega⟩
      rw [ho]
      by_cases hlast : j + 1 < slCount bs
      · obtain ⟨e1, e2⟩ := slTake_shifted h1 (by omega) hlast
        rw [if_pos hlast, h.other hlast (by omega)]
        unfold slExtent
        rw [e1, e2]
      · -- nothing is moved to the last place, which is empty
        have hzero : slNumsec (slTake bs inode k) j = 0 := by
          rw [(@slTake_out bs k j inode (fun _ => Or.inr (by omega))).2]
          by_cases hjk' : j = k
          · rw [hjk', slCut_self.2, h1]
          · rw [(slCut_ne hjk').2, show j = slCount bs - 1 by omega]
            exact h.last h1 (by omega)
        rw [if_neg hlast]
        unfold slExtent
        rw [hzero, Nat.add_zero, Set.Ico_self]
  · have ho : origin inode k j = j := if_neg (fun hc => h1 hc.1)
    obtain ⟨e1, e2⟩ := @slTake_out bs k j inode (fun h1' => absurd h1' h1)
    rw [ho, if_pos hj]
    by_cases hjk : j = k
    · have hsum := h.sum
      have hpos := h.pos
      unfold slExtent
      rw [e1, e2, hjk, slCut_self.1, slCut_self.2, w64_of_lt (by omega)]
      ext x
      simp only [Set.mem_Ico, Set.mem_sdiff, Set.mem_singleton_iff]
      omega
    · obtain ⟨e3, e4⟩ := @slCut_ne bs k j inode hjk
      rw [h.other hj hjk]
      unfold slExtent
      rw [e1, e2, e3, e4]

theorem ListOk.union_take (h : ListOk bs inode k) :
    {i | ∃ j < slCount bs, i ∈ slExtent (slTake bs inode k) j}
      = {i | ∃ j < slCount bs, i ∈ slExtent inode j} \ {slSec inode k} := by
  apply Set.Subset.antisymm
  · rintro i ⟨j, hj, hi⟩
    rw [h.extent_take hj] at hi
    split at hi
    · next ho => exact ⟨⟨_, ho, hi.1⟩, hi.2⟩
    · cases hi
  · rintro i ⟨⟨m, hm, hi⟩, hne⟩
    obtain ⟨j, hj, ho⟩ : ∃ j < slCount bs, origin inode k j = m := by
      unfold origin
      by_cases h1 : slNumsec inode k = 1
      · have hmk : m ≠ k := by
          intro e
          apply hne
          obtain ⟨hlo, hhi⟩ := hi
          rw [e] at hlo hhi
          rw [Set.mem_singleton_iff]
          omega
        by_cases hlt : m < k
        · exact ⟨m, hm, if_neg (fun hc => by omega)⟩
        · refine ⟨m - 1, by omega, ?_⟩
          rw [if_pos ⟨h1, by omega⟩]
          omega
      · exact ⟨m, hm, if_neg (fun hc => h1 hc.1)⟩
    refine ⟨j, hj, ?_⟩
    rw [h.extent_take hj, ho, if_pos hm]
    exact ⟨hi, hne⟩

theorem ListOk.apart_take (h : ListOk bs inode k) {i j : Nat} (hi : i < slCount bs) (hj : j < slCount bs)
    (hne : i ≠ j) : Disjoint (slExtent (slTake bs inode k) i) (slExtent (slTake bs inode k) j) := by
  rw [h.extent_take hi, h.extent_take hj]
  split
  · next ho =>
    split
    · next ho' =>
      have hinj : origin inode k i ≠ origin inode k j := by
        unfold origin
        split <;> split <;> omega
      exact (h.apart _ ho _ ho' hinj).mono Set.sdiff_subset Set.sdiff_subset
    · exact Set.disjoint_empty _
  · exact Set.empty_disjoint _

/-! ## one call -/

/-- the sector `i` is taken -/
structure Taken (d : FszDev) (i : Nat) (d' : FszDev) : Prop where
  mem : i ∈ d.free
  free : d'.free = d.free \ {i}
  ok : FreeOk d'
  synced : Synced d'
  fid : d'.fid = d.fid
  rest : ∀ l, l ≠ 0 → l ≠ d.fid → d'.kept l = d.kept l

theorem FszDev.writeblock_blksize : (d.writeblock c lsn blk).blksize = d.blksize := by
  unfold FszDev.writeblock
  split <;> rfl

theorem FreeOk.ge (h : FreeOk d) : 2048 ≤ d.blksize ∧ d.blksize = inlinedata + 32 * slCount d.blksize := by
  obtain ⟨m, hm, e⟩ := h.block
  have hle : 2^11 ≤ 2^m := Nat.pow_le_pow_right (by decide) hm
  have hdvd : 2^11 ∣ 2^m := pow_dvd_pow 2 hm
  unfold slCount inlinedata
  omega

theorem store_lt {f g : Sector} {n i : Nat} (h : i < n) : store f 0 n g i = g i := by
  unfold store
  rw [if_pos ⟨Nat.zero_le i, by omega⟩, Nat.sub_zero]

theorem listed_congr (hbs : d'.blksize = d.blksize) (hfid : d'.fid = d.fid)
    (h : ∀ i < d.blksize, d'.kept d.fid i = d.kept d.fid i) : d'.listed = d.listed := by
  unfold FszDev.listed
  rw [hbs, hfid]
  ext i
  constructor
  · rintro ⟨h0, k, hk, hi⟩
    rw [slExtent_congr h hk] at hi
    exact ⟨h0, k, hk, hi⟩
  · rintro ⟨h0, k, hk, hi⟩
    rw [← slExtent_congr h hk] at hi
    exact ⟨h0, k, hk, hi⟩

theorem tail_taken (hok : FreeOk d) (hs : Synced d) (hlt : sbFreesec (d.cur 0) < sbNumsec (d.cur 0))
    (hp : d.Persists c 0) :
    Taken d (sbFreesec (d.cur 0))
      ((d.edit 0 (putLe (d.cur 0) 544 8 (w64 (sbFreesec (d.cur 0) + 1)))).writeblock c 0
        (putLe (d.cur 0) 544 8 (w64 (sbFreesec (d.cur 0) + 1)))) := by
  obtain ⟨hge, -⟩ := hok.ge
  obtain ⟨sb, hsb⟩ : ∃ sb, sb = putLe (d.cur 0) 544 8 (w64 (sbFreesec (d.cur 0) + 1)) := ⟨_, rfl⟩
  rw [← hsb]
  obtain ⟨e, he⟩ : ∃ e, e = (d.edit 0 sb).writeblock c 0 sb := ⟨_, rfl⟩
  rw [← he]
  have hbs : e.blksize = d.blksize := by
    rw [he]
    exact FszDev.writeblock_blksize
  have hkept : e.kept = update d.kept 0 (d.merged 0 sb) := by
    rw [he, FszDev.update_kept, if_pos hp]
  have hcur : e.cur = update d.cur 0 sb := by
    rw [he, FszDev.update_cur]
  have h0 : ∀ i < d.blksize, e.kept 0 i = sb i := by
    intro i hi
    rw [hkept, update_self]
    unfold FszDev.merged
    split
    · rfl
    · exact store_lt hi
  -- the fields of the new superblock
  have hsuper : ∀ o, o + 8 ≤ 1024 → le64 (d.cur 0) o = le64 (d.kept 0) o :=
    fun o ho => leBytes_congr (fun i hi => hs.super _ (by omega))
  have hnew : ∀ o, o + 8 ≤ 1024 → le64 (e.kept 0) o = le64 sb o :=
    fun o ho => leBytes_congr (fun i hi => h0 _ (by omega))
  have hfield : ∀ o, 552 ≤ o ∨ o + 8 ≤ 544 → o + 8 ≤ 1024 → le64 (e.kept 0) o = le64 (d.kept 0) o := by
    intro o ho hlt
    rw [hnew o hlt, hsb, le64_putLe_out ho.symm, hsuper o hlt]
  have hnumsec : sbNumsec (e.kept 0) = sbNumsec (d.kept 0) := hfield 528 (by decide) (by decide)
  have hfid : e.fid = d.fid := hfield 576 (by decide) (by decide)
  have hnum : sbNumsec (d.cur 0) < 2^64 := le64_lt _ _
  have hfree : sbFreesec (e.kept 0) = sbFreesec (d.cur 0) + 1 := by
    have h1 : sbFreesec (e.kept 0) = sbFreesec sb := hnew 544 (by decide)
    have h2 : sbFreesec sb = w64 (sbFreesec (d.cur 0) + 1) := by rw [hsb]; exact le64_putLe (w64_lt _)
    rw [h1, h2, w64_of_lt (by omega)]
  have hold : sbFreesec (d.kept 0) = sbFreesec (d.cur 0) := (hsuper 544 (by decide)).symm
  have holdnum : sbNumsec (d.kept 0) = sbNumsec (d.cur 0) := (hsuper 528 (by decide)).symm
  have hother : d.fid ≠ 0 → e.kept d.fid = d.kept d.fid := by
    intro hne
    rw [hkept, update_of_ne hne]
  have hlisted : e.listed = d.listed := by
    by_cases hne : d.fid = 0
    · unfold FszDev.listed
      rw [hfid, hne]
      simp
    · exact listed_congr hbs hfid (fun i _ => by rw [hother hne])
  have htail : e.tailArea = d.tailArea \ {sbFreesec (d.cur 0)} := by
    unfold FszDev.tailArea
    rw [hnumsec, hfree, hold]
    ext x
    simp only [Set.mem_Ico, Set.mem_sdiff, Set.mem_singleton_iff]
    omega
  have hmem : sbFreesec (d.cur 0) ∈ d.tailArea := ⟨hold.le, by rw [holdnum]; exact hlt⟩
  have hnot : sbFreesec (d.cur 0) ∉ d.listed := fun hl => Set.disjoint_left.mp hok.tail hl hmem
  refine ⟨Or.inr hmem, ?_, ⟨?_, ?_, ?_, ?_⟩, ⟨?_, ?_⟩, hfid, ?_⟩
  · unfold FszDev.free
    rw [hlisted, htail, Set.union_sdiff_distrib, Set.sdiff_singleton_eq_self hnot]
  · rw [hbs]
    exact hok.block
  · intro hne k hk hpos
    rw [hfid] at hne
    rw [hbs] at hk
    rw [hfid, hother hne] at hpos ⊢
    rw [hnumsec]
    exact hok.inside hne k hk hpos
  · intro hne j hj k hk hjk
    rw [hfid] at hne ⊢
    rw [hbs] at hj hk
    rw [hother hne]
    exact hok.apart hne j hj k hk hjk
  · rw [hlisted, htail]
    exact hok.tail.mono_right Set.sdiff_subset
  · intro i hi
    rw [hbs] at hi
    rw [h0 i hi, hcur, update_self]
  · intro i hi
    rw [hbs] at hi
    rw [hfid]
    by_cases hne : d.fid = 0
    · rw [hne, h0 i hi, hcur, update_self]
    · rw [hother hne, hcur, update_of_ne hne]
      exact hs.list i hi
  · intro l hl _
    rw [hkept, update_of_ne hl]

theorem slBlock_eq (hdvd : bs ∣ c.addr) (hbs : inlinedata < bs) (hi : i < bs) : slBlock c bs inode i = inode i := by
  have hmod : (c.addr + inlinedata) % bs = inlinedata := by
    obtain ⟨q, hq⟩ := hdvd
    rw [hq, Nat.mul_add_mod, Nat.mod_eq_of_lt hbs]
  unfold slBlock
  dsimp only
  rw [hmod, Nat.add_sub_cancel, if_pos (by omega), Nat.add_sub_cancel_left]

theorem entry_effect (hbs : inlinedata < d.blksize)
    (hplace : d.CanWrite c d.lastsec → d.lastsec = fid ∧ d.blksize ∣ c.addr)
    (hreach : d.ram = true ∨ d.dirty fid = true ∨ d.CanWrite c d.lastsec)
    (hd' : d' = (d.edit fid inode).writeblock c d.lastsec (slBlock c d.blksize inode)) :
    (∀ i < d.blksize, d'.kept fid i = inode i ∧ d'.cur fid i = inode i) ∧
      ∀ l, l ≠ fid → d'.kept l = d.kept l ∧ d'.cur l = d.cur l := by
  have hedit : ∀ l, l ≠ fid → (d.edit fid inode).kept l = d.kept l ∧ (d.edit fid inode).cur l = d.cur l :=
    fun l hl => ⟨FszDev.edit_kept_ne hl, update_of_ne hl _ _⟩
  by_cases hw : d.CanWrite c d.lastsec
  · obtain ⟨hlast, hdvd⟩ := hplace hw
    constructor
    · intro i hi
      rw [hd', hlast]
      rw [hlast] at hw
      unfold FszDev.writeblock
      rw [if_pos (FszDev.edit_canWrite.mpr hw)]
      dsimp only
      rw [update_self, update_self]
      have hlt : i < (d.edit fid inode).blksize := hi
      rw [store_lt hlt, store_lt hlt, slBlock_eq hdvd hbs hi]
      exact ⟨rfl, rfl⟩
    · intro l hl
      rw [hd', hlast]
      obtain ⟨h1, h2⟩ := @FszDev.writeblock_ne (d.edit fid inode) c l fid (slBlock c d.blksize inode) hl
      rw [h1, h2]
      exact hedit l hl
  · have he : d' = d.edit fid inode := by
      rw [hd']
      exact if_neg (fun hw' => hw (FszDev.edit_canWrite.mp hw'))
    rw [he]
    refine ⟨fun i hi => ⟨?_, ?_⟩, hedit⟩
    · unfold FszDev.edit
      dsimp only
      rcases hreach with hram | hdirty | hw'
      · rw [if_pos hram, update_self]
      · split
        · rw [update_self]
        · rw [update_self, store_lt hi]
      · exact absurd hw' hw
    · unfold FszDev.edit
      dsimp only
      rw [update_self]

theorem entry_taken (hok : FreeOk d) (hs : Synced d) (hne : d.fid ≠ 0) (hl : ListOk d.blksize (d.cur d.fid) k)
    (hkept : ∀ i < d.blksize, d'.kept d.fid i = slTake d.blksize (d.cur d.fid) k i ∧
      d'.cur d.fid i = slTake d.blksize (d.cur d.fid) k i)
    (hother : ∀ l, l ≠ d.fid → d'.kept l = d.kept l ∧ d'.cur l = d.cur l) (hbs : d'.blksize = d.blksize) :
    Taken d (slSec (d.cur d.fid) k) d' := by
  obtain ⟨h0, h0'⟩ := hother 0 (Ne.symm hne)
  have hfid : d'.fid = d.fid := by
    unfold FszDev.fid
    rw [h0]
  have hext : ∀ j < slCount d.blksize, slExtent (d'.kept d.fid) j
      = slExtent (slTake d.blksize (d.cur d.fid) k) j :=
    fun j hj => slExtent_congr (fun i hi => (hkept i hi).1) hj
  have hold : ∀ j < slCount d.blksize, slExtent (d.kept d.fid) j = slExtent (d.cur d.fid) j :=
    fun j hj => (slExtent_congr hs.list hj).symm
  have hlisted : d'.listed = d.listed \ {slSec (d.cur d.fid) k} := by
    have hunion := hl.union_take
    ext i
    have hi := Set.ext_iff.mp hunion i
    simp only [Set.mem_ofPred_eq, Set.mem_sdiff] at hi
    unfold FszDev.listed
    rw [hbs, hfid]
    simp only [Set.mem_ofPred_eq, Set.mem_sdiff]
    constructor
    · rintro ⟨-, j, hj, hij⟩
      rw [hext j hj] at hij
      obtain ⟨⟨m, hm, him⟩, hnot⟩ := hi.mp ⟨j, hj, hij⟩
      rw [← hold m hm] at him
      exact ⟨⟨hne, m, hm, him⟩, hnot⟩
    · rintro ⟨⟨-, m, hm, him⟩, hnot⟩
      rw [hold m hm] at him
      obtain ⟨j, hj, hij⟩ := hi.mpr ⟨⟨m, hm, him⟩, hnot⟩
      rw [← hext j hj] at hij
      exact ⟨hne, j, hj, hij⟩
  have htail : d'.tailArea = d.tailArea := by
    unfold FszDev.tailArea
    rw [h0]
  have hmem : slSec (d.cur d.fid) k ∈ d.listed := by
    refine ⟨hne, k, hl.lt, ?_⟩
    rw [hold k hl.lt]
    exact hl.mem
  have hnot : slSec (d.cur d.fid) k ∉ d.tailArea := Set.disjoint_left.mp hok.tail hmem
  refine ⟨Or.inl hmem, ?_, ⟨?_, ?_, ?_, ?_⟩, ⟨?_, ?_⟩, hfid, fun l _ hl' => (hother l hl').1⟩
  · unfold FszDev.free
    rw [hlisted, htail, Set.union_sdiff_distrib, Set.sdiff_singleton_eq_self hnot]
  · rw [hbs]
    exact hok.block
  · intro _ j hj hpos
    rw [hbs] at hj
    rw [hfid] at hpos ⊢
    rw [h0]
    -- the last sector of the entry was one of the volume
    have hlast : slSec (d'.kept d.fid) j + slNumsec (d'.kept d.fid) j - 1 ∈ slExtent (d'.kept d.fid) j :=
      ⟨by omega, by omega⟩
    rw [hext j hj, hl.extent_take hj] at hlast
    split at hlast
    · next ho =>
      have hin := hlast.1
      rw [← hold _ ho] at hin
      obtain ⟨hlo, hhi⟩ := hin
      have hbound := hok.inside hne _ ho (by omega)
      omega
    · cases hlast
  · intro _ i hi j hj hij
    rw [hbs] at hi hj
    rw [hfid, hext i hi, hext j hj]
    exact hl.apart_take hi hj hij
  · rw [hlisted, htail]
    exact hok.tail.mono_left Set.sdiff_subset
  · intro i hi
    rw [hbs] at hi
    rw [h0, h0']
    exact hs.super i hi
  · intro i hi
    rw [hbs] at hi
    rw [hfid, (hkept i hi).1, (hkept i hi).2]

theorem slFind_spec (h : slFind bs inode = some k) : 0 < slNumsec inode k := by
  unfold slFind at h
  split at h
  · cases h
  · have hk := List.find?_some h
    exact of_decide_eq_true hk

theorem alloc_taken (hok : FreeOk d) (hs : Synced d) (hsafe : TakeOk d c) :
    ∃ i d', fszAllocateblock d c = some (i, d') ∧ ((i = minus1 ∧ d' = d) ∨ (i ≠ minus1 ∧ Taken d i d')) := by
  have hspec := allocSource_spec d c
  obtain ⟨hge, hblock⟩ := hok.ge
  have hsuper : sbFreesecfid (d.cur 0) = d.fid := leBytes_congr (fun i hi => hs.super _ (by omega))
  have hnum : sbNumsec (d.kept 0) < 2^64 := le64_lt _ _
  have hfree : ∀ i ∈ d.free, i ≠ minus1 := by
    intro i hi
    have hlt : i < sbNumsec (d.kept 0) := by
      rcases hi with ⟨hne, k, hk, hlo, hhi⟩ | ⟨hlo, hhi⟩
      · exact lt_of_lt_of_le hhi (hok.inside hne k hk (by omega))
      · exact hhi
    unfold minus1
    omega
  unfold fszAllocateblock
  generalize hsrc : allocSource d c = src at hspec
  cases hspec with
  | nowhere => exact ⟨_, _, rfl, Or.inl ⟨rfl, rfl⟩⟩
  | tail hlt =>
    have htaken := tail_taken hok hs hlt (hsafe.tail _ hsrc)
    exact ⟨_, _, rfl, Or.inr ⟨hfree _ htaken.mem, htaken⟩⟩
  | @entry k hfid hk =>
    have hin := hsafe.inside _ _ _ hsrc
    have hplace := hsafe.place _ _ _ hsrc
    have hreach := hsafe.reaches _ _ _ hsrc
    have hlast := hsafe.last _ _ _ hsrc
    rw [hsuper] at hfid hk hplace hreach hlast ⊢
    dsimp only
    rw [if_neg (by omega)]
    have hpos := slFind_spec hk
    have hsum : slSec (d.cur d.fid) k + slNumsec (d.cur d.fid) k < 2^64 := by
      obtain ⟨e1, e2⟩ := slEntry_congr hs.list hin
      rw [e2] at hpos
      rw [e1, e2]
      exact lt_of_le_of_lt (hok.inside hfid k hin hpos) hnum
    have hl : ListOk d.blksize (d.cur d.fid) k := by
      refine ⟨hblock, hin, hpos, hsum, fun i hi j hj hij => ?_, hlast⟩
      rw [slExtent_congr hs.list hi, slExtent_congr hs.list hj]
      exact hok.apart hfid i hi j hj hij
    have hlt : inlinedata < d.blksize := by
      unfold inlinedata
      omega
    obtain ⟨hkept, hother⟩ := entry_effect hlt hplace hreach rfl
    have htaken := entry_taken hok hs hfid hl hkept hother FszDev.writeblock_blksize
    exact ⟨_, _, rfl, Or.inr ⟨hfree _ htaken.mem, htaken⟩⟩

end

/-! ## runs -/

/-- what a run keeps -/
structure AllocInv (d₀ : FszDev) (w : AllocWorld) : Prop extends AllocOk d₀ w where
  volume : FreeOk w.dev
  synced : Synced w.dev
  fid : w.dev.fid = d₀.fid

section
variable {d₀ d' : FszDev} {w w' : AllocWorld} {op : AllocOp} {i lsn : Nat}

theorem AllocInv.take (h : AllocInv d₀ w) (ht : Taken w.dev i d') : AllocInv d₀ ⟨d', i :: w.got⟩ := by
  have hmem := ht.mem
  rw [h.left] at hmem
  refine ⟨⟨fun j hj => ?_, ?_, ?_, ?_⟩, ht.ok, ht.synced, ht.fid.trans h.fid⟩
  · rcases List.mem_cons.mp hj with rfl | hj
    · exact hmem.1
    · exact h.free j hj
  · exact List.nodup_cons.mpr ⟨hmem.2, h.once⟩
  · rw [ht.free, h.left]
    ext x
    simp only [Set.mem_sdiff, Set.mem_ofPred_eq, Set.mem_singleton_iff, List.mem_cons]
    tauto
  · intro l hl hl'
    rw [ht.rest l hl (by rw [h.fid]; exact hl')]
    exact h.rest l hl hl'

theorem AllocInv.same (h : AllocInv d₀ w) (hbs : d'.blksize = w.dev.blksize) (hkept : d'.kept = w.dev.kept)
    (hs : Synced d') : AllocInv d₀ ⟨d', w.got⟩ := by
  have hfid : d'.fid = w.dev.fid := by
    unfold FszDev.fid
    rw [hkept]
  have hlisted : d'.listed = w.dev.listed := listed_congr hbs hfid (fun i _ => by rw [hkept])
  have htail : d'.tailArea = w.dev.tailArea := by
    unfold FszDev.tailArea
    rw [hkept]
  have hv := h.volume
  refine ⟨⟨h.free, h.once, ?_, fun l hl hl' => ?_⟩, ⟨?_, ?_, ?_, ?_⟩, hs, hfid.trans h.fid⟩
  · unfold FszDev.free
    rw [hlisted, htail]
    exact h.left
  · rw [hkept]
    exact h.rest l hl hl'
  · rw [hbs]
    exact hv.block
  · rw [hbs, hfid, hkept]
    exact hv.inside
  · rw [hbs, hfid, hkept]
    exact hv.apart
  · rw [hlisted, htail]
    exact hv.tail

theorem Synced.reload {d : FszDev} (h : Synced d) (lsn : Nat) (behind : Sector) : Synced (d.reload lsn behind) := by
  have hall : ∀ l, (∀ i < d.blksize, d.cur l i = d.kept l i) →
      ∀ i < d.blksize, (d.reload lsn behind).cur l i = d.kept l i := by
    intro l hl i hi
    unfold FszDev.reload
    dsimp only
    by_cases he : l = lsn
    · have hlt : i < (if lsn = 0 then max d.blksize bufsiz else d.blksize) := by
        split
        · exact lt_of_lt_of_le hi (le_max_left _ _)
        · exact hi
      rw [he, update_self, store_lt hlt]
    · rw [update_of_ne he]
      exact hl i hi
  exact ⟨hall 0 h.super, hall _ h.list⟩

theorem AllocInv.step (h : AllocInv d₀ w) (hsafe : TakeSafe w op) (hstep : AllocStep w op w') :
    AllocInv d₀ w' := by
  cases hstep with
  | @alloc c i d' hs =>
    obtain ⟨i', d'', hs', hcases⟩ := alloc_taken h.volume h.synced hsafe
    rw [hs] at hs'
    obtain ⟨rfl, rfl⟩ := Prod.mk.inj (Option.some.inj hs')
    rcases hcases with ⟨hi, hd⟩ | ⟨hi, ht⟩
    · rw [if_pos hi, hd]
      exact h
    · rw [if_neg hi]
      exact h.take ht
  | read hs =>
    obtain ⟨out, -, rfl⟩ := Option.map_eq_some_iff.mp hs
    exact h.same rfl rfl ⟨h.synced.super, h.synced.list⟩
  | reload hs => exact h.same rfl rfl (h.synced.reload _ _)

end

/-- for every volume whose list and tail describe disjoint sectors; under the condition the next call
has a result, too -/
theorem alloc_run {d₀ : FszDev} {w : AllocWorld} (hok : FreeOk d₀) (hs : Synced d₀)
    (h : Reach AllocStep TakeSafe ⟨d₀, []⟩ w) :
    AllocOk d₀ w ∧ ∀ c, TakeOk w.dev c → ∃ out, fszAllocateblock w.dev c = some out := by
  have hinv : AllocInv d₀ w := by
    refine h.keeps (I := AllocInv d₀) ⟨⟨?_, ?_, ?_, ?_⟩, hok, hs, rfl⟩ ?_
    · exact fun i hi => absurd hi (by simp)
    · exact List.nodup_nil
    · simp
    · exact fun l _ _ => rfl
    · exact fun u a u' hu hsafe hstep => hu.step hsafe hstep
  refine ⟨hinv.toAllocOk, fun c hsafe => ?_⟩
  obtain ⟨i, d', hout, -⟩ := alloc_taken hinv.volume hinv.synced hsafe
  exact ⟨_, hout⟩

/-! ## a small volume -/

/-- 16 blocks, of which the last four are free; the list is in block 2 -/
def listSuper : Sector := putLe (putLe (putLe (fun _ => 0) 528 8 16) 544 8 12) 576 8 2

/-- blocks 5 and 6 are free -/
def listInode : Sector :=
  putLe (putLe (putLe (putList (fun _ => 0) 0 inMagic) 464 8 8192) 1024 8 5) 1040 8 2

def listDev (lastsec : Nat) : FszDev :=
  let disk : Disk := fun l => if l = 0 then listSuper else if l = 2 then listInode else fun _ => 0
  ⟨4096, 65536, true, true, disk, disk, fun _ => false, lastsec⟩

theorem listSuper_fields : sbFreesecfid listSuper = 2 ∧ sbFreesec listSuper = 12 ∧ sbNumsec listSuper = 16 := by
  decide +kernel

theorem listInode_fields : bytesAt listInode 0 4 = inMagic ∧ slFind 4096 listInode = some 0 ∧
    slSec listInode 0 = 5 ∧ slNumsec listInode 0 = 2 ∧ ∀ k < 96, 0 < k → slNumsec listInode k = 0 := by
  decide +kernel

theorem listDev_fid (last : Nat) : (listDev last).fid = 2 := listSuper_fields.1

theorem listDev_count (last : Nat) : slCount (listDev last).blksize = 96 := by
  have h : slCount 4096 = 96 := by decide
  exact h

theorem listDev_source (last : Nat) : allocSource (listDev last) allReady = .entry 2 listInode 0 := by
  have hread : ∀ l < 16, (listDev last).readblock allReady l = some ((listDev last).cur l) := by
    intro l hl
    have h0 : ¬ (l = minus1 ∨ 4096 = 0 ∨ 2^31 ≤ 4096 ∨ 65536 < w64 (w64 (l + 1) * 4096)) := by
      unfold minus1 w64
      omega
    exact (if_neg h0).trans (if_pos rfl)
  have h0 : (listDev last).readblock allReady 0 = some listSuper := hread 0 (by decide)
  have h2 : (listDev last).readblock allReady 2 = some listInode := hread 2 (by decide)
  obtain ⟨hfid, -, -⟩ := listSuper_fields
  obtain ⟨hmagic, hfind, hsec, -, -⟩ := listInode_fields
  have hlist : listSource (listDev last) allReady listSuper listInode = .entry 2 listInode 0 := by
    have hfind' : slFind (listDev last).blksize listInode = some 0 := hfind
    unfold listSource
    rw [hfind']
    dsimp only
    rw [hsec, hread 5 (by decide), hfid]
  unfold allocSource
  rw [h0]
  dsimp only
  rw [hfid, if_pos (by decide), h2]
  dsimp only
  rw [if_neg (fun hne => hne hmagic), hlist]

theorem listDev_extent (last : Nat) {k : Nat} (hk : k < slCount (listDev last).blksize) :
    slExtent ((listDev last).kept (listDev last).fid) k = if k = 0 then Set.Ico 5 7 else ∅ := by
  obtain ⟨-, -, hsec, hnum, hzero⟩ := listInode_fields
  rw [listDev_count] at hk
  rw [listDev_fid]
  change slExtent listInode k = _
  unfold slExtent
  split
  · next h0 => rw [h0, hsec, hnum]
  · next h0 => rw [hzero k hk (by omega), Nat.add_zero, Set.Ico_self]

theorem listDev_free (last : Nat) : (listDev last).listed = Set.Ico 5 7 ∧ (listDev last).tailArea = Set.Ico 12 16 := by
  constructor
  · ext i
    constructor
    · rintro ⟨-, k, hk, hi⟩
      rw [listDev_extent last hk] at hi
      split at hi
      · exact hi
      · cases hi
    · intro hi
      have h0 : 0 < slCount (listDev last).blksize := by
        rw [listDev_count]
        decide
      refine ⟨by rw [listDev_fid]; decide, 0, h0, ?_⟩
      rw [listDev_extent last h0, if_pos rfl]
      exact hi
  · obtain ⟨-, hfree, hnum⟩ := listSuper_fields
    change Set.Ico (sbFreesec listSuper) (sbNumsec listSuper) = _
    rw [hfree, hnum]

theorem listDev_ok (last : Nat) : FreeOk (listDev last) ∧ Synced (listDev last) := by
  obtain ⟨hl, ht⟩ := listDev_free last
  refine ⟨⟨⟨12, by decide, rfl⟩, fun _ k hk hpos => ?_, fun _ j hj k hk hjk => ?_, ?_⟩,
    ⟨fun _ _ => rfl, fun _ _ => rfl⟩⟩
  · obtain ⟨-, -, hsec, hnum, hzero⟩ := listInode_fields
    rw [listDev_count] at hk
    rw [listDev_fid] at hpos ⊢
    change 0 < slNumsec listInode k at hpos
    change slSec listInode k + slNumsec listInode k ≤ sbNumsec listSuper
    have h0 : k = 0 := by
      by_contra hne
      rw [hzero k hk (by omega)] at hpos
      omega
    rw [h0, hsec, hnum, listSuper_fields.2.2]
    decide
  · rw [listDev_extent last hj, listDev_extent last hk]
    split
    · rw [if_neg (by omega)]
      exact Set.disjoint_empty _
    · exact Set.empty_disjoint _
  · rw [hl, ht, Set.disjoint_left]
    intro i h1 h2
    have h3 := h1.2
    have h4 := h2.1
    omega

/-- the list has been read before -/
theorem alloc_run_listed : ∃ w, Reach AllocStep TakeSafe ⟨listDev 2, []⟩ w ∧ w.got = [5] ∧ AllocOk (listDev 2) w := by
  have hsrc := listDev_source 2
  have hsafe : TakeOk (listDev 2) allReady := by
    refine ⟨fun sb h => ?_, fun fid inode k h => ?_, fun fid inode k h _ => ?_, fun fid inode k h => ?_,
      fun fid inode k h h1 => ?_⟩ <;> rw [hsrc] at h
    · cases h
    · obtain ⟨-, -, rfl⟩ := AllocSource.entry.inj h
      decide
    · obtain ⟨rfl, -, -⟩ := AllocSource.entry.inj h
      exact ⟨rfl, by decide⟩
    · exact Or.inl rfl
    · obtain ⟨-, rfl, rfl⟩ := AllocSource.entry.inj h
      rw [listInode_fields.2.2.2.1] at h1
      omega
  have hout : ∃ d', fszAllocateblock (listDev 2) allReady = some (5, d') := by
    unfold fszAllocateblock
    rw [hsrc, ← listInode_fields.2.2.1]
    exact ⟨_, rfl⟩
  obtain ⟨d', hout⟩ := hout
  have hreach : Reach AllocStep TakeSafe ⟨listDev 2, []⟩ ⟨d', [5]⟩ := by
    have hstep := AllocStep.alloc (w := ⟨listDev 2, []⟩) hout
    rw [if_neg (by decide)] at hstep
    have hsafe' : TakeSafe ⟨listDev 2, []⟩ (.alloc allReady) := hsafe
    exact Reach.refl.tail hsafe' hstep
  obtain ⟨hok, hs⟩ := listDev_ok 2
  exact ⟨_, hreach, rfl, (alloc_run hok hs hreach).1⟩

/-- nothing has been read yet: the list is written to sector 0, and with it the tail is lost -/
theorem alloc_spoils : FreeOk (listDev 0) ∧ Synced (listDev 0) ∧
    ∃ w', AllocStep ⟨listDev 0, []⟩ (.alloc allReady) w' ∧ ¬ AllocOk (listDev 0) w' := by
  obtain ⟨hok, hs⟩ := listDev_ok 0
  have hsrc := listDev_source 0
  have hout : fszAllocateblock (listDev 0) allReady
      = some (5, ((listDev 0).edit 2 (slTake 4096 listInode 0)).writeblock allReady 0
          (slBlock allReady 4096 (slTake 4096 listInode 0))) := by
    unfold fszAllocateblock
    rw [hsrc, ← listInode_fields.2.2.1]
    rfl
  refine ⟨hok, hs, _, AllocStep.alloc hout, fun hspoil => ?_⟩
  have hleft := hspoil.left
  have h12 : 12 ∈ (listDev 0).free \ {i | i ∈ [5]} := by
    obtain ⟨-, ht⟩ := listDev_free 0
    refine ⟨Or.inr ?_, by simp⟩
    rw [ht]
    exact ⟨le_rfl, by decide⟩
  rw [if_neg (by decide)] at hleft
  rw [← hleft] at h12
  rcases h12 with ⟨hfid, -⟩ | ⟨-, hnum⟩
  · exact hfid (by decide +kernel)
  · exact absurd hnum (by decide +kernel)

end OsZ
