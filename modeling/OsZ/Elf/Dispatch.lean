import OsZ.Base.Cstr
import OsZ.Elf.Link
import OsZ.Security.Dest

/-!
# Function numbers of a service (`mq_dispatch` in `lib/libc/dispatch.c`, `tools/elftool.c`)

At build time `elftool` prints a definition `SYS_name` for the functions of a service, and at run time
`mq_dispatch` calls a function by its number.  Both read the table of dynamic symbols.

* `mqDispatch`    what `mq_dispatch` does with a message; `none` if it returns `ENOEXEC`;
* `elftool`       the definitions, a name with a number; `none` is a division by zero;
* `dispatch_iff`  when they agree about a number.

An object is given by the entries of its segment `PT_DYNAMIC` up to `DT_NULL`, with tag and value, and by
the bytes of the file.  An address is an offset in the file; the text segment begins with it.
-/

namespace OsZ

structure Service where
  dyn : List (Nat × Nat)
  file : Nat → UInt8
  size : Nat

/-- `Elf64_Sym`; the section index is not used -/
structure DynSym where
  name : Nat
  info : Nat
  other : Nat
  value : Nat
  size : Nat
deriving DecidableEq

def symAt (file : Nat → UInt8) (o : Nat) : DynSym :=
  ⟨leBytes file o 4, (file (o + 4)).toNat, (file (o + 5)).toNat, le64 file (o + 8), le64 file (o + 16)⟩

/-- `ELF64_ST_BIND(st_info)==STB_GLOBAL && ELF64_ST_TYPE(st_info)==STT_FUNC` -/
def DynSym.globalFunc (s : DynSym) : Bool := s.info / 16 == 1 && s.info % 16 == 2

/-! ## at run time -/

/-- `sym`, `sym_end` and `syment` -/
structure DispTab where
  sym : Option Nat
  symEnd : Option Nat
  syment : Nat

/-- the loop over the dynamic entries, until all three are known -/
def dispScan : List (Nat × Nat) → DispTab → DispTab
  | [], t => t
  | d :: ds, t =>
    if t.sym = none ∨ t.symEnd = none ∨ t.syment = 0 then
      dispScan ds
        { sym := if d.1 = 6 then some (d.2 % 2^32) else t.sym
          symEnd := if d.1 = 5 then some (d.2 % 2^32) else t.symEnd
          syment := if d.1 = 11 then d.2 % 2^16 else t.syment }
    else t

/-- `sym`, `syment` and `maxfunc`, if the checks pass -/
def mqTables (o : Service) : Option (Nat × Nat × Nat) :=
  let t := dispScan o.dyn ⟨none, none, 0⟩
  let syment := if t.syment = 0 then 24 else t.syment
  match t.sym, t.symEnd with
  | some sym, some symEnd =>
    let maxfunc := sub64 symEnd sym / syment % 2^16
    if symEnd ≤ sym ∨ syment < 8 ∨ 32767 < maxfunc then none else some (sym, syment, maxfunc)
  | _, _ => none

/-- nothing, the call of a function, or `SYS_nack` with `EPERM` -/
inductive Served where
  | ignored
  | call (addr : Nat)
  | eperm
deriving DecidableEq

/-- one round of the endless loop -/
def mqDispatch (o : Service) (evt : Nat) : Option Served :=
  (mqTables o).map fun t =>
    if evtFunc evt < 3 then .ignored
    else
      let func := evtFunc evt - 3
      let symfunc := symAt o.file (t.1 + func * t.2.1)
      if 0 < func ∧ func < t.2.2 ∧ symfunc.globalFunc then .call (w64 (symfunc.value + textAddress))
      else .eperm

/-! ## at build time -/

/-- `strtable`, `sym`, `strsz` and `syment`; the numbers are not set before -/
structure ToolTab where
  strtable : Option Nat
  sym : Option Nat
  strsz : Option Nat
  syment : Option Nat

def ToolTab.entry (t : ToolTab) (d : Nat × Nat) : ToolTab where
  strtable := if d.1 = 5 then some (d.2 % 2^32) else t.strtable
  sym := if d.1 = 6 then some (d.2 % 2^32) else t.sym
  strsz := if d.1 = 10 then some (d.2 % 2^32) else t.strsz
  syment := if d.1 = 11 then some (d.2 % 2^32) else t.syment

/-- `mq_dispatch` -/
def mqDispatchName : List UInt8 := [0x6D, 0x71, 0x5F, 0x64, 0x69, 0x73, 0x70, 0x61, 0x74, 0x63, 0x68]
/-- `main` -/
def mainName : List UInt8 := [0x6D, 0x61, 0x69, 0x6E]

/-- the tests before a definition is printed -/
def toolExports (s : DynSym) (name : List UInt8) : Bool :=
  s.value != 0 && name.head? != none && name.head? != some 0x5F && s.globalFunc && s.size != 0 && s.other % 4 == 0 &&
    name != mqDispatchName && name != mainName

/-- the entries of the table are `sizeof(Elf64_Sym)` bytes apart -/
def Service.symbol (o : Service) (sym i : Nat) : DynSym := symAt o.file (sym + 24 * i)

def Service.symbolName (o : Service) (sym strtable i : Nat) : List UInt8 :=
  cstr o.file (strtable + (o.symbol sym i).name) o.size

/-- `n` entries of the table from entry `i` on; `st_name` is compared as an unsigned number -/
def toolLoop (o : Service) (sym strtable strsz : Nat) : Nat → Nat → List (List UInt8 × Nat)
  | 0, _ => []
  | n+1, i =>
    if strsz < (o.symbol sym i).name then []
    else (if toolExports (o.symbol sym i) (o.symbolName sym strtable i) then [(o.symbolName sym strtable i, i + 3)]
      else []) ++
      toolLoop o sym strtable strsz n (i + 1)

/-- the definitions that `elftool` prints; `junk` are the variables `strsz` and `syment` before they are set -/
def elftool (o : Service) (junk : Nat × Nat) : Option (List (List UInt8 × Nat)) :=
  let t := o.dyn.foldl ToolTab.entry ⟨none, none, none, none⟩
  match t.strtable, t.sym with
  | some strtable, some sym =>
    if t.syment.getD junk.2 = 0 then none
    else some (toolLoop o sym strtable (t.strsz.getD junk.1)
      (Int.tdiv ((strtable : Int) - sym) (i32 (t.syment.getD junk.2))).toNat 0)
  | _, _ => some []

/-! ## the tables of an object -/

/-- the entries that both read are there once, and `DT_SYMENT` is `sizeof(Elf64_Sym)` -/
structure ElfService (o : Service) (strtab symtab strsz : Nat) : Prop where
  strtab : o.dyn.filter (fun d => d.1 = 5) = [(5, strtab)]
  symtab : o.dyn.filter (fun d => d.1 = 6) = [(6, symtab)]
  strsz : o.dyn.filter (fun d => d.1 = 10) = [(10, strsz)]
  syment : o.dyn.filter (fun d => d.1 = 11) = [(11, 24)]

/-- the variable `f` for the tag has the value, or it is still to come -/
def Pending (tag v : Nat) (g : Nat → Nat) (l : List (Nat × Nat)) (f : Option Nat) : Prop :=
  (f = none ∧ l.filter (fun d => d.1 = tag) = [(tag, v)]) ∨ (f = some (g v) ∧ l.filter (fun d => d.1 = tag) = [])

section
variable {tag v : Nat} {g : Nat → Nat} {d : Nat × Nat} {l : List (Nat × Nat)} {f : Option Nat}

theorem Pending.start (h : l.filter (fun d => d.1 = tag) = [(tag, v)]) : Pending tag v g l none := .inl ⟨rfl, h⟩

theorem Pending.known (h : Pending tag v g l f) (hf : f ≠ none) : f = some (g v) := by
  rcases h with ⟨hn, -⟩ | ⟨hs, -⟩
  · exact absurd hn hf
  · exact hs

theorem Pending.over (h : Pending tag v g [] f) : f = some (g v) := by
  rcases h with ⟨-, hl⟩ | ⟨hs, -⟩
  · cases hl
  · exact hs

theorem Pending.value (h : Pending tag v g (d :: l) f) (hd : d.1 = tag) :
    d.2 = v ∧ l.filter (fun d => d.1 = tag) = [] := by
  rw [Pending, List.filter_cons_of_pos (by simpa using hd)] at h
  rcases h with ⟨-, hl⟩ | ⟨-, hl⟩
  · obtain ⟨hv, hl⟩ := List.cons.inj hl
    exact ⟨congrArg Prod.snd hv, hl⟩
  · cases hl

theorem Pending.step (h : Pending tag v g (d :: l) f) :
    Pending tag v g l (if d.1 = tag then some (g d.2) else f) := by
  by_cases hd : d.1 = tag
  · obtain ⟨hv, hl⟩ := h.value hd
    rw [if_pos hd, hv]
    exact .inr ⟨rfl, hl⟩
  · rw [if_neg hd]
    rw [Pending, List.filter_cons_of_neg (by simpa using hd)] at h
    exact h

end

theorem dispScan_once {strtab symtab : Nat} {l : List (Nat × Nat)} {t : DispTab}
    (hsym : Pending 6 symtab (· % 2^32) l t.sym) (hend : Pending 5 strtab (· % 2^32) l t.symEnd)
    (hent : Pending 11 24 (· % 2^16) l (if t.syment = 0 then none else some t.syment)) :
    dispScan l t = ⟨some (symtab % 2^32), some (strtab % 2^32), 24⟩ := by
  induction l generalizing t with
  | nil =>
    obtain ⟨sym, symEnd, syment⟩ := t
    obtain rfl : sym = _ := hsym.over
    obtain rfl : symEnd = _ := hend.over
    have hs := hent.over
    by_cases h0 : syment = 0
    · rw [if_pos h0] at hs
      cases hs
    · rw [if_neg h0] at hs
      obtain rfl : syment = 24 := Option.some.inj hs
      rfl
  | cons d l ih =>
    rw [dispScan]
    by_cases hall : t.sym = none ∨ t.symEnd = none ∨ t.syment = 0
    · rw [if_pos hall]
      refine ih hsym.step hend.step ?_
      have hstep := hent.step
      by_cases hd : d.1 = 11
      · rw [if_pos hd, (hent.value hd).1] at hstep ⊢
        exact hstep
      · rw [if_neg hd] at hstep ⊢
        exact hstep
    · rw [if_neg hall]
      simp only [not_or] at hall
      obtain ⟨h1, h2, h3⟩ := hall
      obtain ⟨sym, symEnd, syment⟩ := t
      have hs := hent.known (by rw [if_neg h3]; exact Option.some_ne_none _)
      rw [if_neg h3] at hs
      obtain rfl : sym = _ := hsym.known h1
      obtain rfl : symEnd = _ := hend.known h2
      obtain rfl : syment = 24 := Option.some.inj hs
      rfl

theorem toolScan_once {strtab symtab strsz : Nat} {l : List (Nat × Nat)} {t : ToolTab}
    (hstr : Pending 5 strtab (· % 2^32) l t.strtable) (hsym : Pending 6 symtab (· % 2^32) l t.sym)
    (hsz : Pending 10 strsz (· % 2^32) l t.strsz) (hent : Pending 11 24 (· % 2^32) l t.syment) :
    l.foldl ToolTab.entry t = ⟨some (strtab % 2^32), some (symtab % 2^32), some (strsz % 2^32), some 24⟩ := by
  induction l generalizing t with
  | nil =>
    obtain ⟨strtable, sym, strsz, syment⟩ := t
    obtain rfl : strtable = _ := hstr.over
    obtain rfl : sym = _ := hsym.over
    obtain rfl : strsz = _ := hsz.over
    obtain rfl : syment = _ := hent.over
    rfl
  | cons d l ih => exact ih hstr.step hsym.step hsz.step hent.step

section
variable {o : Service} {strtab symtab strsz : Nat}

/-- how many symbols are in front of the string table -/
def symCount (strtab symtab : Nat) : Nat := (strtab % 2^32 - symtab % 2^32) / 24

theorem mqTables_once (ho : ElfService o strtab symtab strsz) :
    mqTables o = if symtab % 2^32 < strtab % 2^32 ∧ symCount strtab symtab % 2^16 ≤ 32767 then
      some (symtab % 2^32, 24, symCount strtab symtab % 2^16) else none := by
  have hscan := dispScan_once (t := ⟨none, none, 0⟩) (.start ho.symtab) (.start ho.strtab) (.start ho.syment)
  have hdiff : symtab % 2^32 < strtab % 2^32 → sub64 (strtab % 2^32) (symtab % 2^32) =
    strtab % 2^32 - symtab % 2^32 := by
    intro h
    unfold sub64
    omega
  unfold mqTables
  rw [hscan]
  dsimp only
  rw [show (if (24 : Nat) = 0 then 24 else 24) = 24 from rfl]
  by_cases hlt : symtab % 2^32 < strtab % 2^32
  · rw [hdiff hlt]
    unfold symCount
    by_cases hfew : (strtab % 2^32 - symtab % 2^32) / 24 % 2^16 ≤ 32767
    · rw [if_neg (by omega), if_pos ⟨hlt, hfew⟩]
    · rw [if_pos (by omega), if_neg (fun h => hfew h.2)]
  · rw [if_pos (by omega), if_neg (fun h => hlt h.1)]

theorem elftool_once (ho : ElfService o strtab symtab strsz) (junk : Nat × Nat) :
    elftool o junk = some (toolLoop o (symtab % 2^32) (strtab % 2^32) (strsz % 2^32) (symCount strtab symtab) 0) := by
  have hscan := toolScan_once (t := ⟨none, none, none, none⟩) (.start ho.strtab) (.start ho.symtab) (.start ho.strsz)
    (.start ho.syment)
  have hcount : (Int.tdiv (((strtab % 2^32 : Nat) : Int) - ((symtab % 2^32 : Nat) : Int)) (i32 (24 : Nat))).toNat =
      symCount strtab symtab := by
    have h24 : i32 (24 : Nat) = 24 := by decide
    rw [h24]
    unfold symCount
    rcases Nat.le_total (symtab % 2^32) (strtab % 2^32) with h | h
    · rw [← Nat.cast_sub h, show (24 : Int) = ((24 : Nat) : Int) from rfl, ← Int.ofNat_tdiv, Int.toNat_natCast]
    · rw [← neg_sub, Int.neg_tdiv, ← Nat.cast_sub h, show (24 : Int) = ((24 : Nat) : Int) from rfl, ← Int.ofNat_tdiv,
        Int.toNat_eq_zero.mpr (by omega), Nat.sub_eq_zero_of_le h]
  unfold elftool
  rw [hscan]
  dsimp only
  rw [Option.getD_some, Option.getD_some, if_neg (by decide), hcount]

/-- the name and the number of a symbol that `elftool` comes to and prints -/
structure Printed (o : Service) (strtab symtab strsz i : Nat) : Prop where
  count : i < symCount strtab symtab
  names : ∀ j ≤ i, (o.symbol (symtab % 2^32) j).name ≤ strsz % 2^32
  exports : toolExports (o.symbol (symtab % 2^32) i) (o.symbolName (symtab % 2^32) (strtab % 2^32) i) = true

theorem mem_toolLoop {sym strtable size n i m : Nat} {name : List UInt8} :
    (name, m) ∈ toolLoop o sym strtable size n i ↔
      ∃ k, i ≤ k ∧ k < i + n ∧ (∀ j, i ≤ j → j ≤ k → (o.symbol sym j).name ≤ size) ∧
        toolExports (o.symbol sym k) (o.symbolName sym strtable k) = true ∧ name = o.symbolName sym strtable k ∧ m =
          k + 3 := by
  induction n generalizing i with
  | zero =>
    rw [toolLoop]
    constructor
    · intro h
      cases h
    · rintro ⟨k, h1, h2, -⟩
      omega
  | succ n ih =>
    rw [toolLoop]
    by_cases hname : size < (o.symbol sym i).name
    · rw [if_pos hname]
      constructor
      · intro h
        cases h
      · rintro ⟨k, h1, -, h3, -⟩
        have := h3 i (Nat.le_refl i) h1
        omega
    rw [if_neg hname, List.mem_append, ih]
    constructor
    · rintro (h | ⟨k, h1, h2, h3, h4⟩)
      · split at h
        · rename_i hexp
          obtain ⟨rfl, rfl⟩ := Prod.mk.inj (List.mem_singleton.mp h)
          refine ⟨i, Nat.le_refl i, by omega, fun j h1 h2 => ?_, hexp, rfl, rfl⟩
          obtain rfl : j = i := by omega
          omega
        · cases h
      · refine ⟨k, by omega, by omega, fun j hj hjk => ?_, h4⟩
        rcases Nat.eq_or_lt_of_le hj with rfl | hj
        · omega
        · exact h3 j hj hjk
    · rintro ⟨k, h1, h2, h3, hexp, hn, hm⟩
      rcases Nat.eq_or_lt_of_le h1 with rfl | h1
      · left
        rw [if_pos hexp, hn, hm]
        exact List.mem_singleton.mpr rfl
      · exact .inr ⟨k, h1, by omega, fun j hj hjk => h3 j (by omega) hjk, hexp, hn, hm⟩

/-! ## both -/

/-- the function of a number is called if and only if there is a definition with the number, and then it is
the function of the symbol with that name; other numbers are answered with `EPERM` -/
def DispatchRight (o : Service) (junk : Nat × Nat) (strtab symtab evt : Nat) : Prop :=
  ∃ out defs, mqDispatch o evt = some out ∧ elftool o junk = some defs ∧
    ((∃ addr, out = .call addr) ↔ ∃ name, (name, evtFunc evt) ∈ defs) ∧
    (∀ name, (name, evtFunc evt) ∈ defs → ∃ i, o.symbolName (symtab % 2^32) (strtab % 2^32) i = name ∧
      out = .call (w64 ((o.symbol (symtab % 2^32) i).value + textAddress))) ∧
    ((∀ name, (name, evtFunc evt) ∉ defs) → out = .eperm)

/-- `mq_dispatch` starts; a global function behind entry 0 is printed; the null symbol and the entries from
number 2¹⁶ on are not -/
structure DispatchCond (o : Service) (strtab symtab strsz i : Nat) : Prop where
  order : symtab % 2^32 < strtab % 2^32
  few : symCount strtab symtab % 2^16 ≤ 32767
  printed : 0 < i → i < symCount strtab symtab % 2^16 → (o.symbol (symtab % 2^32) i).globalFunc = true →
    Printed o strtab symtab strsz i
  others : i = 0 ∨ symCount strtab symtab % 2^16 ≤ i → ¬ Printed o strtab symtab strsz i

theorem Printed.globalFunc {i : Nat} (h : Printed o strtab symtab strsz i) :
    (o.symbol (symtab % 2^32) i).globalFunc = true := by
  have he := h.exports
  unfold toolExports at he
  simp only [Bool.and_eq_true] at he
  exact he.1.1.1.1.2

theorem elftool_printed (ho : ElfService o strtab symtab strsz) {junk : Nat × Nat} {defs : List (List UInt8 × Nat)}
    (h : elftool o junk = some defs) {name : List UInt8} {n : Nat} (hn : 3 ≤ n) :
    (name, n) ∈ defs ↔ Printed o strtab symtab strsz (n - 3) ∧
      name = o.symbolName (symtab % 2^32) (strtab % 2^32) (n - 3) := by
  rw [elftool_once ho] at h
  obtain rfl := Option.some.inj h
  rw [mem_toolLoop]
  constructor
  · rintro ⟨k, -, h2, h3, h4, h5, h6⟩
    obtain rfl : n - 3 = k := by omega
    exact ⟨⟨by omega, fun j hj => h3 j (Nat.zero_le j) hj, h4⟩, h5⟩
  · rintro ⟨hp, hname⟩
    exact ⟨n - 3, Nat.zero_le _, by have := hp.count; omega, fun j _ hj => hp.names j hj, hp.exports, hname, by omega⟩

theorem mqDispatch_call (ho : ElfService o strtab symtab strsz) (hlt : symtab % 2^32 < strtab % 2^32)
    (hfew : symCount strtab symtab % 2^16 ≤ 32767) {evt : Nat} (hn : 3 ≤ evtFunc evt) :
    mqDispatch o evt = some (if 0 < evtFunc evt - 3 ∧ evtFunc evt - 3 < symCount strtab symtab % 2^16 ∧
        (o.symbol (symtab % 2^32) (evtFunc evt - 3)).globalFunc = true then
      .call (w64 ((o.symbol (symtab % 2^32) (evtFunc evt - 3)).value + textAddress)) else .eperm) := by
  unfold mqDispatch
  rw [mqTables_once ho, if_pos ⟨hlt, hfew⟩, Option.map_some, if_neg (by omega), Service.symbol, Nat.mul_comm 24]

theorem dispatch_iff (o : Service) (strtab symtab strsz evt : Nat) (junk : Nat × Nat)
    (ho : ElfService o strtab symtab strsz) (hn : 3 ≤ evtFunc evt) :
    DispatchRight o junk strtab symtab evt ↔ DispatchCond o strtab symtab strsz (evtFunc evt - 3) := by
  constructor
  · rintro ⟨out, defs, hout, hdefs, hiff, -, -⟩
    have hstart : symtab % 2^32 < strtab % 2^32 ∧ symCount strtab symtab % 2^16 ≤ 32767 := by
      by_contra hc
      unfold mqDispatch at hout
      rw [mqTables_once ho, if_neg hc] at hout
      cases hout
    obtain ⟨hlt, hfew⟩ := hstart
    rw [mqDispatch_call ho hlt hfew hn] at hout
    obtain rfl := Option.some.inj hout
    simp only [elftool_printed ho hdefs hn] at hiff
    refine ⟨hlt, hfew, fun h0 hi hg => ?_, fun hi hp => ?_⟩
    · obtain ⟨name, hp, -⟩ := hiff.mp ⟨_, if_pos ⟨h0, hi, hg⟩⟩
      exact hp
    · obtain ⟨addr, haddr⟩ := hiff.mpr ⟨_, hp, rfl⟩
      rw [if_neg (by omega)] at haddr
      cases haddr
  · intro hc
    have hdefs := elftool_once ho junk
    refine ⟨_, _, mqDispatch_call ho hc.order hc.few hn, hdefs, ?_⟩
    simp only [elftool_printed ho hdefs hn]
    by_cases hcall : 0 < evtFunc evt - 3 ∧ evtFunc evt - 3 < symCount strtab symtab % 2^16 ∧
        (o.symbol (symtab % 2^32) (evtFunc evt - 3)).globalFunc = true
    · have hp := hc.printed hcall.1 hcall.2.1 hcall.2.2
      rw [if_pos hcall]
      refine ⟨⟨fun _ => ⟨_, hp, rfl⟩, fun _ => ⟨_, rfl⟩⟩, ?_, fun h => absurd ⟨hp, rfl⟩ (h _)⟩
      rintro name ⟨-, rfl⟩
      exact ⟨evtFunc evt - 3, rfl, rfl⟩
    · have hp : ¬ Printed o strtab symtab strsz (evtFunc evt - 3) := by
        intro hp
        have hg := hp.globalFunc
        refine hc.others ?_ hp
        by_contra hout
        exact hcall ⟨by omega, by omega, hg⟩
      rw [if_neg hcall]
      refine ⟨⟨fun h => ?_, fun ⟨_, h, _⟩ => absurd h hp⟩, fun _ h => absurd h.1 hp, fun _ => rfl⟩
      obtain ⟨addr, haddr⟩ := h
      cases haddr

end

/-! ## two services -/

/-- a service with the global function `f` at `value`, in entry 1 of its table -/
def service (value : UInt8) : Service where
  dyn := [(5, 0x130), (6, 0x100), (10, 3), (11, 24)]
  file
    | 0x118 => 1
    | 0x11C => 0x12
    | 0x120 => value
    | 0x128 => 8
    | 0x131 => 0x66
    | _ => 0
  size := 0x133

theorem service_elf (value : UInt8) : ElfService (service value) 0x130 0x100 3 := ⟨rfl, rfl, rfl, rfl⟩

/-- number 4 is `SYS_f` for a function at 0x40 -/
theorem dispatch_defined : DispatchRight (service 0x40) (0, 0) 0x130 0x100 4 := by
  have hprinted : Printed (service 0x40) 0x130 0x100 3 1 := ⟨by decide, by decide +kernel, by decide +kernel⟩
  exact (dispatch_iff (service 0x40) 0x130 0x100 3 4 (0, 0) (service_elf 0x40) (by decide)).mpr
    ⟨by decide, by decide, fun _ _ _ => hprinted, fun h => absurd h (by decide)⟩

/-- a function of another object has the value 0: it has no number, but number 4 calls the start of the file -/
theorem dispatch_import : elftool (service 0) (0, 0) = some [] ∧ mqDispatch (service 0) 4 = some (.call textAddress) ∧
    ¬ DispatchRight (service 0) (0, 0) 0x130 0x100 4 := by
  have htool : elftool (service 0) (0, 0) = some [] := by decide +kernel
  have hdisp : mqDispatch (service 0) 4 = some (.call textAddress) := by decide +kernel
  refine ⟨htool, hdisp, ?_⟩
  rintro ⟨out, defs, hout, hdefs, hiff, -⟩
  rw [hdisp] at hout
  rw [htool] at hdefs
  obtain rfl := Option.some.inj hout
  obtain rfl := Option.some.inj hdefs
  obtain ⟨name, hname⟩ := hiff.mp ⟨_, rfl⟩
  cases hname

end OsZ
