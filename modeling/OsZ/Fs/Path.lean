import OsZ.Base.Word
import OsZ.Fsz.Locate
import Mathlib.Data.List.DropRight

/-!
# Paths in the file system task (`fs/vfs.c`)

* `canonize`  `canonize(path)`: the path from the root, without empty names and `.`;
* `pathcat`   `pathcat(path,filename)`;
* `getver`, `getoffs`  the version `;v` and the offset `#o` behind a path.

A string is a list of bytes other than 0.  `path+i` is the rest of the list, so `i<k` says that the
rest is not empty.  Writes to the buffer go to its end `j` only, so the buffer is the list of its first
`j` bytes; `top` is one more than the largest index written.  `malloc` succeeds.
-/

namespace OsZ

def chColon : UInt8 := 0x3A
def chSemi : UInt8 := 0x3B
def chHash : UInt8 := 0x23
def chMinus : UInt8 := 0x2D

/-- `DEVPATH` -/
def devPath : List UInt8 := [0x2F, 0x64, 0x65, 0x76, 0x2F]

/-- the drive name `root` -/
def rootDrive : List UInt8 := [0x72, 0x6F, 0x6F, 0x74]

/-- `abspath` of the root and the working directory of the task, and the byte in front of the buffer,
which is read if such a path is empty -/
structure CanonEnv where
  root : List UInt8
  work : List UInt8
  front : UInt8

/-- `result` up to `j`, the writes to it, `path[i-1]` (0 for `i=0`) and `path+i` -/
structure Canon where
  res : List UInt8
  top : Nat
  prev : UInt8
  rest : List UInt8

namespace Canon

/-- `path[i+n]` -/
def char (c : Canon) (n : Nat) : UInt8 := c.rest.getD n 0

/-- `i+=n` -/
def skip (c : Canon) (n : Nat) : Canon :=
  if n = 0 then c else { c with prev := c.rest.getD (n - 1) 0, rest := c.rest.drop n }

/-- `result[j++]=` for all bytes of the list -/
def put (c : Canon) (l : List UInt8) : Canon :=
  { c with res := c.res ++ l, top := max c.top (c.res.length + l.length) }

end Canon

/-- `'1'<=a && a<='9'` -/
def isDigit19 (a : UInt8) : Bool := decide (0x31 ≤ a ∧ a ≤ 0x39)
/-- a byte of a name: `a!='/' && !PATHEND(a)` -/
def nameChar (a : UInt8) : Bool := a != chSlash && !pathEnd a

def isDigit (a : UInt8) : Bool := decide (0x30 ≤ a ∧ a ≤ 0x39)

section
variable (e : CanonEnv)

/-- `result[j-1]` -/
def lastChar (res : List UInt8) : UInt8 := res.getLastD e.front

/-- "translate dev: paths": a drive, the root directory or the working directory comes first.
`sizeof(DEVPATH)` counts the 0 behind it, too. -/
def canonStart (path : List UInt8) : Canon :=
  let i := (path.takeWhile (fun a => a != chColon && nameChar a)).length
  if path.getD i 0 = chColon then
    let c : Canon := if i = 4 ∧ path.take 4 = rootDrive then ⟨[], 0, 0, path⟩
      else ⟨devPath ++ [0] ++ path.take i, 6 + i, 0, path⟩
    let c := (c.put [chSlash]).skip (i + 1)
    if c.char 0 = chSlash then c.skip 1 else c
  else if path.getD 0 0 = chSlash then
    let c : Canon := ⟨e.root, e.root.length + 1, 0, path⟩
    if lastChar e e.root = chSlash then c.skip 1 else c
  else ⟨e.work, e.work.length + 1, 0, path⟩

/-- `i++; if(i<k && path[i]=='-') i++;` -/
def Canon.sign (c : Canon) : Canon :=
  let c := c.skip 1
  if c.char 0 = chMinus then c.skip 1 else c

/-- "canonize version": only a digit with an offset behind it is kept -/
def canonVersion (c : Canon) : Canon :=
  let c := c.sign
  if 1 < c.rest.length ∧ isDigit19 (c.char 0) ∧ (c.char 1 = chHash ∨ c.char 1 = 0) then
    (c.put [chSemi, c.char 0]).skip 1
  else c

/-- "canonize offset" -/
def canonOffset (c : Canon) : Canon :=
  let c := c.sign
  if isDigit19 (c.char 0) then
    let c := c.put (if c.prev = chMinus then [chHash, chMinus] else [chHash])
    let d := c.rest.takeWhile isDigit
    (c.put d).skip d.length
  else c

/-- what follows a name: `false` for `break` -/
def canonSuffix (c : Canon) : Canon × Bool :=
  if c.char 0 = chSemi ∧ lastChar e c.res = chSlash then (c, false)
  else
    let c := if c.char 0 = chSemi then canonVersion c else c
    if c.char 0 = chHash then (if lastChar e c.res = chSlash then c else canonOffset c, false)
    else (c.skip 1, true)

/-- `if(result[j-1]!='/') result[j++]='/';` -/
def Canon.slash (c : Canon) : Canon := if lastChar e c.res = chSlash then c else c.put [chSlash]

/-- `while(i<k && path[i]=='/') i++;` -/
def Canon.slashes (c : Canon) : Canon := c.skip (c.rest.takeWhile (· == chSlash)).length

/-- one name: "skip current dir paths", "handle .../../ case", or "copy directory name" -/
def canonName (c : Canon) : Canon × Bool :=
  if c.char 0 = chDot ∧ 1 < c.rest.length ∧ (c.char 1 = chSlash ∨ pathEnd (c.char 1)) then (c.skip 2, true)
  else if 4 < c.res.length ∧ c.char 0 = chDot ∧ 2 < c.rest.length ∧ c.char 1 = chDot ∧
      (c.char 2 = chSlash ∨ pathEnd (c.char 2)) ∧
      c.res.drop (c.res.length - 4) = [chDot, chDot, chDot, chSlash] then
    ({ c with res := c.res.take (c.res.length - 4) }.skip 3, true)
  else
    let name := c.rest.takeWhile nameChar
    canonSuffix e ((c.put name).skip name.length)

/-- one round of "parse the remaining part of the path" -/
def canonRound (c : Canon) : Canon × Bool := canonName e (c.slash e).slashes

/-- `while(i<k && !PATHEND(path[i]))`; every round but the last one makes `i` larger -/
def canonLoop : Nat → Canon → Canon
  | 0, c => c
  | n+1, c =>
    if c.rest = [] ∨ pathEnd (c.char 0) then c
    else
      let r := canonRound e c
      if r.2 then canonLoop n r.1 else r.1

/-- the end of the function, with the 0 behind the result -/
def canonEnd (c : Canon) : Canon :=
  let c := if c.res.getLast? = some chSlash then { c with res := c.res.dropLast } else c
  let c := { c with res := c.res.rdropWhile (· == chDot) }
  let c := if c.prev = chSlash then c.put [chSlash] else c
  { c with top := max c.top (c.res.length + 1) }

def canonRun (path : List UInt8) : Canon :=
  canonEnd (canonLoop e (canonStart e path).rest.length (canonStart e path))

/-- NULL for an empty path -/
def canonize (path : List UInt8) : Option (List UInt8) :=
  if path = [] then none else some ((canonRun e path).res.takeWhile (· != 0))

/-- one more than the largest index of `result` that is written to -/
def canonTop (path : List UInt8) : Nat := if path = [] then 0 else (canonRun e path).top

end

/-! ## the other functions -/

def pathcat (pathmax : Nat) (path filename : List UInt8) : Option (List UInt8) :=
  if path = [] then none
  else if filename = [] then some path
  else if pathmax ≤ path.length + filename.length then none
  else some ((if path.getLast? = some chSlash then path else path ++ [chSlash]) ++
    (if filename.head? = some chSlash then filename.tail else filename))

/-- one more than the largest index of `path` that is written to; the 0 is written, too -/
def pathcatTop (pathmax : Nat) (path filename : List UInt8) : Nat :=
  if filename = [] then 0 else ((pathcat pathmax path filename).map (·.length + 1)).getD 0

def getver (abspath : List UInt8) : Nat :=
  let p := abspath.dropWhile (· != chSemi)
  if p.getD 0 0 = chSemi ∧ isDigit19 (p.getD 1 0) then (p.getD 1 0).toNat - 0x30 else 0

/-- `(uint64_t)((unsigned char)a-'0')` -/
def digitVal (a : UInt8) : Nat := sub64 a.toNat 0x30

def isHex (a : UInt8) : Bool := isDigit a || decide (0x61 ≤ a ∧ a ≤ 0x66) || decide (0x41 ≤ a ∧ a ≤ 0x46)

/-- other bytes count nothing -/
def hexVal (a : UInt8) : Nat :=
  if isDigit a then a.toNat - 0x30
  else if 0x61 ≤ a ∧ a ≤ 0x66 then a.toNat - 0x61 + 10
  else if 0x41 ≤ a ∧ a ≤ 0x46 then a.toNat - 0x41 + 10
  else 0

/-- `stdlib_hex(s,&v,0,0xFFFFFFFFFFFFFFFF)` -/
def stdlibHex (s : List UInt8) : Nat :=
  let s := if s.take 2 = [0x30, 0x78] then s.drop 2 else s
  (s.tail.takeWhile isHex).foldl (fun v a => w64 (w64 (v * 16) + hexVal a)) (hexVal (s.getD 0 0))

/-- `stdlib_dec(s,&v,0,0xFFFFFFFFFFFFFFFF)`; the first byte is not tested -/
def stdlibDec (s : List UInt8) : Nat :=
  if s.take 2 = [0x30, 0x78] then stdlibHex (s.drop 2)
  else (s.tail.takeWhile isDigit).foldl (fun v a => w64 (w64 (v * 10) + digitVal a)) (digitVal (s.getD 0 0))

/-- `atol(c)`, as a 64-bit number -/
def atol (s : List UInt8) : Nat :=
  if s.getD 0 0 = chMinus then sub64 0 (stdlibDec s.tail) else stdlibDec s

def getoffs (abspath : List UInt8) : Nat :=
  let p := abspath.dropWhile (· != chHash)
  if p.getD 0 0 = chHash then atol p.tail else 0

end OsZ
