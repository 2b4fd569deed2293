import GuideOS.Lib.CStr

/-!
# Formatted output

`util/kprintf.c` as it is configured: with `long long` and `ptrdiff_t`, without floating
point.  The format and the strings are read from memory while the output is written to it.
An argument takes a word of 64 bits, of which the conversions read the low part.

The loops over strings in memory take fuel.
-/

namespace GuideOS
namespace Kprintf

open Lib

/-- `PRINTF_NTOA_BUFFER_SIZE` -/
def ntoaBufferSize : Nat := 32

/-- `FLAGS_ZEROPAD` to `FLAGS_PRECISION` -/
structure Flags where
  zeropad : Bool
  left : Bool
  plus : Bool
  space : Bool
  hash : Bool
  uppercase : Bool
  char : Bool
  short : Bool
  long : Bool
  longLong : Bool
  precision : Bool
deriving DecidableEq, Repr

def Flags.none : Flags :=
  ⟨false, false, false, false, false, false, false, false, false, false, false⟩

/-! ## Output -/

/-- The values of `out_fct_type` -/
inductive OutFct
  | outBuffer
  | outNull
  | outChar
  | outFct
deriving DecidableEq, Repr

/-- The arguments `out`, `buffer` and `maxlen`, which are passed on unchanged. -/
structure Sink where
  out : OutFct
  buffer : Nat
  maxlen : Nat
deriving DecidableEq

/-- Memory, and the characters given to `putchar` or to the function of `fctprintf`. -/
structure World where
  mem : Bytes
  sent : List (BitVec 8)

def Sink.put (k : Sink) (character : BitVec 8) (idx : Nat) (w : World) : World :=
  match k.out with
  | .outBuffer =>
      if idx < k.maxlen then
        { w with mem := Function.update w.mem ((k.buffer + idx) % 2 ^ 64) character }
      else w
  | .outNull => w
  | .outChar | .outFct => if character ≠ 0 then { w with sent := w.sent ++ [character] } else w

structure Output where
  world : World
  idx : Nat

/-- `out(character, buffer, idx++, maxlen)` -/
def Output.put (s : Output) (k : Sink) (character : BitVec 8) : Output :=
  ⟨k.put character s.idx s.world, (s.idx + 1) % 2 ^ 64⟩

def Output.puts (s : Output) (k : Sink) : List (BitVec 8) → Output
  | [] => s
  | c :: cs => (s.put k c).puts k cs

/-- `out(' ', buffer, idx++, maxlen)`, `n` times -/
def Output.pad (s : Output) (k : Sink) : Nat → Output
  | 0 => s
  | n + 1 => (s.put k 0x20).pad k n

/-! ## Integers -/

/-- The first `len` characters of the array `buf` of `_ntoa_long`. -/
structure NtoaBuf where
  chars : List (BitVec 8)
  fits : chars.length ≤ ntoaBufferSize

namespace NtoaBuf

def empty : NtoaBuf := ⟨[], Nat.zero_le _⟩

def len (buf : NtoaBuf) : Nat := buf.chars.length

/-- `if (len < PRINTF_NTOA_BUFFER_SIZE) buf[len++] = c` -/
def push (buf : NtoaBuf) (c : BitVec 8) : NtoaBuf :=
  if h : buf.len < ntoaBufferSize then
    ⟨buf.chars ++ [c], by rw [List.length_append]; exact h⟩
  else buf

/-- `len--` -/
def pop (buf : NtoaBuf) : NtoaBuf :=
  ⟨buf.chars.dropLast, by rw [List.length_dropLast]; exact (Nat.sub_le ..).trans buf.fits⟩

def pushes (buf : NtoaBuf) (c : BitVec 8) : Nat → NtoaBuf
  | 0 => buf
  | n + 1 => (buf.push c).pushes c n

/-- `while ((len < n) && (len < PRINTF_NTOA_BUFFER_SIZE)) buf[len++] = '0'` -/
def fill (buf : NtoaBuf) (n : Nat) : NtoaBuf := buf.pushes 0x30 (min n ntoaBufferSize - buf.len)

end NtoaBuf

/-- The character of a digit -/
def digitChar (uppercase : Bool) (digit : Nat) : BitVec 8 :=
  if digit < 10 then BitVec.ofNat 8 (0x30 + digit)
  else BitVec.ofNat 8 ((if uppercase then 0x41 else 0x61) + digit - 10)

/-- The `do` of `_ntoa_long`, with fuel for as many turns as the array has room for. -/
def digitLoop (uppercase : Bool) (base : Nat) : Nat → Nat → NtoaBuf → NtoaBuf
  | 0, _, buf => buf
  | fuel + 1, value, buf =>
      let buf := buf.push (digitChar uppercase (value % base))
      if value / base ≠ 0 ∧ buf.len < ntoaBufferSize then digitLoop uppercase base fuel (value / base) buf
      else buf

def outRev (k : Sink) (s : Output) (buf : NtoaBuf) (width : Nat) (flags : Flags) : Output :=
  let startIdx := s.idx
  let s := if flags.left = false ∧ flags.zeropad = false then s.pad k (width - buf.len) else s
  let s := s.puts k buf.chars.reverse
  if flags.left then s.pad k (width - (s.idx + 2 ^ 64 - startIdx) % 2 ^ 64) else s

/-- The width after `width--`. -/
def ntoaWidth (negative : Bool) (width : Nat) (flags : Flags) : Nat :=
  if flags.left = false ∧ width ≠ 0 ∧ flags.zeropad ∧ (negative ∨ flags.plus ∨ flags.space) then width - 1
  else width

/-- `// pad leading zeros` -/
def padZeros (buf : NtoaBuf) (prec width : Nat) (flags : Flags) : NtoaBuf :=
  if flags.left then buf
  else
    let buf := buf.fill prec
    if flags.zeropad then buf.fill width else buf

/-- `// handle hash` -/
def handleHash (buf : NtoaBuf) (base prec width : Nat) (flags : Flags) : NtoaBuf :=
  if flags.hash then
    let buf :=
      if flags.precision = false ∧ buf.len ≠ 0 ∧ (buf.len = prec ∨ buf.len = width) then
        let buf := buf.pop
        if buf.len ≠ 0 ∧ base = 16 then buf.pop else buf
      else buf
    let buf :=
      if base = 16 ∧ flags.uppercase = false then buf.push 0x78
      else if base = 16 ∧ flags.uppercase then buf.push 0x58
      else if base = 2 then buf.push 0x62
      else buf
    buf.push 0x30
  else buf

def pushSign (buf : NtoaBuf) (negative : Bool) (flags : Flags) : NtoaBuf :=
  if negative then buf.push 0x2D
  else if flags.plus then buf.push 0x2B
  else if flags.space then buf.push 0x20
  else buf

def ntoaFormat (k : Sink) (s : Output) (buf : NtoaBuf) (negative : Bool) (base prec width : Nat) (flags : Flags) :
    Output :=
  let width := ntoaWidth negative width flags
  let buf := padZeros buf prec width flags
  let buf := handleHash buf base prec width flags
  outRev k s (pushSign buf negative flags) width flags

/-- The text of `_ntoa_long` and `_ntoa_long_long`.  Both types have 64 bits. -/
def ntoa (k : Sink) (s : Output) (value : Nat) (negative : Bool) (base prec width : Nat) (flags : Flags) :
    Output :=
  let flags := if value = 0 then { flags with hash := false } else flags
  let buf :=
    if flags.precision = false ∨ value ≠ 0 then digitLoop flags.uppercase base ntoaBufferSize value .empty
    else .empty
  ntoaFormat k s buf negative base prec width flags

def ntoaLong := ntoa

def ntoaLongLong := ntoa

/-! ## Reading the format -/

def isDigit (ch : BitVec 8) : Bool := 0x30 ≤ ch.toNat && ch.toNat ≤ 0x39

/-- The loop of `_atoi`, with the value and the pointer after it. -/
def atoi (m : Bytes) : Nat → Nat → Nat → Option (Nat × Nat)
  | 0, _, _ => none
  | fuel + 1, i, str =>
      if isDigit (m str) then
        atoi m fuel ((i * 10 + ((m str).toNat - 0x30)) % 2 ^ 32) ((str + 1) % 2 ^ 64)
      else some (i, str)

/-- `unsigned int _strnlen_s(const char* str, size_t maxsize)`, with the pointer `s`. -/
def strnlenS (m : Bytes) (str : Nat) : Nat → Nat → Nat → Option Nat
  | 0, _, _ => none
  | fuel + 1, s, maxsize =>
      if m s ≠ 0 ∧ maxsize ≠ 0 then strnlenS m str fuel ((s + 1) % 2 ^ 64) (maxsize - 1)
      else some ((s + 2 ^ 64 - str) % 2 ^ 32)

/-- A flag character and what it sets. -/
def setFlag (flags : Flags) (ch : BitVec 8) : Option Flags :=
  if ch = 0x30 then some { flags with zeropad := true }
  else if ch = 0x2D then some { flags with left := true }
  else if ch = 0x2B then some { flags with plus := true }
  else if ch = 0x20 then some { flags with space := true }
  else if ch = 0x23 then some { flags with hash := true }
  else none

/-- The `do` that evaluates the flags. -/
def flagLoop (m : Bytes) : Nat → Flags → Nat → Option (Flags × Nat)
  | 0, _, _ => none
  | fuel + 1, flags, format =>
      match setFlag flags (m format) with
      | some flags => flagLoop m fuel flags ((format + 1) % 2 ^ 64)
      | none => some (flags, format)

/-- The arguments of the call, and how many have been taken. -/
structure VaList where
  arg : Nat → BitVec 64
  taken : Nat

/-- `va_arg(va, ..)`: the word and the rest. -/
def VaList.next (va : VaList) : BitVec 64 × VaList := (va.arg va.taken, { va with taken := va.taken + 1 })

/-- What has been evaluated of a directive. -/
structure Directive where
  flags : Flags
  width : Nat
  precision : Nat

/-- The directive, with the format and the arguments behind what has been evaluated. -/
structure Scan where
  dir : Directive
  format : Nat
  va : VaList

/-- `// evaluate width field` -/
def scanWidth (m : Bytes) (fuel : Nat) (flags : Flags) (format : Nat) (va : VaList) : Option Scan :=
  if isDigit (m format) then
    (atoi m fuel 0 format).map fun r => ⟨⟨flags, r.1, 0⟩, r.2, va⟩
  else if m format = 0x2A then
    let (word, va) := va.next
    let w : BitVec 32 := word.setWidth 32
    if w.toInt < 0 then some ⟨⟨{ flags with left := true }, (-w).toNat, 0⟩, (format + 1) % 2 ^ 64, va⟩
    else some ⟨⟨flags, w.toNat, 0⟩, (format + 1) % 2 ^ 64, va⟩
  else some ⟨⟨flags, 0, 0⟩, format, va⟩

/-- `// evaluate precision field` -/
def scanPrecision (m : Bytes) (fuel : Nat) (s : Scan) : Option Scan :=
  if m s.format = 0x2E then
    let dir := { s.dir with flags := { s.dir.flags with precision := true } }
    let format := (s.format + 1) % 2 ^ 64
    if isDigit (m format) then
      (atoi m fuel 0 format).map fun r => ⟨{ dir with precision := r.1 }, r.2, s.va⟩
    else if m format = 0x2A then
      let (word, va) := s.va.next
      let prec : BitVec 32 := word.setWidth 32
      some ⟨{ dir with precision := if 0 < prec.toInt then prec.toNat else 0 }, (format + 1) % 2 ^ 64, va⟩
    else some ⟨dir, format, s.va⟩
  else some s

/-- `// evaluate length field` -/
def scanLength (m : Bytes) (s : Scan) : Scan :=
  let next := (s.format + 1) % 2 ^ 64
  let last := (next + 1) % 2 ^ 64
  let set (flags : Flags) (format : Nat) : Scan := { s with dir := { s.dir with flags := flags }, format := format }
  let flags := s.dir.flags
  if m s.format = 0x6C then
    if m next = 0x6C then set { flags with long := true, longLong := true } last
    else set { flags with long := true } next
  else if m s.format = 0x68 then
    if m next = 0x68 then set { flags with short := true, char := true } last
    else set { flags with short := true } next
  else if m s.format = 0x74 ∨ m s.format = 0x6A ∨ m s.format = 0x7A then
    set { flags with long := true } next
  else s

/-! ## The specifiers -/

/-- `value > 0 ? value : 0 - value`, as an unsigned number -/
def magnitude {w : Nat} (value : BitVec w) : Nat := if 0 < value.toInt then value.toNat else (0 - value).toNat

/-- `'d'`, `'i'`, `'u'`, `'x'`, `'X'`, `'o'` or `'b'` -/
def isInteger (c : BitVec 8) : Bool :=
  c = 0x64 || c = 0x69 || c = 0x75 || c = 0x78 || c = 0x58 || c = 0x6F || c = 0x62

/-- `'i'` or `'d'` -/
def isSigned (c : BitVec 8) : Bool := c = 0x69 || c = 0x64

def integerBase (c : BitVec 8) : Nat :=
  if c = 0x78 ∨ c = 0x58 then 16 else if c = 0x6F then 8 else if c = 0x62 then 2 else 10

/-- The flags with which an integer is converted. -/
def integerFlags (c : BitVec 8) (flags : Flags) : Flags :=
  let flags := if integerBase c = 10 then { flags with hash := false } else flags
  let flags := if c = 0x58 then { flags with uppercase := true } else flags
  let flags := if isSigned c then flags else { flags with plus := false, space := false }
  if flags.precision then { flags with zeropad := false } else flags

def putInteger (k : Sink) (s : Output) (c : BitVec 8) (d : Directive) (word : BitVec 64) : Output :=
  let base := integerBase c
  let flags := integerFlags c d.flags
  if isSigned c then
    if flags.longLong then
      ntoaLongLong k s (magnitude word) (word.toInt < 0) base d.precision d.width flags
    else if flags.long then
      ntoaLong k s (magnitude word) (word.toInt < 0) base d.precision d.width flags
    else
      let value : BitVec 32 :=
        if flags.char then (word.setWidth 8).signExtend 32
        else if flags.short then (word.setWidth 16).signExtend 32
        else word.setWidth 32
      ntoaLong k s (magnitude value) (value.toInt < 0) base d.precision d.width flags
  else if flags.longLong then
    ntoaLongLong k s word.toNat false base d.precision d.width flags
  else if flags.long then
    ntoaLong k s word.toNat false base d.precision d.width flags
  else
    let value : BitVec 32 :=
      if flags.char then (word.setWidth 8).setWidth 32
      else if flags.short then (word.setWidth 16).setWidth 32
      else word.setWidth 32
    ntoaLong k s value.toNat false base d.precision d.width flags

def putChar (k : Sink) (s : Output) (d : Directive) (word : BitVec 64) : Output :=
  let s := if d.flags.left then s else s.pad k (d.width - 1)
  let s := s.put k (word.setWidth 8)
  if d.flags.left then s.pad k (d.width - 1) else s

/-- `// string output` -/
def stringLoop (k : Sink) (limited : Bool) : Nat → Output → Nat → Nat → Option Output
  | 0, _, _, _ => none
  | fuel + 1, s, p, precision =>
      if s.world.mem p ≠ 0 ∧ (limited = false ∨ precision ≠ 0) then
        stringLoop k limited fuel (s.put k (s.world.mem p)) ((p + 1) % 2 ^ 64) (precision - 1)
      else some s

def putString (k : Sink) (fuel : Nat) (s : Output) (d : Directive) (word : BitVec 64) : Option Output :=
  let p := word.toNat
  let maxsize := if d.precision ≠ 0 then d.precision else 2 ^ 64 - 1
  (strnlenS s.world.mem p fuel p maxsize).bind fun l =>
    let l := if d.flags.precision then min l d.precision else l
    let s := if d.flags.left then s else s.pad k (d.width - l)
    (stringLoop k d.flags.precision fuel s p d.precision).map fun s =>
      if d.flags.left then s.pad k (d.width - l) else s

def putPointer (k : Sink) (s : Output) (d : Directive) (word : BitVec 64) : Output :=
  ntoaLongLong k s word.toNat false 16 d.precision 16 { d.flags with zeropad := true, uppercase := true }

/-- `// evaluate specifier` -/
def convert (k : Sink) (fuel : Nat) (s : Output) (c : BitVec 8) (d : Directive) (va : VaList) :
    Option (Output × VaList) :=
  let (word, rest) := va.next
  if isInteger c then some (putInteger k s c d word, rest)
  else if c = 0x63 then some (putChar k s d word, rest)
  else if c = 0x73 then (putString k fuel s d word).map fun s => (s, rest)
  else if c = 0x70 then some (putPointer k s d word, rest)
  else if c = 0x25 then some (s.put k 0x25, va)
  else some (s.put k c, va)

/-! ## The whole format -/

structure State where
  output : Output
  format : Nat
  va : VaList

/-- A directive, from the character behind its `%` on. -/
def directive (k : Sink) (fuel : Nat) (s : State) : Option State :=
  let m := s.output.world.mem
  (flagLoop m fuel .none s.format).bind fun r =>
    (scanWidth m fuel r.1 r.2 s.va).bind fun scan =>
      (scanPrecision m fuel scan).bind fun scan =>
        let scan := scanLength m scan
        (convert k fuel s.output (m scan.format) scan.dir scan.va).map fun r =>
          ⟨r.1, (scan.format + 1) % 2 ^ 64, r.2⟩

/-- `while (*format)` -/
def formatLoop (k : Sink) : Nat → State → Option Output
  | 0, _ => none
  | fuel + 1, s =>
      let c := s.output.world.mem s.format
      if c = 0 then some s.output
      else
        let format := (s.format + 1) % 2 ^ 64
        if c ≠ 0x25 then formatLoop k fuel { s with output := s.output.put k c, format := format }
        else (directive k fuel { s with format := format }).bind (formatLoop k fuel)

/-- The result is what is returned, with the world after the call. -/
def vsnprintf (k : Sink) (w : World) (format : Nat) (arg : Nat → BitVec 64) (fuel : Nat) : Option (Int × World) :=
  let k := if k.buffer = 0 then { k with out := .outNull } else k
  (formatLoop k fuel ⟨⟨w, 0⟩, format, ⟨arg, 0⟩⟩).map fun s =>
    ((BitVec.ofNat 32 s.idx).toInt,
      k.put 0 (if s.idx < k.maxlen then s.idx else (k.maxlen + 2 ^ 64 - 1) % 2 ^ 64) s.world)

/-- `(size_t)-1` -/
def sizeMax : Nat := 2 ^ 64 - 1

/-- `buffer` is an array on the stack. -/
def kprintf (buffer : Nat) : World → Nat → (Nat → BitVec 64) → Nat → Option (Int × World) :=
  vsnprintf ⟨.outChar, buffer, sizeMax⟩

def sprintf (buffer : Nat) : World → Nat → (Nat → BitVec 64) → Nat → Option (Int × World) :=
  vsnprintf ⟨.outBuffer, buffer, sizeMax⟩

def snprintf (buffer count : Nat) : World → Nat → (Nat → BitVec 64) → Nat → Option (Int × World) :=
  vsnprintf ⟨.outBuffer, buffer, count⟩

/-- `outFctWrap` is a structure on the stack. -/
def fctprintf (outFctWrap : Nat) : World → Nat → (Nat → BitVec 64) → Nat → Option (Int × World) :=
  vsnprintf ⟨.outFct, outFctWrap, sizeMax⟩

end Kprintf
end GuideOS
