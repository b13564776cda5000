import Stos.Misc.Bytes

/-!
# Formatted output of the C library

`__stdio_format_core` with its helpers (`libc/src/stdio/_stdio_format.c`) and `vsnprintf`,
`vsprintf` (`libc/src/stdio/vsnprintf.c`, `libc/src/stdio/vsprintf.c`).

The format is read byte by byte, by an `int` index: there is no result when a byte behind the
terminating NUL is examined or the index overflows, and none when one of the two loops that scale a
`double` does not end within the given number of turns. The variable arguments are the words on the
stack; the strings they point to, the arithmetic of `double` and the values that C leaves open are
parameters (`Env`). The targets of `%n` are kept apart from the output.
-/

namespace Stos.Libc

/-- The byte of an ASCII character. -/
def ascii (c : Char) : BitVec 8 := BitVec.ofNat 8 c.toNat

/-- The bytes of an ASCII string. -/
def asciis (s : String) : CString := s.toList.map ascii

/-- A string in memory, without its terminating NUL. -/
structure NulString where
  chars : CString
  noNul : 0 ∉ chars

/-- The arithmetic of `double`. `toInt` and `toByte` are the conversions to `intmax_t` and `uint8_t`,
whose value is open for numbers out of range. -/
structure Doubles (F : Type) where
  ofBits : BitVec 64 → F
  ofInt : Int → F
  hundredth : F
  add : F → F → F
  sub : F → F → F
  mul : F → F → F
  div : F → F → F
  lt : F → F → Bool
  le : F → F → Bool
  toInt : F → Int
  toByte : F → Nat

/-- What the formatter finds around it. -/
structure Env (F : Type) extends Doubles F where
  /-- The words of the variable arguments. -/
  words : Nat → BitVec 32
  /-- The string that a pointer points to. -/
  strings : BitVec 32 → NulString
  /-- `isdigit` of a byte from 128 on, for which the table of ctype.h has no entry. -/
  beyondTable : BitVec 8 → Bool
  /-- What the buffer of `__int_to_str` holds after `i *= -1` has overflowed. -/
  overflowText : NulString

/-! ## Numbers -/

/-- The array `digit` (_stdio_format.c:21-29). -/
def digit (base : Nat) : CString :=
  if base = 16 then asciis "0123456789abcdef"
  else if base = 17 then asciis "0123456789ABCDEF"
  else asciis "0123456789"

/-- `do { *--p = digit[i % base]; i = i / base; } while (i);` (_stdio_format.c:47-50), with at most
`n` turns. The loop before it has counted as many digits. -/
def digitLoop (digit : CString) (base : Nat) : Nat → Nat → CString → CString
  | 0, _, p => p
  | n + 1, i, p =>
    let p := digit.getD (i % base) 0 :: p
    if i / base = 0 then p else digitLoop digit base n (i / base) p

/-- `__int_to_str` (_stdio_format.c:11-68): the string in the buffer. A number of type `intmax_t` has
less than 64 digits in every base. -/
def intToStr {F : Type} (env : Env F) (i : Int) (base : Nat) (prependPlus prependSpace : Bool)
    (minWidth : Nat) (alignLeft zeroPad : Bool) : CString :=
  if i = -2 ^ 63 then env.overflowText.chars
  else
    let sign :=
      if i < 0 then [ascii '-']
      else if prependPlus then [ascii '+']
      else if prependSpace then [ascii ' ']
      else []
    -- base 17 stands for base 16 with capital letters
    let b := sign ++ digitLoop (digit base) (if base = 17 then 16 else base) 64 i.natAbs []
    let padding := List.replicate (minWidth - b.length) (if zeroPad then ascii '0' else ascii ' ')
    if alignLeft then b ++ padding else padding ++ b

/-! ## Directives -/

/-- The flags of a directive. -/
structure Flags where
  leftAlign : Bool := false
  plusPrepend : Bool := false
  spacePrepend : Bool := false
  zeroPad : Bool := false
  altMode : Bool := false
  deriving DecidableEq, Repr

/-- The size of an argument; `H` stands for `hh` and `q` for `ll`. -/
inductive Size where
  | none | h | l | j | z | t | L | H | q
  deriving DecidableEq, Repr

/-- What is read between a `%` and the type of the conversion, with the type. -/
structure Directive where
  flags : Flags
  width : Nat
  precision : Nat
  precisionSpecified : Bool
  size : Size
  typeSpecifier : BitVec 8
  deriving DecidableEq, Repr

/-- `format[i]`, with an index of type `int`. -/
def charAt (format : NulString) (i : Nat) : Option (BitVec 8) :=
  if i < 2 ^ 31 then (format.chars ++ [0])[i]? else none

/-- `while (p(format[i])) { acc = f(acc, format[i]); i++; }`, with at most `n` turns. -/
def scan {α : Type} (format : NulString) (p : BitVec 8 → Bool) (f : α → BitVec 8 → α) :
    Nat → α → Nat → Option (α × Nat)
  | 0, _, _ => none
  | n + 1, acc, i => do
    let c ← charAt format i
    if p c then scan format p f n (f acc c) (i + 1) else some (acc, i)

/-- The cases of the `switch` that reads flags (_stdio_format.c:167-190). -/
def isFlag (c : BitVec 8) : Bool := c ∈ asciis "-+ 0#"

/-- The effect of one flag. -/
def Flags.set (flags : Flags) (c : BitVec 8) : Flags :=
  if c = ascii '-' then { flags with leftAlign := true }
  else if c = ascii '+' then { flags with plusPrepend := true }
  else if c = ascii ' ' then { flags with spacePrepend := true }
  else if c = ascii '0' then { flags with zeroPad := true }
  else { flags with altMode := true }

/-- `isdigit` (ctype.h:185). -/
def isdigit {F : Type} (env : Env F) (c : BitVec 8) : Bool :=
  if c.toNat < 128 then 48 ≤ c.toNat && c.toNat ≤ 57 else env.beyondTable c

/-- `width *= 10; width += format[i] - '0';` for a `uint8_t`. -/
def addDigit (width : Nat) (c : BitVec 8) : Nat := (width * 10 + c.toNat + 256 - 48) % 256

/-- The letters of the size modes (_stdio_format.c:217-218). -/
def sizeMode (c : BitVec 8) : Option Size :=
  if c = ascii 'h' then some .h
  else if c = ascii 'l' then some .l
  else if c = ascii 'j' then some .j
  else if c = ascii 'z' then some .z
  else if c = ascii 't' then some .t
  else if c = ascii 'L' then some .L
  else none

/-- Reading the size mode (_stdio_format.c:215-229). -/
def readSize (format : NulString) (i : Nat) : Option (Size × Nat) := do
  let c ← charAt format i
  match sizeMode c with
  | none => some (.none, i)
  | some size =>
    let c ← charAt format (i + 1)
    if c = ascii 'h' then some (.H, i + 2)
    else if c = ascii 'l' then some (.q, i + 2)
    else some (size, i + 1)

/-- Reading the precision (_stdio_format.c:200-213). -/
def readPrecision {F : Type} (env : Env F) (format : NulString) (i : Nat) :
    Option (Nat × Bool × Nat) := do
  let c ← charAt format i
  if c = ascii '.' then
    let (precision, i) ← scan format (isdigit env) addDigit (format.chars.length + 1) 0 (i + 1)
    some (precision, true, i)
  else some (6, false, i)

/-- Reading a directive, from behind its `%` up to its type (_stdio_format.c:159-231). -/
def readDirective {F : Type} (env : Env F) (format : NulString) (i : Nat) :
    Option (Directive × Nat) := do
  let (flags, i) ← scan format isFlag Flags.set (format.chars.length + 1) {} i
  let (width, i) ← scan format (isdigit env) addDigit (format.chars.length + 1) 0 i
  let (precision, precisionSpecified, i) ← readPrecision env format i
  let (size, i) ← readSize format i
  let typeSpecifier ← charAt format i
  some ({ flags, width, precision, precisionSpecified, size, typeSpecifier }, i)

/-! ## Output -/

/-- An output channel: `emit_char`, with what it returns as a truth value. -/
structure Out (σ : Type) where
  emitChar : σ → BitVec 8 → σ × Bool

/-- A number that `%n` has stored: the size of the target, its address and the number. -/
structure Store where
  size : Size
  target : BitVec 32
  value : Nat
  deriving DecidableEq, Repr

/-- The state of the output channel, `chars` and the numbers stored by `%n`. -/
structure Progress (σ : Type) where
  out : σ
  chars : Nat
  stores : List Store

section

variable {σ F : Type} (out : Out σ)

/-- `EMIT(c)` (_stdio_format.c:9). The flag is false when the formatter returns. -/
def emit (s : Progress σ) (c : BitVec 8) : Progress σ × Bool :=
  match out.emitChar s.out c with
  | (o, true) => ({ s with out := o, chars := s.chars + 1 }, true)
  | (o, false) => ({ s with out := o }, false)

/-- What follows a step, unless the formatter returned in that step. -/
def andThen (r : Progress σ × Bool) (k : Progress σ → Progress σ × Bool) : Progress σ × Bool :=
  if r.2 then k r.1 else r

/-- `emit_str` (_stdio_format.c:70-77). -/
def emitStr : Progress σ → CString → Progress σ × Bool
  | s, [] => (s, true)
  | s, c :: cs => andThen (emit out s c) fun s => emitStr s cs

/-- `emit_str_with_limit` (_stdio_format.c:79-92). -/
def emitStrWithLimit : Progress σ → CString → Nat → Progress σ × Bool
  | s, [], _ => (s, true)
  | s, c :: cs, limit =>
    if limit = 0 then (s, true)
    else andThen (emit out s c) fun s => emitStrWithLimit s cs (limit - 1)

/-- `for (size_t i = 0; i < pad_count; i++) EMIT(c);` -/
def emitPad (c : BitVec 8) : Nat → Progress σ → Progress σ × Bool
  | 0, s => (s, true)
  | n + 1, s => andThen (emit out s c) (emitPad c n)

/-! ## Conversions -/

/-- The next two argument words. -/
def Env.dword (env : Env F) (a : Nat) : BitVec 64 := env.words (a + 1) ++ env.words a

/-- The argument of an unsigned conversion as an `intmax_t`, and the position of the next argument
(_stdio_format.c:271-353). -/
def unsignedArg (env : Env F) (size : Size) (a : Nat) : Option (Int × Nat) :=
  match size with
  | .none | .l | .z => some ((env.words a).toNat, a + 1)
  | .H => some ((env.words a).toNat % 2 ^ 8, a + 1)
  | .h => some ((env.words a).toNat % 2 ^ 16, a + 1)
  | .q | .j => some ((env.dword a).toInt, a + 2)
  | .t => some ((env.words a).toInt, a + 1)
  | .L => none

/-- The argument of a signed conversion as an `intmax_t`, and the position of the next argument
(_stdio_format.c:356-441). -/
def signedArg (env : Env F) (size : Size) (a : Nat) : Option (Int × Nat) :=
  match size with
  | .none | .l | .t => some ((env.words a).toInt, a + 1)
  | .H => some (((env.words a).setWidth 8).toInt, a + 1)
  | .h => some (((env.words a).setWidth 16).toInt, a + 1)
  | .q | .j => some ((env.dword a).toInt, a + 2)
  | .z => some ((env.words a).toNat, a + 1)
  | .L => none

/-- A converted integer is emitted; `%L` sizes have no case in the `switch`. -/
def convertInt (env : Env F) (d : Directive) (base : Nat) (value : Option (Int × Nat))
    (s : Progress σ) (a : Nat) : (Progress σ × Bool) × Nat :=
  match value with
  | none => ((s, true), a)
  | some (integer, a) =>
    (emitStr out s (intToStr env integer base d.flags.plusPrepend d.flags.spacePrepend d.width
      d.flags.leftAlign d.flags.zeroPad), a)

/-- The block of the source that a type leads to. The types `o`, `p`, `x` and `X` become `u` with
another base, `p` also with another size; a text may stand in front of the number. -/
inductive Conversion where
  | unsigned (base : Nat) (size : Size) (alt : String)
  | signed | char | string | count | double | percent | unknown

/-- The tests of the type (_stdio_format.c:235-600). -/
def Directive.conversion (d : Directive) : Conversion :=
  let t := d.typeSpecifier
  let alt := fun s => if d.flags.altMode then s else ""
  if t = ascii 'o' then .unsigned 8 d.size (alt "0")
  else if t = ascii 'p' then .unsigned 16 .z ""
  else if t = ascii 'x' then .unsigned 16 d.size (alt "0x")
  else if t = ascii 'X' then .unsigned 17 d.size (alt "0X")
  else if t = ascii 'u' then .unsigned 10 d.size ""
  else if t = ascii 'd' ∨ t = ascii 'i' then .signed
  else if t = ascii 'c' then .char
  else if t = ascii 's' then .string
  else if t = ascii 'n' then .count
  else if t = ascii 'f' ∨ t = ascii 'F' ∨ t = ascii 'e' ∨ t = ascii 'E' then .double
  else if t = ascii '%' then .percent
  else .unknown

/-- `%s` (_stdio_format.c:449-471). -/
def convertString (env : Env F) (d : Directive) (s : Progress σ) (a : Nat) :
    (Progress σ × Bool) × Nat :=
  let val := (env.strings (env.words a)).chars
  let padCount := d.width - val.length
  let pad := if d.flags.zeroPad then ascii '0' else ascii ' '
  let r := if d.flags.leftAlign then (s, true) else emitPad out pad padCount s
  let r := andThen r fun s =>
    if d.precisionSpecified then emitStrWithLimit out s val d.precision else emitStr out s val
  let r := andThen r fun s => if d.flags.leftAlign then emitPad out pad padCount s else (s, true)
  (r, a + 1)

/-- `%n` (_stdio_format.c:475-504). The size `L` has no case in the `switch`. -/
def convertCount (env : Env F) (d : Directive) (s : Progress σ) (a : Nat) :
    (Progress σ × Bool) × Nat :=
  if d.size = .L then ((s, true), a)
  else (({ s with stores := ⟨d.size, env.words a, s.chars⟩ :: s.stores }, true), a + 1)

/-- A value of type `intmax_t` after an overflow. -/
def wrap64 (v : Int) : Int := Int.bmod v (2 ^ 64)

/-- `while (eMode && (floating >= 10 || floating <= -10)) { floating /= 10; expo++; }`
(_stdio_format.c:523-526), with less than `n` turns. -/
def scaleDown (D : Doubles F) : Nat → F → Int → Option (F × Int)
  | 0, _, _ => none
  | n + 1, floating, expo =>
    if D.le (D.ofInt 10) floating || D.le floating (D.ofInt (-10)) then
      scaleDown D n (D.div floating (D.ofInt 10)) (expo + 1)
    else some (floating, expo)

/-- `while (eMode && floating < 1 && floating > -1) { floating *= 10; expo--; }`
(_stdio_format.c:527-530), with less than `n` turns. -/
def scaleUp (D : Doubles F) : Nat → F → Int → Option (F × Int)
  | 0, _, _ => none
  | n + 1, floating, expo =>
    if D.lt floating (D.ofInt 1) && D.lt (D.ofInt (-1)) floating then
      scaleUp D n (D.mul floating (D.ofInt 10)) (expo - 1)
    else some (floating, expo)

/-- The integer part and the decimal places of a number, rounded (_stdio_format.c:535-559). -/
def splitDouble (D : Doubles F) (floating : F) (precision : Nat) : Int × Int :=
  let intPart := D.toInt floating
  let frac := D.sub floating (D.ofInt intPart)
  let frac := if D.lt frac (D.ofInt 0) then D.mul frac (D.ofInt (-1)) else frac
  let frac := Nat.repeat (fun x => D.mul x (D.ofInt 10)) precision frac
  let decPlaces := D.toInt frac
  let nextDigit := D.toByte
    (D.add (D.sub (D.mul frac (D.ofInt 10)) (D.ofInt (wrap64 (decPlaces * 10)))) D.hundredth)
  let decPlaces := if 5 ≤ nextDigit then wrap64 (decPlaces + 1) else decPlaces
  let divisor := Nat.repeat (fun x => wrap64 (x * 10)) precision 1
  if divisor ≤ decPlaces then
    (wrap64 (intPart + if D.le (D.ofInt 0) floating then 1 else -1), wrap64 (decPlaces - divisor))
  else (intPart, decPlaces)

/-- Whether a number is shown with an exponent (_stdio_format.c:507-518). -/
def Directive.eMode (d : Directive) : Bool := d.typeSpecifier = ascii 'e' ∨ d.typeSpecifier = ascii 'E'

/-- The two loops that scale a number (_stdio_format.c:523-530), each with less than `fuel` turns. -/
def scale (D : Doubles F) (fuel : Nat) (eMode : Bool) (floating : F) : Option (F × Int) :=
  if eMode then do
    let (floating, expo) ← scaleDown D fuel floating 0
    scaleUp D fuel floating expo
  else some (floating, 0)

/-- The width that is left for the integer part (_stdio_format.c:561-569). -/
def integerWidth (d : Directive) (expo : Int) : Nat :=
  let form := (d.width : Int) - d.precision - expo -
    (if d.precision ≠ 0 ∨ d.flags.altMode then 1 else 0)
  let form := if d.eMode then form - 4 else form
  form.toNat % 256

/-- The output of a scaled number (_stdio_format.c:535-595). -/
def emitDouble (env : Env F) (d : Directive) (floating : F) (expo : Int) (s : Progress σ) :
    Progress σ × Bool :=
  let (intPart, decPlaces) := splitDouble env.toDoubles floating d.precision
  let r := emitStr out s (intToStr env intPart 10 d.flags.plusPrepend d.flags.spacePrepend
    (integerWidth d expo) d.flags.leftAlign d.flags.zeroPad)
  let r := andThen r fun s =>
    if d.precision ≠ 0 then
      andThen (emit out s (ascii '.')) fun s =>
        emitStr out s ((intToStr env decPlaces 10 false false d.precision false true).take d.precision)
    else if d.flags.altMode then emit out s (ascii '.')
    else (s, true)
  andThen r fun s =>
    if d.eMode then
      andThen (emit out s (if d.typeSpecifier = ascii 'E' then ascii 'E' else ascii 'e')) fun s =>
        emitStr out s (intToStr env expo 10 false false 0 false false)
    else (s, true)

/-- `%f`, `%F`, `%e` and `%E` (_stdio_format.c:506-596). -/
def convertDouble (fuel : Nat) (env : Env F) (d : Directive) (s : Progress σ) (a : Nat) :
    Option ((Progress σ × Bool) × Nat) := do
  let (floating, expo) ← scale env.toDoubles fuel d.eMode (env.ofBits (env.dword a))
  some (emitDouble out env d floating expo s, a + 2)

/-- The conversion of a directive (_stdio_format.c:231-602). -/
def convert (fuel : Nat) (env : Env F) (d : Directive) (s : Progress σ) (a : Nat) :
    Option ((Progress σ × Bool) × Nat) :=
  match d.conversion with
  | .unsigned base size alt =>
    match emitStr out s (asciis alt) with
    | (s, true) => some (convertInt out env d base (unsignedArg env size a) s a)
    | (s, false) => some ((s, false), a)
  | .signed => some (convertInt out env d 10 (signedArg env d.size a) s a)
  | .char => some (emit out s ((env.words a).setWidth 8), a + 1)
  | .string => some (convertString out env d s a)
  | .count => some (convertCount env d s a)
  | .double => convertDouble out fuel env d s a
  | .percent => some (emit out s (ascii '%'), a)
  | .unknown => some ((s, true), a)

/-- The loop of `__stdio_format_core` (_stdio_format.c:149-600) from index `i` on, with `a` the
position of the next argument and at most `n` turns. -/
def formatLoop (fuel : Nat) (env : Env F) (format : NulString) :
    Nat → Progress σ → Nat → Nat → Option (Progress σ)
  | 0, _, _, _ => none
  | n + 1, s, a, i => do
    let c ← charAt format i
    if c = 0 then some s
    else if c ≠ ascii '%' then
      match emit out s c with
      | (s, true) => formatLoop fuel env format n s a (i + 1)
      | (s, false) => some s
    else
      let (d, i) ← readDirective env format (i + 1)
      match ← convert out fuel env d s a with
      | ((s, true), a) => formatLoop fuel env format n s a (i + 1)
      | ((s, false), _) => some s

/-- `__stdio_format_core` (_stdio_format.c:141-602). -/
def stdioFormatCore (fuel : Nat) (env : Env F) (format : NulString) (s : σ) : Option (Progress σ) :=
  formatLoop out fuel env format (format.chars.length + 1) ⟨s, 0, []⟩ 0 0

end

/-! ## Output to a string -/

/-- The string buffer of `__stdio_format_out_t`, with the memory it lies in. -/
structure StrOut where
  mem : Mem
  s : Nat
  cap : Nat
  len : Nat

/-- `emit_char` (vsnprintf.c:7-16). -/
def strOut : Out StrOut where
  emitChar o c :=
    if (o.len + 1) % 2 ^ 32 < o.cap then
      ({ o with mem := write8 o.mem ((o.s + o.len) % 2 ^ 32) c, len := (o.len + 1) % 2 ^ 32 }, true)
    else (o, false)

/-- `vsnprintf` (vsnprintf.c:18-34): the memory and the returned number. -/
def vsnprintf {F : Type} (fuel : Nat) (env : Env F) (m : Mem) (buffer n : Nat) (format : NulString) :
    Option (Mem × Nat) := do
  let r ← stdioFormatCore strOut fuel env format { mem := m, s := buffer, cap := n, len := 0 }
  let m := if 0 < n then write8 r.out.mem ((buffer + r.out.len) % 2 ^ 32) 0 else r.out.mem
  some (m, r.chars)

/-- `vsprintf` (vsprintf.c:5-8). -/
def vsprintf {F : Type} (fuel : Nat) (env : Env F) (m : Mem) (buffer : Nat) (format : NulString) :
    Option (Mem × Nat) :=
  vsnprintf fuel env m buffer (2 ^ 32 - 1) format

end Stos.Libc
