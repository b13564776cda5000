import Stos.Libc.Format

/-!
# What formatted output should be

Directives as they are written in a format, and the text that integer and string conversions should
give, in terms of the number, the string, the flags, the width and the precision that were written.
-/

namespace Stos.Libc

open List

/-- The unlimited output channel: it keeps the text. -/
def textOut : Out CString where
  emitChar o c := (o ++ [c], true)

/-- The flags of a directive without `#`. -/
inductive Flag where
  | minus | plus | space | zero
  deriving DecidableEq, Repr

/-- How a flag is written. -/
def Flag.char : Flag → BitVec 8
  | .minus => ascii '-'
  | .plus => ascii '+'
  | .space => ascii ' '
  | .zero => ascii '0'

/-- How a size is written. -/
def Size.text : Size → CString
  | .none => []
  | .h => asciis "h"
  | .l => asciis "l"
  | .j => asciis "j"
  | .z => asciis "z"
  | .t => asciis "t"
  | .L => asciis "L"
  | .H => asciis "hh"
  | .q => asciis "ll"

/-- A number in decimal digits. -/
def decimal (n : Nat) : CString := (Nat.toDigits 10 n).map ascii

/-- How a width is written; the width 0 is not written at all. -/
def widthText (width : Nat) : CString := if width = 0 then [] else decimal width

/-- How a precision is written. -/
def precisionText : Option Nat → CString
  | none => []
  | some precision => ascii '.' :: decimal precision

/-- A directive behind its `%`. -/
def written (flags : List Flag) (width : Nat) (precision : Option Nat) (size : Size) (t : BitVec 8) :
    CString :=
  flags.map Flag.char ++ (widthText width ++ (precisionText precision ++ (size.text ++ [t])))

/-! ## Strings -/

/-- The format of a string conversion. -/
def stringFormat (leftAlign : Bool) (width : Nat) (precision : Option Nat) : CString :=
  ascii '%' :: written (if leftAlign then [.minus] else []) width precision .none (ascii 's')

/-- The number of characters of a string that are shown. -/
def shownLength (val : CString) : Option Nat → Nat
  | none => val.length
  | some precision => min val.length precision

/-- The text that a string conversion should give. -/
def stringSpec (leftAlign : Bool) (width : Nat) (precision : Option Nat) (val : CString) : CString :=
  let k := shownLength val precision
  let padding := replicate (width - k) (ascii ' ')
  if leftAlign then val.take k ++ padding else padding ++ val.take k

/-- The widths and precisions that `uint8_t` variables and padding for the whole string handle. -/
def StringFits (width : Nat) (precision : Option Nat) (val : CString) : Prop :=
  (∀ p, precision = some p → p ≤ 255 ∨ val.length ≤ p % 256) ∧
    (width ≤ shownLength val precision ∨ width ≤ 255 ∧ shownLength val precision = val.length)

/-! ## Integers -/

/-- The integer conversions. -/
inductive IntConv where
  | d | i | u | o | x | X
  deriving DecidableEq, Repr

namespace IntConv

/-- How a conversion is written. -/
def char : IntConv → BitVec 8
  | .d => ascii 'd'
  | .i => ascii 'i'
  | .u => ascii 'u'
  | .o => ascii 'o'
  | .x => ascii 'x'
  | .X => ascii 'X'

/-- Whether the argument is of a signed type. -/
def signed : IntConv → Bool
  | .d | .i => true
  | _ => false

def base : IntConv → Nat
  | .o => 8
  | .x | .X => 16
  | _ => 10

end IntConv

/-- The format of an integer conversion. -/
def intFormat (flags : List Flag) (width : Nat) (size : Size) (conv : IntConv) : CString :=
  ascii '%' :: written flags width none size conv.char

/-- The number of bits of an argument. -/
def Size.bits : Size → Nat
  | .H => 8
  | .h => 16
  | .q | .j => 64
  | _ => 32

/-- The values of the type that a conversion with a size takes. -/
def InRange (conv : IntConv) (size : Size) (v : Int) : Prop :=
  if conv.signed then -2 ^ (size.bits - 1) ≤ v ∧ v < 2 ^ (size.bits - 1) else 0 ≤ v ∧ v < 2 ^ size.bits

/-- The first argument is `v`: types shorter than an `int` are promoted. -/
def Passed {F : Type} (env : Env F) (size : Size) (v : Int) : Prop :=
  if size.bits = 64 then env.dword 0 = BitVec.ofInt 64 v else env.words 0 = BitVec.ofInt 32 v

/-- The digits of the absolute value of a number. -/
def numeral (conv : IntConv) (v : Int) : CString :=
  (Nat.toDigits conv.base v.natAbs).map fun c => ascii (if conv = .X then c.toUpper else c)

/-- The sign that the flags ask for. -/
def signText (flags : List Flag) (v : Int) : CString :=
  if v < 0 then [ascii '-']
  else if Flag.plus ∈ flags then [ascii '+']
  else if Flag.space ∈ flags then [ascii ' ']
  else []

/-- The signs a number may have. The flags `+` and `' '` are meant for signed conversions; that an
unsigned number shows them is neither asked for nor excluded. -/
def signs (conv : IntConv) (flags : List Flag) (v : Int) : List CString :=
  if conv.signed then [signText flags v] else [signText flags v, []]

/-- The number with a given sign, padded to a width: spaces behind it for `-`, else zeros between
the sign and the digits for `0`, else spaces in front of it. -/
def padded (flags : List Flag) (width : Nat) (sign digits : CString) : CString :=
  let pad := width - (sign ++ digits).length
  if Flag.minus ∈ flags then sign ++ digits ++ replicate pad (ascii ' ')
  else if Flag.zero ∈ flags then sign ++ replicate pad (ascii '0') ++ digits
  else replicate pad (ascii ' ') ++ (sign ++ digits)

/-- The texts that an integer conversion may give. -/
def intSpec (conv : IntConv) (flags : List Flag) (width : Nat) (v : Int) : List CString :=
  (signs conv flags v).map fun sign => padded flags width sign (numeral conv v)

/-- The values that are right as an `intmax_t`, and whose absolute value is one. -/
def ValueFits (conv : IntConv) (size : Size) (v : Int) : Prop :=
  if conv.signed then v ≠ -2 ^ 63 ∧ (size = .z → 0 ≤ v)
  else (size.bits = 64 → v < 2 ^ 63) ∧ (size = .t → v < 2 ^ 31)

/-- The flag `0` has nothing to pad, or only in front of a number without a sign. -/
def PaddingFits (conv : IntConv) (flags : List Flag) (width : Nat) (v : Int) : Prop :=
  Flag.zero ∈ flags → width ≤ (signText flags v ++ numeral conv v).length ∨
    Flag.minus ∉ flags ∧ signText flags v = []

end Stos.Libc
