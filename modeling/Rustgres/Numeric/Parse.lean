-- SUMMARY: The parser of numeric literals.
import Mathlib
import Rustgres.Numeric.Text
import Rustgres.Numeric.Round

/-!
# Parsing Numerics

A literal is taken apart in passes: sign, special names, base prefix, exponent, point, separators. Its
digits are read as a machine integer, and those that overflow it are read again as a big magnitude.
-/

namespace Num

inductive NumericParseError where
  | badSyntax
  | overflow
deriving DecidableEq

namespace Numeric

/-! ## The passes -/

def isWhitespace (c : Char) : Bool :=
  let v := c.toNat
  (0x09 ≤ v && v ≤ 0x0d) || v = 0x20 || v = 0x85 || v = 0xa0 || v = 0x1680 || (0x2000 ≤ v && v ≤ 0x200a)
    || v = 0x2028 || v = 0x2029 || v = 0x202f || v = 0x205f || v = 0x3000

def trim (s : Text) : Text := ((s.dropWhile isWhitespace).reverse.dropWhile isWhitespace).reverse

def splitSign : Text → Bool × Text
  | '-' :: s => (true, s)
  | '+' :: s => (false, s)
  | s => (false, s)

/-- Digits with separators between them; the first flag asks for a digit, the second has seen one. -/
@[grind =]
def stripSeparators : Bool → Bool → Text → Option Text
  | need, saw, [] => if !saw || need then none else some []
  | need, saw, c :: cs =>
    if c = '_' then if need then none else stripSeparators true saw cs
    else if c.isDigit then (stripSeparators false true cs).map (c :: ·)
    else none

def stripUnderscoresStrict (s : Text) : Option Text :=
  let (neg, digits) := splitSign s
  (stripSeparators true false digits).map fun out => if neg then '-' :: out else out

def stripUnderscoresOptStrict (s : Text) : Option Text :=
  if s.isEmpty then some [] else stripUnderscoresStrict s

def orSyntax {α : Type} : Option α → Except NumericParseError α
  | some a => .ok a
  | none => .error .badSyntax

/-- Hexadecimal and smaller digits. -/
def digitVal (c : Char) : Nat :=
  if c.isDigit then c.toNat - '0'.toNat
  else if 'a' ≤ c ∧ c ≤ 'f' then c.toNat - 'a'.toNat + 10
  else c.toNat - 'A'.toNat + 10

def isHexDigit (c : Char) : Bool :=
  c.isDigit || ('a' ≤ c && c ≤ 'f') || ('A' ≤ c && c ≤ 'F')

def digitOk (base : Nat) (c : Char) : Bool := isHexDigit c && digitVal c < base

@[grind =]
def basedDigits (base : Nat) : Bool → Bool → Nat → Text → Except NumericParseError Nat
  | need, saw, v, [] => if !saw || need then .error .badSyntax else .ok v
  | need, saw, v, c :: cs =>
    if c = '_' then if need then .error .badSyntax else basedDigits base true saw v cs
    else if digitOk base c then
      if v * base + digitVal c > BigUint.i128Max then .error .overflow
      else basedDigits base false true (v * base + digitVal c) cs
    else .error .badSyntax

/-- One separator may follow the prefix. -/
def dropSeparator : Text → Text
  | '_' :: s => s
  | s => s

def parseBased (digits : Text) (base : Nat) (neg : Bool) : Except NumericParseError Numeric :=
  match basedDigits base true false 0 (dropSeparator digits) with
  | .error e => .error e
  | .ok v => .ok (new (if neg then -v else v) 0)

/-- The base of a literal with a prefix. -/
def basePrefix : Text → Option (Nat × Text)
  | '0' :: 'b' :: s | '0' :: 'B' :: s => some (2, s)
  | '0' :: 'o' :: s | '0' :: 'O' :: s => some (8, s)
  | '0' :: 'x' :: s | '0' :: 'X' :: s => some (16, s)
  | _ => none

/-- The text before and after the first character that satisfies the test, without it. -/
def splitAt (p : Char → Bool) (s : Text) : Text × Text :=
  (s.takeWhile fun c => !p c, (s.dropWhile fun c => !p c).drop 1)

def isExp (c : Char) : Bool := c = 'e' || c = 'E'

/-- A sign and digits, as an i32. -/
def readI32 (s : Text) : Option Int :=
  let (neg, digits) := splitSign s
  let v : Int := Nat.ofDigitChars 10 digits 0
  let v := if neg then -v else v
  if v < -2 ^ 31 ∨ v ≥ 2 ^ 31 then none else some v

def readExp (s : Text) : Except NumericParseError Int :=
  if s.isEmpty then .ok 0 else orSyntax ((stripUnderscoresStrict s).bind readI32)

/-- The digits as a machine integer, if it holds them. -/
def machineInt : Nat → Text → Option Nat
  | v, [] => some v
  | v, c :: cs =>
    let v := v * 10 + (c.toNat - '0'.toNat)
    if v > BigUint.i128Max then none else machineInt v cs

/-- The mantissa of a literal, split at its point. -/
def splitMantissa (s : Text) : Except NumericParseError (Text × Text) := do
  let (intRaw, fracRaw) := splitAt (· = '.') s
  let int ← orSyntax (stripUnderscoresOptStrict intRaw)
  let frac ← orSyntax (stripUnderscoresOptStrict fracRaw)
  if int.isEmpty && frac.isEmpty then .error .badSyntax else .ok (int, frac)

/-- A literal with an exponent mark needs an exponent here. -/
def readBigExp (s : Text) : Except NumericParseError Int :=
  if s.any isExp then orSyntax ((stripUnderscoresStrict (splitAt isExp s).2).bind readI32) else .ok 0

end Numeric

namespace BigDec

def maxDigits : Nat := 200000
def maxScale : Int := 200000

/-- The digits are checked before; no other text comes here. -/
def ofDigits (neg : Bool) (digits : Text) (scale : Int) : Except NumericParseError BigDec :=
  if h : ∀ c ∈ digits, c.isDigit then
    let mag := BigUint.fromDecimalStr digits h
    if scale < 0 then .ok (normalize ⟨neg, mag.mulPow10Assign (-scale).toNat, 0⟩)
    else .ok (normalize ⟨neg, mag, scale⟩)
  else .error .badSyntax

def parseDecimal (s : Text) : Except NumericParseError BigDec := do
  let (neg, s) := Numeric.splitSign (Numeric.trim s)
  let exp ← Numeric.readBigExp s
  let (int, frac) ← Numeric.splitMantissa (Numeric.splitAt Numeric.isExp s).1
  let scale : Int := frac.length - exp
  if int.length + frac.length > maxDigits ∨ scale.natAbs > maxScale then .error .overflow
  else ofDigits neg (int ++ frac) scale

end BigDec

namespace Numeric

/-! ## The parser -/

/-- The number from its digits. Those that the machine integer does not hold are read again. -/
def assemble (s : Text) (neg : Bool) (int frac : Text) (exp : Int) : Except NumericParseError Numeric :=
  let scale := wrap32 (frac.length - exp)
  if ((int.length + frac.length : Nat) : Int) - scale > maxIntDigits ∨ scale > 200000 ∨ scale < -200000 then
    .error .overflow
  else
    match machineInt 0 (int ++ frac) with
    | some u => .ok (new (if neg then -u else u) scale)
    | none =>
      match BigDec.parseDecimal s with
      | .error _ => .error .overflow
      | .ok d =>
        match fromBigdec d (max scale 0) with
        | some n => .ok n
        | none => .error .overflow

def parseDecimal (s : Text) (neg : Bool) (rest : Text) : Except NumericParseError Numeric := do
  let exp ← readExp (splitAt isExp rest).2
  let (int, frac) ← splitMantissa (splitAt isExp rest).1
  if (int ++ frac).all Char.isDigit then assemble s neg int frac exp else .error .badSyntax

def parse (s : Text) : Except NumericParseError Numeric :=
  let s := trim s
  if s.isEmpty then .error .badSyntax
  else
    let (neg, rest) := splitSign s
    let lower := rest.map Char.toLower
    if lower = "nan".toList then
      if neg || s.head? = some '+' then .error .badSyntax else .ok nan
    else if lower = "inf".toList ∨ lower = "infinity".toList then
      .ok (if neg then negInfinity else infinity)
    else
      match basePrefix rest with
      | some (base, digits) => parseBased digits base neg
      | none => parseDecimal s neg rest

end Numeric

end Num
