-- SUMMARY: The comparison of index keys, and of composite keys.
import Rustgres.Encoding.Types

/-!
# The Order of Index Keys

Keys compare by value where there is an arm for their types, and by a tag of the type where there is none.
-/

namespace Values

open Encoding (Value Numeric RangeVal MultiVal)

/-- The comparisons of single types that have modules of their own. -/
structure KeyOrders where
  numericNew : Int → Numeric
  numericCmp : Numeric → Numeric → Ordering
  numericToF64 : Numeric → UInt64
  intToF64 : Int → UInt64
  f32ToF64 : UInt32 → UInt64
  jsonbCmp : String → String → Ordering
  rangeCmp : RangeVal Value → RangeVal Value → Ordering
  multirangeCmp : MultiVal Value → MultiVal Value → Ordering

def isExactNumeric : Value → Bool
  | .smallInt _ | .int _ | .bigInt _ | .numeric _ => true
  | _ => false

/-- The integer of an exact numeric of a plain integer type. -/
def exactAsI64 : Value → Option Int
  | .smallInt i => some i.toInt
  | .int i => some i.toInt
  | .bigInt i => some i.toInt
  | _ => none

def isFloat : Value → Bool
  | .float4 _ | .float _ => true
  | _ => false

/-- The position of a float among all bit patterns. -/
def totalPosition (bits : UInt64) : Int :=
  if bits.toNat < 2 ^ 63 then bits.toNat else 2 ^ 63 - 1 - (bits.toNat : Int)

def totalCmp (a b : UInt64) : Ordering := compare (totalPosition a) (totalPosition b)

/-- Text without the spaces behind it. -/
def rtrimSpaces (s : String) : List Char := (s.toList.reverse.dropWhile (· = ' ')).reverse

def textCmp (a b : List Char) : Ordering := compare (a.map Char.toNat) (b.map Char.toNat)

def bytesCmp (a b : Bytes) : Ordering := compare (a.map UInt8.toNat) (b.map UInt8.toNat)

/-- A tag for each type. -/
def typeTag : Value → Nat
  | .null => 0
  | .smallInt _ => 1
  | .int _ => 2
  | .bigInt _ => 3
  | .float4 _ => 4
  | .float _ => 5
  | .numeric _ => 6
  | .text _ => 7
  | .bpChar _ => 7
  | .bool _ => 8
  | .date _ => 9
  | .timestamp _ => 10
  | .timestamptz _ => 11
  | .bytea _ => 12
  | .uuid _ => 13
  | .singleChar _ => 14
  | .pgLsn _ => 15
  | .record _ => 16
  | .array _ _ _ _ => 17
  | .bitString _ => 18
  | .tid _ _ => 19
  | .jsonb _ => 20
  | .jsonpath _ => 21
  | .time _ => 22
  | .timeTz _ _ => 23
  | .interval _ => 24
  | .range _ => 25
  | .multirange _ => 26
  | .tsVector _ => 27
  | .tsQuery _ => 28

section

variable (K : KeyOrders)

def exactNumeric : Value → Numeric
  | .smallInt i => K.numericNew i.toInt
  | .int i => K.numericNew i.toInt
  | .bigInt i => K.numericNew i.toInt
  | .numeric n => n
  | _ => K.numericNew 0

def exactToF64 : Value → UInt64
  | .smallInt i => K.intToF64 i.toInt
  | .int i => K.intToF64 i.toInt
  | .bigInt i => K.intToF64 i.toInt
  | .numeric n => K.numericToF64 n
  | _ => 0

def floatVal : Value → UInt64
  | .float4 f => K.f32ToF64 f
  | .float f => f
  | _ => 0

/-- The arms for pairs of one type, with the tags of the types behind them. -/
def sameTypeCmp (a b : Value) : Ordering :=
  match a, b with
  | .text x, .text y => textCmp x.toList y.toList
  | .bpChar x, .bpChar y => textCmp (rtrimSpaces x) (rtrimSpaces y)
  | .bpChar x, .text y => textCmp (rtrimSpaces x) (rtrimSpaces y)
  | .text x, .bpChar y => textCmp (rtrimSpaces x) (rtrimSpaces y)
  | .bool x, .bool y => compare x.toNat y.toNat
  | .date x, .date y => compare x.toInt y.toInt
  | .timestamp x, .timestamp y => compare x.toInt y.toInt
  | .timestamptz x, .timestamptz y => compare x.toInt y.toInt
  | .bytea x, .bytea y => bytesCmp x y
  | .uuid x, .uuid y => bytesCmp x.1 y.1
  | .singleChar x, .singleChar y => compare x.toNat y.toNat
  | .jsonb x, .jsonb y => K.jsonbCmp x y
  | .range x, .range y => K.rangeCmp x y
  | .multirange x, .multirange y => K.multirangeCmp x y
  | a, b => compare (typeTag a) (typeTag b)

def indexKeyCmp (a b : Value) : Ordering :=
  match a, b with
  | .null, .null => .eq
  | .null, _ => .gt
  | _, .null => .lt
  | x, y =>
    if isExactNumeric x && isExactNumeric y then
      match exactAsI64 x, exactAsI64 y with
      | some a, some b => compare a b
      | _, _ => K.numericCmp (exactNumeric K x) (exactNumeric K y)
    else if isFloat x && isFloat y then totalCmp (floatVal K x) (floatVal K y)
    else if isExactNumeric x && isFloat y then totalCmp (exactToF64 K x) (floatVal K y)
    else if isFloat x && isExactNumeric y then totalCmp (floatVal K x) (exactToF64 K y)
    else sameTypeCmp K x y

end

end Values
