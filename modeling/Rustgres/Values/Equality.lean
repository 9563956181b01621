-- SUMMARY: The comparison operators on values: floats, ranges, records and arrays, and what `=` says.
import Rustgres.Values.Interval
import Rustgres.TextSearch.Comparison
import Rustgres.Json.Comparison
import Rustgres.Encoding.RangeText

/-!
# Equality of Values

Whether `=` holds of two values. Values of two types are first brought to one; how that is done is not looked into, apart
from numbers, padded text and the time zone of a session.
-/

namespace Values

open Encoding (Value Numeric NumericSpecial RangeElem ArrayElem RangeVal MultiVal BitString)
open TextSearch (tsvectorCmp tsqueryCmp)

/-- What comparisons take from other parts of the server: the rounding of exact numbers to floats, a timestamp read in
the zone of the session, the text of a value, the cast of an array's elements, and the comparison of values of two
types. -/
structure Casts where
  intToF64 : Int → UInt64
  numericToF64 : Numeric → UInt64
  timestampAsTimestamptz : Int64 → Int64
  toText : Value → String
  castElem : ArrayElem → Value → Except ExecError Value
  mixedCmp : Value → Value → Except ExecError (Option Ordering)

/-! ## Floats -/

/-- The exponent is all ones and the fraction is not zero. -/
def isNanBits (bits : UInt64) : Bool := 0x7FF0000000000000 < bits.toNat % 2 ^ 63

/-- Bit patterns without their sign, negated under a minus sign, are in the order of the floats. The two zeros are one. -/
def signedBits (bits : UInt64) : Int := if bits.toNat < 2 ^ 63 then bits.toNat else 2 ^ 63 - (bits.toNat : Int)

def pgFloatOrd (a b : UInt64) : Ordering :=
  if isNanBits a then if isNanBits b then .eq else .gt
  else if isNanBits b then .lt
  else compare (signedBits a) (signedBits b)

/-- A single float as a double one. -/
def widenF32 (bits : UInt32) : UInt64 :=
  let sign := bits.toNat / 2 ^ 31
  let exponent := bits.toNat / 2 ^ 23 % 256
  let fraction := bits.toNat % 2 ^ 23
  let magnitude :=
    if exponent = 255 then 2047 * 2 ^ 52 + fraction * 2 ^ 29
    else if exponent = 0 then
      if fraction = 0 then 0
      else (fraction.log2 + 874) * 2 ^ 52 + (fraction * 2 ^ (52 - fraction.log2) - 2 ^ 52)
    else (exponent + 896) * 2 ^ 52 + fraction * 2 ^ 29
  UInt64.ofNat (sign * 2 ^ 63 + magnitude)

/-! ## Numerics -/

def numSpecial : NumericSpecial → Num.NumericSpecial
  | .finite => .finite
  | .nan => .nan
  | .posInf => .posInf
  | .negInf => .negInf

/-- The numeric of a cell. -/
def toNum (n : Numeric) : Num.Numeric :=
  ⟨n.unscaled, n.scale.toInt, n.dscale.toInt.toNat, numSpecial n.special, n.big.map Num.BigUint.fromU128⟩

def numericCmp (a b : Numeric) : Ordering := (toNum a).cmp (toNum b)

/-- An integer as a numeric. -/
def numericOfInt (i : Int) : Numeric := ⟨i, 0, 0, .finite, none⟩

section

variable (C : Casts)

/-! ## Ranges -/

def trimEnd (s : String) : List Char := (s.toList.reverse.dropWhile Encoding.isWhitespace).reverse

def boundCmp (a b : Value) : Ordering :=
  match a, b with
  | .smallInt x, .smallInt y => compare x.toInt y.toInt
  | .int x, .int y => compare x.toInt y.toInt
  | .bigInt x, .bigInt y => compare x.toInt y.toInt
  | .smallInt x, .int y => compare x.toInt y.toInt
  | .int x, .smallInt y => compare x.toInt y.toInt
  | .numeric x, .numeric y => numericCmp x y
  | .date x, .date y => compare x.toInt y.toInt
  | .timestamp x, .timestamp y => compare x.toInt y.toInt
  | .timestamptz x, .timestamptz y => compare x.toInt y.toInt
  | .text x, .text y => textCmp x.toList y.toList
  | .bpChar x, .bpChar y => textCmp (trimEnd x) (trimEnd y)
  | .text x, .bpChar y => textCmp x.toList (trimEnd y)
  | .bpChar x, .text y => textCmp (trimEnd x) y.toList
  | .float x, .float y => pgFloatOrd x y
  | .float4 x, .float4 y => pgFloatOrd (widenF32 x) (widenF32 y)
  | a, b => textCmp (C.toText a).toList (C.toText b).toList

/-- Lower bounds: the infinite first, then by value, the included before the excluded. -/
def loCmp (a b : RangeVal Value) : Ordering :=
  match a.lo, b.lo with
  | none, none => .eq
  | none, some _ => .lt
  | some _, none => .gt
  | some x, some y =>
    match boundCmp C x y with
    | .eq =>
      match a.loInc, b.loInc with
      | true, false => .lt
      | false, true => .gt
      | _, _ => .eq
    | o => o

/-- Upper bounds: the infinite last, else by value, the excluded before the included. -/
def hiCmp (a b : RangeVal Value) : Ordering :=
  match a.hi, b.hi with
  | none, none => .eq
  | none, some _ => .gt
  | some _, none => .lt
  | some x, some y =>
    match boundCmp C x y with
    | .eq =>
      match a.hiInc, b.hiInc with
      | false, true => .lt
      | true, false => .gt
      | _, _ => .eq
    | o => o

/-- The empty range first. -/
def rangeCmp (a b : RangeVal Value) : Ordering :=
  match a.empty, b.empty with
  | true, true => .eq
  | true, false => .lt
  | false, true => .gt
  | false, false => (loCmp C a b).then (hiCmp C a b)

def multirangeCmp (a b : MultiVal Value) : Ordering :=
  (((a.ranges.zip b.ranges).map fun p => rangeCmp C p.1 p.2).find? (· ≠ .eq)).getD
    (compare a.ranges.length b.ranges.length)

/-! ## The comparisons of single types -/

/-- Documents that do not parse compare by their text. -/
def jsonbKeyOrder (x y : String) : Ordering :=
  match Json.parseJsonb x.toList, Json.parseJsonb y.toList with
  | .ok a, .ok b => Json.jsonbCmp a b
  | _, _ => textCmp x.toList y.toList

def keyOrders : KeyOrders where
  numericNew := numericOfInt
  numericCmp := numericCmp
  numericToF64 := C.numericToF64
  intToF64 := C.intToF64
  f32ToF64 := widenF32
  jsonbCmp := jsonbKeyOrder
  rangeCmp := rangeCmp C
  multirangeCmp := multirangeCmp C

/-- Bit strings by their bytes, and then by length in bits. -/
def bitCmp (x y : BitString) : Ordering :=
  let n := min x.bytes.length y.bytes.length
  (bytesCmp (x.bytes.take n) (y.bytes.take n)).then (compare x.bitlen.toNat y.bitlen.toNat)

/-- A time of day is read in UTC, and then by its offset. -/
def timeTzCmp (t1 : Int64) (o1 : Int32) (t2 : Int64) (o2 : Int32) : Ordering :=
  (compare (t1.toInt - o1.toInt * 1000000) (t2.toInt - o2.toInt * 1000000)).then (compare o1.toInt o2.toInt)

/-! ## Type names -/

def elemSqlName : ArrayElem → String
  | .bool => "boolean"
  | .bytea => "bytea"
  | .singleChar => "\"char\""
  | .name => "name"
  | .smallInt => "smallint"
  | .int => "integer"
  | .text => "text"
  | .char => "character"
  | .varchar => "character varying"
  | .bigInt => "bigint"
  | .float4 => "real"
  | .float => "double precision"
  | .date => "date"
  | .timestamp => "timestamp without time zone"
  | .timestamptz => "timestamp with time zone"
  | .time => "time without time zone"
  | .timeTz => "time with time zone"
  | .interval => "interval"
  | .numeric => "numeric"
  | .uuid => "uuid"
  | .regclass => "regclass"
  | .json => "json"
  | .record => "record"
  | .pgLsn => "pg_lsn"
  | .xid => "xid"
  | .bit => "bit"
  | .tid => "tid"
  | .tsVector => "tsvector"
  | .tsQuery => "tsquery"

def rangeName : RangeElem → Option String
  | .int4 => some "int4range"
  | .int8 => some "int8range"
  | .num => some "numrange"
  | .date => some "daterange"
  | .ts => some "tsrange"
  | .tstz => some "tstzrange"
  | _ => none

def multirangeName : RangeElem → Option String
  | .int4 => some "int4multirange"
  | .int8 => some "int8multirange"
  | .num => some "nummultirange"
  | .date => some "datemultirange"
  | .ts => some "tsmultirange"
  | .tstz => some "tstzmultirange"
  | _ => none

def typeName : Value → String
  | .smallInt _ => "smallint"
  | .int _ => "integer"
  | .bigInt _ => "bigint"
  | .float4 _ => "real"
  | .float _ => "double precision"
  | .numeric _ => "numeric"
  | .text _ => "text"
  | .jsonb _ => "jsonb"
  | .jsonpath _ => "jsonpath"
  | .range r => r.name.getD ((rangeName r.elem).getD "range")
  | .multirange m => m.name.getD ((multirangeName m.elem).getD "multirange")
  | .tsVector _ => "tsvector"
  | .tsQuery _ => "tsquery"
  | .bpChar _ => "character"
  | .singleChar _ => "\"char\""
  | .bool _ => "boolean"
  | .date _ => "date"
  | .timestamp _ => "timestamp without time zone"
  | .timestamptz _ => "timestamp with time zone"
  | .time _ => "time without time zone"
  | .timeTz _ _ => "time with time zone"
  | .interval _ => "interval"
  | .bytea _ => "bytea"
  | .bitString _ => "bit"
  | .tid _ _ => "tid"
  | .uuid _ => "uuid"
  | .pgLsn _ => "pg_lsn"
  | .record _ => "record"
  | .array elem _ _ _ => elemSqlName elem ++ "[]"
  | .null => "unknown"

def noOperator (a b : Value) : ExecError :=
  execError "42883" ("operator does not exist: " ++ typeName a ++ " = " ++ typeName b)

/-! ## Equality -/

/-- Numbers compare exactly, or as floats when one of them is one. -/
def numbersCmp (a b : Value) : Ordering :=
  if isExactNumeric a && isExactNumeric b then
    match exactAsI64 a, exactAsI64 b with
    | some x, some y => compare x y
    | _, _ => numericCmp (exactNumeric (keyOrders C) a) (exactNumeric (keyOrders C) b)
  else
    pgFloatOrd (if isFloat a then floatVal (keyOrders C) a else exactToF64 (keyOrders C) a)
      (if isFloat b then floatVal (keyOrders C) b else exactToF64 (keyOrders C) b)

def isNumber (v : Value) : Bool := isExactNumeric v || isFloat v

/-- The arms for two values that are not records. -/
def scalarCmp (a b : Value) : Except ExecError (Option Ordering) :=
  match a, b with
  | .null, _ => .ok none
  | _, .null => .ok none
  | .tsVector x, .tsVector y => .ok (some (tsvectorCmp x y))
  | .tsQuery x, .tsQuery y =>
    match tsqueryCmp x y with
    | some o => .ok (some o)
    | none => .error Json.panicked
  | .range x, .range y => if x.elem = y.elem then .ok (some (rangeCmp C x y)) else .error (noOperator a b)
  | .multirange x, .multirange y =>
    if x.elem = y.elem then .ok (some (multirangeCmp C x y)) else .error (noOperator a b)
  | .text x, .text y => .ok (some (textCmp x.toList y.toList))
  | .jsonb x, .jsonb y =>
    match Json.parseJsonb x.toList, Json.parseJsonb y.toList with
    | .ok a, .ok b => .ok (some (Json.jsonbCmp a b))
    | .error e, _ => .error e
    | _, .error e => .error e
  | .bpChar x, .bpChar y => .ok (some (textCmp (rtrimSpaces x) (rtrimSpaces y)))
  | .bpChar x, .text y => .ok (some (textCmp (rtrimSpaces x) (rtrimSpaces y)))
  | .text x, .bpChar y => .ok (some (textCmp (rtrimSpaces x) (rtrimSpaces y)))
  | .bool x, .bool y => .ok (some (compare x.toNat y.toNat))
  | .date x, .date y => .ok (some (compare x.toInt y.toInt))
  | .timestamp x, .timestamp y => .ok (some (compare x.toInt y.toInt))
  | .timestamptz x, .timestamptz y => .ok (some (compare x.toInt y.toInt))
  | .time x, .time y => .ok (some (compare x.toInt y.toInt))
  | .timeTz t1 o1, .timeTz t2 o2 => .ok (some (timeTzCmp t1 o1 t2 o2))
  | .interval x, .interval y => .ok (some (intervalCmp x y))
  | .timestamp t, .timestamptz z => .ok (some (compare (C.timestampAsTimestamptz t).toInt z.toInt))
  | .timestamptz z, .timestamp t => .ok (some (compare z.toInt (C.timestampAsTimestamptz t).toInt))
  | .bytea x, .bytea y => .ok (some (bytesCmp x y))
  | .uuid x, .uuid y => .ok (some (bytesCmp x.1 y.1))
  | .bitString x, .bitString y => .ok (some (bitCmp x y))
  | .singleChar x, .singleChar y => .ok (some (compare x.toNat y.toNat))
  | a, b =>
    if isNumber a && isNumber b then .ok (some (numbersCmp C a b))
    else if typeTag a = typeTag b then .error (noOperator a b)
    else C.mixedCmp a b

def fieldCounts : ExecError := execError "42883" "cannot compare records with different field counts"

mutual

def cmpOrdering (a b : Value) : Except ExecError (Option Ordering) :=
  match a, b with
  | .record fa, .record fb => if fa.length ≠ fb.length then .error fieldCounts else cmpRecords fa fb false
  | a, b => scalarCmp C a b

/-- Fields that are missing leave it open whether the records are equal, unless others differ. -/
def cmpRecords (fa fb : List (String × Value)) (sawNull : Bool) : Except ExecError (Option Ordering) :=
  match fa, fb with
  | (_, va) :: fa, (_, vb) :: fb =>
    match cmpOrdering va vb with
    | .error e => .error e
    | .ok none => cmpRecords fa fb true
    | .ok (some .eq) => cmpRecords fa fb sawNull
    | .ok (some _) => .ok (some .lt)
  | _, _ => .ok (if sawNull then none else some .eq)

end

def isNanVal : Value → Bool
  | .numeric n => n.special = .nan
  | .float f => isNanBits f
  | .float4 f => isNanBits (widenF32 f)
  | _ => false

/-- Whether `=` holds of two values that are not arrays: true, false or unknown. Any two values that are not a number are
equal. -/
def flatEq (a b : Value) : Except ExecError (Option Bool) :=
  if isNanVal a || isNanVal b then .ok (some (isNanVal a && isNanVal b))
  else (cmpOrdering C a b).map fun o => o.map (· = .eq)

/-- Elements are cast to the type of the elements first. A pair that differs decides. -/
def elemsEq (elem : ArrayElem) (x y : List Value) (nullSeen : Bool) : Except ExecError (Option Bool) :=
  match x, y with
  | a :: x, b :: y =>
    match C.castElem elem a, C.castElem elem b with
    | .ok a, .ok b =>
      match flatEq C a b with
      | .error e => .error e
      | .ok (some false) => .ok (some false)
      | .ok none => elemsEq elem x y true
      | .ok (some true) => elemsEq elem x y nullSeen
    | .error e, _ => .error e
    | _, .error e => .error e
  | _, _ => .ok (if nullSeen then none else some true)

/-- Whether `=` holds. Arrays of two element types are brought to one type first. -/
def evalEq (a b : Value) : Except ExecError (Option Bool) :=
  match a, b with
  | .array e dims _ x, .array e' dims' _ y =>
    if dims ≠ dims' then .ok (some false)
    else if e = e' then elemsEq C e x y false
    else (C.mixedCmp a b).map fun o => o.map (· = .eq)
  | .array _ _ _ _, .null => .ok none
  | .null, .array _ _ _ _ => .ok none
  | .array _ _ _ _, _ => .error (noOperator a b)
  | _, .array _ _ _ _ => .error (noOperator a b)
  | a, b => flatEq C a b

attribute [grind =] scalarCmp cmpOrdering flatEq evalEq

/-- `=` is true. -/
def SqlEq (a b : Value) : Prop := evalEq C a b = .ok (some true)

end

end Values
