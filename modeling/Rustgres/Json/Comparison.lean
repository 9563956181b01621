-- SUMMARY: How jsonb values are compared, keyed for grouping, and searched in one another.
import Rustgres.Json.Jsonb
import Rustgres.Numeric.Hash
import Rustgres.Numeric.Digits
import Rustgres.Lib.Bytes

/-!
# Comparison of jsonb values

The order, equality, grouping keys, containment and existence of keys.
-/

namespace Json

open Num Bytes

/-! ## Order -/

def jsonbTypeRank : JsonbVal → Nat
  | .null => 0
  | .str _ => 1
  | .number _ => 2
  | .bool _ => 3
  | .array _ => 0x10
  | .object _ => 0x11

mutual

/-- By kind first, and containers by their length before their contents. -/
def jsonbCmp (a b : JsonbVal) : Ordering :=
  if jsonbTypeRank a ≠ jsonbTypeRank b then compare (jsonbTypeRank a) (jsonbTypeRank b)
  else
    match a, b with
    | .null, .null => .eq
    | .str x, .str y => compare (utf8 x) (utf8 y)
    | .number x, .number y => x.cmp y
    | .bool x, .bool y => compare x y
    | .array x, .array y => if x.length ≠ y.length then compare x.length y.length else cmpElems x y
    | .object x, .object y => if x.length ≠ y.length then compare x.length y.length else cmpPairs x y
    | _, _ => .eq

def cmpElems : List JsonbVal → List JsonbVal → Ordering
  | a :: x, b :: y => (jsonbCmp a b).then (cmpElems x y)
  | _, _ => .eq

/-- Keys compare by bytes, not in the order they are stored in. -/
def cmpPairs : List (Text × JsonbVal) → List (Text × JsonbVal) → Ordering
  | (k, a) :: x, (l, b) :: y => (compare (utf8 k) (utf8 l)).then ((jsonbCmp a b).then (cmpPairs x y))
  | _, _ => .eq

end

def jsonbEq (a b : JsonbVal) : Bool := jsonbCmp a b = .eq

/-! ## Grouping keys -/

def specialByte : NumericSpecial → UInt8
  | .finite => 0
  | .nan => 1
  | .posInf => 2
  | .negInf => 3

/-- The digits of a magnitude, with their number before them. -/
def digitBytes (digits : Text) : Bytes := be 8 digits.length ++ digits.map fun c => UInt8.ofNat c.toNat

def magDigits : NumKeyMag → Text
  | .small v => Nat.toDigits 10 v
  | .big m => m.toDecimalString

def valueKeyNumeric (n : Numeric) : Bytes :=
  specialByte n.hashKey.special :: (if n.hashKey.neg then 1 else 0) ::
    (digitBytes (magDigits n.hashKey.mag) ++ be 4 n.hashKey.scale)

/-- A text with its length before it. -/
def textBytes (s : Text) : Bytes := be 8 (utf8 s).length ++ utf8 s

mutual

def jsonbSemanticKey : JsonbVal → Bytes
  | .null => [30]
  | .bool b => [31, if b then 1 else 0]
  | .number n => 32 :: valueKeyNumeric n
  | .str s => 33 :: textBytes s
  | .array elems => 34 :: (be 8 elems.length ++ elemKeys elems)
  | .object pairs => 35 :: (be 8 pairs.length ++ pairKeys pairs)

def elemKeys : List JsonbVal → Bytes
  | [] => []
  | e :: elems => jsonbSemanticKey e ++ elemKeys elems

def pairKeys : List (Text × JsonbVal) → Bytes
  | [] => []
  | (k, v) :: pairs => textBytes k ++ (jsonbSemanticKey v ++ pairKeys pairs)

end

/-! ## Containment -/

mutual

def jsonbContains (a b : JsonbVal) : Bool :=
  match b with
  | .object bpairs =>
    match a with
    | .object apairs => bpairs.all fun p => containsField apairs p.1 p.2
    | _ => false
  | .array belems =>
    match a with
    | .array aelems => belems.all fun be => anyContains aelems be
    | _ => false
  | _ =>
    match a with
    | .array aelems => anyContains aelems b
    | .object _ => false
    | _ => jsonbEq a b

/-- Whether the value of the first pair with the key contains the other. -/
def containsField : List (Text × JsonbVal) → Text → JsonbVal → Bool
  | [], _, _ => false
  | (ak, av) :: pairs, bk, bv => if ak = bk then jsonbContains av bv else containsField pairs bk bv

def anyContains : List JsonbVal → JsonbVal → Bool
  | [], _ => false
  | ae :: elems, be => jsonbContains ae be || anyContains elems be

end

attribute [grind =] jsonbContains containsField anyContains

def jsonbExists (a : JsonbVal) (key : Text) : Bool :=
  match a with
  | .object pairs => pairs.any fun p => p.1 = key
  | .array elems => elems.any fun e =>
    match e with
    | .str s => s = key
    | _ => false
  | _ => false

/-! ## Canonical values -/

mutual

/-- Numbers as the code makes them, and objects with their keys in order and without duplicates. -/
def JsonbVal.Canonical : JsonbVal → Prop
  | .number n => n.Wf
  | .array elems => CanonicalElems elems
  | .object pairs => pairs.Pairwise (fun p q => jsonbKeyCmp p.1 q.1 = .lt) ∧ CanonicalPairs pairs
  | _ => True

def CanonicalElems : List JsonbVal → Prop
  | [] => True
  | e :: elems => e.Canonical ∧ CanonicalElems elems

def CanonicalPairs : List (Text × JsonbVal) → Prop
  | [] => True
  | (_, v) :: pairs => v.Canonical ∧ CanonicalPairs pairs

/-- Every length is that of something in memory. -/
def JsonbVal.Sized : JsonbVal → Prop
  | .str s => (utf8 s).length < 2 ^ 64
  | .array elems => elems.length < 2 ^ 64 ∧ SizedElems elems
  | .object pairs => pairs.length < 2 ^ 64 ∧ SizedPairs pairs
  | _ => True

def SizedElems : List JsonbVal → Prop
  | [] => True
  | e :: elems => e.Sized ∧ SizedElems elems

def SizedPairs : List (Text × JsonbVal) → Prop
  | [] => True
  | (k, v) :: pairs => (utf8 k).length < 2 ^ 64 ∧ v.Sized ∧ SizedPairs pairs

end

end Json
