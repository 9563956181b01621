-- SUMMARY: The functions that build jsonb values from others and from SQL values.
import Rustgres.Json.Jsonb

/-!
# Producers of jsonb

Concatenation, changes along a path, deletion, stripping of nulls, and the conversion of SQL values.
-/

namespace Json

open Num

def keyLe (p q : Text × JsonbVal) : Bool := jsonbKeyCmp p.1 q.1 ≠ .gt

def sortPairs (pairs : List (Text × JsonbVal)) : List (Text × JsonbVal) := pairs.mergeSort keyLe

/-! ## Concatenation -/

/-- Give the key its new value, at its place or behind all others. -/
def setPair (pairs : List (Text × JsonbVal)) (p : Text × JsonbVal) : List (Text × JsonbVal) :=
  match pairs.findIdx? (·.1 = p.1) with
  | some i => pairs.set i p
  | none => pairs ++ [p]

def jsonbConcat : JsonbVal → JsonbVal → JsonbVal
  | .object ap, .object bp => .object (sortPairs (bp.foldl setPair ap))
  | .array ae, .array be => .array (ae ++ be)
  | .array ae, other => .array (ae ++ [other])
  | other, .array be => .array (other :: be)
  | x, y => .array [x, y]

/-! ## Paths -/

inductive JsonbPathOp where
  | replace
  | create
  | insertBefore
  | insertAfter
  | delete
deriving DecidableEq

def JsonbPathOp.creates : JsonbPathOp → Bool
  | .create | .insertBefore | .insertAfter => true
  | .replace | .delete => false

/-- The optional sign and the digits of an integer. -/
def readInt : Text → Option Int
  | '-' :: s => if !s.isEmpty && s.all Char.isDigit then some (-Nat.ofDigitChars 10 s 0) else none
  | '+' :: s => if !s.isEmpty && s.all Char.isDigit then some (Nat.ofDigitChars 10 s 0) else none
  | s => if !s.isEmpty && s.all Char.isDigit then some (Nat.ofDigitChars 10 s 0) else none

def isPathSpace (c : Char) : Bool := isSpace c || c = '\x0b' || c = '\x0c'

/-- An array index of 32 bits. -/
def parsePathIndex (s : Text) (level : Nat) : Except ExecError Int :=
  let bad : ExecError := execError "22P02" ("path element at position " ++ toString (level + 1) ++
    " is not an integer: " ++ (String.ofList s).quote)
  match readInt (s.dropWhile isPathSpace) with
  | none => .error bad
  | some i => if i < -2 ^ 31 ∨ i ≥ 2 ^ 31 then .error bad else .ok i

def existingKey : ExecError := execError "22023" "cannot replace existing key"

/-- The last step of a path at an existing key. -/
def setAtKey (pairs : List (Text × JsonbVal)) (pos : Nat) (key : Text) (newval : Option JsonbVal) :
    JsonbPathOp → Except ExecError JsonbVal
  | .insertBefore | .insertAfter => .error existingKey
  | .delete => .ok (.object (pairs.eraseIdx pos))
  | .replace | .create =>
    match newval with
    | none => .error panicked
    | some v => .ok (.object (pairs.set pos (key, v)))

/-- The last step of a path at a missing key. -/
def setMissingKey (pairs : List (Text × JsonbVal)) (key : Text) (newval : Option JsonbVal)
    (op : JsonbPathOp) : Except ExecError JsonbVal :=
  if op.creates then
    match newval with
    | none => .error panicked
    | some v => .ok (.object (sortPairs (pairs ++ [(key, v)])))
  else .ok (.object pairs)

/-- The last step of a path at an element. -/
def setAtIndex (elems : List JsonbVal) (i : Nat) (newval : Option JsonbVal) :
    JsonbPathOp → Except ExecError JsonbVal
  | .delete => .ok (.array (elems.eraseIdx i))
  | .replace | .create =>
    match newval with
    | none => .error panicked
    | some v => .ok (.array (elems.set i v))
  | .insertBefore =>
    match newval with
    | none => .error panicked
    | some v => .ok (.array (elems.insertIdx i v))
  | .insertAfter =>
    match newval with
    | none => .error panicked
    | some v => .ok (.array (elems.insertIdx (i + 1) v))

/-- The last step of a path beside the elements, in front of them or behind. -/
def setBeside (front : Bool) (elems : List JsonbVal) (last : Bool) (newval : Option JsonbVal)
    (op : JsonbPathOp) : Except ExecError JsonbVal :=
  if last && op.creates then
    match newval with
    | none => .error panicked
    | some v => .ok (.array (if front then v :: elems else elems ++ [v]))
  else .ok (.array elems)

/-- Where an index points: before the first element, at one, or behind the last. -/
inductive IndexPlace where
  | front
  | at_ (i : Nat)
  | back

def placeIndex (len : Nat) (raw : Int) : IndexPlace :=
  if len = 0 then .back
  else if raw < 0 then if raw.natAbs > len then .front else .at_ (len - raw.natAbs)
  else if raw ≥ len then .back
  else .at_ raw.toNat

def nullElement (level : Nat) : ExecError :=
  execError "22004" ("path element at position " ++ toString (level + 1) ++ " is null")

/-- The rest of the path from the level on. -/
def setPathRec (newval : Option JsonbVal) (op : JsonbPathOp) :
    JsonbVal → List (Option Text) → Nat → Except ExecError JsonbVal
  | _, [], _ => .error panicked
  | _, none :: _, level => .error (nullElement level)
  | .object pairs, some elem :: path, level =>
    match pairs.findIdx? (·.1 = elem) with
    | none => if path.isEmpty then setMissingKey pairs elem newval op else .ok (.object pairs)
    | some i =>
      if path.isEmpty then setAtKey pairs i elem newval op
      else
        match pairs[i]? with
        | none => .error panicked
        | some p => (setPathRec newval op p.2 path (level + 1)).map fun v =>
          .object (pairs.set i (elem, v))
  | .array elems, some elem :: path, level =>
    match parsePathIndex elem level with
    | .error e => .error e
    | .ok raw =>
      match placeIndex elems.length raw with
      | .front => setBeside true elems path.isEmpty newval op
      | .back => setBeside false elems path.isEmpty newval op
      | .at_ i =>
        if path.isEmpty then setAtIndex elems i newval op
        else
          match elems[i]? with
          | none => .error panicked
          | some e => (setPathRec newval op e path (level + 1)).map fun v => .array (elems.set i v)
  | scalar, some _ :: _, _ => .ok scalar

attribute [grind =] setPathRec

def jsonbSetPath (root : JsonbVal) (path : List (Option Text)) (newval : Option JsonbVal)
    (op : JsonbPathOp) : Except ExecError JsonbVal :=
  setPathRec newval op root path 0

/-! ## Deletion -/

def deleteFromScalar : ExecError := execError "22023" "cannot delete from scalar"

def isStr (key : Text) : JsonbVal → Bool
  | .str s => s = key
  | _ => false

def jsonbDeleteKey (root : JsonbVal) (key : Text) : Except ExecError JsonbVal :=
  match root with
  | .object pairs => .ok (.object (pairs.filter (·.1 ≠ key)))
  | .array elems => .ok (.array (elems.filter fun e => !isStr key e))
  | _ => .error deleteFromScalar

def jsonbDeleteKeys (root : JsonbVal) (keys : List (Option Text)) : Except ExecError JsonbVal :=
  match root with
  | .object _ | .array _ => (keys.filterMap id).foldlM jsonbDeleteKey root
  | _ => .error deleteFromScalar

def jsonbDeleteIdx (root : JsonbVal) (idx : Int) : Except ExecError JsonbVal :=
  match root with
  | .object _ => .error (execError "22023" "cannot delete from object using integer index")
  | .array elems =>
    if idx = -2 ^ 63 then .error panicked
    else if idx < 0 ∧ idx.natAbs > elems.length then .ok root
    else
      let i := if idx < 0 then elems.length + idx else idx
      if i ≥ elems.length then .ok root else .ok (.array (elems.eraseIdx i.toNat))
  | _ => .error deleteFromScalar

/-! ## Nulls -/

def JsonbVal.isNull : JsonbVal → Bool
  | .null => true
  | _ => false

mutual

def jsonbStripNulls (inArrays : Bool) : JsonbVal → JsonbVal
  | .object pairs => .object (stripPairs inArrays pairs)
  | .array elems => .array (stripElems inArrays elems)
  | other => other

def stripPairs (inArrays : Bool) : List (Text × JsonbVal) → List (Text × JsonbVal)
  | [] => []
  | (k, v) :: pairs =>
    if v.isNull then stripPairs inArrays pairs
    else (k, jsonbStripNulls inArrays v) :: stripPairs inArrays pairs

def stripElems (inArrays : Bool) : List JsonbVal → List JsonbVal
  | [] => []
  | e :: elems =>
    if inArrays && e.isNull then stripElems inArrays elems
    else jsonbStripNulls inArrays e :: stripElems inArrays elems

end

/-! ## Canonical objects -/

/-- The last of each run of equal keys. -/
def keepLast : List (Text × JsonbVal) → List (Text × JsonbVal)
  | [] => []
  | [p] => [p]
  | p :: q :: pairs => if p.1 = q.1 then keepLast (q :: pairs) else p :: keepLast (q :: pairs)

mutual

def jsonbCanon : JsonbVal → JsonbVal
  | .array elems => .array (canonElems elems)
  | .object pairs => .object (keepLast (sortPairs (canonPairs pairs)))
  | other => other

def canonElems : List JsonbVal → List JsonbVal
  | [] => []
  | e :: elems => jsonbCanon e :: canonElems elems

def canonPairs : List (Text × JsonbVal) → List (Text × JsonbVal)
  | [] => []
  | (k, v) :: pairs => (k, jsonbCanon v) :: canonPairs pairs

end

/-! ## SQL values -/

/-- Floats, dates and values of other types, as far as jsonb looks at them. -/
structure Scalars (F D O : Type) where
  isNan : F → Bool
  isInfinite : F → Bool
  floatText : F → Text
  xsdText : D → Text
  otherText : O → Option Text

/-- SQL values; the integers of all widths are one, and so are the floats. An array has the sizes of its
dimensions and its elements in order. -/
inductive Datum (F D O : Type) where
  | null
  | bool (b : Bool)
  | int (i : Int)
  | numeric (n : Numeric)
  | float (f : F)
  | jsonb (text : Text)
  | text (s : Text)
  | bpchar (s : Text)
  | array (dims : List Int) (elems : List (Datum F D O))
  | record (fields : List (Text × Datum F D O))
  | datetime (d : D)
  | other (o : O)

def rtrimSpaces (s : Text) : Text := (s.reverse.dropWhile (· = ' ')).reverse

def jsonbStringValue (s : Text) : Except ExecError JsonbVal :=
  if nulChar ∈ s then .error nulError else .ok (.str s)

def intText (i : Int) : Text := Numeric.signText i ++ Nat.toDigits 10 i.natAbs

section

variable {F D O : Type} (sc : Scalars F D O)

def datumFloatToJsonb (f : F) : Except ExecError JsonbVal :=
  if sc.isNan f then
    match Numeric.parse "NaN".toList with
    | .ok n => .ok (.number n)
    | .error _ => .error (execError "22P02" "invalid input syntax for type numeric: \"NaN\"")
  else if sc.isInfinite f then .error numericOverflow
  else
    match Numeric.parse (sc.floatText f) with
    | .ok n => .ok (.number n)
    | .error _ => .error numericOverflow

def datumIntToJsonb (i : Int) : Except ExecError JsonbVal :=
  match Numeric.parse (intText i) with
  | .ok n => .ok (.number n)
  | .error _ => .error panicked

/-- So many items one after the other, each with the place of the next. -/
def takeItems (item : Nat → Except ExecError (JsonbVal × Nat)) :
    Nat → Nat → Except ExecError (List JsonbVal × Nat)
  | 0, cur => .ok ([], cur)
  | n + 1, cur => do
    let (v, cur) ← item cur
    let (vs, cur) ← takeItems item n cur
    return (v :: vs, cur)

/-- The entry at the place, an array where dimensions are left. -/
def datumArrayJsonb (converted : List (Except ExecError JsonbVal)) :
    List Int → Nat → Except ExecError (JsonbVal × Nat)
  | [], cur =>
    match converted[cur]? with
    | none => .error panicked
    | some v => v.map (·, cur + 1)
  | n :: dims, cur =>
    (takeItems (datumArrayJsonb converted dims) n.toNat cur).map fun r => (.array r.1, r.2)

mutual

def datumToJsonb : Datum F D O → Except ExecError JsonbVal
  | .null => .ok .null
  | .bool b => .ok (.bool b)
  | .int i => datumIntToJsonb i
  | .numeric n => .ok (.number n)
  | .float f => datumFloatToJsonb sc f
  | .jsonb text => parseJsonb text
  | .text s => jsonbStringValue s
  | .bpchar s => jsonbStringValue (rtrimSpaces s)
  | .array dims elems =>
    if dims.isEmpty then .ok (.array [])
    else (datumArrayJsonb (datumElems elems) dims 0).map Prod.fst
  | .record fields => (datumFields fields).map fun pairs => jsonbCanon (.object pairs)
  | .datetime d => jsonbStringValue (sc.xsdText d)
  | .other o => jsonbStringValue ((sc.otherText o).getD [])

/-- Each element on its own; only those that the dimensions reach count. -/
def datumElems : List (Datum F D O) → List (Except ExecError JsonbVal)
  | [] => []
  | d :: elems => datumToJsonb d :: datumElems elems

def datumFields : List (Text × Datum F D O) → Except ExecError (List (Text × JsonbVal))
  | [] => .ok []
  | (k, d) :: fields =>
    if nulChar ∈ k then .error nulError
    else do
      let v ← datumToJsonb d
      let pairs ← datumFields fields
      return (k, v) :: pairs

end

end

end Json
