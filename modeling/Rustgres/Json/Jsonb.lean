-- SUMMARY: jsonb values, their canonical text, and their producers.
import Rustgres.Exec.Common
import Rustgres.Json.Parser

/-!
# jsonb

A jsonb value is kept as its text and parsed before each use. Objects have their keys in order, shorter
ones first, without duplicates. Parsed values are remembered by their text for a while; that does not
change what parsing returns.
-/

namespace Json

open Num

inductive JsonbVal where
  | null
  | bool (b : Bool)
  | number (n : Numeric)
  | str (s : Text)
  | array (elems : List JsonbVal)
  | object (pairs : List (Text × JsonbVal))

/-! ## Keys -/

def utf8 (s : Text) : List UInt8 := (String.ofList s).toByteArray.data.toList

/-- Shorter keys first, then by bytes. -/
def jsonbKeyCmp (a b : Text) : Ordering :=
  if (utf8 a).length = (utf8 b).length then compare (utf8 a) (utf8 b)
  else compare (utf8 a).length (utf8 b).length

def nulChar : Char := Char.ofNat 0

def nulError : ExecError := execError "22P02" "\\u0000 cannot be converted to text."

def numericOverflow : ExecError := execError "22003" "value overflows numeric format"

/-- The connection is lost where the code unwraps a missing value. -/
def panicked : ExecError := execError "XX000" "called unwrap on a None value"

/-! ## Parsing -/

/-- A key with its place in the document. -/
abbrev Placed := Nat × Text × JsonbVal

/-- By key, and the last of equal keys first. -/
def placedLe (a b : Placed) : Bool :=
  match jsonbKeyCmp a.2.1 b.2.1 with
  | .lt => true
  | .gt => false
  | .eq => b.1 ≤ a.1

/-- Drop each pair whose key is that of the pair kept before it. -/
def dropRepeated : Option Text → List (Text × JsonbVal) → List (Text × JsonbVal)
  | _, [] => []
  | last, p :: pairs =>
    if last = some p.1 then dropRepeated last pairs else p :: dropRepeated (some p.1) pairs

def uniqueify (pairs : List (Text × JsonbVal)) : List (Text × JsonbVal) :=
  let placed : List Placed := pairs.zipIdx.map fun p => (p.2, p.1)
  dropRepeated none ((placed.mergeSort placedLe).map Prod.snd)

def numberFromText (text : Text) : Except ExecError JsonbVal :=
  match Numeric.parse text with
  | .ok n => .ok (.number n)
  | .error .overflow => .error numericOverflow
  | .error .badSyntax => .error (execError "22P02" "invalid input syntax for type jsonb")

mutual

def jsonbFromNode : JsonNode → Except ExecError JsonbVal
  | .null => .ok .null
  | .bool text => .ok (.bool (text = "true".toList))
  | .number text => numberFromText text
  | .str s => if nulChar ∈ s then .error nulError else .ok (.str s)
  | .array elems => (jsonbFromElems elems).map .array
  | .object fields => (jsonbFromFields fields).map fun pairs => .object (uniqueify pairs)

def jsonbFromElems : List JsonNode → Except ExecError (List JsonbVal)
  | [] => .ok []
  | e :: elems => do
    let v ← jsonbFromNode e
    let vs ← jsonbFromElems elems
    return v :: vs

def jsonbFromFields : List (Text × JsonNode) → Except ExecError (List (Text × JsonbVal))
  | [] => .ok []
  | (k, e) :: fields =>
    if nulChar ∈ k then .error nulError
    else do
      let v ← jsonbFromNode e
      let pairs ← jsonbFromFields fields
      return (k, v) :: pairs

end

/-- The text is quoted in the way of debug output. -/
def invalidJsonb (text : Text) : ExecError :=
  execError "22P02" ("invalid input syntax for type jsonb: " ++ (String.ofList text).quote)

def parseJsonb (text : Text) : Except ExecError JsonbVal :=
  match parseJson text with
  | none => .error (invalidJsonb text)
  | some root => jsonbFromNode root

/-! ## Text -/

def hexDigit (n : Nat) : Char := Nat.digitChar n

def jsonbEscapeChar (c : Char) : Text :=
  if c = '"' then ['\\', '"']
  else if c = '\\' then ['\\', '\\']
  else if c = '\x08' then ['\\', 'b']
  else if c = '\x0c' then ['\\', 'f']
  else if c = '\n' then ['\\', 'n']
  else if c = '\r' then ['\\', 'r']
  else if c = '\t' then ['\\', 't']
  else if c.toNat < 0x20 then ['\\', 'u', '0', '0', hexDigit (c.toNat / 16), hexDigit (c.toNat % 16)]
  else [c]

def jsonbEscapeString (s : Text) : Text := '"' :: (s.flatMap jsonbEscapeChar ++ ['"'])

/-- The separator before all items but the first. -/
def separator (first : Bool) : Text := if first then [] else [',', ' ']

mutual

def JsonbVal.render : JsonbVal → Text
  | .null => "null".toList
  | .bool b => (if b then "true" else "false").toList
  | .number n => n.toText
  | .str s => jsonbEscapeString s
  | .array elems => '[' :: (renderElems true elems ++ [']'])
  | .object pairs => '{' :: (renderPairs true pairs ++ ['}'])

def renderElems : Bool → List JsonbVal → Text
  | _, [] => []
  | first, e :: elems => separator first ++ e.render ++ renderElems false elems

def renderPairs : Bool → List (Text × JsonbVal) → Text
  | _, [] => []
  | first, (k, v) :: pairs =>
    separator first ++ jsonbEscapeString k ++ [':', ' '] ++ v.render ++ renderPairs false pairs

end

def jsonbCanonical (text : Text) : Except ExecError Text := (parseJsonb text).map JsonbVal.render

end Json
