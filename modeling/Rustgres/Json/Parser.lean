-- SUMMARY: The parser of JSON documents.
import Rustgres.Numeric.Parse
import Rustgres.Lib.Scanner

/-!
# JSON Documents

The parser descends at most a hundred levels. A node keeps the source text where a later stage reads
it: that of numbers, and of the two truth values. All errors of the parser are replaced by one of its
callers, so here it has none of its own.
-/

open Scanner Num

namespace Json

inductive JsonNode where
  | null
  | bool (text : Text)
  | number (text : Text)
  | str (s : Text)
  | array (elems : List JsonNode)
  | object (fields : List (Text × JsonNode))

def isSpace (c : Char) : Bool := c = ' ' || c = '\t' || c = '\n' || c = '\r'

def skipWs (s : Text) : Text := s.dropWhile isSpace

/-- The text between the input and its rest. -/
def sliceText (s rest : Text) : Text := s.take (s.length - rest.length)

def literal (lit : Text) (s : Text) : Option Text :=
  if lit.isPrefixOf s then some (s.drop lit.length) else none

/-! ## Numbers -/

def skipDigits (s : Text) : Text := s.dropWhile Char.isDigit

def parseIntPart : Text → Option Text
  | [] => none
  | c :: s => if c = '0' then some s else if c.isDigit then some (skipDigits s) else none

/-- One digit at least. -/
def parseDigits : Text → Option Text
  | [] => none
  | c :: s => if c.isDigit then some (skipDigits s) else none

def parseFraction : Text → Option Text
  | '.' :: s => parseDigits s
  | s => some s

def skipSign : Text → Text
  | '+' :: s | '-' :: s => s
  | s => s

def parseExponent : Text → Option Text
  | 'e' :: s | 'E' :: s => parseDigits (skipSign s)
  | s => some s

def skipMinus : Text → Text
  | '-' :: s => s
  | s => s

def parseNumber (s : Text) : Option Text :=
  ((parseIntPart (skipMinus s)).bind parseFraction).bind parseExponent

/-! ## Strings -/

def parseHex4 : Scan Char Nat
  | a :: b :: c :: d :: s =>
    if Numeric.isHexDigit a && Numeric.isHexDigit b && Numeric.isHexDigit c && Numeric.isHexDigit d then
      some (((Numeric.digitVal a * 16 + Numeric.digitVal b) * 16 + Numeric.digitVal c) * 16
        + Numeric.digitVal d, s)
    else none
  | _ => none

/-- The character of a code point; surrogates are none. -/
def fromU32 (n : Nat) : Option Char := if n.isValidChar then some (Char.ofNat n) else none

def isHighSurrogate (n : Nat) : Bool := 0xd800 ≤ n && n < 0xdc00

def isLowSurrogate (n : Nat) : Bool := 0xdc00 ≤ n && n < 0xe000

/-- The second half of a surrogate pair. -/
def lowSurrogate (high : Nat) : Scan Char Char
  | '\\' :: 'u' :: s =>
    match parseHex4 s with
    | none => none
    | some (low, s) =>
      if isLowSurrogate low then
        (fromU32 (0x10000 + (high - 0xd800) * 1024 + (low - 0xdc00))).map (·, s)
      else none
  | _ => none

def unicodeEscape : Scan Char Char := fun s =>
  match parseHex4 s with
  | none => none
  | some (n, s) => if isHighSurrogate n then lowSurrogate n s else (fromU32 n).map (·, s)

def escapeChar : Scan Char Char
  | '"' :: s => some ('"', s)
  | '\\' :: s => some ('\\', s)
  | '/' :: s => some ('/', s)
  | 'b' :: s => some ('\x08', s)
  | 'f' :: s => some ('\x0c', s)
  | 'n' :: s => some ('\n', s)
  | 'r' :: s => some ('\r', s)
  | 't' :: s => some ('\t', s)
  | 'u' :: s => unicodeEscape s
  | _ => none

def stringStep : Scan Char (Step Char)
  | [] => none
  | c :: s =>
    if c = '"' then some (.stop, s)
    else if c = '\\' then (escapeChar s).map fun r => (.more r.1, r.2)
    else if c.toNat < 0x20 then none
    else some (.more c, s)

def parseString : Scan Char Text
  | '"' :: s => many stringStep s
  | _ => none

/-! ## Values -/

def arrayStep (value : Scan Char JsonNode) : Scan Char (Step JsonNode) := fun s =>
  match value s with
  | none => none
  | some (v, s) =>
    match skipWs s with
    | ',' :: s => some (.more v, s)
    | ']' :: s => some (.last v, s)
    | _ => none

/-- The value after its key. -/
def objectValue (value : Scan Char JsonNode) (key : Text) : Scan Char (Step (Text × JsonNode))
  | ':' :: s =>
    match value s with
    | none => none
    | some (v, s) =>
      match skipWs s with
      | ',' :: s => some (.more (key, v), s)
      | '}' :: s => some (.last (key, v), s)
      | _ => none
  | _ => none

def objectStep (value : Scan Char JsonNode) : Scan Char (Step (Text × JsonNode)) := fun s =>
  match parseString (skipWs s) with
  | none => none
  | some (key, s) => objectValue value key (skipWs s)

def parseElems (value : Scan Char JsonNode) : Scan Char (List JsonNode)
  | ']' :: s => some ([], s)
  | s => many (arrayStep value) s

def parseFields (value : Scan Char JsonNode) : Scan Char (List (Text × JsonNode))
  | '}' :: s => some ([], s)
  | s => many (objectStep value) s

def parseValueInner (value : Scan Char JsonNode) : Scan Char JsonNode := fun s =>
  match skipWs s with
  | [] => none
  | c :: s =>
    if c = 'n' then (literal "null".toList (c :: s)).map (.null, ·)
    else if c = 't' then (literal "true".toList (c :: s)).map (.bool "true".toList, ·)
    else if c = 'f' then (literal "false".toList (c :: s)).map (.bool "false".toList, ·)
    else if c = '"' then (parseString (c :: s)).map fun r => (.str r.1, r.2)
    else if c = '[' then (parseElems value (skipWs s)).map fun r => (.array r.1, r.2)
    else if c = '{' then (parseFields value (skipWs s)).map fun r => (.object r.1, r.2)
    else if c = '-' || c.isDigit then
      (parseNumber (c :: s)).map fun rest => (.number (sliceText (c :: s) rest), rest)
    else none

/-- The fuel is the number of levels left. -/
def parseValue : Nat → Scan Char JsonNode
  | 0 => fun _ => none
  | levels + 1 => parseValueInner (parseValue levels)

def maxJsonDepth : Nat := 100

def parseJson (text : Text) : Option JsonNode :=
  match parseValue maxJsonDepth (skipWs text) with
  | none => none
  | some (root, rest) => if (skipWs rest).isEmpty then some root else none

end Json
