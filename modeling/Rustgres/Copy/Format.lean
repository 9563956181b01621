-- SUMMARY: COPY data in text and CSV form: the writer of rows and the two readers.
import Rustgres.Lib.Utf8

/-!
# COPY Data

A row is written as a line of fields. The text form escapes bytes by a backslash, the CSV form puts quotes
around fields; in both a null is a string of its own. The options are single bytes and the null string, each
set without regard to the others.
-/

namespace Copy

inductive CopyFormat where
  | text
  | csv
deriving DecidableEq, Repr

structure CopyOptions where
  format : CopyFormat
  delimiter : UInt8
  null : String
  header : Bool
  quote : UInt8
  escape : UInt8

/-- The options of a COPY without any. -/
def CopyOptions.default : CopyOptions :=
  ⟨.text, 9, "\\N", false, 34, 34⟩

inductive CopyField where
  | text (s : String)
  | null
deriving DecidableEq, Repr

structure CopyParseError where
  line : Nat
  message : String
deriving DecidableEq, Repr

-- Bytes that mean something to the readers.
def backslash : UInt8 := 92

def newline : UInt8 := 10

def carriageReturn : UInt8 := 13

open Utf8 (bytes)

variable (o : CopyOptions)

/-! ## The writer -/

/-- What stands for a byte; the delimiter comes last. -/
def escapeByte (b : UInt8) : List UInt8 :=
  if b = backslash then [backslash, backslash]
  else if b = 8 then [backslash, 98]
  else if b = 12 then [backslash, 102]
  else if b = newline then [backslash, 110]
  else if b = carriageReturn then [backslash, 114]
  else if b = 9 then [backslash, 116]
  else if b = 11 then [backslash, 118]
  else if b = o.delimiter then [backslash, b]
  else [b]

def escapeText (s : String) : List UInt8 := (bytes s).flatMap (escapeByte o)

/-- A field is quoted if it has a byte that matters, or reads as the null string. -/
def needsQuote (s : String) : Bool :=
  (bytes s).any (fun b => b = o.delimiter ∨ b = o.quote ∨ b = newline ∨ b = carriageReturn) ||
    decide (s = o.null)

def quoteByte (b : UInt8) : List UInt8 := if b = o.quote then [o.escape, b] else [b]

def quoted (s : String) : List UInt8 := o.quote :: ((bytes s).flatMap (quoteByte o) ++ [o.quote])

/-- The bytes of one field. -/
def fieldBytes (f : String) (isNull : Bool) : List UInt8 :=
  if isNull then bytes o.null
  else
    match o.format with
    | .text => escapeText o f
    | .csv => if needsQuote o f then quoted o f else bytes f

def formatRow (fields : List String) (isNull : List Bool) : List UInt8 :=
  List.intercalate [o.delimiter] (List.zipWith (fieldBytes o) fields isNull) ++ [newline]

def CopyField.string : CopyField → String
  | .text s => s
  | .null => ""

def CopyField.isNull : CopyField → Bool
  | .text _ => false
  | .null => true

/-- A row as the server hands it over: nulls are empty and marked. -/
def sendRow (row : List CopyField) : List UInt8 :=
  formatRow o (row.map CopyField.string) (row.map CopyField.isNull)

/-- All data of a COPY TO: the names if a header is asked for, then the rows. -/
def copyOut (names : List String) (rows : List (List CopyField)) : List UInt8 :=
  (if o.header then formatRow o names (names.map fun _ => false) else []) ++ rows.flatMap (sendRow o)

def columnCountError (line ncols found : Nat) : CopyParseError :=
  ⟨line, s!"expected {ncols} column(s) but found {found}"⟩

/-! ## The reader of text -/

/-- Drop one carriage return before the end of a line. -/
def dropReturn (line : List UInt8) : List UInt8 :=
  if line.getLast? = some carriageReturn then line.dropLast else line

/-- The lines, with what has been read of the first; only a line that ends loses its carriage return. -/
@[grind =]
def splitLines : List UInt8 → List UInt8 → List (List UInt8)
  | [], line => if line = [] then [] else [line]
  | b :: rest, line =>
    if b = newline then dropReturn line :: splitLines rest [] else splitLines rest (line ++ [b])

/-- The fields of a line, with what has been read of the first. A backslash takes the byte behind it
along. -/
@[grind =]
def splitTextLine (delimiter : UInt8) : List UInt8 → List UInt8 → List (List UInt8)
  | [], field => [field]
  | [b], field => if b = delimiter then [field, []] else [field ++ [b]]
  | b :: c :: rest, field =>
    if b = backslash then splitTextLine delimiter rest (field ++ [b, c])
    else if b = delimiter then field :: splitTextLine delimiter (c :: rest) []
    else splitTextLine delimiter (c :: rest) (field ++ [b])

/-- What a byte behind a backslash stands for. -/
def unescapeByte (b : UInt8) : UInt8 :=
  if b = 98 then 8
  else if b = 102 then 12
  else if b = 110 then newline
  else if b = 114 then carriageReturn
  else if b = 116 then 9
  else if b = 118 then 11
  else b

def unescapeBytes : List UInt8 → Option (List UInt8)
  | [] => some []
  | [b] => if b = backslash then none else some [b]
  | b :: c :: rest =>
    if b = backslash then (unescapeBytes rest).map (unescapeByte c :: ·)
    else (unescapeBytes (c :: rest)).map (b :: ·)

def ofUtf8 (lineno : Nat) (bs : List UInt8) : Except CopyParseError String :=
  match Utf8.ofBytes bs with
  | some s => .ok s
  | none => .error ⟨lineno, "invalid UTF-8 in COPY data"⟩

def unescapeText (field : List UInt8) (lineno : Nat) : Except CopyParseError String :=
  match unescapeBytes field with
  | none => .error ⟨lineno, "unexpected backslash at end of field"⟩
  | some bs => ofUtf8 lineno bs

/-- The null string is looked for before anything is unescaped. -/
def readTextField (lineno : Nat) (f : List UInt8) : Except CopyParseError CopyField :=
  if f = bytes o.null then .ok .null else (unescapeText f lineno).map .text

/-- The rows from line `li` on; the last line may be the empty one behind the last newline. -/
def textRows (ncols : Nat) (ended : Bool) :
    Nat → List (List UInt8) → Except CopyParseError (List (List CopyField))
  | _, [] => .ok []
  | li, line :: lines =>
    if o.header ∧ li = 0 then textRows ncols ended (li + 1) lines
    else if line = [] ∧ lines = [] ∧ ended then textRows ncols ended (li + 1) lines
    else
      let fields := splitTextLine o.delimiter line []
      if fields.length ≠ ncols then .error (columnCountError (li + 1) ncols fields.length)
      else
        match fields.mapM (readTextField o (li + 1)) with
        | .error e => .error e
        | .ok row => (textRows ncols ended (li + 1) lines).map (row :: ·)

def parseTextRows (data : List UInt8) (ncols : Nat) : Except CopyParseError (List (List CopyField)) :=
  textRows o ncols (data.getLast? = some newline) 0 (splitLines data [])

/-! ## The reader of CSV -/

/-- The state of the reader: the rows, the row and the field so far, and the plain bytes since the field was
last added to. -/
structure CsvReader where
  rows : List (List CopyField)
  row : List CopyField
  field : List UInt8
  run : List UInt8
  inQuotes : Bool
  fieldQuoted : Bool
  atStart : Bool
  lineno : Nat
  skipped : Bool

namespace CsvReader

def initial : CsvReader := ⟨[], [], [], [], false, false, true, 1, false⟩

def flushRun (r : CsvReader) : CsvReader := { r with field := r.field ++ r.run, run := [] }

/-- End a field. The bytes of a null stay where they are. -/
def endField (r : CsvReader) : Except CopyParseError CsvReader :=
  if !r.fieldQuoted ∧ r.field = bytes o.null then
    .ok { r with row := r.row ++ [.null], fieldQuoted := false }
  else
    (ofUtf8 r.lineno r.field).map fun s =>
      { r with row := r.row ++ [.text s], field := [], fieldQuoted := false }

def endRow (ncols : Nat) (r : CsvReader) : Except CopyParseError CsvReader :=
  match r.endField o with
  | .error e => .error e
  | .ok r =>
    if r.row.length ≠ ncols then .error (columnCountError r.lineno ncols r.row.length)
    else .ok { r with rows := r.rows ++ [r.row], row := [] }

/-- The first row is dropped if it is a header. -/
def skipHeader (r : CsvReader) : CsvReader :=
  if o.header ∧ !r.skipped ∧ r.rows ≠ [] then { r with rows := r.rows.dropLast, skipped := true } else r

def plain (b : UInt8) (r : CsvReader) : CsvReader := { r with run := r.run ++ [b], atStart := false }

end CsvReader

/-- One byte, with the next one in sight; the answer says whether that one is used up as well. -/
def csvStep (ncols : Nat) (b : UInt8) (next : Option UInt8) (r : CsvReader) :
    Except CopyParseError (CsvReader × Bool) :=
  if r.inQuotes then
    if b = o.escape ∧ next = some o.quote then
      .ok ({ r.flushRun with field := r.flushRun.field ++ [o.quote], atStart := false }, true)
    else if b = o.quote then .ok ({ r.flushRun with inQuotes := false, atStart := false }, false)
    else .ok (r.plain b, false)
  else if b = o.quote ∧ r.atStart then
    .ok ({ r with run := [], inQuotes := true, fieldQuoted := true, atStart := false }, false)
  else if b = o.delimiter then
    (r.flushRun.endField o).map fun r => ({ r with atStart := true }, false)
  else if b = newline then
    (r.flushRun.endRow o ncols).map fun r =>
      ({ r.skipHeader o with lineno := r.lineno + 1, atStart := true }, false)
  else if b = carriageReturn ∧ next = some newline then
    .ok ({ r.flushRun with atStart := false }, false)
  else .ok (r.plain b, false)

/-- Byte after byte, but for one that is used up already. -/
def csvLoop (ncols : Nat) : List UInt8 → Bool → CsvReader → Except CopyParseError CsvReader
  | [], _, r => .ok r
  | b :: rest, used, r =>
    if used then csvLoop ncols rest false r
    else
      match csvStep o ncols b rest.head? r with
      | .error e => .error e
      | .ok (r, used) => csvLoop ncols rest used r

/-- At the end of the data, end a row that has been begun. -/
def csvFinish (ncols : Nat) (r : CsvReader) : Except CopyParseError (List (List CopyField)) :=
  if r.inQuotes then .error ⟨r.lineno, "unterminated quoted field"⟩
  else
    let r := r.flushRun
    if r.field ≠ [] ∨ r.row ≠ [] ∨ r.fieldQuoted then
      (r.endRow o ncols).map fun r => if o.header ∧ !r.skipped then r.rows.dropLast else r.rows
    else .ok r.rows

def parseCsvRows (data : List UInt8) (ncols : Nat) : Except CopyParseError (List (List CopyField)) :=
  match csvLoop o ncols data false .initial with
  | .error e => .error e
  | .ok r => csvFinish o ncols r

def parseRows (data : List UInt8) (ncols : Nat) : Except CopyParseError (List (List CopyField)) :=
  match o.format with
  | .text => parseTextRows o data ncols
  | .csv => parseCsvRows o data ncols

end Copy
