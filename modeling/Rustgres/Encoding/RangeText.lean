-- SUMMARY: The text of ranges: how it is written and parsed back, and where the parser panics.
import Rustgres.Encoding.Types

/-!
# The Text of Ranges

`range_out` quotes the bounds of a range, and `range_in` takes them apart byte by byte. The texts of
single bounds and the canonical form of a range are of any kind.
-/

open Codecs

namespace Encoding

/-- The bounds of ranges: their text, its parser, and the ranges built from them. -/
structure BoundForms where
  boundText : Value → String
  parseBound : RangeElem → String → Except Fault Value
  makeRange : RangeElem → Option String → Option Value → Bool → Option Value → Bool →
    Except Fault (RangeVal Value)

/-! ## Output -/

/-- Unicode white space. -/
def isWhitespace (c : Char) : Bool :=
  let n := c.toNat
  (9 ≤ n && n ≤ 13) || n = 0x20 || n = 0x85 || n = 0xA0 || n = 0x1680 || (0x2000 ≤ n && n ≤ 0x200A) ||
    n = 0x2028 || n = 0x2029 || n = 0x202F || n = 0x205F || n = 0x3000

def needsQuotes (s : List Char) : Bool :=
  s.isEmpty || s.any fun c => isWhitespace c || "\"\\()[],".toList.contains c

/-- Double the quotes and backslashes. -/
def escapeChar (c : Char) : List Char := if c = '"' ∨ c = '\\' then [c, c] else [c]

def boundEscape (s : List Char) : List Char :=
  if needsQuotes s then '"' :: (s.flatMap escapeChar ++ ['"']) else s

section

variable (B : BoundForms)

def boundChars (b : Option Value) : List Char :=
  (b.map fun v => boundEscape (B.boundText v).toList).getD []

def rangeChars (r : RangeVal Value) : List Char :=
  if r.empty then "empty".toList
  else
    (if r.loInc then '[' else '(') :: (boundChars B r.lo ++ ',' ::
      (boundChars B r.hi ++ [if r.hiInc then ']' else ')']))

def rangeToText (r : RangeVal Value) : String := String.ofList (rangeChars B r)

end

/-! ## Input -/

def malformed (input : String) : Fault :=
  .error ("malformed range literal: \"" ++ input ++ "\"")

/-- The character whose code is the byte. -/
def latin1 (b : UInt8) : Char := Char.ofNat b.toNat

def skipWs : Bytes → Bytes
  | [] => []
  | b :: rest => if isWhitespace (latin1 b) then skipWs rest else b :: rest

/-- The byte is inside a character. -/
def isContinuation (b : UInt8) : Bool := 0x80 ≤ b && b < 0xC0

/-- The first five bytes end inside a character. -/
def CutsChar (b : Bytes) : Prop := 5 ≤ b.length ∧ ∃ c ∈ b[5]?, isContinuation c

instance (b : Bytes) : Decidable (CutsChar b) := by
  unfold CutsChar
  cases b[5]? with
  | none => exact .isFalse (by simp)
  | some c => exact decidable_of_iff (5 ≤ b.length ∧ isContinuation c) (by simp)

/-- The word `empty` in any case; slicing inside a character panics. -/
def startsEmpty (b : Bytes) : Except Fault Bool :=
  if b.length < 5 then .ok false
  else if CutsChar b then .error .panic
  else .ok ((b.take 5).map (fun c => (latin1 c).toLower) = "empty".toList)

/-- The characters of a bound up to its end, each byte taken for a character. -/
def rawBound (err : Fault) (inquote : Bool) (out : List Char) : Bytes → Except Fault (List Char × Bytes)
  | [] => .error err
  | ch :: rest =>
    if ch = 92 then
      match rest with
      | [] => .error err
      | nxt :: rest => rawBound err inquote (out ++ [latin1 nxt]) rest
    else if ch = 34 then
      if inquote then
        match rest with
        | c :: rest' =>
          if c = 34 then rawBound err inquote (out ++ ['"']) rest' else rawBound err false out (c :: rest')
        | [] => rawBound err false out []
      else rawBound err true out rest
    else if !inquote && (ch = 44 || ch = 41 || ch = 93) then .ok (out, ch :: rest)
    else rawBound err inquote (out ++ [latin1 ch]) rest

/-- A bound, or none where the bound is infinite. -/
def rawParseBound (err : Fault) (b : Bytes) : Except Fault (Option String × Bytes) :=
  if b.head?.any fun ch => ch = 44 || ch = 41 || ch = 93 then .ok (none, b)
  else do
    let (out, rest) ← rawBound err false [] b
    return (some (String.ofList out), rest)

structure RawRange where
  loInc : Bool
  lo : Option String
  hi : Option String
  hiInc : Bool
  empty : Bool
deriving DecidableEq

def rawParseRange (input : String) : Except Fault RawRange := do
  let err := malformed input
  let b := skipWs (Put.utf8 input)
  if ← startsEmpty b then
    if (skipWs (b.drop 5)).isEmpty then return ⟨false, none, none, false, true⟩ else .error err
  else
    match b with
    | open' :: rest =>
      if open' ≠ 91 ∧ open' ≠ 40 then .error err
      else do
        let (lo, rest) ← rawParseBound err rest
        match rest with
        | 44 :: rest => do
          let (hi, rest) ← rawParseBound err rest
          match rest with
          | close :: rest =>
            if (close = 93 ∨ close = 41) ∧ (skipWs rest).isEmpty then
              return ⟨open' = 91, lo, hi, close = 93, false⟩
            else .error err
          | [] => .error err
        | _ => .error err
    | [] => .error err

def parseRange (B : BoundForms) (elem : RangeElem) (name : Option String) (input : String) :
    Except Fault (RangeVal Value) := do
  let raw ← rawParseRange input
  if raw.empty then return ⟨elem, name, true, none, false, none, false⟩
  else
    let lo ← raw.lo.mapM (B.parseBound elem)
    let hi ← raw.hi.mapM (B.parseBound elem)
    B.makeRange elem name lo raw.loInc hi raw.hiInc

/-- The five-byte window at the start of a text that ends inside a character panics. -/
theorem rawParseRange_of_cutsChar {input : String} (h : CutsChar (skipWs (Put.utf8 input))) :
    rawParseRange input = .error .panic := by
  have hlen : ¬ (skipWs (Put.utf8 input)).length < 5 := Nat.not_lt.2 h.1
  simp only [rawParseRange, startsEmpty, if_neg hlen, if_pos h, Bind.bind, Except.bind]

theorem parseRange_of_cutsChar {B : BoundForms} {elem : RangeElem} {name : Option String}
    {input : String} (h : CutsChar (skipWs (Put.utf8 input))) :
    parseRange B elem name input = .error .panic := by
  simp only [parseRange, rawParseRange_of_cutsChar h, Bind.bind, Except.bind]

theorem reports_rawBound (msg : String) (inquote : Bool) (out : List Char) (b : Bytes) :
    Reports (rawBound (.error msg) inquote out b) := by
  fun_induction rawBound (.error msg) inquote out b
  case case1 => exact Reports.error msg
  case case2 => exact Reports.error msg
  case case8 => exact Reports.ok _
  all_goals assumption

theorem reports_rawParseBound (msg : String) (b : Bytes) :
    Reports (rawParseBound (.error msg) b) := by
  unfold rawParseBound
  split
  · exact Reports.ok _
  · exact (reports_rawBound msg false [] b).bind fun _ => Reports.ok _

/-- That window is all that panics in taking a range apart. -/
theorem reports_rawParseRange {input : String} (h : ¬ CutsChar (skipWs (Put.utf8 input))) :
    Reports (rawParseRange input) := by
  unfold rawParseRange malformed
  have hempty : Reports (startsEmpty (skipWs (Put.utf8 input))) := by
    unfold startsEmpty
    rw [if_neg h]
    split <;> exact Reports.ok _
  refine hempty.bind fun isEmpty => ?_
  split
  · split
    · exact Reports.ok _
    · exact Reports.error _
  split
  · split
    · exact Reports.error _
    refine (reports_rawParseBound _ _).bind ?_
    rintro ⟨lo, rest⟩
    dsimp only
    split
    · refine (reports_rawParseBound _ _).bind ?_
      rintro ⟨hi, rest⟩
      dsimp only
      split
      · split
        · exact Reports.ok _
        · exact Reports.error _
      · exact Reports.error _
    · exact Reports.error _
  · exact Reports.error _

/-- A range of texts is refused with an error where its bounds are. -/
theorem reports_parseRange {B : BoundForms} {input : String}
    (h : ¬ CutsChar (skipWs (Put.utf8 input))) (hbound : ∀ elem s, Reports (B.parseBound elem s))
    (hmake : ∀ elem name lo loInc hi hiInc, Reports (B.makeRange elem name lo loInc hi hiInc))
    (elem : RangeElem) (name : Option String) : Reports (parseRange B elem name input) := by
  have hopt : ∀ s : Option String, Reports (s.mapM (B.parseBound elem)) := by
    intro s
    cases s with
    | none => exact Reports.ok none
    | some s => exact (hbound elem s).bind fun _ => Reports.ok _
  unfold parseRange
  refine (reports_rawParseRange h).bind fun raw => ?_
  split
  · exact Reports.ok _
  · exact (hopt raw.lo).bind fun lo => (hopt raw.hi).bind fun hi => hmake elem name lo _ hi _

end Encoding
