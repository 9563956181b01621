-- SUMMARY: Regular expressions: their syntax trees and the parser that reads them.
import Rustgres.Encoding.RangeText
import Rustgres.Lib.Loops

/-!
# Regular expressions

The parser descends from alternatives over sequences and repetitions to atoms, and numbers the groups by their
opening parentheses. It runs with fuel, five units for each character of the pattern; running out is not one of its
errors.
-/

namespace Regex

structure CharClass where
  neg : Bool
  ranges : List (Char × Char)
  singles : List Char

def CharClass.matches (cc : CharClass) (c : Char) : Bool :=
  let hit := cc.singles.contains c || cc.ranges.any fun r => r.1 ≤ c && c ≤ r.2
  if cc.neg then !hit else hit

inductive Ast where
  | empty
  | lit (c : Char)
  | dot
  | charClass (cc : CharClass)
  | anchorStart
  | anchorEnd
  | seq (v : List Ast)
  | alt (v : List Ast)
  | repeated (inner : Ast) (min : Nat) (max : Option Nat) (isLazy : Bool)
  | group (inner : Ast) (idx : Nat)
  | backRef (idx : Nat)

/-- Induction over an expression and all the parts of its sequences and alternatives. -/
@[elab_as_elim]
theorem Ast.ind {P : Ast → Prop} (empty : P .empty) (lit : ∀ c, P (.lit c)) (dot : P .dot)
    (charClass : ∀ cc, P (.charClass cc)) (anchorStart : P .anchorStart) (anchorEnd : P .anchorEnd)
    (seq : ∀ v, (∀ a ∈ v, P a) → P (.seq v)) (alt : ∀ v, (∀ a ∈ v, P a) → P (.alt v))
    (repeated : ∀ inner min max isLazy, P inner → P (.repeated inner min max isLazy))
    (group : ∀ inner idx, P inner → P (.group inner idx)) (backRef : ∀ idx, P (.backRef idx)) (a : Ast) : P a := by
  refine @Ast.rec P (fun v => ∀ a ∈ v, P a) empty lit dot charClass anchorStart anchorEnd seq alt repeated group
    backRef ?_ ?_ a
  · exact fun a ha => absurd ha List.not_mem_nil
  · exact fun a v ha hv => List.forall_mem_cons.2 ⟨ha, hv⟩

/-! ## The parser -/

/-- What is left of the pattern, and the groups opened so far. -/
structure Parser where
  rest : List Char
  groups : Nat

inductive ParseError where
  | message (text : String)
  | outOfFuel

def fail {α : Type} (text : String) : Except ParseError α := .error (.message text)

def Parser.peek (p : Parser) : Option Char := p.rest.head?

def Parser.skip (p : Parser) (n : Nat) : Parser := { p with rest := p.rest.drop n }

/-- White space and comments; inside a comment when the flag says so. -/
def skipIgnoredFrom : Bool → List Char → List Char
  | _, [] => []
  | true, c :: s => if c = '\n' then skipIgnoredFrom false s else skipIgnoredFrom true s
  | false, c :: s =>
    if Encoding.isWhitespace c then skipIgnoredFrom false s
    else if c = '#' then skipIgnoredFrom true s
    else c :: s

def Parser.skipIgnored (expanded : Bool) (p : Parser) : Parser :=
  if expanded then { p with rest := skipIgnoredFrom false p.rest } else p

/-- A `?` that makes a quantifier lazy. -/
def Parser.eatLazy (p : Parser) : Bool × Parser :=
  if p.peek = some '?' then (true, p.skip 1) else (false, p)

def numberOf (digits : List Char) : Nat := digits.foldl (fun n c => n * 10 + (c.toNat - '0'.toNat)) 0

def Parser.parseNum (p : Parser) : Except ParseError (Nat × Parser) :=
  let digits := p.rest.takeWhile Char.isDigit
  if digits.isEmpty then fail "expected number in pattern"
  else if numberOf digits < 2 ^ 32 then .ok (numberOf digits, p.skip digits.length)
  else fail "bad number in pattern"

/-! ### Escapes and classes -/

def spaces : List Char := [' ', '\t', '\n', '\r', '\x0c', '\x0b']

def escapeOf (c : Char) : Ast :=
  if c = 'd' then .charClass ⟨false, [('0', '9')], []⟩
  else if c = 'D' then .charClass ⟨true, [('0', '9')], []⟩
  else if c = 's' then .charClass ⟨false, [], spaces⟩
  else if c = 'S' then .charClass ⟨true, [], spaces⟩
  else if c = 'w' then .charClass ⟨false, [('a', 'z'), ('A', 'Z'), ('0', '9')], ['_']⟩
  else if c = 'W' then .charClass ⟨true, [('a', 'z'), ('A', 'Z'), ('0', '9')], ['_']⟩
  else if c.isDigit && c ≠ '0' then .backRef (c.toNat - '0'.toNat)
  else .lit c

def Parser.parseEscape (p : Parser) : Except ParseError (Ast × Parser) :=
  match p.rest with
  | [] => fail "trailing backslash in pattern"
  | c :: rest => .ok (escapeOf c, { p with rest := rest })

def posixClasses : List (String × List (Char × Char) × List Char) :=
  [("alpha", [('a', 'z'), ('A', 'Z')], []),
   ("digit", [('0', '9')], []),
   ("alnum", [('a', 'z'), ('A', 'Z'), ('0', '9')], []),
   ("space", [], spaces),
   ("upper", [('A', 'Z')], []),
   ("lower", [('a', 'z')], []),
   ("xdigit", [('0', '9'), ('a', 'f'), ('A', 'F')], []),
   ("punct", [], "!\"#$%&'()*+,-./:;<=>?@[\\]^_`\x7b|\x7d~".toList),
   ("graph", [('!', '~')], []),
   ("print", [(' ', '~')], []),
   ("cntrl", [('\x00', '\x1f'), ('\x7f', '\x7f')], [])]

def posixClass (name : List Char) : Except ParseError (List (Char × Char) × List Char) :=
  match posixClasses.lookup (String.ofList name) with
  | some cc => .ok cc
  | none => fail ("unknown POSIX class '" ++ String.ofList name ++ "'")

/-- What one step inside brackets read: an item, after which the class goes on or ends, or the closing bracket. -/
inductive ClassStep where
  | item (ranges : List (Char × Char)) (singles : List Char)
  | last (ranges : List (Char × Char)) (singles : List Char)
  | close

/-- After `[:`: the name, and `:]`. -/
def parsePosix (s : List Char) : Except ParseError (ClassStep × List Char) :=
  let name := s.takeWhile (· ≠ ':')
  match s.drop name.length with
  | ':' :: ']' :: s => do
    let (ranges, singles) ← posixClass name
    .ok (.item ranges singles, s)
  | _ => fail "bad POSIX class"

/-- A character, or a range when a minus sign follows that the closing bracket does not. -/
def parseItem (c : Char) (s : List Char) : Except ParseError (ClassStep × List Char) :=
  if s.head? = some '-' ∧ s[1]? ≠ some ']' then
    match s.drop 1 with
    | [] => fail "unclosed '[' in pattern"
    | ']' :: s => .ok (.last [] [c, '-'], s)
    | end_ :: s => if end_ < c then fail "invalid range in class" else .ok (.item [(c, end_)] [], s)
  else .ok (.item [] [c], s)

def classStep (first : Bool) (s : List Char) : Except ParseError (ClassStep × List Char) :=
  match s with
  | [] => fail "unclosed '[' in pattern"
  | c :: s =>
    if c = ']' ∧ first = false then .ok (.close, s)
    else if c = '[' ∧ s.head? = some ':' then parsePosix (s.drop 1)
    else if c = '\\' then
      match s with
      | [] => fail "trailing backslash in pattern"
      | e :: s =>
        match escapeOf e with
        | .charClass cc => .ok (.item cc.ranges cc.singles, s)
        | .lit c => .ok (.item [] [c], s)
        | _ => fail "bad escape in class"
    else parseItem c s

/-- The rest of a class behind the items read. -/
def classItems : Nat → Bool → List (Char × Char) → List Char → List Char →
    Except ParseError ((List (Char × Char) × List Char) × List Char)
  | 0, _, _, _, _ => .error .outOfFuel
  | fuel + 1, first, ranges, singles, s => do
    let (step, s) ← classStep first s
    match step with
    | .close => .ok ((ranges, singles), s)
    | .last r t => .ok ((ranges ++ r, singles ++ t), s)
    | .item r t => classItems fuel false (ranges ++ r) (singles ++ t) s

def Parser.parseClass (p : Parser) : Except ParseError (Ast × Parser) := do
  let neg := p.peek = some '^'
  let s := if neg then p.rest.drop 1 else p.rest
  let ((ranges, singles), s) ← classItems (s.length + 1) true [] [] s
  .ok (.charClass ⟨neg, ranges, singles⟩, { p with rest := s })

/-! ### Repetitions -/

/-- What follows the lower bound: a comma with or without an upper one, or nothing. -/
def Parser.parseMax (min : Nat) (p : Parser) : Except ParseError (Option Nat × Parser) :=
  if p.peek = some ',' then
    if (p.skip 1).peek = some '}' then .ok (none, p.skip 1)
    else (p.skip 1).parseNum.map fun r => (some r.1, r.2)
  else .ok (some min, p)

/-- The bounds between braces, behind the opening one. -/
def Parser.parseBounds (p : Parser) : Except ParseError ((Nat × Option Nat) × Parser) := do
  let (min, p) ← p.parseNum
  let (max, p) ← p.parseMax min
  if p.peek = some '}' then
    if max.any (· < min) then fail "invalid repetition range" else .ok ((min, max), p.skip 1)
  else fail "expected '\x7d' in pattern"

/-- What follows an atom: its quantifier, if there is one. -/
def Parser.parseQuantifier (atom : Ast) (p : Parser) : Except ParseError (Ast × Parser) :=
  let quantified (min : Nat) (max : Option Nat) (p : Parser) : Ast × Parser :=
    (.repeated atom min max p.eatLazy.1, p.eatLazy.2)
  if p.peek = some '*' then .ok (quantified 0 none (p.skip 1))
  else if p.peek = some '+' then .ok (quantified 1 none (p.skip 1))
  else if p.peek = some '?' then .ok (quantified 0 (some 1) (p.skip 1))
  else if p.peek = some '{' then do
    let ((min, max), p) ← (p.skip 1).parseBounds
    .ok (quantified min max p)
  else .ok (atom, p)

/-! ### Sequences and alternatives -/

def seqOf : List Ast → Ast
  | [] => .empty
  | [a] => a
  | v => .seq v

def altOf : List Ast → Ast
  | [a] => a
  | v => .alt v

/-- The parenthesis that closes a group. -/
def Parser.close (p : Parser) : Except ParseError Parser :=
  if p.peek = some ')' then .ok (p.skip 1) else fail "unclosed '(' in pattern"

mutual

def parseAlt (expanded : Bool) : Nat → Parser → Except ParseError (Ast × Parser)
  | 0, _ => .error .outOfFuel
  | fuel + 1, p => do
    let (a, p) ← parseSeq expanded fuel p
    let (alts, p) ← parseAlts expanded fuel p
    .ok (altOf (a :: alts), p)

/-- The alternatives behind the first. -/
def parseAlts (expanded : Bool) : Nat → Parser → Except ParseError (List Ast × Parser)
  | 0, _ => .error .outOfFuel
  | fuel + 1, p =>
    if p.peek = some '|' then do
      let (a, p) ← parseSeq expanded fuel (p.skip 1)
      let (alts, p) ← parseAlts expanded fuel p
      .ok (a :: alts, p)
    else .ok ([], p)

def parseSeq (expanded : Bool) : Nat → Parser → Except ParseError (Ast × Parser)
  | 0, _ => .error .outOfFuel
  | fuel + 1, p => do
    let (v, p) ← parseItems expanded fuel p
    .ok (seqOf v, p)

/-- The items of a sequence. -/
def parseItems (expanded : Bool) : Nat → Parser → Except ParseError (List Ast × Parser)
  | 0, _ => .error .outOfFuel
  | fuel + 1, p =>
    let p := p.skipIgnored expanded
    if p.peek = none ∨ p.peek = some '|' ∨ p.peek = some ')' then .ok ([], p)
    else do
      let (a, p) ← parseRepeat expanded fuel p
      let (v, p) ← parseItems expanded fuel p
      .ok (a :: v, p)

def parseRepeat (expanded : Bool) : Nat → Parser → Except ParseError (Ast × Parser)
  | 0, _ => .error .outOfFuel
  | fuel + 1, p => do
    let (atom, p) ← parseAtom expanded fuel p
    p.parseQuantifier atom

def parseAtom (expanded : Bool) : Nat → Parser → Except ParseError (Ast × Parser)
  | 0, _ => .error .outOfFuel
  | fuel + 1, p =>
    match (p.skipIgnored expanded).rest with
    | [] => fail "unexpected end of pattern"
    | c :: rest =>
      let p := { p with rest := rest }
      if c = '(' then
        if rest.head? = some '?' ∧ rest[1]? = some ':' then do
          let (inner, p) ← parseAlt expanded fuel (p.skip 2)
          .ok (inner, ← p.close)
        else do
          let idx := p.groups + 1
          let (inner, p) ← parseAlt expanded fuel { p with groups := idx }
          .ok (.group inner idx, ← p.close)
      else if c = ')' then fail "unmatched ')' in pattern"
      else if c = '^' then .ok (.anchorStart, p)
      else if c = '$' then .ok (.anchorEnd, p)
      else if c = '.' then .ok (.dot, p)
      else if c = '[' then p.parseClass
      else if c = '\\' then p.parseEscape
      else .ok (.lit c, p)

end

/-- The expression of a whole pattern, and how many groups it has. -/
def parsePattern (pattern : List Char) (expanded : Bool) : Except ParseError (Ast × Nat) := do
  let (ast, p) ← parseAlt expanded (5 * pattern.length + 5) ⟨pattern, 0⟩
  match p.rest with
  | [] => .ok (ast, p.groups)
  | c :: _ => fail ("unexpected '" ++ c.toString ++ "' in pattern")

end Regex
