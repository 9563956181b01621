-- SUMMARY: Ranges and multiranges: their canonical form, the comparison of bounds, and the operators.
import Mathlib
import Rustgres.Encoding.Types
import Rustgres.Exec.Common

/-!
# Range Operators

The operators compare the bounds of ranges and never look at elements. A bound that is missing is infinite.
Elements are of any linear order; what steps them up to a canonical form depends on their type.
-/

namespace Ranges

open Encoding (RangeElem RangeVal MultiVal)

/-- The subtypes whose ranges have a canonical form `[lo, hi)`. -/
def discrete : RangeElem → Bool
  | .int4 | .int8 | .int2 | .date => true
  | _ => false

variable {α : Type} [LinearOrder α]

def boundCmp (a b : α) : Ordering := compare a b

/-! ## The canonical form -/

/-- What canonical ranges need of the elements of a type: the next element, and the infinite ones. -/
structure Steps (α : Type) where
  stepUp : RangeElem → α → Except ExecError α
  notFinite : RangeElem → α → Bool

def i16Max : Int := 32767

def i32Max : Int := 2147483647

def i64Max : Int := 9223372036854775807

/-- The last day that is a date, in days since 1970-01-01. -/
def dateMaxDays : Int := 2145042905

def dateInfinity : Int := 2147483647

def dateNegInfinity : Int := -2147483648

/-- The next integer or day. -/
def intStepUp (elem : RangeElem) (x : Int) : Except ExecError Int :=
  match elem with
  | .int4 => if x = i32Max then .error (execError "22003" "integer out of range") else .ok (x + 1)
  | .int2 => if x = i16Max then .error (execError "22003" "smallint out of range") else .ok (x + 1)
  | .int8 => if x = i64Max then .error (execError "22003" "bigint out of range") else .ok (x + 1)
  | .date =>
    if x = dateInfinity ∨ x = dateNegInfinity then .ok x
    else if x + 1 > dateMaxDays then .error (execError "22008" "date out of range")
    else .ok (x + 1)
  | _ => .ok x

def intNotFinite (elem : RangeElem) (x : Int) : Bool :=
  elem = .date && (x = dateInfinity || x = dateNegInfinity)

/-- Integers, and what is stored as one: dates and timestamps. -/
def intSteps : Steps Int := ⟨intStepUp, intNotFinite⟩

def emptyRange (elem : RangeElem) (name : Option String) : RangeVal α :=
  ⟨elem, name, true, none, false, none, false⟩

/-- A lower bound that is excluded is stepped up and included. -/
def canonicalLo (st : Steps α) (elem : RangeElem) (lo : Option α) (loInc : Bool) :
    Except ExecError (Option α × Bool) :=
  match lo with
  | some l =>
    if !loInc && !st.notFinite elem l then (st.stepUp elem l).map fun l => (some l, true)
    else .ok (some l, loInc)
  | none => .ok (none, loInc)

/-- An upper bound that is included is stepped up and excluded. -/
def canonicalHi (st : Steps α) (elem : RangeElem) (hi : Option α) (hiInc : Bool) :
    Except ExecError (Option α × Bool) :=
  match hi with
  | some u =>
    if hiInc && !st.notFinite elem u then (st.stepUp elem u).map fun u => (some u, false)
    else .ok (some u, hiInc)
  | none => .ok (none, hiInc)

def lowerBoundError : ExecError :=
  execError "22000" "range lower bound must be less than or equal to range upper bound"

/-- How the bounds compare, if both are there. -/
def boundsCmp (lo hi : Option α) : Option Ordering :=
  match lo, hi with
  | some l, some u => some (boundCmp l u)
  | _, _ => none

def makeRange (st : Steps α) (elem : RangeElem) (name : Option String) (lo : Option α) (loInc : Bool)
    (hi : Option α) (hiInc : Bool) : Except ExecError (RangeVal α) :=
  if boundsCmp lo hi = some .gt then .error lowerBoundError
  else if boundsCmp lo hi = some .eq ∧ ¬(loInc = true ∧ hiInc = true) then .ok (emptyRange elem name)
  else
    -- An infinite bound is never included.
    let loInc := if lo.isNone then false else loInc
    let hiInc := if hi.isNone then false else hiInc
    if discrete elem then
      match canonicalLo st elem lo loInc with
      | .error e => .error e
      | .ok (lo, loInc) =>
        match canonicalHi st elem hi hiInc with
        | .error e => .error e
        | .ok (hi, hiInc) =>
          if boundsCmp lo hi = some .gt ∨ boundsCmp lo hi = some .eq then .ok (emptyRange elem name)
          else .ok ⟨elem, name, false, lo, loInc, hi, hiInc⟩
    else .ok ⟨elem, name, false, lo, loInc, hi, hiInc⟩

/-! ## Bounds -/

/-- Lower bounds: the infinite first, then by value, the included before the excluded. -/
def loCmp (a b : RangeVal α) : Ordering :=
  match a.lo, b.lo with
  | none, none => .eq
  | none, some _ => .lt
  | some _, none => .gt
  | some x, some y =>
    match boundCmp x y with
    | .eq =>
      match a.loInc, b.loInc with
      | true, false => .lt
      | false, true => .gt
      | _, _ => .eq
    | o => o

/-- Upper bounds: the infinite last, else by value, the excluded before the included. -/
def hiCmp (a b : RangeVal α) : Ordering :=
  match a.hi, b.hi with
  | none, none => .eq
  | none, some _ => .gt
  | some _, none => .lt
  | some x, some y =>
    match boundCmp x y with
    | .eq =>
      match a.hiInc, b.hiInc with
      | false, true => .lt
      | true, false => .gt
      | _, _ => .eq
    | o => o

/-- Nothing joins the end of `a` to the start of `b`. -/
def gapBetween (a b : RangeVal α) : Bool :=
  match a.hi, b.lo with
  | some u, some l =>
    match boundCmp u l with
    | .lt => true
    | .gt => false
    | .eq => !(a.hiInc || b.loInc)
  | _, _ => false

/-- A bound on its own, with its side. -/
structure Bnd (α : Type) where
  val : Option α
  inc : Bool
  lower : Bool

def loBnd (r : RangeVal α) : Bnd α := ⟨r.lo, r.loInc, true⟩

def hiBnd (r : RangeVal α) : Bnd α := ⟨r.hi, r.hiInc, false⟩

def cmpBounds (a b : Bnd α) : Ordering :=
  match a.val, b.val with
  | none, none => if a.lower = b.lower then .eq else if a.lower then .lt else .gt
  | none, some _ => if a.lower then .lt else .gt
  | some _, none => if b.lower then .gt else .lt
  | some x, some y =>
    match boundCmp x y with
    | .eq =>
      if !a.inc && !b.inc then if a.lower = b.lower then .eq else if a.lower then .gt else .lt
      else if !a.inc then if a.lower then .gt else .lt
      else if !b.inc then if b.lower then .lt else .gt
      else .eq
    | o => o

/-! ## Set operations on ranges -/

/-- The lower bound that comes later. -/
def laterLo (a b : RangeVal α) : Option α × Bool :=
  match loCmp a b with
  | .lt | .eq => (b.lo, b.loInc)
  | .gt => (a.lo, a.loInc)

def earlierHi (a b : RangeVal α) : Option α × Bool :=
  match hiCmp a b with
  | .lt | .eq => (a.hi, a.hiInc)
  | .gt => (b.hi, b.hiInc)

def earlierLo (a b : RangeVal α) : Option α × Bool :=
  match loCmp a b with
  | .gt => (b.lo, b.loInc)
  | _ => (a.lo, a.loInc)

def laterHi (a b : RangeVal α) : Option α × Bool :=
  match hiCmp a b with
  | .lt => (b.hi, b.hiInc)
  | _ => (a.hi, a.hiInc)

/-- From the later lower bound to the earlier upper bound. -/
def rangeIntersect (st : Steps α) (a b : RangeVal α) : RangeVal α :=
  if a.empty || b.empty then emptyRange a.elem a.name
  else
    match makeRange st a.elem a.name (laterLo a b).1 (laterLo a b).2 (earlierHi a b).1 (earlierHi a b).2 with
    | .ok r => r
    | .error _ => emptyRange a.elem a.name

/-- From the earlier lower bound to the later upper bound. -/
def outerRange (st : Steps α) (a b : RangeVal α) : Except ExecError (RangeVal α) :=
  makeRange st a.elem a.name (earlierLo a b).1 (earlierLo a b).2 (laterHi a b).1 (laterHi a b).2

def unionError : ExecError := execError "22000" "result of range union would not be contiguous"

def rangeUnion (st : Steps α) (a b : RangeVal α) : Except ExecError (RangeVal α) :=
  if a.empty then .ok b
  else if b.empty then .ok a
  else
    let (first, second) := if loCmp a b = .gt then (b, a) else (a, b)
    if gapBetween first second then .error unionError else outerRange st a b

/-- The smallest range that has both. -/
def rangeMerge (st : Steps α) (a b : RangeVal α) : RangeVal α :=
  if a.empty then b
  else if b.empty then a
  else
    match outerRange st a b with
    | .ok r => r
    | .error _ => emptyRange a.elem a.name

def rangeContainsElem (r : RangeVal α) (v : α) : Bool :=
  !r.empty &&
    (match r.lo with
      | some l =>
        match boundCmp v l with
        | .lt => false
        | .eq => r.loInc
        | .gt => true
      | none => true) &&
    match r.hi with
    | some u =>
      match boundCmp v u with
      | .gt => false
      | .eq => r.hiInc
      | .lt => true
    | none => true

def rangeContainsRange (a b : RangeVal α) : Bool :=
  if b.empty then true
  else if a.empty then false
  else
    (match a.lo, b.lo with
      | none, _ => true
      | some _, none => false
      | some x, some y =>
        match boundCmp x y with
        | .lt => true
        | .gt => false
        | .eq => a.loInc || !b.loInc) &&
    match a.hi, b.hi with
    | none, _ => true
    | some _, none => false
    | some x, some y =>
      match boundCmp x y with
      | .gt => true
      | .lt => false
      | .eq => a.hiInc || !b.hiInc

def rangeOverlaps (st : Steps α) (a b : RangeVal α) : Bool :=
  if a.empty || b.empty then false else !(rangeIntersect st a b).empty

/-- The piece that is made, unless it is empty. -/
def remnant (r : Except ExecError (RangeVal α)) : List (RangeVal α) :=
  match r with
  | .ok r => if r.empty then [] else [r]
  | .error _ => []

/-- What is left of `a` on both sides of `b`. -/
def rangeMinusMultiInner (st : Steps α) (a b : RangeVal α) : List (RangeVal α) :=
  if a.empty then []
  else if b.empty || !rangeOverlaps st a b then [a]
  else
    (if loCmp a b = .lt then remnant (makeRange st a.elem a.name a.lo a.loInc b.lo (!b.loInc)) else []) ++
      if hiCmp a b = .gt then remnant (makeRange st a.elem a.name b.hi (!b.hiInc) a.hi a.hiInc) else []

def differenceError : ExecError :=
  execError "22000" "result of range difference would not be contiguous"

def rangeMinus (st : Steps α) (a b : RangeVal α) : Except ExecError (RangeVal α) :=
  match rangeMinusMultiInner st a b with
  | [] => .ok (emptyRange a.elem a.name)
  | [r] => .ok r
  | _ => .error differenceError

/-! ## Positions -/

/-- The bounds meet, and one of them has the point. -/
def boundsMeet (u l : RangeVal α) : Bool :=
  match u.hi, l.lo with
  | some x, some y => boundCmp x y = .eq && u.hiInc != l.loInc
  | _, _ => false

def rangeAdjacent (st : Steps α) (a b : RangeVal α) : Bool :=
  if a.empty || b.empty then false
  else if rangeOverlaps st a b then false
  else boundsMeet a b || boundsMeet b a

inductive PositionKind where
  | before | after | overleft | overright | adjacent
deriving DecidableEq, Repr

/-- An operand of a position predicate. -/
inductive Operand (α : Type) where
  | range (r : RangeVal α)
  | multirange (m : MultiVal α)
  | elem (v : α)

/-- The ranges of an operand that are not empty. -/
def components : Operand α → List (RangeVal α)
  | .range r => if r.empty then [] else [r]
  | .multirange m => m.ranges
  | .elem _ => []

/-- A multirange stands where its first range starts and its last one ends. -/
def positionPred (st : Steps α) (kind : PositionKind) (a b : Operand α) : Bool :=
  match components a, components b with
  | [], _ => false
  | _, [] => false
  | firstA :: restA, firstB :: restB =>
    let lastA := (firstA :: restA).getLastD firstA
    let lastB := (firstB :: restB).getLastD firstB
    match kind with
    | .before => cmpBounds (hiBnd lastA) (loBnd firstB) = .lt
    | .after => cmpBounds (loBnd firstA) (hiBnd lastB) = .gt
    | .overleft => cmpBounds (hiBnd lastA) (hiBnd lastB) ≠ .gt
    | .overright => cmpBounds (loBnd firstA) (loBnd firstB) ≠ .lt
    | .adjacent =>
      if restA = [] ∧ restB = [] then rangeAdjacent st firstA firstB
      else boundsMeet lastA firstB || boundsMeet lastB firstA

/-! ## Multiranges -/

/-- Take in one more range: it makes the last one longer, or comes behind a gap. -/
def mergeNext (out : List (RangeVal α)) (r : RangeVal α) : List (RangeVal α) :=
  match out.getLast? with
  | some last =>
    if gapBetween last r then out ++ [r]
    else if hiCmp r last = .gt then out.dropLast ++ [{ last with hi := r.hi, hiInc := r.hiInc }]
    else out
  | none => out ++ [r]

def beforeOrSame (a b : RangeVal α) : Bool := (loCmp a b).then (hiCmp a b) ≠ .gt

def normalizeMulti (elem : RangeElem) (name : Option String) (ranges : List (RangeVal α)) : MultiVal α :=
  ⟨elem, name, ((ranges.filter fun r => !r.empty).mergeSort beforeOrSame).foldl mergeNext []⟩

def multiMinus (st : Steps α) (a b : MultiVal α) : MultiVal α :=
  normalizeMulti a.elem a.name
    (b.ranges.foldl (fun pieces br => pieces.flatMap fun p => rangeMinusMultiInner st p br) a.ranges)

def multiUnion (a b : MultiVal α) : MultiVal α := normalizeMulti a.elem a.name (a.ranges ++ b.ranges)

def multiIntersect (st : Steps α) (a b : MultiVal α) : MultiVal α :=
  normalizeMulti a.elem a.name (a.ranges.flatMap fun x =>
    (b.ranges.map fun y => rangeIntersect st x y).filter fun i => !i.empty)

def multiContainsRange (m : MultiVal α) (r : RangeVal α) : Bool :=
  if r.empty then true else m.ranges.any fun x => rangeContainsRange x r

def multiContainsMulti (a b : MultiVal α) : Bool := b.ranges.all fun r => multiContainsRange a r

def multiContainsElem (m : MultiVal α) (v : α) : Bool := m.ranges.any fun x => rangeContainsElem x v

def multiOverlaps (st : Steps α) (a b : MultiVal α) : Bool :=
  a.ranges.any fun x => b.ranges.any fun y => rangeOverlaps st x y

end Ranges
