-- SUMMARY: The hash join of two row lists: its keys, its table, and the probe.
import Rustgres.Joins.Loops
import Rustgres.Values.Equality
import Rustgres.Numeric.Hash
import Rustgres.Views.Expr

/-!
# Hash Joins

An inner join whose condition has equalities between columns of its two sides looks the right rows up by the keys of these
columns. Every pair it finds is checked against the whole condition.
-/

namespace Joins

open Encoding (Value ColType)
open Values

/-! ## Conditions -/

inductive CmpOp where
  | eq | ne | lt | le | gt | ge | imageEq
deriving DecidableEq

/-- A resolved condition. What is no comparison, no AND and no column is of any kind. -/
inductive JoinExpr (E : Type) where
  | resolvedCol (frame idx : Nat)
  | cmp (op : CmpOp) (left right : JoinExpr E)
  | and (left right : JoinExpr E)
  | other (e : E)

/-- What the evaluation of a condition takes from elsewhere: other expressions and their types, other comparisons, and
the coercions for the two types that are compared by what they name. -/
structure Evaluator (E : Type) where
  casts : Casts
  other : E → List (Frame Value) → Except ExecError Value
  otherType : E → List (Frame Value) → Option ColType
  cmp : CmpOp → Value → Value → Except ExecError Value
  coerceNamed : List (Frame Value) → JoinExpr E → JoinExpr E → Value → Value → Except ExecError (Value × Value)

variable {E : Type} (ev : Evaluator E)

def exprType (frames : List (Frame Value)) : JoinExpr E → Option ColType
  | .resolvedCol frame idx => (frames[frame]?.bind fun f => f.schema[idx]?).map (·.ty)
  | .other e => ev.otherType e frames
  | _ => none

def comparesByName (ty : Option ColType) : Bool := ty = some .regclass || ty = some .name

def isExactInt : Value → Bool
  | .smallInt _ | .int _ | .bigInt _ => true
  | _ => false

/-- Operands of the types `regclass` and `name` are coerced before they are compared. -/
def coerceOperands (frames : List (Frame Value)) (left right : JoinExpr E) (va vb : Value) :
    Except ExecError (Value × Value) :=
  if isExactInt va && isExactInt vb then .ok (va, vb)
  else if comparesByName (exprType ev frames left) || comparesByName (exprType ev frames right) then
    ev.coerceNamed frames left right va vb
  else .ok (va, vb)

def bool3 : Option Bool → Value
  | some b => .bool b
  | none => .null

def asBool3 (v : Value) : Except ExecError (Option Bool) :=
  match v with
  | .bool b => .ok (some b)
  | .null => .ok none
  | v => .error (execError "42804" ("AND requires boolean operands, not " ++ typeName v))

/-- Rows have a cell for each column of their schema. -/
def evalExpr (frames : List (Frame Value)) : JoinExpr E → Except ExecError Value
  | .resolvedCol frame idx => .ok ((frames[frame]?.map fun f => f.row.getD idx .null).getD .null)
  | .cmp op left right => do
    let va ← evalExpr frames left
    let vb ← evalExpr frames right
    let (va, vb) ← coerceOperands ev frames left right va vb
    match op with
    | .eq => (evalEq ev.casts va vb).map bool3
    | op => ev.cmp op va vb
  | .and left right => do
    let va ← evalExpr frames left
    let vb ← evalExpr frames right
    let a ← asBool3 va
    let b ← asBool3 vb
    .ok (bool3 (Views.and3 a b))
  | .other e => ev.other e frames

def checkBool (v : Value) (what : String) : Except ExecError Bool :=
  match v with
  | .bool b => .ok b
  | .null => .ok false
  | other =>
    .error (execError "42804" ("argument of " ++ what ++ " must be type boolean, not type " ++ typeName other))

/-! ## Keys -/

inductive HashFam where
  | exactNum | float | text | bpChar | bool | date | ts | bytea | bit | uuid | char | pgLsn | tid
deriving DecidableEq

def hashFamily : ColType → Option HashFam
  | .smallInt | .int | .bigInt | .numeric _ => some .exactNum
  | .float4 | .float => some .float
  | .text | .varchar _ => some .text
  | .char _ => some .bpChar
  | .bool => some .bool
  | .date => some .date
  | .timestamp | .timestamptz => some .ts
  | .bytea => some .bytea
  | .bit => some .bit
  | .uuid => some .uuid
  | .singleChar => some .char
  | .pgLsn => some .pgLsn
  | .tid => some .tid
  | _ => none

inductive HashKeyPart where
  | exactNum (key : Num.HashKey)
  | float (bits : UInt64)
  | text (s : String)
  | bpChar (s : List Char)
  | bool (b : Bool)
  | date (d : Int32)
  | ts (t : Int64)
  | bytea (b : Bytes)
  | bitString (bitlen : UInt32) (bytes : Bytes)
  | uuid (b : Bytes)
  | char (b : UInt8)
  | pgLsn (l : UInt64)
  | tid (block offset : UInt32)
deriving DecidableEq

/-- All values that are not a number are one, and the two zeros are one. -/
def canonFloatKey (f : UInt64) : UInt64 :=
  if isNanBits f then 0x7FF8000000000000 else if f.toNat % 2 ^ 63 = 0 then 0 else f

def hashKeyPart (v : Value) (fam : HashFam) : Option HashKeyPart :=
  match fam, v with
  | .exactNum, .smallInt i => some (.exactNum (Num.Numeric.new i.toInt 0).hashKey)
  | .exactNum, .int i => some (.exactNum (Num.Numeric.new i.toInt 0).hashKey)
  | .exactNum, .bigInt i => some (.exactNum (Num.Numeric.new i.toInt 0).hashKey)
  | .exactNum, .numeric n => some (.exactNum (toNum n).hashKey)
  | .float, .float4 f => some (.float (canonFloatKey (widenF32 f)))
  | .float, .float f => some (.float (canonFloatKey f))
  | .text, .text s => some (.text s)
  | .bpChar, .bpChar s => some (.bpChar (rtrimSpaces s))
  | .bool, .bool b => some (.bool b)
  | .date, .date d => some (.date d)
  | .ts, .timestamp t => some (.ts t)
  | .ts, .timestamptz t => some (.ts t)
  | .bytea, .bytea b => some (.bytea b)
  | .bit, .bitString b => some (.bitString b.bitlen b.bytes)
  | .uuid, .uuid u => some (.uuid u.1)
  | .char, .singleChar c => some (.char c)
  | .pgLsn, .pgLsn l => some (.pgLsn l)
  | .tid, .tid b o => some (.tid b o)
  | _, _ => none

/-- The conjuncts of a condition, the last one first. -/
def splitConjuncts : JoinExpr E → List (JoinExpr E)
  | .and left right => splitConjuncts right ++ splitConjuncts left
  | e => [e]

/-- A left column, a right column, and the family of both. -/
structure JoinKey where
  left : Nat
  right : Nat
  fam : HashFam

/-- The columns of an equality between the two sides, in either order. -/
def sideColumns (nOuter : Nat) : JoinExpr E → Option (Nat × Nat)
  | .cmp .eq (.resolvedCol fl li) (.resolvedCol fr ri) =>
    if fl = nOuter ∧ fr = nOuter + 1 then some (li, ri)
    else if fl = nOuter + 1 ∧ fr = nOuter then some (ri, li)
    else none
  | _ => none

def conjunctKey (nOuter : Nat) (lschema rschema : List QCol) (c : JoinExpr E) : Option JoinKey :=
  match sideColumns nOuter c with
  | none => none
  | some (li, ri) =>
    match lschema[li]?, rschema[ri]? with
    | some lt, some rt =>
      match hashFamily lt.ty, hashFamily rt.ty with
      | some lfam, some rfam => if lfam = rfam then some ⟨li, ri, lfam⟩ else none
      | _, _ => none
    | _, _ => none

/-- The keys of a condition, if there are any. Other conjuncts stay in the condition only. -/
def hashJoinKeys (pred : JoinExpr E) (nOuter : Nat) (lschema rschema : List QCol) : Option (List JoinKey) :=
  match (splitConjuncts pred).filterMap (conjunctKey nOuter lschema rschema) with
  | [] => none
  | keys => some keys

/-! ## The join -/

/-- The key of a row: none if a part is NULL, and unfit if a value is not of its family. -/
inductive RowKey where
  | key (parts : List HashKeyPart)
  | null
  | unfit
deriving DecidableEq

/-- The first part that is NULL or unfit decides. -/
def rowKey (row : List Value) : List (Nat × HashFam) → RowKey
  | [] => .key []
  | (i, fam) :: rest =>
    match row.getD i .null with
    | .null => .null
    | v =>
      match hashKeyPart v fam with
      | none => .unfit
      | some p =>
        match rowKey row rest with
        | .key parts => .key (p :: parts)
        | o => o

def leftKey (keys : List JoinKey) (l : QRow Value) : RowKey := rowKey l.cells (keys.map fun k => (k.left, k.fam))

def rightKey (keys : List JoinKey) (r : QRow Value) : RowKey := rowKey r.cells (keys.map fun k => (k.right, k.fam))

/-- The right rows with their keys, without those that have a NULL. -/
def buildTable (keys : List JoinKey) : List (QRow Value) → Option (List (List HashKeyPart × QRow Value))
  | [] => some []
  | r :: rrows =>
    match rightKey keys r with
    | .unfit => none
    | .null => buildTable keys rrows
    | .key k => (buildTable keys rrows).map ((k, r) :: ·)

def bucket (table : List (List HashKeyPart × QRow Value)) (key : List HashKeyPart) : List (QRow Value) :=
  (table.filter (·.1 = key)).map (·.2)

/-- The two sides of a hash join with the scopes around it. -/
structure HashSpec (E : Type) where
  outer : List (Frame Value)
  lschema : List QCol
  rschema : List QCol
  layout : JoinLayout
  pred : JoinExpr E

def isNullValue : Value → Bool
  | .null => true
  | _ => false

instance : Inhabited Value := ⟨.null⟩

variable (J : HashSpec E)

/-- The condition over the two rows of a pair. -/
def HashSpec.evalOn (l r : QRow Value) : Except ExecError Bool := do
  let v ← evalExpr ev (J.outer ++ [⟨J.lschema, l.cells⟩, ⟨J.rschema, r.cells⟩]) J.pred
  checkBool v "join condition"

def HashSpec.combine (l r : QRow Value) : QRow Value := combineJoinPair isNullValue l r J.layout .inner

/-- The rows of a bucket that meet the condition. -/
def scanBucket (l : QRow Value) : List (QRow Value) → Except ExecError (List (QRow Value))
  | [] => .ok []
  | r :: rest => do
    let keep ← J.evalOn ev l r
    let rows ← scanBucket l rest
    .ok (if keep then J.combine l r :: rows else rows)

def probe (keys : List JoinKey) (table : List (List HashKeyPart × QRow Value)) :
    List (QRow Value) → Except ExecError (Option (List (QRow Value)))
  | [] => .ok (some [])
  | l :: lrows =>
    match leftKey keys l with
    | .unfit => .ok none
    | .null => probe keys table lrows
    | .key k => do
      let found ← scanBucket ev J l (bucket table k)
      let rows ← probe keys table lrows
      .ok (rows.map (found ++ ·))

/-- Nothing, if a value is not of its family: then the caller takes the nested loop. -/
def execHashJoin (lrows rrows : List (QRow Value)) (keys : List JoinKey) :
    Except ExecError (Option (List (QRow Value))) :=
  match buildTable keys rrows with
  | none => .ok none
  | some table => probe ev J keys table lrows

/-- The nested loop over the same pairs. -/
def innerLoop (nullR : QRow Value) (lrows rrows : List (QRow Value)) : Except ExecError (List (QRow Value)) :=
  (joinLoop (J.evalOn ev) J.combine .inner nullR rrows lrows (rrows.map fun _ => false)).map (·.1)

end Joins
