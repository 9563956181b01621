-- SUMMARY: How a table scan chooses between its rows and an index, and what either of them reads.
import Rustgres.Exec.Common
import Rustgres.Lib.RangeScan

/-!
# Access Paths

The conjuncts of a WHERE condition that compare a column with a literal give bounds on the column. The planner takes the
index with the most bounds on its first columns. The rows that it finds are filtered by the whole condition.
-/

namespace Access

open Orderings RangeScan

/-- The order of the index keys. -/
class KeyOrder (V : Type) (K : outParam Type) extends SqlValue V K where
  /-- `index_key_cmp` on what it compares. -/
  keyCmp : K → K → Ordering

/-! ## Conditions -/

inductive CmpOp where
  | eq | ne | lt | le | gt | ge | imageEq
deriving DecidableEq, Repr

/-- A value that is compared. -/
inductive Operand (V E : Type) where
  | column (table : Option String) (name : String)
  | literal (lit : V)
  | other (e : E)

/-- A condition, by what the planner reads in it. -/
inductive Cond (V E : Type) where
  | cmp (op : CmpOp) (left right : Operand V E)
  | between (expr low high : Operand V E) (neg : Bool)
  | and (a b : Cond V E)
  | other (e : E)

/-- How the parts of conditions are evaluated on a row, and a literal is cast to the type of a column. -/
structure Evaluator (V E : Type) where
  column : Option String → String → List V → Except ExecError V
  operand : E → List V → Except ExecError V
  cond : E → List V → Except ExecError (Option Bool)
  cmpVals : CmpOp → V → V → Except ExecError (Option Bool)
  coerceLiteral : V → String → Except ExecError V

variable {V K E : Type} [KeyOrder V K] (ev : Evaluator V E)

def isNull (v : V) : Bool := SqlValue.isNull V (SqlValue.key v)

def evalOperand (values : List V) : Operand V E → Except ExecError V
  | .column table name => ev.column table name values
  | .literal lit => .ok lit
  | .other e => ev.operand e values

def evalBetween (v lo hi : V) (neg : Bool) : Except ExecError (Option Bool) :=
  if isNull v || isNull lo || isNull hi then .ok none
  else do
    let ge ← ev.cmpVals .ge v lo
    let le ← ev.cmpVals .le v hi
    match ge, le with
    | some a, some b => .ok (some (if neg then !(a && b) else a && b))
    | _, _ => .ok none

def evalAndVals : Option Bool → Option Bool → Option Bool
  | some false, _ => some false
  | _, some false => some false
  | some true, some true => some true
  | _, _ => none

def evalCond (values : List V) : Cond V E → Except ExecError (Option Bool)
  | .cmp op left right => do
      let va ← evalOperand ev values left
      let vb ← evalOperand ev values right
      ev.cmpVals op va vb
  | .between expr low high neg => do
      let v ← evalOperand ev values expr
      let lo ← evalOperand ev values low
      let hi ← evalOperand ev values high
      evalBetween ev v lo hi neg
  | .and a b => do
      let va ← evalCond values a
      let vb ← evalCond values b
      .ok (evalAndVals va vb)
  | .other e => ev.cond e values

/-- A row stays if the condition is true on it. -/
def applyWhere (w : Cond V E) : List (RowVersion V) → Except ExecError (List (RowVersion V))
  | [] => .ok []
  | row :: rows => do
      let keep ← evalCond ev row.values w
      let rest ← applyWhere w rows
      .ok (if keep = some true then row :: rest else rest)

/-! ## Bounds -/

/-- The last conjunct comes first. -/
def splitConjuncts : Cond V E → List (Cond V E)
  | .and a b => splitConjuncts b ++ splitConjuncts a
  | w => [w]

inductive BoundKind where
  | eq
  | gt (inclusive : Bool)
  | lt (inclusive : Bool)
deriving DecidableEq, Repr

/-- A bound on the column at a position. -/
structure ColBound (V : Type) where
  pos : Nat
  kind : BoundKind
  value : V

section

variable (qual tableName : String) (columns : List String)

/-- The reference may be one to the table. -/
def Refers (table : Option String) : Prop := ∀ q ∈ table, q = qual ∨ q = tableName

instance (table : Option String) : Decidable (Refers qual tableName table) :=
  inferInstanceAs (Decidable (∀ q ∈ table, _))

/-- The column of a reference and the literal in its type. A literal that cannot be cast gives no bound. -/
def columnBound (table : Option String) (name : String) (lit : V) : Option (Nat × V) :=
  if Refers qual tableName table then do
    let pos ← columns.findIdx? (· = name)
    let v ← (ev.coerceLiteral lit name).toOption
    some (pos, v)
  else none

/-- The bound that a comparison of the column, on the left, or if `flip` on the right, stands for. -/
def boundKind : CmpOp → Bool → Option BoundKind
  | .eq, _ => some .eq
  | .gt, false | .lt, true => some (.gt false)
  | .ge, false | .le, true => some (.gt true)
  | .lt, false | .gt, true => some (.lt false)
  | .le, false | .ge, true => some (.lt true)
  | _, _ => none

def fromCmp (op : CmpOp) : Operand V E → Operand V E → Option (List (ColBound V))
  | .column table name, .literal lit => do
      let (pos, v) ← columnBound ev qual tableName columns table name lit
      let kind ← boundKind op false
      some [⟨pos, kind, v⟩]
  | .literal lit, .column table name => do
      let (pos, v) ← columnBound ev qual tableName columns table name lit
      let kind ← boundKind op true
      some [⟨pos, kind, v⟩]
  | _, _ => none

def conjunctBounds : Cond V E → Option (List (ColBound V))
  | .cmp op left right => fromCmp ev qual tableName columns op left right
  | .between expr low high neg =>
    if neg then none
    else
      match expr, low, high with
      | .column table name, .literal lo, .literal hi => do
        let (pos, lo) ← columnBound ev qual tableName columns table name lo
        let (_, hi) ← columnBound ev qual tableName columns table name hi
        some [⟨pos, .gt true, lo⟩, ⟨pos, .lt true, hi⟩]
      | _, _, _ => none
  | _ => none

/-- The bounds of all conjuncts. -/
def colBounds (w : Cond V E) : List (ColBound V) :=
  (splitConjuncts w).flatMap fun c => (conjunctBounds ev qual tableName columns c).getD []

end

/-! ## The planner -/

inductive AccessPath (V : Type) where
  | seqScan
  | indexScan (index : String) (bounds : Bounds V)
deriving DecidableEq

/-- The values of the first columns that have an equality. -/
def eqPrefix (bounds : List (ColBound V)) : List Nat → List V
  | [] => []
  | c :: cols =>
      match bounds.find? fun b => b.pos = c ∧ b.kind = .eq with
      | some b => b.value :: eqPrefix bounds cols
      | none => []

/-- The first lower bound on a column. -/
def loBound (bounds : List (ColBound V)) (c : Nat) : Option (V × Bool) :=
  bounds.findSome? fun b =>
    match b.kind with
    | .gt inclusive => if b.pos = c then some (b.value, inclusive) else none
    | _ => none

def hiBound (bounds : List (ColBound V)) (c : Nat) : Option (V × Bool) :=
  bounds.findSome? fun b =>
    match b.kind with
    | .lt inclusive => if b.pos = c then some (b.value, inclusive) else none
    | _ => none

/-- What an index can use of the bounds: equalities on its first columns, and a range of the next one. -/
def indexBounds (bounds : List (ColBound V)) (cols : List Nat) : Bounds V :=
  let parts := eqPrefix bounds cols
  { parts
    lo := cols[parts.length]?.bind (loBound bounds)
    hi := cols[parts.length]?.bind (hiBound bounds) }

/-- The number of equalities, the number of columns with a bound, and whether one key is looked up. -/
def score (cols : List Nat) (b : Bounds V) : Nat × Nat × Bool :=
  (b.parts.length, b.parts.length + (if b.hasRange then 1 else 0),
    b.parts.length = cols.length && !b.hasRange)

def scoreLt (s s' : Nat × Nat × Bool) : Bool :=
  s.1 < s'.1 || s.1 = s'.1 && (s.2.1 < s'.2.1 || s.2.1 = s'.2.1 && !s.2.2 && s'.2.2)

/-- The best path so far, with its score. An index whose first column has no bound is of no use. -/
def betterPath (bounds : List (ColBound V)) (best : Option (AccessPath V) × Nat × Nat × Bool) (ix : Index K) :
    Option (AccessPath V) × Nat × Nat × Bool :=
  let b := indexBounds bounds ix.defn.cols
  let s := score ix.defn.cols b
  if !ix.defn.plannerUsable || b.parts.isEmpty && !b.hasRange then best
  else if scoreLt best.2 s then (some (.indexScan ix.defn.name b), s)
  else best

/-- The first index with the best score. -/
def bestPath (bounds : List (ColBound V)) (indexes : List (Index K)) : Option (AccessPath V) :=
  (indexes.foldl (betterPath bounds) (none, 0, 0, false)).1

/-- A table of one page is read as a whole. -/
def planAccessPath (db : Database V K) (t : Table V) (pages : Nat) (tableName qual : String) (w : Option (Cond V E))
    (snap : Snapshot) (own : Xid) : AccessPath V :=
  match w with
  | none => .seqScan
  | some w =>
    let bounds := colBounds ev qual tableName t.columns w
    if bounds.isEmpty then .seqScan
    else
      match bestPath bounds (db.visibleIndexesFor tableName snap [own]) with
      | some path => if pages ≤ 1 then .seqScan else path
      | none => .seqScan

/-! ## The scans -/

/-- The order of key parts. -/
def partCmp : Option K → Option K → Ordering := noneFirst (KeyOrder.keyCmp V)

/-- The bounds on the key parts. -/
def keyBounds (b : Bounds V) : Bounds (Option K) where
  parts := b.parts.map fun v => some (SqlValue.key v)
  lo := b.lo.map fun side => (some (SqlValue.key side.1), side.2)
  hi := b.hi.map fun side => (some (SqlValue.key side.1), side.2)

/-- The ids in the bounds, from the entries of the tree in ascending order. Those of a range are sorted. -/
def indexScanIds (entries : List (IndexKey K × List RowId)) (b : Bounds V) : List RowId :=
  let out := (keyBounds b).find (partCmp (V := V)) entries
  if b.hasRange then out.mergeSort (· ≤ ·) else out

/-- The rows that a path reads. -/
def scanRows (db : Database V K) (entries : Index K → List (IndexKey K × List RowId)) (t : Table V)
    (snap : Snapshot) (owns : List Xid) : AccessPath V → List (RowVersion V)
  | .seqScan => t.rows.filter fun r => RowVisible r snap owns
  | .indexScan index b =>
    match db.indexes.lookup index with
    -- the server panics: the planned index is there
    | none => []
    | some ix => (indexScanIds (entries ix) b).filterMap fun id => (t.row? id).filter fun r => RowVisible r snap owns

end Access
