-- SUMMARY: The nested loop of a join, and the two loops for a LATERAL right side.
import Rustgres.Joins.Layout

/-!
# Loops of Joins

The ordinary loop has the rows of both sides. A LATERAL right side is evaluated once for each row of the left.
-/

namespace Joins

variable {E V : Type} [Inhabited V]

/-! ## Conditions -/

/-- The condition of a join: an expression, or the equalities of USING. -/
inductive OnExpr (E : Type) where
  | clause (e : E)
  | eq (left right : String × String)
  | and (left right : OnExpr E)

/-- A row with the columns that its cells are found by. -/
structure Frame (V : Type) where
  schema : List QCol
  row : List V

/-- What the loops need of conditions and cells: the columns a condition refers to, whether they are found, and its
value over the frames behind those of the enclosing queries. -/
structure Conditions (E V : Type) where
  columnRefs : OnExpr E → List (Option String × String)
  resolve : OnExpr E → List (List QCol) → Except ExecError Unit
  eval : OnExpr E → List (Frame V) → Except ExecError Bool
  isNull : V → Bool
  null : V

/-- The equalities of the keys, each an AND behind those before it. -/
def usingCondition (lschema rschema : List QCol) (keys : List (Nat × Nat)) : Option (OnExpr E) :=
  keys.foldl (fun cond key =>
    match lschema[key.1]?, rschema[key.2]? with
    | some lc, some rc =>
      let eq := .eq (lc.qual, lc.name) (rc.qual, rc.name)
      some (match cond with
        | none => eq
        | some c => .and c eq)
    | _, _ => cond) none

/-- The two sides of a join, its kind and its clause. CROSS has no condition. -/
structure JoinSpec (E : Type) where
  lschema : List QCol
  rschema : List QCol
  kind : JoinKind
  on : Option E
  clause : JoinClause
  cross : kind = .cross → on = none ∧ clause.usingCols = [] ∧ clause.natural = false

variable (C : Conditions E V) (J : JoinSpec E)

def JoinSpec.onExpr (layout : JoinLayout) : Option (OnExpr E) :=
  if layout.keys.isEmpty then J.on.map .clause else usingCondition J.lschema J.rschema layout.keys

/-- The condition of a join that is not CROSS. -/
def JoinSpec.onPred (layout : JoinLayout) : Option (OnExpr E) :=
  if J.kind == .cross then none else J.onExpr layout

def preserveLeft (kind : JoinKind) : Bool :=
  match kind with
  | .left | .full => true
  | _ => false

def preserveRight (kind : JoinKind) : Bool :=
  match kind with
  | .right | .full => true
  | _ => false

/-- The columns of a side that a reference may mean. -/
def countRefs (ref : Option String × String) (schema : List QCol) : Nat :=
  (schema.filter fun c => c.name == ref.2 && (ref.1.map (c.qual == ·)).getD true).length

/-- No reference of the condition may mean columns of both sides. -/
def joinFastPath (on : OnExpr E) (lschema rschema : List QCol) : Bool :=
  (C.columnRefs on).all fun ref => countRefs ref lschema + countRefs ref rschema < 2

/-- A condition over the two rows of a pair. -/
def evalApart (on : OnExpr E) (l r : QRow V) : Except ExecError Bool :=
  C.eval on [⟨J.lschema, l.cells⟩, ⟨J.rschema, r.cells⟩]

/-- A condition over the merged row of a pair. -/
def evalMerged (layout : JoinLayout) (on : OnExpr E) (l r : QRow V) : Except ExecError Bool :=
  C.eval on [⟨layout.schema, (combineJoinPair C.isNull l r layout J.kind).cells⟩]

/-- Whether a loop keeps a pair. -/
def keepPair (eval : OnExpr E → QRow V → QRow V → Except ExecError Bool) (on : Option (OnExpr E)) (l r : QRow V) :
    Except ExecError Bool :=
  match on with
  | none => .ok true
  | some p => eval p l r

def nullRow (schema : List QCol) : QRow V := ⟨schema.map fun _ => C.null, []⟩

/-! ## The loops -/

section

variable (keep : QRow V → QRow V → Except ExecError Bool) (combine : QRow V → QRow V → QRow V)

/-- The pairs of a left row, with the flags of the right rows that have matched by then, and whether one did now. -/
def scanRight (l : QRow V) : List (QRow V) → List Bool → Except ExecError (List (QRow V) × List Bool × Bool)
  | r :: rrows, m :: matchedRight => do
    let k ← keep l r
    let (rows, matchedRight, matched) ← scanRight l rrows matchedRight
    .ok (if k then combine l r :: rows else rows, (k || m) :: matchedRight, k || matched)
  | _, _ => .ok ([], [], false)

/-- The right rows that never matched, with nulls on the left. -/
def unmatchedRight (nullL : QRow V) (rrows : List (QRow V)) (matchedRight : List Bool) : List (QRow V) :=
  ((rrows.zip matchedRight).filter (!·.2)).map fun r => combine nullL r.1

/-- The rows of the left side in turn, over one set of right rows. -/
def joinLoop (kind : JoinKind) (nullR : QRow V) (rrows : List (QRow V)) :
    List (QRow V) → List Bool → Except ExecError (List (QRow V) × List Bool)
  | [], matchedRight => .ok ([], matchedRight)
  | l :: lrows, matchedRight => do
    let (pairs, matchedRight, matched) ← scanRight keep combine l rrows matchedRight
    let alone := if !matched && preserveLeft kind then [combine l nullR] else []
    let (rows, matchedRight) ← joinLoop kind nullR rrows lrows matchedRight
    .ok (pairs ++ alone ++ rows, matchedRight)

/-- The rows of the left side in turn, each over right rows of its own. -/
def lateralLoop (kind : JoinKind) (nullL nullR : QRow V) (evalRight : QRow V → Except ExecError (List (QRow V))) :
    List (QRow V) → Except ExecError (List (QRow V))
  | [] => .ok []
  | l :: lrows => do
    let rrows ← evalRight l
    let (pairs, matchedRight, matched) ← scanRight keep combine l rrows (rrows.map fun _ => false)
    let alone := if !matched && preserveLeft kind then [combine l nullR] else []
    let unmatched := if preserveRight kind then unmatchedRight combine nullL rrows matchedRight else []
    let rows ← lateralLoop kind nullL nullR evalRight lrows
    .ok (pairs ++ alone ++ unmatched ++ rows)

end

/-! ## The joins -/

/-- Whether the two rows of a pair are looked at apart. -/
def JoinSpec.fast (layout : JoinLayout) : Bool :=
  J.kind == .cross || (J.onPred layout).any fun p => joinFastPath C p J.lschema J.rschema

/-- The columns of a condition are found once, before the loop, if the loop will evaluate it. -/
def resolveOn (fast : Bool) (lrows rrows : List (QRow V)) : Option (OnExpr E) → Except ExecError Unit
  | none => .ok ()
  | some p =>
    if fast && !lrows.isEmpty && !rrows.isEmpty then C.resolve p [J.lschema, J.rschema] else .ok ()

/-- The ordinary join, without a hash table. -/
def nestedLoopJoin (lrows rrows : List (QRow V)) : Except ExecError (List QCol × List (QRow V)) := do
  let layout ← planJoin J.lschema J.rschema J.clause
  let fast := J.fast C layout
  resolveOn C J fast lrows rrows (J.onPred layout)
  let keep := keepPair (if fast then evalApart C J else evalMerged C J layout) (J.onPred layout)
  let combine := fun l r => combineJoinPair C.isNull l r layout J.kind
  let (rows, matchedRight) ← joinLoop keep combine J.kind (nullRow C J.rschema) rrows lrows (rrows.map fun _ => false)
  .ok (layout.schema, rows ++
    if preserveRight J.kind then unmatchedRight combine (nullRow C J.lschema) rrows matchedRight else [])

/-- The join with a LATERAL right side. -/
def evalLateralJoin (lrows : List (QRow V)) (evalLateralRight : QRow V → Except ExecError (List (QRow V))) :
    Except ExecError (List QCol × List (QRow V)) := do
  let layout ← planJoin J.lschema J.rschema J.clause
  let keep := keepPair (evalMerged C J layout) (J.onExpr layout)
  let combine := fun l r => combineJoinPair C.isNull l r layout J.kind
  let rows ← lateralLoop keep combine J.kind (nullRow C J.lschema) (nullRow C J.rschema) evalLateralRight lrows
  .ok (layout.schema, rows)

/-- The join with a right side that has a LATERAL item in it, built again for each row of the left. -/
def evalCrossNestJoin (lrows : List (QRow V)) (buildRight : QRow V → Except ExecError (List (QRow V))) :
    Except ExecError (List QCol × List (QRow V)) := do
  let layout ← planJoin J.lschema J.rschema J.clause
  let keep := keepPair (evalMerged C J layout) (J.onPred layout)
  let combine := fun l r => combineJoinPair C.isNull l r layout J.kind
  let rows ← lateralLoop keep combine J.kind (nullRow C J.lschema) (nullRow C J.rschema) buildRight lrows
  .ok (layout.schema, rows)

end Joins
