-- SUMMARY: The layout of a join: its merged columns, and the rows of its pairs.
import Rustgres.Cte.Recursive

/-!
# Join Layouts

A join with USING or NATURAL merges the columns of its keys. The merged columns come first, then the other columns of
both sides, and then what is hidden: the originals of the keys, and copies under the alias of USING.
-/

namespace Joins

open Encoding (ColType)

inductive JoinKind where
  | inner | left | right | full | cross
deriving DecidableEq, Repr

structure QCol where
  qual : String
  name : String
  ty : ColType
  hidden : Bool
  srcOrd : Nat

structure RowProv where
  qual : String
  table : String
  rowId : Nat

/-- A row with the base rows that it comes from. -/
structure QRow (V : Type) where
  cells : List V
  prov : List RowProv

/-- Where a cell of an output row comes from. -/
inductive CellSrc where
  | mergedKey (l r : Nat)
  | left (i : Nat)
  | right (i : Nat)
deriving DecidableEq, Repr

structure JoinLayout where
  keys : List (Nat × Nat)
  rowPlan : List CellSrc
  schema : List QCol

/-! ## The merged columns -/

/-- The names to merge: the common visible ones for NATURAL, otherwise those of USING, each once. -/
def mergedNames (lschema rschema : List QCol) (usingCols : List String) (natural : Bool) : List String :=
  if natural then
    ((lschema.filter (!·.hidden)).map (·.name)).eraseDups.filter fun n =>
      rschema.any fun c => !c.hidden && c.name == n
  else usingCols.eraseDups

def errAppearsTwice (col side : String) : ExecError :=
  execError "42701" ("common column name \"" ++ col ++ "\" appears more than once in " ++ side ++ " table")

def errNoColumn (col side : String) : ExecError :=
  execError "42703" ("column \"" ++ col ++ "\" specified in USING clause does not exist in " ++ side ++ " table")

/-- The place of a merged column among the visible columns of a side. -/
def findKey (schema : List QCol) (col side : String) : Except ExecError Nat :=
  match (schema.zipIdx.filter fun c => !c.1.hidden && c.1.name == col).map (·.2) with
  | [] => .error (errNoColumn col side)
  | [i] => .ok i
  | _ => .error (errAppearsTwice col side)

def joinKeys (lschema rschema : List QCol) (names : List String) : Except ExecError (List (Nat × Nat)) :=
  names.mapM fun col => do
    let li ← findKey lschema col "left"
    let ri ← findKey rschema col "right"
    .ok (li, ri)

/-! ## The layout -/

/-- The visible columns of a side that are no keys. -/
def passThrough (schema : List QCol) (keys : List Nat) : List Nat :=
  (schema.zipIdx.filter fun c => !c.1.hidden && !keys.contains c.2).map (·.2)

def hiddenColumns (schema : List QCol) : List Nat := (schema.zipIdx.filter fun c => c.1.hidden).map (·.2)

/-- Columns of a side with where their cells come from. -/
def sideCells (schema : List QCol) (src : Nat → CellSrc) (hide : Bool) (idxs : List Nat) : List (QCol × CellSrc) :=
  idxs.filterMap fun i => schema[i]?.map fun c => ({ c with hidden := hide || c.hidden }, src i)

def mergedCells (lschema : List QCol) (keys : List (Nat × Nat)) (names : List String) (qual : String) (hide : Bool) :
    List (QCol × CellSrc) :=
  ((keys.zip names).zipIdx).filterMap fun ((key, name), k) =>
    lschema[key.1]?.map fun c => (⟨qual, name, c.ty, hide, k⟩, .mergedKey key.1 key.2)

/-- An alias of the whole join hides the names of the tables in it. -/
def requalify (cells : List (QCol × CellSrc)) : Option String → List (QCol × CellSrc)
  | none => cells
  | some x => (cells.filter (!·.1.hidden)).mapIdx fun i c => ({ c.1 with qual := x, srcOrd := i }, c.2)

/-- The names of a column alias list, given to the visible columns in turn. -/
def renameVisible : List (QCol × CellSrc) → List String → List (QCol × CellSrc)
  | [], _ => []
  | cells, [] => cells
  | (c, src) :: cells, a :: aliases =>
    if c.hidden then (c, src) :: renameVisible cells (a :: aliases)
    else ({ c with name := a }, src) :: renameVisible cells aliases

/-- What a join clause says besides its condition. -/
structure JoinClause where
  usingCols : List String
  natural : Bool
  usingAlias : Option String
  joinAlias : Option String
  colAliases : List String

/-- An alias of USING must not be the name of a table in the join. -/
def checkUsingAlias (lschema rschema : List QCol) : Option String → Except ExecError Unit
  | none => .ok ()
  | some x =>
    if ((lschema ++ rschema).filter (!·.hidden)).any (·.qual == x) then
      .error (execError "42712" ("table name \"" ++ x ++ "\" specified more than once"))
    else .ok ()

/-- The columns of a join in their order, before the aliases of the whole join. -/
def joinCells (lschema rschema : List QCol) (keys : List (Nat × Nat)) (names : List String)
    (usingAlias : Option String) : List (QCol × CellSrc) :=
  mergedCells lschema keys names "" false ++
    sideCells lschema .left false (passThrough lschema (keys.map (·.1))) ++
    sideCells rschema .right false (passThrough rschema (keys.map (·.2))) ++
    sideCells lschema .left false (hiddenColumns lschema) ++
    sideCells rschema .right false (hiddenColumns rschema) ++
    sideCells lschema .left true (keys.map (·.1)) ++
    sideCells rschema .right true (keys.map (·.2)) ++
    match usingAlias with
    | some x => mergedCells lschema keys names x true
    | none => []

def planJoin (lschema rschema : List QCol) (clause : JoinClause) : Except ExecError JoinLayout := do
  let names := mergedNames lschema rschema clause.usingCols clause.natural
  let keys ← joinKeys lschema rschema names
  checkUsingAlias lschema rschema clause.usingAlias
  let cells := requalify (joinCells lschema rschema keys names clause.usingAlias) clause.joinAlias
  Cte.checkColAliasArity (clause.joinAlias.getD "") (cells.filter (!·.1.hidden)).length clause.colAliases
  let cells := renameVisible cells clause.colAliases
  .ok ⟨keys, cells.map (·.2), cells.map (·.1)⟩

/-! ## The rows of a pair -/

variable {V : Type} [Inhabited V] (isNull : V → Bool)

def cellOf (l r : List V) (kind : JoinKind) : CellSrc → V
  | .mergedKey li ri =>
    match kind with
    | .full => if isNull (l.getD li default) then r.getD ri default else l.getD li default
    | .right => r.getD ri default
    | _ => l.getD li default
  | .left i => l.getD i default
  | .right i => r.getD i default

def combineJoinPair (l r : QRow V) (layout : JoinLayout) (kind : JoinKind) : QRow V where
  cells := layout.rowPlan.map (cellOf isNull l.cells r.cells kind)
  prov := l.prov ++ r.prov

end Joins
