-- SUMMARY: The evaluation of a recursive common table expression.
import Rustgres.Encoding.Types
import Rustgres.Exec.Common

/-!
# Recursive Common Table Expressions

The seed is evaluated once, and the recursive term over the rows that the round before brought. Rows are told apart by
the bytes of their cells.
-/

namespace Cte

open Encoding (ColType)

/-- What a query returns; its cells are of any type. -/
structure SelectOut (V : Type) where
  columns : List (String × ColType)
  rows : List (List V)

structure CteDef where
  name : String
  colAliases : List String

structure CteBinding (V : Type) where
  name : String
  schema : List (String × ColType)
  rows : List (List V)

/-- What the evaluation needs of cells: the bytes that stand for one, and its value in the type of a column. -/
structure CellOps (V : Type) where
  valueKey : V → Bytes
  coerceValue : V → ColType → String → Except ExecError V

/-- The two terms, which may change the state of the session: the seed, and the other one with the rows that the name
of the expression stands for, if it is bound. -/
structure Terms (σ V : Type) where
  left : σ → Except ExecError (SelectOut V × σ)
  right : σ → Option (CteBinding V) → Except ExecError (SelectOut V × σ)
  rightRefs : Bool
  checkCollations : σ → CteBinding V → Except ExecError Unit

variable {σ V : Type} (ops : CellOps V)

def checkColAliasArity (tableAlias : String) (available : Nat) (colAliases : List String) : Except ExecError Unit :=
  if colAliases.length > available then
    .error (execError "42601" ("table \"" ++ tableAlias ++ "\" has " ++ toString available ++
      " columns available but " ++ toString colAliases.length ++ " specified"))
  else .ok ()

def cteBinding (cte : CteDef) (columns : List (String × ColType)) (rows : List (List V)) :
    Except ExecError (CteBinding V) := do
  checkColAliasArity cte.name columns.length cte.colAliases
  .ok ⟨cte.name, columns.mapIdx fun i col => (cte.colAliases.getD i col.1, col.2), rows⟩

/-- The bytes of the cells of a row, one after another. -/
def rowKey (cells : List V) : Bytes := cells.flatMap ops.valueKey

/-- The cells of a row in the types of the seed. -/
def coerceCells (name : String) (types : List ColType) (cells : List V) : Except ExecError (List V) :=
  (cells.zip types).mapM fun (v, ty) => ops.coerceValue v ty name

/-- The rows whose keys are not there yet, with the keys that are there then. -/
def insertNew : List Bytes → List (List V) → List Bytes × List (List V)
  | seen, [] => (seen, [])
  | seen, row :: rows =>
    if rowKey ops row ∈ seen then insertNew seen rows
    else
      let (seen, new) := insertNew (rowKey ops row :: seen) rows
      (seen, row :: new)

def errRightWidth (name : String) (width expected : Nat) : ExecError :=
  execError "42601" ("recursive CTE \"" ++ name ++ "\": right side returns " ++ toString width ++ " columns, expected " ++
    toString expected)

def errTermWidth (name : String) (width expected : Nat) : ExecError :=
  execError "42601" ("recursive CTE \"" ++ name ++ "\": recursive term returns " ++ toString width ++
    " columns, expected " ++ toString expected)

def errIterations (name : String) : ExecError :=
  execError "54001" ("recursive CTE \"" ++ name ++ "\" exceeded the 10000-iteration limit (cyclic UNION ALL?)")

/-- The rounds of the recursion. -/
def iterate (T : Terms σ V) (binding : CteBinding V) (width : Nat) (all : Bool) :
    Nat → σ → List Bytes → List (List V) → List (List V) → Except ExecError (CteBinding V × σ)
  | 0, _, _, _, _ => .error (errIterations binding.name)
  | fuel + 1, s, seen, rows, working =>
    match T.right s (some { binding with rows := working }) with
    | .error e => .error e
    | .ok (delta, s) =>
      if delta.columns.length ≠ width then .error (errTermWidth binding.name delta.columns.length width)
      else
        match delta.rows.mapM (coerceCells ops binding.name (binding.schema.map (·.2))) with
        | .error e => .error e
        | .ok coerced =>
          let (seen, new) := if all then (seen, coerced) else insertNew ops seen coerced
          if new.isEmpty then .ok ({ binding with rows := rows }, s)
          else iterate T binding width all fuel s seen (rows ++ new) new

def evalRecursiveCte (T : Terms σ V) (cte : CteDef) (all : Bool) (s : σ) : Except ExecError (CteBinding V × σ) := do
  let (seed, s) ← T.left s
  let width := seed.columns.length
  let binding ← cteBinding cte seed.columns seed.rows
  if T.rightRefs then
    T.checkCollations s binding
    let seen := if all then [] else binding.rows.map (rowKey ops)
    iterate ops T binding width all 10000 s seen binding.rows binding.rows
  else do
    let (other, s) ← T.right s none
    if other.columns.length ≠ width then .error (errRightWidth cte.name other.columns.length width)
    else do
      let seen := if all then [] else binding.rows.map (rowKey ops)
      let coerced ← other.rows.mapM (coerceCells ops cte.name (binding.schema.map (·.2)))
      let new := if all then coerced else (insertNew ops seen coerced).2
      .ok ({ binding with rows := binding.rows ++ new }, s)

end Cte
