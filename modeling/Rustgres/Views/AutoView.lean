-- SUMMARY: Auto-updatable views: how a view query maps onto its base relation, and the renamings both ways.
import Rustgres.Encoding.Types
import Rustgres.Views.Expr

/-!
# Auto-Updatable Views

A view over a single relation is taken apart into its condition and, for each of its columns, the
column of the base relation it stands for. Statements through the view and its check option are
rewritten along this map.
-/

open Terms
open Encoding (CheckOption)

namespace Views

/-! ## Relations -/

inductive SelectItem (F S : Type) where
  | all
  | allOf (qual : String)
  | expr (e : Expr F S)

/-- A view whose query selects from a single relation, under an alias and with new names for the
first columns, without any of the clauses that rule a rewriting out. `viewCols` are its names. -/
structure ViewDef (F S : Type) where
  name : String
  alias_ : Option String
  colAliases : List String
  items : List (SelectItem F S)
  where_ : Option (Expr F S)
  viewCols : List String
  checkOption : CheckOption

/-- A table and what its DML does besides: conversion on assignment, defaults, generated columns, row
and statement checks, `BEFORE` row triggers, which may drop a row, and the row that an arbiter index
finds for a new one. -/
structure Table (V F S : Type) where
  name : String
  columns : List String
  coerce : String → V → Except ExecError V
  defaults : List (Option (Expr F S))
  generated : List (Option (Expr F S))
  checkRow : List V → Except ExecError Unit
  checkRows : List (List V) → Except ExecError Unit
  beforeInsert : List V → Except ExecError (Option (List V))
  beforeUpdate : List V → List V → Except ExecError (Option (List V))
  beforeDelete : List V → Except ExecError Bool
  conflict : Option (List String) → List (List V) → List V → Option Nat
  beforeInsert_length : ∀ row new, beforeInsert row = .ok (some new) → new.length = columns.length
  conflict_lt : ∀ arbiter rows row pos, conflict arbiter rows row = some pos → pos < rows.length

/-- A table under a stack of views. -/
inductive Rel (V F S : Type) where
  | table (t : Table V F S)
  | view (v : ViewDef F S) (base : Rel V F S)

variable {V F S : Type}

namespace Rel

def name : Rel V F S → String
  | table t => t.name
  | view v _ => v.name

def columns : Rel V F S → List String
  | table t => t.columns
  | view v _ => v.viewCols

end Rel

/-! ## Analysis -/

/-- What a view column is of the base relation: a column, an expression, or something that cannot be
assigned, with the reason. -/
inductive VCol (F S : Type) where
  | base (name : String)
  | subst (e : Expr F S)
  | blocked (name : Option String) (reason : String)

structure AutoView (F S : Type) where
  base : String
  baseAlias : Option String
  qual : Option (Expr F S)
  cols : List (VCol F S)
  viewCols : List String
  checkOption : CheckOption

def rSingle : String :=
  "Views that do not select from a single table or view are not automatically updatable."
def rNoCols : String := "Views that have no updatable columns are not automatically updatable."
def rSystem : String := "View columns that refer to system columns are not updatable."
def rWhole : String := "View columns that return whole-row references are not updatable."
def rNotCol : String := "View columns that are not columns of their base relation are not updatable."

def isSystemCol (name : String) : Bool :=
  ["ctid", "xmin", "xmax", "cmin", "cmax", "tableoid"].contains name

/-- The name without its schema. -/
def unqualified (name : String) : String :=
  String.ofList (name.toList.reverse.takeWhile (· ≠ '.')).reverse

/-- A qualifier by which the view query may mean its base relation. -/
def isBaseQual (base : String) (alias_ : Option String) (qual : String) : Bool :=
  qual = base || some qual = alias_ || qual = unqualified base

/-- New names for the first columns. -/
def applyAliases : List String → List String → List String
  | a :: aliases, _ :: names => a :: applyAliases aliases names
  | _, names => names

/-- The names of the base columns in the view query; a base view keeps its own. -/
def visibleCols (v : ViewDef F S) : Rel V F S → List String
  | .table t => applyAliases v.colAliases t.columns
  | .view w _ => w.viewCols

/-- A column of a base view is no better than what it stands for there. -/
def mapInner (inner : Option (List (VCol F S))) (pos : Nat) (real : String) (e : Expr F S) :
    VCol F S :=
  match inner with
  | none => .base real
  | some kinds =>
    match kinds[pos]? with
    | some (.base _) | none => .base real
    | some (.subst _) => .subst e
    | some (.blocked name reason) => .blocked (name.map fun _ => real) reason

def allColumns (inner : Option (List (VCol F S))) (real : List String) : List (VCol F S) :=
  real.mapIdx fun pos name => mapInner inner pos name (column none name)

def classifyItem (v : ViewDef F S) (base : String) (inner : Option (List (VCol F S)))
    (visible real : List String) : SelectItem F S → Except String (List (VCol F S))
  | .all => .ok (allColumns inner real)
  | .allOf qual =>
    if isBaseQual base v.alias_ qual then .ok (allColumns inner real) else .error rSingle
  | .expr (.leaf (.column table name)) =>
    if table.any fun qual => !isBaseQual base v.alias_ qual then .ok [.blocked none rNotCol]
    else if isSystemCol name then .ok [.blocked (some name) rSystem]
    else
      match visible.findIdx? (· = name) with
      | some pos => .ok [mapInner inner pos (real[pos]?.getD name) (column table name)]
      | none => .ok [.blocked none rNotCol]
  | .expr (.leaf (.wholeRow _)) => .ok [.blocked none rWhole]
  | .expr e => .ok [.subst e]

/-- The analysis of a view, from what the columns of its base are when that is a view. -/
def classifyOver (v : ViewDef F S) (base : Rel V F S) (inner : Option (List (VCol F S))) :
    Except String (AutoView F S) := do
  let cols ← v.items.mapM (classifyItem v base.name inner (visibleCols v base) base.columns)
  if cols.flatten.length ≠ v.viewCols.length then .error rSingle
  else .ok ⟨base.name, v.alias_, v.where_, cols.flatten, v.viewCols, v.checkOption⟩

/-- The analysis of a view, or why it is not updatable. Views more than 32 levels down are not
looked at. -/
def classify (depth : Nat) (v : ViewDef F S) : Rel V F S → Except String (AutoView F S)
  | .table t => if depth > 32 then .error rSingle else classifyOver v (.table t) none
  | .view w base =>
    if depth > 32 then .error rSingle
    else do
      let inner ← classify (depth + 1) w base
      classifyOver v (.view w base) (some inner.cols)

def VCol.isBase : VCol F S → Bool
  | .base _ => true
  | _ => false

/-- The column shows the base column of that name. -/
def VCol.shows (name : String) : VCol F S → Bool
  | .base b => b = name
  | _ => false

/-- At least one column can be assigned. -/
def AutoView.hasUpdatable (av : AutoView F S) : Bool := av.cols.any VCol.isBase

/-! ## Renaming of expressions over the base -/

namespace AutoView

variable (av : AutoView F S)

def isBaseQual (qual : String) : Bool := Views.isBaseQual av.base av.baseAlias qual

/-- A reference of the view query under the qualifier of the statement; in `old` and `new` rows every
reference is forced to that row. -/
def renameBaseRef (targetQual : String) (oldnew : Option String) : Ref S → Expr F S
  | .column table name =>
    match oldnew with
    | some q => column (some q) name
    | none =>
      match table with
      | none => column none name
      | some q => column (some (if av.isBaseQual q then targetQual else q)) name
  | .wholeRow qual =>
    match oldnew with
    | some q => .leaf (.wholeRow q)
    | none => .leaf (.wholeRow (if av.isBaseQual qual then targetQual else qual))
  | .subquery s => .leaf (.subquery s)

def renameBaseExpr (targetQual : String) (oldnew : Option String) : Expr F S → Expr F S :=
  Term.bind (av.renameBaseRef targetQual oldnew)

/-- The column of the view that shows the base column. -/
def outputOf (name : String) : Option String := do
  let pos ← av.cols.findIdx? (VCol.shows name)
  av.viewCols[pos]?

/-- An expression over the base relation, over the columns of the view instead; it fails where the
view does not show a column. -/
def invertRename : Expr F S → Except Unit (Expr F S) :=
  Term.bindE fun
    | .column _ name =>
      match av.outputOf name with
      | some out => .ok (column none out)
      | none => .error ()
    | .wholeRow _ => .error ()
    | .subquery s => .ok (.leaf (.subquery s))

/-- What the view column of this name stands for. -/
def viewCol (name : String) : Option (VCol F S) := do
  let pos ← av.viewCols.findIdx? (· = name)
  av.cols[pos]?

end AutoView

/-! ## Renaming of expressions over the view -/

/-- The renaming of the expressions of a statement through a view. In a MERGE, unqualified names are
left alone, since they may belong to the source. -/
structure Ren (F S : Type) where
  view : String
  alias_ : Option String
  av : AutoView F S
  targetQual : String
  unqualified : Bool

namespace Ren

variable (ren : Ren F S)

def isViewQual (qual : String) : Bool :=
  qual = ren.view || some qual = ren.alias_ || qual = Views.unqualified ren.view

def noColumn (name : String) : ExecError :=
  execError "42703" ("column \"" ++ name ++ "\" of relation \"" ++ ren.view ++ "\" does not exist")

/-- A view column in the target relation; a name that is none stays as it is. -/
def target (table : Option String) (name : String) : Expr F S :=
  match ren.av.viewCol name with
  | some (.base b) => column (some ren.targetQual) b
  | some (.subst e) => ren.av.renameBaseExpr ren.targetQual none e
  | some (.blocked (some b) _) => column (some ren.targetQual) b
  | _ => column table name

def col (table : Option String) (name : String) : Except ExecError (Expr F S) :=
  match table with
  | some q =>
    if q = "old" ∨ q = "new" then
      match ren.av.viewCol name with
      | some (.base b) => .ok (column (some q) b)
      | some (.subst e) => .ok (ren.av.renameBaseExpr ren.targetQual (some q) e)
      | some (.blocked (some b) _) => .ok (column (some q) b)
      | _ => .error (ren.noColumn name)
    else if q = "excluded" then
      match ren.av.viewCol name with
      | some (.base b) => .ok (column (some "excluded") b)
      | some (.subst e) => .ok (ren.av.renameBaseExpr "excluded" none e)
      | some (.blocked (some b) _) => .ok (column (some "excluded") b)
      | _ => .ok (column table name)
    else if ren.isViewQual q then .ok (ren.target table name)
    else .ok (column table name)
  | none =>
    if !ren.unqualified then .ok (column none name)
    else if (name = "old" ∨ name = "new") ∧ (ren.av.viewCol name).isNone then .ok (column none name)
    else .ok (ren.target table name)

def expr : Expr F S → Except ExecError (Expr F S) :=
  Term.bindE fun
    | .column table name => ren.col table name
    | .wholeRow qual =>
      .ok (.leaf (.wholeRow (if ren.isViewQual qual then ren.targetQual else qual)))
    | .subquery s => .ok (.leaf (.subquery s))

end Ren

end Views
