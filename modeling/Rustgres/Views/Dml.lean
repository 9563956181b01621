-- SUMMARY: INSERT, UPDATE and DELETE through auto-updatable views, and the check option on what they return.
import Rustgres.Views.Table

/-!
# Statements through a View

A statement on a view is rewritten onto its base relation and executed there, down to the table. When
the view has a check option, the base statement returns its rows and the collected conditions are
evaluated over them.
-/

open Terms
open Encoding (CheckOption)

namespace Views

variable {V F S : Type}

/-! ## Errors -/

def errViewNotUpdatable (view event reason : String) : ExecError :=
  let verb := match event with
    | "INSERT" => "cannot insert into view \""
    | "UPDATE" => "cannot update view \""
    | "DELETE" => "cannot delete from view \""
    | _ => "cannot merge into view \""
  ⟨"55000", verb ++ unqualified view ++ "\"", some reason⟩

def errViewColNotUpdatable (view event col reason : String) : ExecError :=
  let verb := match event with
    | "INSERT" => "cannot insert into column \""
    | "UPDATE" => "cannot update column \""
    | _ => "cannot merge into column \""
  ⟨"0A000", verb ++ col ++ "\" of view \"" ++ unqualified view ++ "\"", some reason⟩

def errCheckOption (owner : String) : ExecError :=
  execError "44000" ("new row violates check option for view \"" ++ owner ++ "\"")

def VCol.reason : VCol F S → Option String
  | .blocked _ reason => some reason
  | .subst _ => some rNotCol
  | .base _ => none

/-! ## Targets -/

namespace AutoView

variable (av : AutoView F S)

/-- The base column that the view column of this name assigns. -/
def updatableTarget (view event name : String) : Except ExecError String :=
  match av.viewCol name with
  | none =>
    .error (execError "42703"
      ("column \"" ++ name ++ "\" of relation \"" ++ unqualified view ++ "\" does not exist"))
  | some (.base b) => .ok b
  | some col => .error (errViewColNotUpdatable view event name (col.reason.getD rNotCol))

/-- Without a list the values go to the updatable columns, in the order of the view. -/
def insertTargets (view : String) (stmt : InsertStmt F S) : Except ExecError (Option (List String)) :=
  match stmt.columns with
  | some names => do
    let targets ← names.mapM (av.updatableTarget view "INSERT")
    return some targets
  | none =>
    if stmt.rows.any fun row => !row.isEmpty then
      .ok (some (av.cols.filterMap fun
        | .base b => some b
        | _ => none))
    else .ok none

def translateSets (view : String) (ren : Ren F S) (sets : List (String × Expr F S)) :
    Except ExecError (List (String × Expr F S)) :=
  sets.mapM fun set => do
    let b ← av.updatableTarget view "UPDATE" set.1
    let e ← ren.expr set.2
    return (b, e)

def translateWhere (ren : Ren F S) : Option (Expr F S) → Except ExecError (Option (Expr F S))
  | none => .ok none
  | some e => do
    let e ← ren.expr e
    return some e

def translateOnConflict (view : String) (ren : Ren F S) (oc : OnConflict F S) :
    Except ExecError (OnConflict F S) := do
  let arbiter ← match oc.arbiter with
    | none => pure none
    | some names => some <$> names.mapM (av.updatableTarget view "INSERT")
  match oc.action with
  | .doNothing => return ⟨arbiter, .doNothing⟩
  | .doUpdate sets where_ => do
    let sets ← av.translateSets view ren sets
    let where_ ← translateWhere ren where_
    return ⟨arbiter, .doUpdate sets where_⟩

/-- The condition of the statement together with that of the view. -/
def andQual (where_ : Option (Expr F S)) (targetQual : String) : Option (Expr F S) :=
  match where_, av.qual.map (av.renameBaseExpr targetQual none) with
  | some w, some q => some (.node .and [w, q])
  | some w, none => some w
  | none, q => q

end AutoView

/-! ## Check option -/

/-- A condition over the base of a view, and the view it belongs to. -/
structure PendingCheck (F S : Type) where
  owner : String
  qual : Expr F S

/-- The conditions of the views in a stack, lifted to the columns of its top one where each view in
between shows what they read. -/
def cascade : Rel V F S → List (String × Option (Expr F S))
  | .table _ => []
  | .view w base =>
    match classify 0 w base with
    | .error _ => []
    | .ok av =>
      ((av.qual.map fun q => (unqualified w.name, some q)).toList ++ cascade base).map fun check =>
        (check.1, check.2.bind fun q => (av.invertRename q).toOption)

/-- The conditions that a statement through the view has to check on its rows. One that cannot be
lifted is left out. -/
def collectChecks (view : String) (av : AutoView F S) (base : Rel V F S) : List (PendingCheck F S) :=
  match av.checkOption with
  | .none => []
  | option =>
    (av.qual.map fun q => ⟨unqualified view, av.renameBaseExpr av.base none q⟩).toList ++
      if option = .cascaded then
        (cascade base).filterMap fun check => check.2.map (⟨check.1, ·⟩)
      else []

section

variable (sem : Semantics V F S)

/-- The first condition that is not true of a row stops the statement. -/
def enforceChecks (av : AutoView F S) (baseCols : List String) (checks : List (PendingCheck F S))
    (rows : List (List V)) : Except ExecError Unit :=
  rows.forM fun row => checks.forM fun check => do
    let v ← eval sem (scopeOf av.base baseCols row) check.qual
    if sem.asBool3 v = some (some true) then .ok () else .error (errCheckOption check.owner)

/-- The row of the view for a row of its base. -/
def viewRowFromBase (av : AutoView F S) (baseCols : List String) (row : List V) :
    Except ExecError (List V) :=
  av.cols.mapM fun
    | .base b | .blocked (some b) _ =>
      .ok (((baseCols.findIdx? (· = b)).bind (row[·]?)).getD (null sem))
    | .subst e => eval sem (scopeOf av.base baseCols row) e
    | .blocked none _ => .ok (null sem)

/-- What a view does with the rows that its base statement returns. -/
def finish (av : AutoView F S) (base : Rel V F S) (checks : List (PendingCheck F S))
    (returning : Bool) (out : Written V) : Except ExecError (Written V) := do
  enforceChecks sem av base.columns checks out.captured
  if returning then
    let captured ← out.captured.mapM (viewRowFromBase sem av base.columns)
    return { out with captured }
  else return { out with captured := [] }

/-! ## Execution -/

/-- The table under the stack. -/
def Rel.bottom : Rel V F S → Table V F S
  | .table t => t
  | .view _ base => base.bottom

def analyse (event : String) (v : ViewDef F S) (base : Rel V F S) : Except ExecError (AutoView F S) :=
  match classify 0 v base with
  | .error reason => .error (errViewNotUpdatable v.name event reason)
  | .ok av => .ok av

def analyseUpdatable (event : String) (v : ViewDef F S) (base : Rel V F S) :
    Except ExecError (AutoView F S) := do
  let av ← analyse event v base
  if av.hasUpdatable then return av else .error (errViewNotUpdatable v.name event rNoCols)

/-- `returning` asks for the rows in the columns of the relation. -/
def execInsert (rows : List (List V)) :
    Rel V F S → InsertStmt F S → Bool → Except ExecError (Written V)
  | .table t, stmt, _ => t.execInsert sem stmt rows
  | .view v base, stmt, returning => do
    let av ← analyseUpdatable "INSERT" v base
    let columns ← av.insertTargets v.name stmt
    let ren : Ren F S := ⟨v.name, none, av, av.base, true⟩
    let onConflict ← stmt.onConflict.mapM (av.translateOnConflict v.name ren)
    let checks := collectChecks v.name av base
    let out ← execInsert rows base ⟨columns, stmt.rows, onConflict⟩ (!checks.isEmpty || returning)
    finish sem av base checks returning out

def execUpdate (rows : List (List V)) :
    Rel V F S → UpdateStmt V F S → Bool → Except ExecError (Written V)
  | .table t, stmt, _ => t.execUpdate sem stmt rows
  | .view v base, stmt, returning => do
    let av ← analyseUpdatable "UPDATE" v base
    let targetQual := stmt.alias_.getD av.base
    let ren : Ren F S := ⟨v.name, stmt.alias_, av, targetQual, true⟩
    let sets ← av.translateSets v.name ren stmt.sets
    let where_ ← AutoView.translateWhere ren stmt.where_
    let checks := collectChecks v.name av base
    let out ← execUpdate rows base
      { stmt with sets, where_ := av.andQual where_ targetQual } (!checks.isEmpty || returning)
    finish sem av base checks returning out

/-- A DELETE checks nothing. -/
def execDelete (rows : List (List V)) :
    Rel V F S → DeleteStmt V F S → Bool → Except ExecError (Written V)
  | .table t, stmt, _ => t.execDelete sem stmt rows
  | .view v base, stmt, returning => do
    let av ← analyse "DELETE" v base
    let targetQual := stmt.alias_.getD av.base
    let ren : Ren F S := ⟨v.name, stmt.alias_, av, targetQual, true⟩
    let where_ ← AutoView.translateWhere ren stmt.where_
    let out ← execDelete rows base
      { stmt with where_ := av.andQual where_ targetQual } returning
    finish sem av base [] returning out

end

end Views
