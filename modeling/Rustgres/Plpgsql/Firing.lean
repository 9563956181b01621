-- SUMMARY: The firing of triggers by statements, and the statements of their bodies in turn.
import Rustgres.Plpgsql.Body

/-!
# Firing Triggers

A statement fires the triggers of its table: those of the statement before and after it, those of a
row before an INSERT and after the change of the row. The statements of the bodies fire triggers in
turn, up to a depth of a thousand.
-/

inductive TriggerTiming where
  | before
  | after
deriving DecidableEq, Repr

inductive TrigEvent where
  | insert
  | update
  | delete
  | truncate
deriving DecidableEq, Repr

/-- A trigger that is enabled. `updateCols` is the list of UPDATE OF; it is empty for any column. -/
structure TriggerDef (V K : Type) where
  timing : TriggerTiming
  events : List TrigEvent
  forEachRow : Bool
  updateCols : List Nat
  whenExpr : Option (TrigExpr V K)
  body : TriggerBody V K

/-- The triggers and columns of the tables, and the parser of dynamic SQL. -/
structure TriggerCatalog (V K : Type) where
  triggers : String → List (TriggerDef V K)
  columns : String → List (TrigCol V)
  parse : String → Except ExecError (TrigQuery V)

/-- The images of a row before and after a change. -/
abbrev RowImages (V : Type) := Option (List V) × Option (List V)

section Bodies

variable {V K : Type} [PlValue V]

/-- DECLARE: an alias, or a variable with its default. -/
def BodyEnv.declare (env : BodyEnv V K) (d : TrigDecl V K) : BodyProg V K PUnit := do
  match d.aliasFor with
  | some target =>
    modify fun s =>
      { s with run := { s.run with
        aliases := Function.update s.run.aliases d.name (some (target == "new")) } }
  | none =>
    let v ← (match d.default with
      | some e => env.eval e
      | none => pure PlValue.null)
    BodyEnv.setVar d.name (some v)

/-- The row that the function returns. -/
def BodyEnv.execBody (env : BodyEnv V K) (body : TriggerBody V K) :
    BodyProg V K (Option (List V)) := do
  body.decls.forM env.declare
  match ← env.execStmts body.stmts with
  | some (some .new) => return some (← get).newVals
  | some (some .old) => return some env.oldVals
  | some none => return none
  | none => throw (execError "2F005" "control reached end of trigger procedure without RETURN")

/-- Run a body with fresh variables. -/
def BodyEnv.runBody {α : Type} (newVals : List V) (p : BodyProg V K α) : StmtProg V K α :=
  fun s =>
    let (r, b) := p.exec ⟨s, newVals, .default⟩
    (r, b.stmt)

end Bodies

namespace TriggerCatalog

variable {V K : Type} [PlValue V] (cat : TriggerCatalog V K)

/-- A missing image reads as NULLs. -/
def imageVals (table : String) (row : Option (List V)) : List V :=
  row.getD (List.replicate (cat.columns table).length PlValue.null)

section Fire

variable (ctx : StmtCtx) (nested : Option (RowStmt V → StmtProg V K (StmtResult V)))

/-- Execute one trigger body for a row pair; `nested` executes its statements, and is `none` where
the depth limit is reached. -/
def execTriggerBody (table : String) (images : RowImages V) (body : TriggerBody V K) :
    StmtProg V K (Option (List V)) :=
  match nested with
  | none => throw (execError "54001" "stack depth limit exceeded")
  | some execute =>
    let env : BodyEnv V K :=
      ⟨ctx, execute, cat.parse, table, cat.columns table, cat.imageVals table images.1⟩
    BodyEnv.runBody (cat.imageVals table images.2) (env.execBody body)

/-- WHEN is true, or there is none. -/
def triggerWhenMatches (table : String) (images : RowImages V) (whenExpr : Option (TrigExpr V K)) :
    StmtProg V K Bool := do
  match whenExpr with
  | none => return true
  | some e =>
    let s ← get
    let v ← Prog.ofExcept
      (e ctx s.eng ⟨cat.imageVals table images.2, cat.imageVals table images.1, .default⟩)
    return PlValue.isTrue v

/-- The body runs if WHEN matches, and its row is not used. -/
def fireOneTrigger (table : String) (images : RowImages V) (tr : TriggerDef V K) :
    StmtProg V K PUnit := do
  if ← cat.triggerWhenMatches ctx table images tr.whenExpr then
    let _ ← cat.execTriggerBody ctx nested table images tr.body

/-- The triggers of a table that an event concerns. -/
def firing (table : String) (timing : TriggerTiming) (forEachRow : Bool) (event : TrigEvent)
    (setCols : List Nat) : List (TriggerDef V K) :=
  (cat.triggers table).filter fun tr =>
    decide (tr.timing = timing ∧ tr.forEachRow = forEachRow ∧ event ∈ tr.events) &&
      (decide (event ≠ .update) || tr.updateCols.isEmpty || tr.updateCols.any (· ∈ setCols))

/-- The triggers of the statement itself see no row. -/
def fireStatementTriggers (table : String) (timing : TriggerTiming) (event : TrigEvent)
    (setCols : List Nat) : StmtProg V K PUnit :=
  (cat.firing table timing false event setCols).forM
    (cat.fireOneTrigger ctx nested table (none, none))

/-- Each trigger fires for every changed row, before the next trigger does. -/
def fireAfterRowTriggers (table : String) (event : TrigEvent) (setCols : List Nat)
    (pairs : List (RowImages V)) : StmtProg V K PUnit :=
  (cat.firing table .after true event setCols).forM fun tr =>
    pairs.forM fun images => cat.fireOneTrigger ctx nested table images tr

/-- Each trigger may replace the row or suppress it. -/
def fireBeforeInsertRow (table : String) :
    List (TriggerDef V K) → List V → StmtProg V K (Option (List V))
  | [], row => return some row
  | tr :: trs, row => do
    if ← cat.triggerWhenMatches ctx table (none, some row) tr.whenExpr then
      match ← cat.execTriggerBody ctx nested table (none, some row) tr.body with
      | some row => fireBeforeInsertRow table trs row
      | none => return none
    else fireBeforeInsertRow table trs row

/-- The rows to insert, those suppressed left out. -/
def fireBeforeInsertTriggers (table : String) (rows : List (List V)) :
    StmtProg V K (List (List V)) := do
  let trs := cat.firing table .before true .insert []
  let fired ← rows.mapM (cat.fireBeforeInsertRow ctx nested table trs)
  return fired.reduceOption

end Fire

end TriggerCatalog

/-! ## Statements -/

/-- The images that AFTER ROW triggers see of a logged change. -/
def WriteOp.images {V K : Type} (db : Database V K) : WriteOp V K → List (RowImages V)
  | .insertRow _ id => [(none, (db.findRowVersion id).map RowVersion.values)]
  | .deleteRow _ id _ => [((db.findRowVersion id).map RowVersion.values, none)]
  | .updateRow _ _ newId _ oldValues =>
    [(some oldValues, (db.findRowVersion newId).map RowVersion.values)]
  | _ => []

/-- The answer of a row statement that changed what it logged. -/
def RowStmt.result {V K : Type} (eng : Engine V K) (ctx : StmtCtx) (count : Nat) :
    RowStmt V → StmtResult V
  | .insert .. | .update .. | .delete .. => .dml count
  | .truncate _ => .command
  | .select table =>
    match eng.db.findTable table ctx.snap ctx.allXids with
    | some t => .select t.columns ((visibleRows ctx t).map RowVersion.values)
    | none => .command
  | .selectForUpdate table where_ =>
    match eng.db.findTable table ctx.snap ctx.allXids with
    | some t =>
      .select t.columns (((visibleRows ctx t).map RowVersion.values).filter fun vals => where_ vals)
    | none => .command

/-- The table, event and SET columns that the triggers of a statement go by. -/
def RowStmt.hook {V : Type} : RowStmt V → Option (String × TrigEvent × List Nat)
  | .insert table _ => some (table, .insert, [])
  | .update table _ sets => some (table, .update, sets.map Prod.fst)
  | .delete table _ => some (table, .delete, [])
  | .truncate tables => tables.head?.map fun table => (table, .truncate, [])
  | .select _ | .selectForUpdate .. => none

namespace TriggerCatalog

variable {V K : Type} [DecidableEq K] [SqlValue V K] [PlValue V] (cat : TriggerCatalog V K)

/-- What a statement did goes into the engine and on the log, also when it failed. -/
def record (out : ExecOut V K) : StmtProg V K PUnit := do
  modify fun s =>
    { s with
      eng := out.eng
      writes := s.writes ++ out.writes
      executed := s.executed ++ out.writes }
  match out.error with
  | some e => throw e
  | none => return ⟨⟩

section Execute

variable (ctx : StmtCtx) (nested : Option (RowStmt V → StmtProg V K (StmtResult V)))

/-- Push the rows, into the table as it is after the triggers. -/
def pushInserts (table : String) (rows : List (List V)) : StmtProg V K PUnit := do
  let s ← get
  match s.eng.db.findTable table ctx.snap ctx.allXids with
  | none => throw (relationMissing table)
  | some _ =>
    let (ids, eng) := s.eng.allocRowIds rows.length
    record (applyRowInserts eng ctx table (ids.zip rows))

/-- INSERT checks its candidate rows, then fires the triggers that may replace them. -/
def execInsert (table : String) (rows : List (List V)) : StmtProg V K (StmtResult V) := do
  let s ← get
  match s.eng.db.findTable table ctx.snap ctx.allXids with
  | none => throw (relationMissing table)
  | some t =>
    if ∃ values ∈ rows, values.length ≠ t.columns.length then
      throw (execError "42601" "INSERT has more expressions than target columns")
    else
      Prog.ofExcept (checkInsertUnique s.eng ctx table [] rows)
      let rows ← cat.fireBeforeInsertTriggers ctx nested table rows
      pushInserts ctx table rows
      cat.fireAfterRowTriggers ctx nested table .insert [] (rows.map fun row => (none, some row))
      return .dml rows.length

/-- The AFTER ROW triggers of an UPDATE or DELETE; a TRUNCATE fires none. -/
def fireChangedRows (stmt : RowStmt V) (out : ExecOut V K) : StmtProg V K PUnit :=
  match stmt.hook with
  | some (table, event, setCols) =>
    if event = .truncate then pure ⟨⟩
    else
      cat.fireAfterRowTriggers ctx nested table event setCols
        (out.writes.flatMap (WriteOp.images out.eng.db))
  | none => pure ⟨⟩

/-- Any row statement but INSERT. -/
def execOther (stmt : RowStmt V) : StmtProg V K (StmtResult V) := do
  let s ← get
  let out := stmt.exec s.eng ctx
  record out
  cat.fireChangedRows ctx nested stmt out
  return stmt.result s.eng ctx out.writes.length

def executeInner : RowStmt V → StmtProg V K (StmtResult V)
  | .insert table rows => cat.execInsert ctx nested table rows
  | stmt => cat.execOther ctx nested stmt

/-- A statement between the triggers of the statement. -/
def execute (stmt : RowStmt V) : StmtProg V K (StmtResult V) :=
  match stmt.hook with
  | none => cat.executeInner ctx nested stmt
  | some (table, event, setCols) => do
    cat.fireStatementTriggers ctx nested table .before event setCols
    let res ← cat.executeInner ctx nested stmt
    cat.fireStatementTriggers ctx nested table .after event setCols
    return res

end Execute

/-- A statement below which triggers nest at most `depth` deep. -/
def executeAt (ctx : StmtCtx) : Nat → RowStmt V → StmtProg V K (StmtResult V)
  | 0, stmt => cat.execute ctx none stmt
  | depth + 1, stmt => cat.execute ctx (some (executeAt ctx depth)) stmt

/-- A statement from the client. -/
def executeTop (ctx : StmtCtx) : RowStmt V → StmtProg V K (StmtResult V) :=
  cat.executeAt ctx 1000

end TriggerCatalog
