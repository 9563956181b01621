-- SUMMARY: Trigger function bodies and their execution: blocks with EXCEPTION handlers, loops, DML.
import Rustgres.Exec.Dml
import Rustgres.Lib.Programs

/-!
# Trigger Bodies

The body of a trigger function runs inside the statement that fires it, and appends to the log of
that statement. An error leaves what was done in place; a block with a matching handler cuts the log
back to where the block began and goes on with the handler.
-/

/-- What trigger bodies do with values. -/
class PlValue (V : Type) where
  null : V
  isTrue : V → Bool
  asInt : V → Option Int
  bigInt : Int → V
  /-- The text of a cast. -/
  text : V → String
  /-- The fields of a record value. -/
  record : V → Option (List (String × V))

/-- A column of the firing table, with the coercion to its type. -/
structure TrigCol (V : Type) where
  name : String
  coerce : V → Except ExecError V

/-- The variables of one invocation: DECLAREd ones, records of FOR loops and SELECT INTO, the FOUND
flag, and the aliases for NEW (`true`) and OLD. -/
structure TrigRun (V : Type) where
  vars : String → Option V
  recs : String → Option (List (String × V))
  found : Bool
  aliases : String → Option Bool

def TrigRun.default {V : Type} : TrigRun V := ⟨fun _ => none, fun _ => none, false, fun _ => none⟩

/-- What an expression of a body refers to. -/
structure TrigScope (V : Type) where
  newVals : List V
  oldVals : List V
  run : TrigRun V

/-- An expression reads the database and the scope. -/
abbrev TrigExpr (V K : Type) := StmtCtx → Engine V K → TrigScope V → Except ExecError V

/-- A statement with references to the scope, which are bound before it runs. -/
abbrev TrigQuery (V : Type) := TrigScope V → Except ExecError (RowStmt V)

inductive RaiseLevel where
  | notice
  | warning
  | exception
deriving DecidableEq, Repr

inductive RowChoice where
  | new
  | old
deriving DecidableEq, Repr

/-- How a list of statements ended: `none` at its end, `some row` with RETURN; the row of RETURN
NULL is `none`. -/
abbrev TrigFlow := Option (Option RowChoice)

inductive TrigCond (V K : Type) where
  | expr (e : TrigExpr V K)
  | query (q : TrigQuery V)

inductive TrigForSource (V K : Type) where
  | query (q : TrigQuery V)
  | dynamic (e : TrigExpr V K)

inductive TrigIntoTarget where
  | var (name : String)
  | newCol (col : String)

inductive TriggerBodyStmt (V K : Type) where
  | assign (col : String) (e : TrigExpr V K)
  | assignNewWhole (e : TrigExpr V K)
  | varAssign (var : String) (e : TrigExpr V K)
  | perform (e : TrigExpr V K)
  | performQuery (q : TrigQuery V)
  | returnNew
  | returnOld
  | returnNull
  | returnAlias (name : String)
  | raise (level : RaiseLevel) (format : String) (args : List (TrigExpr V K))
  | raiseSqlstate (code : String)
  | ifThen (branches : List (TrigCond V K × List (TriggerBodyStmt V K)))
      (elseBody : List (TriggerBodyStmt V K))
  | block (body : List (TriggerBodyStmt V K))
      (handlers : List (List String × List (TriggerBodyStmt V K)))
  | dml (q : TrigQuery V)
  | selectInto (targets : List TrigIntoTarget) (q : TrigQuery V)
  | dmlInto (targets : List TrigIntoTarget) (q : TrigQuery V)
  | execute (e : TrigExpr V K)
  | forRange (var : String) (low high : TrigExpr V K) (reverse : Bool)
      (body : List (TriggerBodyStmt V K))
  | forQuery (var : String) (source : TrigForSource V K) (body : List (TriggerBodyStmt V K))

/-- A variable of a body: an alias for NEW or OLD, or a variable with a default. -/
structure TrigDecl (V K : Type) where
  name : String
  aliasFor : Option String
  default : Option (TrigExpr V K)

structure TriggerBody (V K : Type) where
  decls : List (TrigDecl V K)
  stmts : List (TriggerBodyStmt V K)

/-! ## The state of a statement -/

/-- The engine and the log of the transaction. -/
structure TxnImage (V K : Type) where
  eng : Engine V K
  writes : List (WriteOp V K)

/-- A block whose error was caught: what there was when the block began and when the handler began,
and every change that was executed in between. -/
structure CaughtBlock (V K : Type) where
  entry : TxnImage V K
  start : TxnImage V K
  changes : List (WriteOp V K)

/-- The state that a statement and the bodies it fires work on. `executed` (every change, also those
cut from the log) and `caught` are the history of the run and no part of the server's state. -/
structure StmtState (V K : Type) extends TxnImage V K where
  notices : List String
  executed : List (WriteOp V K)
  caught : List (CaughtBlock V K)

/-- The state of a body: that of the statement, the row NEW and the variables. -/
structure BodyState (V K : Type) where
  stmt : StmtState V K
  newVals : List V
  run : TrigRun V

abbrev StmtProg (V K : Type) := Prog (StmtState V K) ExecError
abbrev BodyProg (V K : Type) := Prog (BodyState V K) ExecError

/-- The answer of a statement. -/
inductive StmtResult (V : Type) where
  | select (columns : List String) (rows : List (List V))
  | dml (count : Nat)
  | command

namespace StmtResult

variable {V : Type}

def rows : StmtResult V → List (List V)
  | .select _ rows => rows
  | .dml _ | .command => []

def affected : StmtResult V → Nat
  | .select _ rows => rows.length
  | .dml count => count
  | .command => 0

def columns : StmtResult V → List String
  | .select columns _ => columns
  | .dml _ | .command => []

end StmtResult

/-- What a body needs of its surroundings: the statement executor, the parser of dynamic SQL, and
the firing table with its columns. -/
structure BodyEnv (V K : Type) where
  ctx : StmtCtx
  execute : RowStmt V → StmtProg V K (StmtResult V)
  parse : String → Except ExecError (TrigQuery V)
  table : String
  cols : List (TrigCol V)
  oldVals : List V

/-! ## Handlers -/

/-- The condition names that the handlers know. -/
def conditionName (code : String) : Option String :=
  match code with
  | "22012" => some "division_by_zero"
  | "23505" => some "unique_violation"
  | "23503" => some "foreign_key_violation"
  | "23514" => some "check_violation"
  | "23502" => some "not_null_violation"
  | "42P01" => some "undefined_table"
  | "42703" => some "undefined_column"
  | "42883" => some "undefined_function"
  | "42601" => some "syntax_error"
  | "22P02" => some "invalid_text_representation"
  | "22003" => some "numeric_value_out_of_range"
  | "P0001" => some "raise_exception"
  | _ => none

/-- One of the keys of a handler names the SQLSTATE. -/
def keysMatch (keys : List String) (code : String) : Bool :=
  keys.any fun k =>
    k == "others" || k.toLower == code.toLower || k == "sqlstate:" ++ code
      || conditionName code == some k

/-- Expand a RAISE format: each `%` takes an argument, `%%` is a percent sign. -/
def formatRaiseMessage {V : Type} [PlValue V] : List Char → List V → String
  | '%' :: '%' :: cs, args => "%" ++ formatRaiseMessage cs args
  | '%' :: cs, v :: args => PlValue.text v ++ formatRaiseMessage cs args
  | '%' :: cs, [] => "%" ++ formatRaiseMessage cs ([] : List V)
  | c :: cs, args => c.toString ++ formatRaiseMessage cs args
  | [], _ => ""

namespace BodyEnv

variable {V K : Type} [PlValue V] (env : BodyEnv V K)

def scope (s : BodyState V K) : TrigScope V := ⟨s.newVals, env.oldVals, s.run⟩

def eval (e : TrigExpr V K) : BodyProg V K V := do
  let s ← get
  Prog.ofExcept (e env.ctx s.stmt.eng (env.scope s))

/-- Bind the references of a statement and run it. -/
def runQuery (q : TrigQuery V) : BodyProg V K (StmtResult V) := do
  let s ← get
  let stmt ← Prog.ofExcept (q (env.scope s))
  Prog.onPart BodyState.stmt (fun stmt s => { s with stmt }) (env.execute stmt)

def setFound (found : Bool) : BodyProg V K PUnit :=
  modify fun s => { s with run := { s.run with found } }

def setVar (name : String) (v : Option V) : BodyProg V K PUnit :=
  modify fun s => { s with run := { s.run with vars := Function.update s.run.vars name v } }

def setRec (name : String) (row : Option (List (String × V))) : BodyProg V K PUnit :=
  modify fun s => { s with run := { s.run with recs := Function.update s.run.recs name row } }

/-- Write a column of NEW. -/
def setNewCol (col : String) (v : V) : BodyProg V K PUnit := do
  match env.cols.findIdx? fun c => c.name = col with
  | none =>
    throw (execError "42703"
      ("column \"" ++ col ++ "\" of relation \"" ++ env.table ++ "\" does not exist"))
  | some idx =>
    let v ← Prog.ofExcept (match env.cols[idx]? with
      | some c => c.coerce v
      | none => .ok v)
    modify fun s => { s with newVals := s.newVals.set idx v }

/-- Assign the first row of a result, or NULLs, to the targets. -/
def assignIntoTargets (targets : List TrigIntoTarget) (rows : List (List V)) :
    BodyProg V K PUnit :=
  (targets.zipIdx).forM fun t => do
    let v := (rows.head?.getD []).getD t.2 PlValue.null
    match t.1 with
    | .var name => setVar name (some v)
    | .newCol col => env.setNewCol col v

/-- The values a FOR loop runs over, at most a million. -/
def rangeValues (low high : Int) (reverse : Bool) : List Int :=
  if reverse then (List.range (min (low - high + 1).toNat 1000000)).map fun i => low - i
  else (List.range (min (high - low + 1).toNat 1000000)).map fun i => low + i

/-- Go back to the handler: the log is cut, and nothing else is changed. -/
def cutWrites (entry : StmtState V K) : BodyProg V K PUnit :=
  modify fun s =>
    let start : TxnImage V K := ⟨s.stmt.eng, s.stmt.writes.take entry.writes.length⟩
    { s with
      stmt := { s.stmt with
        writes := start.writes
        caught := s.stmt.caught
          ++ [⟨entry.toTxnImage, start, s.stmt.executed.drop entry.executed.length⟩] } }

def assign (col : String) (e : TrigExpr V K) : BodyProg V K PUnit := do
  if ∃ c ∈ env.cols, c.name = col then
    let v ← env.eval e
    env.setNewCol col v
  else
    throw (execError "42703"
      ("column \"" ++ col ++ "\" of relation \"" ++ env.table ++ "\" does not exist"))

def assignNewWhole (e : TrigExpr V K) : BodyProg V K PUnit := do
  let v ← env.eval e
  match PlValue.record v with
  | some fields =>
    fields.forM fun f =>
      if ∃ c ∈ env.cols, c.name = f.1 then env.setNewCol f.1 f.2 else pure ⟨⟩
  | none => throw (execError "42804" "assignment to NEW must be a record value")

def varAssign (var : String) (e : TrigExpr V K) : BodyProg V K PUnit := do
  let s ← get
  if (s.run.vars var).isNone ∧ (s.run.recs var).isNone then
    throw (execError "42703" ("variable \"" ++ var ++ "\" does not exist"))
  else
    let v ← env.eval e
    setRec var none
    setVar var (some v)

def raise (level : RaiseLevel) (format : String) (args : List (TrigExpr V K)) :
    BodyProg V K PUnit := do
  let vals ← args.mapM env.eval
  let msg := formatRaiseMessage format.toList vals
  match level with
  | .notice | .warning =>
    modify fun s => { s with stmt := { s.stmt with notices := s.stmt.notices ++ [msg] } }
  | .exception => throw (execError "P0001" msg)

/-- Run a statement for its effect. -/
def runStmt (q : TrigQuery V) : BodyProg V K PUnit := do
  let res ← env.runQuery q
  setFound (decide (0 < res.affected))

/-- A row of several columns binds a single variable as a record. -/
def bindResult (targets : List TrigIntoTarget) (res : StmtResult V) : BodyProg V K PUnit :=
  match targets, res with
  | [.var name], .select columns (first :: _) =>
    if 1 < first.length then do
      setRec name (some (columns.zip first))
      setVar name (some (first.headD PlValue.null))
    else env.assignIntoTargets targets res.rows
  | _, _ => env.assignIntoTargets targets res.rows

def selectInto (targets : List TrigIntoTarget) (q : TrigQuery V) : BodyProg V K PUnit :=
  if targets.isEmpty then throw (execError "42601" "query has no destination for result data")
  else do
    let res ← env.runQuery q
    setFound (!res.rows.isEmpty)
    env.bindResult targets res

def dmlInto (targets : List TrigIntoTarget) (q : TrigQuery V) : BodyProg V K PUnit := do
  let res ← env.runQuery q
  setFound (decide (0 < res.affected))
  env.assignIntoTargets targets res.rows

/-- Dynamic SQL: the text that the expression gives is parsed. -/
def dynamic (e : TrigExpr V K) : BodyProg V K (TrigQuery V) := do
  let v ← env.eval e
  Prog.ofExcept (env.parse (PlValue.text v))

def sourceQuery : TrigForSource V K → BodyProg V K (TrigQuery V)
  | .query q => pure q
  | .dynamic e => env.dynamic e

def evalCond : TrigCond V K → BodyProg V K V
  | .expr e => env.eval e
  | .query q => do
    let res ← env.runQuery q
    return (res.rows.head?.bind List.head?).getD PlValue.null

def returnAlias (name : String) : BodyProg V K TrigFlow := do
  let s ← get
  match s.run.aliases name with
  | some true => return some (some .new)
  | some false => return some (some .old)
  | none =>
    throw (execError "42601"
      ("RETURN value in a trigger function must be NEW, OLD, NULL, or an alias for one of them (got "
        ++ name.quote ++ ")"))

mutual

def execStmt : TriggerBodyStmt V K → BodyProg V K TrigFlow
  | .assign col e => do env.assign col e; return none
  | .assignNewWhole e => do env.assignNewWhole e; return none
  | .varAssign var e => do env.varAssign var e; return none
  | .perform e => do let _ ← env.eval e; return none
  | .performQuery q => do env.runStmt q; return none
  | .returnNew => return some (some .new)
  | .returnOld => return some (some .old)
  | .returnNull => return some none
  | .returnAlias name => returnAlias name
  | .raise level format args => do env.raise level format args; return none
  | .raiseSqlstate code => throw (execError code "")
  | .ifThen branches elseBody => do
    match ← execBranches branches with
    | some flow => return flow
    | none => execStmts elseBody
  | .block body handlers => do
    let entry ← get
    tryCatch (execStmts body) fun e => execHandlers entry.stmt e handlers
  | .dml q => do env.runStmt q; return none
  | .selectInto targets q => do env.selectInto targets q; return none
  | .dmlInto targets q => do env.dmlInto targets q; return none
  | .execute e => do env.runStmt (← env.dynamic e); return none
  | .forRange var low high reverse body => do
    let lo ← env.eval low
    let hi ← env.eval high
    match PlValue.asInt lo, PlValue.asInt hi with
    | some lo, some hi =>
      let vals := rangeValues lo hi reverse
      setFound (!vals.isEmpty)
      let saved := (← get).run.vars var
      let flow ← Prog.firstAnswer
        (fun v => do setVar var (some (PlValue.bigInt v)); execStmts body) vals
      if flow.isNone then setVar var saved
      return flow
    | _, _ => throw (execError "22P02" "FOR loop bounds must be integers")
  | .forQuery var source body => do
    let q ← env.sourceQuery source
    let res ← env.runQuery q
    setFound (!res.rows.isEmpty)
    let saved := (← get).run
    let flow ← Prog.firstAnswer
      (fun row => do setRec var (some (res.columns.zip row)); execStmts body) res.rows
    if flow.isNone then
      setRec var (saved.recs var)
      setVar var (saved.vars var)
    return flow

/-- Run a list of statements up to its first RETURN. -/
def execStmts : List (TriggerBodyStmt V K) → BodyProg V K TrigFlow
  | [] => return none
  | stmt :: stmts => do
    match ← execStmt stmt with
    | some row => return some row
    | none => execStmts stmts

/-- The first branch whose condition is true; `none` if there is none. -/
def execBranches : List (TrigCond V K × List (TriggerBodyStmt V K)) →
    BodyProg V K (Option TrigFlow)
  | [] => return none
  | (cond, body) :: branches => do
    let v ← env.evalCond cond
    if PlValue.isTrue v then return some (← execStmts body) else execBranches branches

/-- The first handler that matches the error runs; the error goes on if there is none. -/
def execHandlers (entry : StmtState V K) (e : ExecError) :
    List (List String × List (TriggerBodyStmt V K)) → BodyProg V K TrigFlow
  | [] => throw e
  | (keys, body) :: handlers =>
    if keysMatch keys e.code then do
      cutWrites entry
      execStmts body
    else execHandlers entry e handlers

end

end BodyEnv
