-- SUMMARY: The requests of a client: statements of both protocols, EXECUTE, cursors, COPY, disconnect.
import Rustgres.Server.Backend

/-!
# The Front End

A session keeps prepared statements and cursors next to its transaction. A request reaches the
engine along several paths, and each path decides on its own whether an error fails the
transaction block.
-/

namespace Backend

variable {V K : Type}

/-- A SQL-level prepared statement: the number of declared parameter types, and the statement with
its parameters substituted. -/
structure SqlPrepared (V : Type) where
  types : Nat
  bind : List V → Except ExecError (Stmt V)

/-- A cursor. The query is taken by the first FETCH. -/
structure SqlCursor (V : Type) where
  query : Option (Stmt V)
  withHold : Bool
  dead : Bool

/-- What a session keeps next to its transaction. The marks are the names of the cursors at each
savepoint, innermost first. -/
structure Front (V : Type) where
  prepared : Dict String (SqlPrepared V)
  cursors : Dict String (SqlCursor V)
  cursorMarks : List (List String)

def Front.new : Front V := ⟨∅, ∅, []⟩

structure Server (V K : Type) where
  sys : Sys V K
  fronts : Sid → Front V

/-- An argument of EXECUTE, evaluated under a snapshot. -/
abbrev Arg (V K : Type) := Database V K → Snapshot → Except ExecError V

inductive Statement (V K : Type) where
  | cmd (c : Cmd V)
  | execute (name : String) (args : List (Arg V K)) (io : Option String)
  | prepare (name : String) (p : SqlPrepared V)
  | deallocate (name : Option String)
  | declare (name : String) (query : Stmt V) (withHold : Bool)
  | fetch (name : String) (io : Option String)
  | close (name : Option String)
  /-- SET, RESET, SHOW and the like, which do not reach the engine. -/
  | setting (outcome : Reply)

/-- What the client sends after COPY FROM: the rows of its data, given the number of columns, or a
failure of its own. -/
abbrev CopyData (V : Type) := Except ExecError (Nat → Except ExecError (List (List V)))

/-- A request of a client, by the simple or the extended protocol. -/
inductive Request (V K : Type) where
  | query (extended : Bool) (st : Statement V K)
  /-- A statement that does not parse, or a malformed message. -/
  | malformed (e : ExecError)
  | copyTo (extended : Bool) (table : String) (columns : Option (List String))
  | copyFrom (extended : Bool) (table : String) (columns : Option (List String))
      (data : CopyData V) (io : Option String)
  | disconnect

/-! ## EXECUTE -/

def err26000 (name : String) : ExecError :=
  execError "26000" ("prepared statement \"" ++ name ++ "\" does not exist")

def wrongParameters (name : String) (expected got : Nat) : ExecError where
  code := "42601"
  message := "wrong number of parameters for prepared statement \"" ++ name ++ "\""
  detail := some ("Expected " ++ toString expected ++ " parameters but got " ++ toString got ++ ".")

def evalArgs (db : Database V K) (snap : Snapshot) : List (Arg V K) → Except ExecError (List V)
  | [] => .ok []
  | a :: as =>
    match a db snap with
    | .error e => .error e
    | .ok v =>
      match evalArgs db snap as with
      | .error e => .error e
      | .ok vs => .ok (v :: vs)

/-- The statement that EXECUTE stands for. The arguments are evaluated under a transaction id of
their own; an error in one of them returns before that id is retired. -/
def resolveSqlExecute (eng : Engine V K) (f : Front V) (name : String) (args : List (Arg V K)) :
    Engine V K × Except ExecError (Stmt V) :=
  match f.prepared.lookup name with
  | none => (eng, .error (err26000 name))
  | some p =>
    if p.types ≠ 0 ∧ args.length ≠ p.types then
      (eng, .error (wrongParameters name p.types args.length))
    else
      let snap := eng.txns.takeSnapshot
      let (xid, txns) := eng.txns.beginTxn
      match evalArgs eng.db snap args with
      | .error e => ({ eng with txns }, .error e)
      | .ok params => ({ eng with txns := txns.endTxn xid }, p.bind params)

/-! ## Cursors and prepared statements -/

namespace Front

variable (f : Front V)

/-- What the end of a transaction, or a savepoint command of `t`, does to the cursors. -/
def afterCmd (t : Txn V K) (ended : Bool) : Cmd V → Front V
  | .commit _ =>
    if ended then
      { f with
        cursors := if t.failed then ∅ else f.cursors.retain fun _ c => c.withHold
        cursorMarks := [] }
    else f
  | .rollback => { f with cursors := ∅, cursorMarks := [] }
  | .savepoint _ => { f with cursorMarks := f.cursors.keys :: f.cursorMarks }
  | .rollbackTo name =>
    match t.fromName name with
    | [] => f
    | _ :: rest =>
      match f.cursorMarks.drop (t.savepoints.length - (rest.length + 1)) with
      | [] => f
      | names :: marks =>
        { f with cursors := f.cursors.retain fun n _ => n ∈ names, cursorMarks := names :: marks }
  | .release name =>
    match t.fromName name with
    | [] => f
    | _ :: rest => { f with cursorMarks := f.cursorMarks.drop (t.savepoints.length - rest.length) }
  | .begin _ | .stmt .. | .vacuum _ => f

def execPrepare (name : String) (p : SqlPrepared V) : Front V × Reply :=
  if (f.prepared.lookup name).isSome then
    (f, .error (execError "42P05" ("prepared statement \"" ++ name ++ "\" already exists")))
  else ({ f with prepared := f.prepared.insert name p }, .ok "PREPARE")

def execDeallocate : Option String → Front V × Reply
  | some name =>
    if (f.prepared.lookup name).isSome then
      ({ f with prepared := f.prepared.erase name }, .ok "DEALLOCATE")
    else (f, .error (err26000 name))
  | none => ({ f with prepared := ∅ }, .ok "DEALLOCATE ALL")

def cursorMissing (name : String) : ExecError :=
  execError "34000" ("cursor \"" ++ name ++ "\" does not exist")

/-- The query is not run at DECLARE. -/
def cursorDeclare (inTxn : Bool) (name : String) (query : Stmt V) (withHold : Bool) :
    Front V × Reply :=
  if !inTxn ∧ !withHold then
    (f, .error (err25001 "DECLARE CURSOR can only be used in transaction blocks"))
  else if (f.cursors.lookup name).isSome then
    (f, .error (execError "42P11" ("cursor \"" ++ name ++ "\" already exists")))
  else ({ f with cursors := f.cursors.insert name ⟨some query, withHold, false⟩ }, .ok "DECLARE CURSOR")

def cursorClose : Option String → Front V × Reply
  | some name =>
    if (f.cursors.lookup name).isSome then
      ({ f with cursors := f.cursors.erase name }, .ok "CLOSE CURSOR")
    else (f, .error (cursorMissing name))
  | none => ({ f with cursors := ∅ }, .ok "CLOSE CURSOR")

/-- The cursor after its query has run. -/
def cursorRun (name : String) (ok : Bool) : Front V :=
  { f with cursors := f.cursors.update name fun c => { c with query := none, dead := !ok } }

end Front

/-! ## Statements -/

namespace Server

/-- The session has a transaction block open. -/
def inTxn (s : Server V K) (sid : Sid) : Bool := (s.sys.txns sid).isSome

/-- The session is in a failed block. -/
def aborted (s : Server V K) (sid : Sid) : Bool := (s.sys.txns sid).any Txn.failed

def setFront (s : Server V K) (sid : Sid) (f : Front V) : Server V K :=
  { s with fronts := Function.update s.fronts sid f }

/-- Mark the block of the session as failed, if there is one. -/
def markFailed (s : Server V K) (sid : Sid) : Server V K :=
  match s.sys.txns sid with
  | none => s
  | some t => { s with sys := s.sys.put sid s.sys.eng (some { t with failed := true }) }

variable [DecidableEq K] [SqlValue V K]

/-- A command, with what it does to the cursors. -/
def execCmd (s : Server V K) (sid : Sid) (c : Cmd V) : Server V K × Reply :=
  let (sys, reply) := s.sys.exec sid c
  match s.sys.txns sid with
  | none => ({ s with sys }, reply)
  | some t =>
    if t.failed ∧ !allowedInAborted c then ({ s with sys }, reply)
    else
      (({ s with sys } : Server V K).setFront sid
        ((s.fronts sid).afterCmd t (sys.txns sid).isNone c), reply)

/-- The first FETCH runs the query; a failed cursor stays, dead. -/
def cursorFetch (s : Server V K) (sid : Sid) (name : String) (io : Option String) :
    Server V K × Reply :=
  match (s.fronts sid).cursors.lookup name with
  | none => (s, .error (Front.cursorMissing name))
  | some cur =>
    if cur.dead then
      (s, .error (execError "55000" ("portal \"" ++ name ++ "\" cannot be run")))
    else
      match cur.query with
      | none => (s, .ok "FETCH")
      | some query =>
        let (sys, reply) := s.sys.exec sid (.stmt query io)
        (({ s with sys } : Server V K).setFront sid
          ((s.fronts sid).cursorRun name reply.isOk), reply.map fun _ => "FETCH")

/-- A statement, EXECUTE resolved. In a failed block all but the ends of it are rejected. -/
def runResolved (s : Server V K) (sid : Sid) : Statement V K → Server V K × Reply
  | .cmd c =>
    if s.aborted sid ∧ !allowedInAborted c then (s, .error abortedError) else s.execCmd sid c
  | .execute .. => (s, .error (execError "XX000"
      "internal error: EXECUTE reached the executor unresolved"))
  | .prepare name p =>
    if s.aborted sid then (s, .error abortedError)
    else
      let (f, reply) := (s.fronts sid).execPrepare name p
      (s.setFront sid f, reply)
  | .deallocate name =>
    if s.aborted sid then (s, .error abortedError)
    else
      let (f, reply) := (s.fronts sid).execDeallocate name
      (s.setFront sid f, reply)
  | .declare name query withHold =>
    if s.aborted sid then (s, .error abortedError)
    else
      let (f, reply) := (s.fronts sid).cursorDeclare (s.inTxn sid) name query withHold
      (s.setFront sid f, reply)
  | .fetch name io =>
    if s.aborted sid then (s, .error abortedError) else s.cursorFetch sid name io
  | .close name =>
    if s.aborted sid then (s, .error abortedError)
    else
      let (f, reply) := (s.fronts sid).cursorClose name
      (s.setFront sid f, reply)
  | .setting outcome => if s.aborted sid then (s, .error abortedError) else (s, outcome)

/-- EXECUTE is resolved before anything else is looked at. -/
def runStatement (s : Server V K) (sid : Sid) : Statement V K → Server V K × Reply
  | .execute name args io =>
    let (eng, st) := resolveSqlExecute s.sys.eng (s.fronts sid) name args
    let s : Server V K := { s with sys := { s.sys with eng } }
    match st with
    | .error e => (s, .error e)
    | .ok st => s.runResolved sid (.cmd (.stmt st io))
  | st => s.runResolved sid st

/-! ## COPY -/

/-- The number of columns of a COPY, with its names checked. -/
def copyNcols (eng : Engine V K) (snap : Snapshot) (own : Xid) (table : String)
    (columns : Option (List String)) : Except ExecError Nat :=
  match eng.db.findTable table snap [own] with
  | none => .error (relationMissing table)
  | some t =>
    match columns with
    | none => .ok t.columns.length
    | some names =>
      match names.find? (· ∉ t.columns) with
      | some n => .error (execError "42703"
          ("column \"" ++ n ++ "\" of relation \"" ++ table ++ "\" does not exist"))
      | none => .ok names.length

/-- A transaction id is begun and retired, for a read. -/
def probe (eng : Engine V K) : Engine V K :=
  let (xid, txns) := eng.txns.beginTxn
  retireTxn { eng with txns } xid

/-- The columns are checked for a reader outside the session's transaction. -/
def copyFromNcols (eng : Engine V K) (table : String) (columns : Option (List String)) :
    Engine V K × Except ExecError Nat :=
  (probe eng, copyNcols eng eng.txns.takeSnapshot eng.txns.nextXid table columns)

/-- Data that does not parse rolls the transaction back; a row that cannot be inserted fails it. -/
def copyFromIngest (s : Server V K) (sid : Sid) (table : String)
    (parsed : Except ExecError (List (List V))) (io : Option String) : Server V K × Reply :=
  match parsed with
  | .error e =>
    (if s.inTxn sid then (s.execCmd sid .rollback).1 else s, .error e)
  | .ok rows => s.execCmd sid (.stmt (.row (.insert table rows)) io)

/-- COPY FROM, in a block that has not failed. -/
def copyFrom (s : Server V K) (sid : Sid) (table : String) (columns : Option (List String))
    (data : CopyData V) (io : Option String) : Server V K × Reply :=
  let (eng, ncols) := copyFromNcols s.sys.eng table columns
  let s : Server V K := { s with sys := { s.sys with eng } }
  match ncols with
  | .error e => (s, .error e)
  | .ok n =>
    match data with
    | .error e => (s, .error e)
    | .ok parse => s.copyFromIngest sid table (parse n) io

/-- COPY TO reads under the snapshot of the block; an error fails it. -/
def copyTo (s : Server V K) (sid : Sid) (table : String) (columns : Option (List String)) :
    Server V K × Reply :=
  match s.sys.txns sid with
  | none =>
    ({ s with sys := { s.sys with eng := probe s.sys.eng } },
      (copyNcols s.sys.eng s.sys.eng.txns.beginTxn.2.takeSnapshot s.sys.eng.txns.nextXid table
        columns).map fun _ => "COPY")
  | some t =>
    let (snap, eng, t) := stmtSnapshot s.sys.eng t
    match copyNcols eng snap t.xid table columns with
    | .error e =>
      ({ s with sys := s.sys.put sid eng (some { t with failed := true }) }, .error e)
    | .ok _ => ({ s with sys := s.sys.put sid eng (some t) }, .ok "COPY")

/-! ## Requests -/

/-- The statements that a failed block lets through. -/
def endsAborted : Statement V K → Bool
  | .cmd c => allowedInAborted c
  | _ => false

/-- The answer to a request. The extended protocol looks at the failed block before EXECUTE is
resolved. -/
def answer (s : Server V K) (sid : Sid) : Request V K → Server V K × Reply
  | .query extended st =>
    if extended ∧ s.aborted sid ∧ !endsAborted st then (s, .error abortedError)
    else s.runStatement sid st
  | .malformed e => (s, .error e)
  | .copyTo _ table columns =>
    if s.aborted sid then (s, .error abortedError) else s.copyTo sid table columns
  | .copyFrom _ table columns data io =>
    if s.aborted sid then (s, .error abortedError) else s.copyFrom sid table columns data io
  | .disconnect =>
    ((if s.inTxn sid then (s.execCmd sid .rollback).1 else s).setFront sid .new, .ok "")

/-- The extended protocol fails the block on every error, and so does a statement that does not
parse; otherwise that is left to the path that the error came from. -/
def failsBlock : Request V K → Bool
  | .query extended _ | .copyTo extended .. | .copyFrom extended .. => extended
  | .malformed _ => true
  | .disconnect => false

def report (sid : Sid) (fails : Bool) : Server V K × Reply → Server V K × Reply
  | (s, .error e) => (if fails then s.markFailed sid else s, .error e)
  | (s, .ok tag) => (s, .ok tag)

/-- One request of a session. -/
def exec (s : Server V K) (sid : Sid) (r : Request V K) : Server V K × Reply :=
  report sid (failsBlock r) (s.answer sid r)

/-- The requests of all sessions as steps. -/
def step (s : Server V K) (i : Sid × Request V K) : Option (Server V K) :=
  some (s.exec i.1 i.2).1

end Server

end Backend
