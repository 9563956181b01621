-- SUMMARY: Transactions of concurrent sessions over the engine, one command after the other.
import Rustgres.Exec.Dml
import Rustgres.Exec.IndexDdl
import Rustgres.Lib.Run
import Rustgres.Wal.Records

/-!
# Sessions

The database side of a session's transaction, and the commands of all sessions, in the order in
which they get the engine lock. The settings side of the same commands is in `Server.Settings`.
-/

namespace Backend

inductive Stmt (V : Type) where
  | row (s : RowStmt V)
  | index (s : IndexStmt)

/-- A savepoint: the length of the write log and the number of row locks when it was set, and the
transaction id of the writes inside it. -/
structure Savepoint where
  name : String
  mark : Nat
  locks : Nat
  subXid : Xid
deriving DecidableEq, Repr

/-- A transaction block. The savepoints stand innermost first. -/
structure Txn (V K : Type) where
  xid : Xid
  level : IsolationLevel
  snapshot : Option Snapshot
  writes : List (WriteOp V K)
  savepoints : List Savepoint
  ownedXids : List Xid
  failed : Bool

variable {V K : Type}

namespace Txn

variable (t : Txn V K)

/-- The id that new row versions get. -/
def writeXid : Xid := (t.savepoints.head?.map Savepoint.subXid).getD t.xid

/-- Every id of the transaction, those of released and rolled back savepoints included. -/
def allXids : List Xid := t.xid :: t.ownedXids

/-- The savepoints from the innermost one called `name` on (`rposition`). -/
def fromName (name : String) : List Savepoint := t.savepoints.dropWhile (·.name ≠ name)

def ctx (snap : Snapshot) : StmtCtx := ⟨snap, t.xid, t.writeXid, t.allXids, t.level⟩

end Txn

/-- A session id. -/
abbrev Sid := Nat

/-- The engine, the transaction block of each session, and the batches in the WAL. -/
structure Sys (V K : Type) where
  eng : Engine V K
  txns : Sid → Option (Txn V K)
  wal : List (List (WalRecord V))

/-- A command, with the I/O error of the append to the WAL that it may cause. -/
inductive Cmd (V : Type) where
  | begin (level : IsolationLevel)
  | stmt (s : Stmt V) (io : Option String)
  | savepoint (name : String)
  | rollbackTo (name : String)
  | release (name : String)
  | commit (io : Option String)
  | rollback
  | vacuum (tables : List String)

/-- The error of a command, or its tag. -/
abbrev Reply := Except ExecError String

section

variable [DecidableEq K] [SqlValue V K]

def Stmt.exec (eng : Engine V K) (ctx : StmtCtx) : Stmt V → ExecOut V K
  | .row s => s.exec eng ctx
  | .index s => s.exec eng ctx

end

/-! ## The transaction of one session -/

section Session

variable (eng : Engine V K)

def beginTxn (level : IsolationLevel) : Engine V K × Txn V K :=
  let (xid, txns) := eng.txns.beginTxn
  ({ eng with txns }, ⟨xid, level, none, [], [], [], false⟩)

/-- The snapshot of a statement: a fresh one under READ COMMITTED, else the one that the first
statement registered. -/
def stmtSnapshot (t : Txn V K) : Snapshot × Engine V K × Txn V K :=
  match t.level, t.snapshot with
  | .readCommitted, _ => (eng.txns.takeSnapshot, eng, t)
  | _, some snap => (snap, eng, t)
  | _, none =>
    let snap := eng.txns.takeSnapshot
    (snap, { eng with txns := eng.txns.registerSnapshot t.xid snap },
      { t with snapshot := some snap })

/-- A savepoint gets an id of its own. -/
def txnSavepoint (t : Txn V K) (name : String) : Engine V K × Txn V K :=
  let locks := eng.txns.txnLockCount t.xid
  let (sub, txns) := eng.txns.beginTxn
  ({ eng with txns },
    { t with
      savepoints := ⟨name, t.writes.length, locks, sub⟩ :: t.savepoints
      ownedXids := t.ownedXids ++ [sub] })

/-- The savepoint and those inside it go; the changes and their ids stay. -/
def txnRelease (t : Txn V K) (rest : List Savepoint) : Txn V K := { t with savepoints := rest }

/-- Retire every id of the transaction and release its row locks. -/
def retireTxn (xid : Xid) : Engine V K :=
  { eng with txns := (eng.txns.endTxn xid).releaseTxnLocks xid }

def retireTxnFamily (t : Txn V K) : Engine V K :=
  retireTxn { eng with txns := t.ownedXids.foldl TxnManager.endTxn eng.txns } t.xid

end Session

section Commands

variable [DecidableEq K] [SqlValue V K] (eng : Engine V K)

/-- Sequence advances are staged as markers, each name once. -/
def advanceMarkers (eng : Engine V K) : List (WriteOp V K) :=
  eng.seqAdvanced.eraseDups.map .seqAdvance

/-- One statement of a transaction block. A failed one marks the block; what it had logged stays
in the log. -/
def txnExecute (t : Txn V K) (s : Stmt V) : Engine V K × Txn V K × Reply :=
  let (snap, eng, t) := stmtSnapshot eng t
  let out := Stmt.exec eng (t.ctx snap) s
  let eng := { out.eng with seqAdvanced := [] }
  match out.error with
  | none =>
    (eng, { t with writes := t.writes ++ out.writes ++ advanceMarkers out.eng }, .ok "")
  | some e => (eng, { t with writes := t.writes ++ out.writes, failed := true }, .error e)

/-- Changes after the savepoint are undone, newest first; sequence advances stay. The savepoint
stays with a fresh id. -/
def txnRollbackTo (t : Txn V K) (save : Savepoint) (rest : List Savepoint) :
    Engine V K × Txn V K :=
  let undone := t.writes.drop save.mark
  let kept := undone.filter fun op => match op with
    | .seqAdvance _ => true
    | _ => false
  let eng := eng.undoAll t.allXids undone
  let (repl, txns) := (eng.txns.releaseLocksAfter t.xid save.locks).beginTxn
  ({ eng with txns },
    { t with
      writes := t.writes.take save.mark ++ kept
      savepoints := { save with subXid := repl } :: rest
      ownedXids := t.ownedXids ++ [repl]
      failed := false })

/-- The table whose versions an operation may have left dead. -/
def vacuumTarget : WriteOp V K → Option String
  | .deleteRow table _ _ => some table
  | .updateRow table _ _ _ _ => some table
  | .dropTable name _ => some name
  | .alterTable name _ _ _ => some name
  | _ => none

/-- VACUUM the tables with changes that may have left dead versions. -/
def autoVacuum (writes : List (WriteOp V K)) : Engine V K :=
  (writes.filterMap vacuumTarget).eraseDups.foldl Engine.vacuumTable eng

/-- Undo the transaction and retire it. -/
def abortTxn (t : Txn V K) : Engine V K :=
  autoVacuum (retireTxnFamily (eng.undoAll t.allXids t.writes) t) t.writes

def commitConflict (msg : String) : ExecError :=
  execError "40001" ("could not serialize access due to concurrent update: " ++ msg)

def walErr (e : String) : ExecError := execError "58000" ("WAL write failed: " ++ e)

/-- COMMIT: a failed transaction rolls back; a conflict or a failed append marks the transaction;
else its records are appended and it is retired. -/
def commitTakenTxn (wal : List (List (WalRecord V))) (t : Txn V K) (io : Option String) :
    Engine V K × Option (Txn V K) × List (List (WalRecord V)) × Reply :=
  if t.failed then (abortTxn eng t, none, wal, .ok "ROLLBACK")
  else
    let (_, eng, t) := stmtSnapshot eng t
    match recordsForCommit eng t.xid t.writes with
    | .error msg => (eng, some { t with failed := true }, wal, .error (commitConflict msg))
    | .ok records =>
      match io with
      | some e => (eng, some { t with failed := true }, wal, .error (walErr e))
      | none =>
        (autoVacuum (retireTxnFamily eng t) t.writes, none,
          if records.isEmpty then wal else wal ++ [records], .ok "COMMIT")

/-- A statement outside a block is a transaction of its own. -/
def autocommitExecute (wal : List (List (WalRecord V))) (s : Stmt V) (io : Option String) :
    Engine V K × List (List (WalRecord V)) × Reply :=
  let (eng, t) := beginTxn eng .readCommitted
  let out := Stmt.exec eng (t.ctx eng.txns.takeSnapshot) s
  let eng := { out.eng with seqAdvanced := [] }
  match out.error with
  | some e => (retireTxn (eng.undoAll [t.xid] out.writes) t.xid, wal, .error e)
  | none =>
    let writes := out.writes ++ advanceMarkers out.eng
    let undone := autoVacuum (retireTxn (eng.undoAll [t.xid] writes) t.xid) writes
    match recordsForCommit eng t.xid writes with
    | .error msg => (undone, wal, .error (commitConflict msg))
    | .ok records =>
      match io with
      | some e => (undone, wal, .error (walErr e))
      | none =>
        (autoVacuum (retireTxn eng t.xid) writes,
          if records.isEmpty then wal else wal ++ [records], .ok "")

end Commands

/-! ## All sessions -/

def abortedError : ExecError :=
  execError "25P02"
    "current transaction is aborted, commands ignored until end of transaction block"

def noSuchSavepoint (name : String) : ExecError :=
  execError "3B001" ("no such savepoint \"" ++ name ++ "\"")

def allowedInAborted : Cmd V → Bool
  | .rollback | .rollbackTo _ | .commit _ => true
  | _ => false

variable [DecidableEq K] [SqlValue V K]

/-- Put the transaction of a session, and the engine, in place. -/
def Sys.put (s : Sys V K) (sid : Sid) (eng : Engine V K) (t : Option (Txn V K)) : Sys V K :=
  { s with eng, txns := Function.update s.txns sid t }

/-- A command outside a transaction block. -/
def Sys.execIdle (s : Sys V K) (sid : Sid) : Cmd V → Sys V K × Reply
  | .begin level =>
    let (eng, t) := beginTxn s.eng level
    (s.put sid eng (some t), .ok "BEGIN")
  | .stmt st io =>
    let (eng, wal, reply) := autocommitExecute s.eng s.wal st io
    ({ s with eng, wal }, reply)
  | .savepoint _ => (s, .error (err25001 "SAVEPOINT can only be used in transaction blocks"))
  | .rollbackTo _ =>
    (s, .error (err25001 "ROLLBACK TO SAVEPOINT can only be used in transaction blocks"))
  | .release _ =>
    (s, .error (err25001 "RELEASE SAVEPOINT can only be used in transaction blocks"))
  | .commit _ => (s, .ok "COMMIT")
  | .rollback => (s, .ok "ROLLBACK")
  | .vacuum tables => ({ s with eng := tables.foldl Engine.vacuumTable s.eng }, .ok "VACUUM")

/-- A command in the transaction block `t`. -/
def Sys.execTxn (s : Sys V K) (sid : Sid) (t : Txn V K) (c : Cmd V) : Sys V K × Reply :=
  if t.failed ∧ !allowedInAborted c then (s, .error abortedError)
  else
    match c with
    | .begin _ => (s, .ok "BEGIN")
    | .stmt st _ =>
      let (eng, t, reply) := txnExecute s.eng t st
      (s.put sid eng (some t), reply)
    | .savepoint name =>
      let (eng, t) := txnSavepoint s.eng t name
      (s.put sid eng (some t), .ok "SAVEPOINT")
    | .rollbackTo name =>
      match t.fromName name with
      | [] => (s, .error (noSuchSavepoint name))
      | save :: rest =>
        let (eng, t) := txnRollbackTo s.eng t save rest
        (s.put sid eng (some t), .ok "ROLLBACK")
    | .release name =>
      match t.fromName name with
      | [] => (s, .error (noSuchSavepoint name))
      | _ :: rest => (s.put sid s.eng (some (txnRelease t rest)), .ok "RELEASE")
    | .commit io =>
      let (eng, t, wal, reply) := commitTakenTxn s.eng s.wal t io
      ({ s.put sid eng t with wal }, reply)
    | .rollback => (s.put sid (abortTxn s.eng t) none, .ok "ROLLBACK")
    | .vacuum _ => (s, .error (err25001 "VACUUM cannot run inside a transaction block"))

/-- One command of one session. -/
def Sys.exec (s : Sys V K) (sid : Sid) (c : Cmd V) : Sys V K × Reply :=
  match s.txns sid with
  | none => s.execIdle sid c
  | some t => s.execTxn sid t c

/-- The commands of all sessions as steps. -/
def Sys.step (s : Sys V K) (i : Sid × Cmd V) : Option (Sys V K) :=
  some (s.exec i.1 i.2).1

end Backend
