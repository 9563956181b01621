-- SUMMARY: What statements share: errors, isolation levels, the statement context and its outcome.
import Rustgres.Storage.Undo

/-!
# Statements

A statement runs under a snapshot, changes the engine, and logs what it did. When it fails, what it
had done before stays in the log of its transaction.
-/

inductive IsolationLevel where
  | readCommitted
  | repeatableRead
  | serializable
deriving DecidableEq, Repr

/-- An error reported to the client. -/
structure ExecError where
  code : String
  message : String
  detail : Option String
deriving DecidableEq, Repr

def execError (code message : String) : ExecError := ⟨code, message, none⟩

def err25001 (message : String) : ExecError := execError "25001" message

/-- The reader and writer of a statement: `own` is the id of the transaction, `writeXid` the one
that new row versions get, `allXids` all it owns. -/
structure StmtCtx where
  snap : Snapshot
  own : Xid
  writeXid : Xid
  allXids : List Xid
  level : IsolationLevel

/-- The engine after a statement, the changes it logged, and its error, if any. -/
structure ExecOut (V K : Type) where
  eng : Engine V K
  writes : List (WriteOp V K)
  error : Option ExecError

variable {V K : Type}

/-- The statement fails without having changed anything. -/
def ExecOut.fail (eng : Engine V K) (e : ExecError) : ExecOut V K := ⟨eng, [], some e⟩

def relationMissing (table : String) : ExecError :=
  execError "42P01" ("relation \"" ++ table ++ "\" does not exist")
