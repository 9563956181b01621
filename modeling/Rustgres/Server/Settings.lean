-- SUMMARY: The transaction commands on a session's settings, and one statement of a session.
import Rustgres.Server.Guc

/-!
# Transaction Commands and Settings

`BEGIN`, `COMMIT`, `ROLLBACK` and the savepoint commands as they act on the settings, the implicit
block of a multi-statement query string, and the dispatch of one statement.
-/

/-- How far the database side of a commit comes: a deferred constraint may abort the transaction,
and a conflict or a failed append hands it back marked failed. -/
inductive CommitOutcome where
  | ok
  | deferredError (e : ExecError)
  | commitError (e : ExecError)
deriving DecidableEq, Repr

inductive Command where
  | begin (level : Option IsolationLevel) (readOnly deferrable : Option Bool)
  | set (name : Guc) (value : SetValue) (isLocal : Bool)
  | setTransaction (level : Option IsolationLevel) (readOnly deferrable : Option Bool)
  | setCharacteristics (level : Option IsolationLevel) (readOnly deferrable : Option Bool)
  | reset (name : Guc)
  | resetAll
  | savepoint (name : String)
  | rollbackTo (name : String)
  | release (name : String)
  | commit (chain : Bool) (outcome : CommitOutcome)
  | rollback (chain : Bool)
  /-- Any other statement; it fails with the error, if there is one. -/
  | query (error : Option ExecError)
deriving DecidableEq, Repr

/-- What a client makes a session do: run a statement, or start and end the implicit block of a
multi-statement query string. -/
inductive Input where
  | statement (roles : RoleCatalog) (c : Command)
  | beginImplicit
  | endImplicit (outcome : CommitOutcome)

/-- A statement's effect on the session and its command tag or error. -/
abbrev Outcome := Session × Except ExecError String

def freshTxn (chars : TxnChars) (implicit : Bool) : GucTxn :=
  ⟨chars, false, false, implicit, [], []⟩

def txnBegin (s : Session) (chars : TxnChars) : Session :=
  match s.txn with
  | some t => if t.implicit then { s with txn := some { t with implicit := false, chars } } else s
  | none => { s with txn := some (freshTxn chars false) }

/-- The characteristics of the next transaction: the one-shot values, then the defaults. -/
def Session.nextChars (s : Session) (level : Option IsolationLevel)
    (readOnly deferrable : Option Bool) : TxnChars :=
  ⟨readOnly.or (s.nextTxnReadOnly.or s.defaultTxnReadOnly),
    (level.or (s.nextTxnLevel.or s.defaultTxnLevel)).getD .readCommitted,
    deferrable.or (s.nextTxnDeferrable.or s.defaultTxnDeferrable)⟩

/-- The one-shot values are used up. -/
def Session.takeNext (s : Session) : Session :=
  { s with nextTxnLevel := none, nextTxnReadOnly := none, nextTxnDeferrable := none }

/-- `session.txn.take()`. -/
def Session.takeTxn (s : Session) : Session := { s with txn := none }

/-- End the taken transaction `t`: a failed one rolls back. -/
def commitTakenTxn (s : Session) (t : GucTxn) (outcome : CommitOutcome) : Outcome :=
  if t.failed then
    (revertGucStack s t.gucStack false, .ok "ROLLBACK")
  else
    match outcome with
    | .ok => (revertGucStack s t.gucStack true, .ok "COMMIT")
    | .deferredError e => (revertGucStack s t.gucStack false, .error e)
    | .commitError e => ({ s with txn := some { t with failed := true } }, .error e)

def txnCommit (s : Session) (chain : Bool) (outcome : CommitOutcome) : Outcome :=
  match s.txn with
  | none =>
    if chain then (s, .error (err25001 "COMMIT AND CHAIN can only be used in transaction blocks"))
    else (s, .ok "COMMIT")
  | some t =>
    if t.implicit then
      if chain then
        (s, .error (err25001 "COMMIT AND CHAIN can only be used in transaction blocks"))
      else
        match commitTakenTxn s.takeTxn t outcome with
        | (s, .error e) => (s, .error e)
        | (s, .ok _) => (s, .ok "COMMIT")
    else
      match commitTakenTxn s.takeTxn t outcome with
      | (s, .error e) => (s, .error e)
      | (s, .ok tag) =>
        if chain then (txnBegin s t.chars, .ok (if t.failed then "BEGIN" else tag))
        else (s, .ok tag)

def txnRollback (s : Session) (chain : Bool) : Outcome :=
  match s.txn with
  | none =>
    if chain then
      (s, .error (err25001 "ROLLBACK AND CHAIN can only be used in transaction blocks"))
    else (s, .ok "ROLLBACK")
  | some t =>
    if t.implicit ∧ chain then
      (s, .error (err25001 "ROLLBACK AND CHAIN can only be used in transaction blocks"))
    else
      let s := revertGucStack s.takeTxn t.gucStack false
      (if chain then txnBegin s t.chars else s, .ok "ROLLBACK")

def txnSavepoint (s : Session) (name : String) : Outcome :=
  match s.txn with
  | none => (s, .error (err25001 "SAVEPOINT can only be used in transaction blocks"))
  | some t =>
    if t.implicit then
      (s, .error (err25001 "SAVEPOINT can only be used in transaction blocks"))
    else
      let save : GucSavepoint := ⟨name, t.gucStack.length, t.chars⟩
      ({ s with txn := some { t with savepoints := save :: t.savepoints } }, .ok "SAVEPOINT")

def noSuchSavepoint (name : String) : ExecError :=
  execError "3B001" ("no such savepoint \"" ++ name ++ "\"")

/-- The savepoints from the innermost one called `name` on (`rposition`). -/
def GucTxn.fromName (t : GucTxn) (name : String) : List GucSavepoint :=
  t.savepoints.dropWhile (·.name ≠ name)

/-- The savepoint stays, with its mark; the entries above the mark are restored, newest first. -/
def txnRollbackTo (s : Session) (name : String) : Outcome :=
  match s.txn with
  | none => (s, .error (err25001 "ROLLBACK TO SAVEPOINT can only be used in transaction blocks"))
  | some t =>
    if t.implicit then
      (s, .error (err25001 "ROLLBACK TO SAVEPOINT can only be used in transaction blocks"))
    else
      match t.fromName name with
      | [] => (s, .error (noSuchSavepoint name))
      | save :: rest =>
        let undone := t.gucStack.take (t.gucStack.length - save.gucMark)
        let kept := t.gucStack.drop (t.gucStack.length - save.gucMark)
        let t' := { t with
          failed := false, chars := save.txnCharMark, gucStack := kept, savepoints := save :: rest }
        (revertGucStack { s with txn := some t' } undone false, .ok "ROLLBACK")

/-- The savepoint and those inside it go, the entries stay. -/
def txnRelease (s : Session) (name : String) : Outcome :=
  match s.txn with
  | none => (s, .error (err25001 "RELEASE SAVEPOINT can only be used in transaction blocks"))
  | some t =>
    if t.implicit then
      (s, .error (err25001 "RELEASE SAVEPOINT can only be used in transaction blocks"))
    else
      match t.fromName name with
      | [] => (s, .error (noSuchSavepoint name))
      | save :: rest =>
        ({ s with txn := some { t with chars := save.txnCharMark, savepoints := rest } },
          .ok "RELEASE")

/-- Another statement in a transaction takes a snapshot, and marks the transaction if it fails. -/
def txnExecute (s : Session) (error : Option ExecError) : Outcome :=
  let s := { s with txn := s.txn.map fun t =>
    { t with firstSnapshotSet := true, failed := t.failed || error.isSome } }
  match error with
  | none => (s, .ok "")
  | some e => (s, .error e)

/-- Abort the implicit block. -/
def abortImplicitTxn (s : Session) : Session :=
  match s.txn with
  | some t => revertGucStack s.takeTxn t.gucStack false
  | none => s

def beginImplicitTxn (s : Session) : Session :=
  match s.txn with
  | some _ => s
  | none => { s.takeNext with txn := some (freshTxn (s.nextChars none none none) true) }

/-- Commit the implicit block, if the query string has left one. -/
def commitImplicitTxn (s : Session) (outcome : CommitOutcome) : Outcome :=
  match s.txn with
  | some t => if t.implicit then commitTakenTxn s.takeTxn t outcome else (s, .ok "")
  | none => (s, .ok "")

def allowedInAborted : Command → Bool
  | .rollback _ | .rollbackTo _ | .commit _ _ => true
  | _ => false

/-- A setting command changes the session or leaves it as it is. -/
def Outcome.ofExcept (s : Session) (tag : String) : Except ExecError Session → Outcome
  | .ok s' => (s', .ok tag)
  | .error e => (s, .error e)

def runSet (validate : GucValidator) (roles : RoleCatalog) (s : Session) (name : Guc)
    (value : SetValue) (isLocal : Bool) : Except ExecError Session :=
  match name with
  | .role =>
    let target := match value with
      | .default => none
      | .str str => if asciiLower str.toList = "none".toList then none else some str
    stmtSetRole roles s target isLocal
  | .sessionAuthorization =>
    let target := match value with
      | .default => none
      | .str str => some str
    stmtSetSessionAuthorization roles s target isLocal
  | name => stmtSetGuc validate s name value isLocal

def abortedError : ExecError :=
  execError "25P02"
    "current transaction is aborted, commands ignored until end of transaction block"

/-- Run one statement. -/
def runStatement (validate : GucValidator) (roles : RoleCatalog) (s : Session) (c : Command) :
    Outcome :=
  if (s.txn.any (·.failed)) && !allowedInAborted c then
    (s, .error abortedError)
  else
    match c with
    | .begin level readOnly deferrable =>
      (txnBegin s.takeNext (s.nextChars level readOnly deferrable), .ok "BEGIN")
    | .set name value isLocal => .ofExcept s "SET" (runSet validate roles s name value isLocal)
    | .setTransaction level readOnly deferrable =>
      .ofExcept s "SET" (stmtSetTransaction s level readOnly deferrable false)
    | .setCharacteristics level readOnly deferrable =>
      (stmtSetCharacteristics s level readOnly deferrable, .ok "SET")
    | .reset name => .ofExcept s "RESET" (stmtResetGuc s name)
    | .resetAll => (stmtResetAll s, .ok "RESET")
    | .savepoint name => txnSavepoint s name
    | .rollbackTo name => txnRollbackTo s name
    | .release name => txnRelease s name
    | .commit chain outcome => txnCommit s chain outcome
    | .rollback chain => txnRollback s chain
    | .query error => txnExecute s error

/-- One input: an error of a statement aborts the implicit block, if it stands in one. -/
def Session.step (validate : GucValidator) (s : Session) : Input → Session
  | .statement roles c =>
    match runStatement validate roles s c with
    | (s', .ok _) => s'
    | (s', .error _) => if s'.txn.any (·.implicit) then abortImplicitTxn s' else s'
  | .beginImplicit => beginImplicitTxn s
  | .endImplicit outcome => (commitImplicitTxn s outcome).1

/-- A session's run. -/
def Session.run (validate : GucValidator) (s : Session) (inputs : List Input) : Session :=
  inputs.foldl (Session.step validate) s
