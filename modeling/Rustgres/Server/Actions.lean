-- SUMMARY: The elementary actions that the commands of all sessions are made of.
import Rustgres.Server.Backend

/-!
# Actions

A command does one or more actions on the shared state: a statement outside a block begins a
transaction, executes, and commits or aborts. What holds of every action holds of every command.
-/

namespace Backend

variable {V K : Type}

inductive Act (V : Type) where
  | begin (sid : Sid) (level : IsolationLevel)
  /-- Register the snapshot of a transaction that keeps one. -/
  | pin (sid : Sid)
  | stmt (sid : Sid) (s : Stmt V)
  | fail (sid : Sid)
  | savepoint (sid : Sid) (name : String)
  | rollbackTo (sid : Sid) (name : String)
  | release (sid : Sid) (name : String)
  | commit (sid : Sid)
  | abort (sid : Sid)
  | vacuum (table : String)

section

variable [DecidableEq K] [SqlValue V K]

/-- The snapshot of the next statement, unless it has yet to be registered. -/
def Txn.readSnapshot (t : Txn V K) (eng : Engine V K) : Option Snapshot :=
  match t.level with
  | .readCommitted => some eng.txns.takeSnapshot
  | _ => t.snapshot

/-- The transaction after a statement with this outcome. -/
def Txn.logged (t : Txn V K) (out : ExecOut V K) : Txn V K :=
  match out.error with
  | none => { t with writes := t.writes ++ out.writes ++ advanceMarkers out.eng }
  | some _ => { t with writes := t.writes ++ out.writes, failed := true }

/-- An action, if it is possible in the state. -/
def Sys.act (s : Sys V K) : Act V → Option (Sys V K)
  | .begin sid level =>
    match s.txns sid with
    | some _ => none
    | none =>
      let (eng, t) := beginTxn s.eng level
      some (s.put sid eng (some t))
  | .pin sid =>
    (s.txns sid).map fun t =>
      let (_, eng, t) := stmtSnapshot s.eng t
      s.put sid eng (some t)
  | .stmt sid st =>
    (s.txns sid).bind fun t =>
      (t.readSnapshot s.eng).map fun snap =>
        let out := Stmt.exec s.eng (t.ctx snap) st
        s.put sid { out.eng with seqAdvanced := [] } (some (t.logged out))
  | .fail sid => (s.txns sid).map fun t => s.put sid s.eng (some { t with failed := true })
  | .savepoint sid name =>
    (s.txns sid).map fun t =>
      let (eng, t) := txnSavepoint s.eng t name
      s.put sid eng (some t)
  | .rollbackTo sid name =>
    (s.txns sid).bind fun t =>
      match t.fromName name with
      | [] => none
      | save :: rest =>
        let (eng, t) := txnRollbackTo s.eng t save rest
        some (s.put sid eng (some t))
  | .release sid name =>
    (s.txns sid).bind fun t =>
      match t.fromName name with
      | [] => none
      | _ :: rest => some (s.put sid s.eng (some (txnRelease t rest)))
  | .commit sid =>
    (s.txns sid).bind fun t =>
      match recordsForCommit s.eng t.xid t.writes with
      | .error _ => none
      | .ok records =>
        some { s.put sid (retireTxnFamily s.eng t) none with
          wal := if records.isEmpty then s.wal else s.wal ++ [records] }
  | .abort sid =>
    (s.txns sid).map fun t =>
      s.put sid (retireTxnFamily (s.eng.undoAll t.allXids t.writes) t) none
  | .vacuum table => some { s with eng := s.eng.vacuumTable table }

/-! ## The actions of a command -/

/-- The VACUUMs that follow the end of a transaction. -/
def vacuums (writes : List (WriteOp V K)) : List (Act V) :=
  ((writes.filterMap vacuumTarget).eraseDups).map .vacuum

/-- A commit goes through if its records can be made and appended. -/
def commitsOk (eng : Engine V K) (t : Txn V K) (io : Option String) : Bool :=
  (recordsForCommit eng t.xid t.writes).toBool && io.isNone

def idleActs (s : Sys V K) (sid : Sid) : Cmd V → List (Act V)
  | .begin level => [.begin sid level]
  | .stmt st io =>
    let (eng, t) := beginTxn s.eng .readCommitted
    let out := Stmt.exec eng (t.ctx eng.txns.takeSnapshot) st
    let t := t.logged out
    [.begin sid .readCommitted, .stmt sid st] ++
      match out.error with
      | some _ => [.abort sid]
      | none =>
        (if commitsOk { out.eng with seqAdvanced := [] } t io then .commit sid else .abort sid) ::
          vacuums t.writes
  | .vacuum tables => tables.map .vacuum
  | _ => []

def txnActs (s : Sys V K) (sid : Sid) (t : Txn V K) (c : Cmd V) : List (Act V) :=
  if t.failed ∧ !allowedInAborted c then []
  else
    match c with
    | .begin _ | .vacuum _ => []
    | .stmt st _ => [.pin sid, .stmt sid st]
    | .savepoint name => [.savepoint sid name]
    | .rollbackTo name => if (t.fromName name).isEmpty then [] else [.rollbackTo sid name]
    | .release name => if (t.fromName name).isEmpty then [] else [.release sid name]
    | .commit io =>
      if t.failed then .abort sid :: vacuums t.writes
      else
        let (_, eng, t) := stmtSnapshot s.eng t
        if commitsOk eng t io then .pin sid :: .commit sid :: vacuums t.writes
        else [.pin sid, .fail sid]
    | .rollback => .abort sid :: vacuums t.writes

/-- The actions of one command of one session. -/
def Sys.acts (s : Sys V K) (i : Sid × Cmd V) : List (Act V) :=
  match s.txns i.1 with
  | none => idleActs s i.1 i.2
  | some t => txnActs s i.1 t i.2

/-! ## A command is its actions -/

theorem run_vacuums (s : Sys V K) (tables : List String) :
    run Sys.act s (tables.map .vacuum) = some { s with eng := tables.foldl Engine.vacuumTable s.eng } := by
  induction tables generalizing s with
  | nil => rfl
  | cons table tables ih => simp [Sys.act, ih]

omit [DecidableEq K] [SqlValue V K] in
theorem stmtSnapshot_readSnapshot (eng : Engine V K) (t : Txn V K) :
    (stmtSnapshot eng t).2.2.readSnapshot (stmtSnapshot eng t).2.1
      = some (stmtSnapshot eng t).1 := by
  obtain ⟨xid, level, snapshot, writes, savepoints, owned, failed⟩ := t
  cases level <;> cases snapshot <;> rfl

theorem txnExecute_eq (eng : Engine V K) (t : Txn V K) (st : Stmt V) :
    let pinned := stmtSnapshot eng t
    let out := Stmt.exec pinned.2.1 (pinned.2.2.ctx pinned.1) st
    (txnExecute eng t st).1 = { out.eng with seqAdvanced := [] } ∧
      (txnExecute eng t st).2.1 = pinned.2.2.logged out := by
  unfold txnExecute Txn.logged
  dsimp only
  split <;> simp_all

omit [DecidableEq K] [SqlValue V K] in
@[simp]
theorem Sys.put_put (s : Sys V K) (sid : Sid) (eng eng' : Engine V K) (t t' : Option (Txn V K)) :
    (s.put sid eng t).put sid eng' t' = s.put sid eng' t' := by
  simp [Sys.put]

omit [DecidableEq K] [SqlValue V K] in
@[simp]
theorem Sys.put_txns (s : Sys V K) (sid : Sid) (eng : Engine V K) (t : Option (Txn V K)) :
    (s.put sid eng t).txns sid = t := by
  simp [Sys.put]

omit [DecidableEq K] [SqlValue V K] in
@[simp]
theorem Sys.put_eng (s : Sys V K) (sid : Sid) (eng : Engine V K) (t : Option (Txn V K)) :
    (s.put sid eng t).eng = eng := rfl

omit [DecidableEq K] [SqlValue V K] in
@[simp]
theorem Sys.put_wal (s : Sys V K) (sid : Sid) (eng : Engine V K) (t : Option (Txn V K)) :
    (s.put sid eng t).wal = s.wal := rfl

omit [DecidableEq K] [SqlValue V K] in
/-- A session without a transaction gets none. -/
theorem Sys.put_none {s : Sys V K} {sid : Sid} (h : s.txns sid = none) (eng : Engine V K) :
    s.put sid eng none = { s with eng } := by
  have hsame : Function.update s.txns sid none = s.txns := by rw [← h, Function.update_eq_self]
  simp [Sys.put, hsame]

theorem Sys.act_abort {s : Sys V K} {sid : Sid} {t : Txn V K} (h : s.txns sid = some t) :
    s.act (.abort sid)
      = some (s.put sid (retireTxnFamily (s.eng.undoAll t.allXids t.writes) t) none) := by
  simp [Sys.act, h]

theorem Sys.act_commit {s : Sys V K} {sid : Sid} {t : Txn V K} (h : s.txns sid = some t)
    {records : List (WalRecord V)} (hrecords : recordsForCommit s.eng t.xid t.writes = .ok records) :
    s.act (.commit sid)
      = some { s.put sid (retireTxnFamily s.eng t) none with
          wal := if records.isEmpty then s.wal else s.wal ++ [records] } := by
  simp [Sys.act, h, hrecords]

theorem Sys.act_pin {s : Sys V K} {sid : Sid} {t : Txn V K} (h : s.txns sid = some t) :
    s.act (.pin sid)
      = some (s.put sid (stmtSnapshot s.eng t).2.1 (some (stmtSnapshot s.eng t).2.2)) := by
  simp [Sys.act, h]

/-- The end of a transaction, with the VACUUMs behind it. -/
theorem run_abort_vacuums {s : Sys V K} {sid : Sid} {t : Txn V K} (h : s.txns sid = some t) :
    run Sys.act s (.abort sid :: vacuums t.writes) = some (s.put sid (abortTxn s.eng t) none) := by
  rw [run.cons, Sys.act_abort h, Option.bind_some, vacuums, run_vacuums]
  rfl

theorem run_commit_vacuums {s : Sys V K} {sid : Sid} {t : Txn V K} (h : s.txns sid = some t)
    {records : List (WalRecord V)} (hrecords : recordsForCommit s.eng t.xid t.writes = .ok records) :
    run Sys.act s (.commit sid :: vacuums t.writes)
      = some { s.put sid (autoVacuum (retireTxnFamily s.eng t) t.writes) none with
          wal := if records.isEmpty then s.wal else s.wal ++ [records] } := by
  rw [run.cons, Sys.act_commit h hrecords, Option.bind_some, vacuums, run_vacuums]
  rfl

theorem run_autocommit (s : Sys V K) (sid : Sid) (h : s.txns sid = none) (st : Stmt V)
    (io : Option String) :
    run Sys.act s (idleActs s sid (.stmt st io)) = some (s.execIdle sid (.stmt st io)).1 := by
  simp only [idleActs, Sys.execIdle, autocommitExecute]
  cases hbegin : beginTxn s.eng .readCommitted with
  | mk eng t =>
    obtain ⟨xid, rfl⟩ : ∃ xid, t = ⟨xid, .readCommitted, none, [], [], [], false⟩ := by
      simp only [beginTxn] at hbegin
      cases hbegin
      exact ⟨_, rfl⟩
    have hsnap : Txn.readSnapshot ⟨xid, .readCommitted, none, [], [], [], false⟩ eng
        = some eng.txns.takeSnapshot := rfl
    simp only [List.cons_append, List.nil_append, run.cons, Sys.act, h, hbegin, Option.bind_some,
      Sys.put_txns, Sys.put_eng, hsnap, Option.map_some, Sys.put_put]
    generalize Stmt.exec eng _ st = out
    obtain ⟨eng', writes, error⟩ := out
    cases error with
    | some e =>
      rw [run.cons, Sys.act_abort (Sys.put_txns ..), Option.bind_some, run.nil, Sys.put_put,
        Sys.put_none h]
      rfl
    | none =>
      simp only [Txn.logged, List.nil_append]
      cases hrecords : recordsForCommit { eng' with seqAdvanced := [] } xid
          (writes ++ advanceMarkers eng') with
      | error msg =>
        have hok : commitsOk { eng' with seqAdvanced := [] }
            ⟨xid, .readCommitted, none, writes ++ advanceMarkers eng', [], [], false⟩ io = false := by
          simp [commitsOk, hrecords, Except.toBool]
        simp only [hok]
        refine (run_abort_vacuums (Sys.put_txns ..)).trans ?_
        rw [Sys.put_put, Sys.put_none h]
        rfl
      | ok records =>
        cases io with
        | some e =>
          have hok : commitsOk { eng' with seqAdvanced := [] }
              ⟨xid, .readCommitted, none, writes ++ advanceMarkers eng', [], [], false⟩ (some e)
                = false := by
            simp [commitsOk]
          simp only [hok]
          refine (run_abort_vacuums (Sys.put_txns ..)).trans ?_
          rw [Sys.put_put, Sys.put_none h]
          rfl
        | none =>
          have hok : commitsOk { eng' with seqAdvanced := [] }
              ⟨xid, .readCommitted, none, writes ++ advanceMarkers eng', [], [], false⟩ none
                = true := by
            simp [commitsOk, hrecords, Except.toBool]
          simp only [hok]
          refine (run_commit_vacuums (Sys.put_txns ..) hrecords).trans ?_
          rw [Sys.put_put, Sys.put_none h]
          rfl

/-- The COMMIT of a block that has not failed. -/
theorem run_commit (s : Sys V K) {sid : Sid} {t : Txn V K} (h : s.txns sid = some t)
    (hfailed : t.failed = false) (io : Option String) :
    run Sys.act s (txnActs s sid t (.commit io)) = some (s.execTxn sid t (.commit io)).1 := by
  simp only [txnActs, Sys.execTxn, hfailed, allowedInAborted, commitTakenTxn]
  have hpin := Sys.act_pin h
  generalize stmtSnapshot s.eng t = pinned at hpin ⊢
  obtain ⟨snap, eng, t'⟩ := pinned
  have hp : (s.put sid eng (some t')).txns sid = some t' := Sys.put_txns ..
  have hfail : run Sys.act s [.pin sid, .fail sid]
      = some (s.put sid eng (some { t' with failed := true })) := by
    rw [run.cons, hpin]
    simp only [Option.bind_some, run.cons, Sys.act, hp, Option.map_some, Sys.put_put, Sys.put_eng,
      run.nil]
  cases hrecords : recordsForCommit eng t'.xid t'.writes with
  | error msg =>
    have hok : commitsOk eng t' io = false := by simp [commitsOk, hrecords, Except.toBool]
    simp only [hok]
    exact hfail
  | ok records =>
    cases io with
    | some e =>
      have hok : commitsOk eng t' (some e) = false := by simp [commitsOk]
      simp only [hok]
      exact hfail
    | none =>
      have hok : commitsOk eng t' none = true := by simp [commitsOk, hrecords, Except.toBool]
      have hrun := run_commit_vacuums hp hrecords
      rw [Sys.put_put] at hrun
      simp only [hok]
      refine Eq.trans ?_ hrun
      simp [hpin]

/-- Every command is the run of its actions. -/
theorem run_acts (s : Sys V K) (i : Sid × Cmd V) :
    run Sys.act s (s.acts i) = some (s.exec i.1 i.2).1 := by
  obtain ⟨sid, c⟩ := i
  unfold Sys.acts Sys.exec
  cases h : s.txns sid with
  | none =>
    cases c with
    | begin level => simp [idleActs, Sys.execIdle, Sys.act, h]
    | stmt st io => exact run_autocommit s sid h st io
    | vacuum tables => exact run_vacuums s tables
    | savepoint name => rfl
    | rollbackTo name => rfl
    | release name => rfl
    | commit io => rfl
    | rollback => rfl
  | some t =>
    simp only [txnActs, Sys.execTxn]
    split
    · rfl
    · cases c with
      | begin level => rfl
      | vacuum tables => rfl
      | stmt st io =>
        obtain ⟨heng, ht⟩ := txnExecute_eq s.eng t st
        simp only [run.cons, Sys.act, h, Option.bind_some, Option.map_some, Sys.put_txns,
          Sys.put_eng, stmtSnapshot_readSnapshot, Sys.put_put, run.nil, heng, ht]
      | savepoint name => simp [Sys.act, h]
      | rollbackTo name =>
        dsimp only
        cases hfrom : t.fromName name with
        | nil => rfl
        | cons save rest => simp [Sys.act, h, hfrom]
      | release name =>
        dsimp only
        cases hfrom : t.fromName name with
        | nil => rfl
        | cons save rest => simp [Sys.act, h, hfrom]
      | commit io =>
        by_cases hfailed : t.failed
        · simp only [hfailed, if_true, commitTakenTxn]
          exact run_abort_vacuums h
        · have hcommit := run_commit s h (by simpa using hfailed) io
          simpa [txnActs, Sys.execTxn, hfailed] using hcommit
      | rollback => exact run_abort_vacuums h

/-- A step of the system is the run of its actions. -/
theorem run_acts_of_step {s s' : Sys V K} {i : Sid × Cmd V} (h : s.step i = some s') :
    run Sys.act s (s.acts i) = some s' := by
  rw [run_acts]
  exact h

end

end Backend
