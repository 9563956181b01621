-- SUMMARY: What statements do to the transaction manager: they hand out row ids and take row locks.
import Mathlib.Logic.Relation
import Rustgres.Exec.Dml
import Rustgres.Exec.IndexDdl
import Rustgres.Lib.LockTable

/-!
# Statements and the Transaction Manager

A statement reaches the manager in two ways: fresh row ids, and row locks of its transaction.
-/

namespace TxnManager

variable {m m' : TxnManager} {own : Xid}

/-- The lock table inside the manager. -/
def locks (m : TxnManager) : LockTable RowId Xid := ⟨m.rowLocks, m.lockOrder⟩

theorem locks_grantLock (r : RowId) (x : Xid) : (m.grantLock r x).locks = m.locks.grant r x := rfl

theorem locks_releaseTxnLocks (x : Xid) : (m.releaseTxnLocks x).locks = m.locks.releaseAll x := rfl

theorem locks_releaseLocksAfter (x : Xid) (keep : Nat) :
    (m.releaseLocksAfter x keep).locks = m.locks.releaseAfter x keep := rfl

/-- One thing that a statement of the transaction `own` does to the manager. -/
inductive StmtStep (own : Xid) (m : TxnManager) : TxnManager → Prop
  | rowIds (n : RowId) : StmtStep own m { m with nextRowId := n }
  | lock {id : RowId} {m' : TxnManager} (h : m.tryRowLock id own = .ok m') : StmtStep own m m'

abbrev StmtSteps (own : Xid) := Relation.ReflTransGen (StmtStep own)

/-- A lock is ours already, or it was free, or its holder had ended. -/
theorem tryRowLock_eq_ok {id : RowId} (h : m.tryRowLock id own = .ok m') :
    m' = m ∨ m' = m.grantLock id own ∧ ∀ x, m.rowLocks id = some x → x ∉ m.active := by
  unfold tryRowLock at h
  split at h
  · next holder hholder =>
    split at h
    · exact .inl (Except.ok.inj h).symm
    · split at h
      · cases h
      · next hactive =>
        refine .inr ⟨(Except.ok.inj h).symm, fun x hx => ?_⟩
        obtain rfl : holder = x := Option.some.inj (hholder.symm.trans hx)
        exact hactive
  · next hfree =>
    refine .inr ⟨(Except.ok.inj h).symm, fun x hx => ?_⟩
    rw [hfree] at hx
    cases hx

/-- The ids and snapshots are not touched. -/
theorem StmtSteps.frame (h : StmtSteps own m m') :
    m'.nextXid = m.nextXid ∧ m'.active = m.active ∧ m'.snapshots = m.snapshots := by
  induction h with
  | refl => exact ⟨rfl, rfl, rfl⟩
  | tail _ hstep ih =>
    cases hstep with
    | rowIds n => exact ih
    | lock hlock =>
      rcases tryRowLock_eq_ok hlock with rfl | ⟨rfl, -⟩
      · exact ih
      · exact ih

/-- While every holder runs, the locks stay consistent and only the list of `own` grows. -/
theorem StmtSteps.locks (h : StmtSteps own m m') (hlocks : m.locks.Consistent)
    (hrunning : ∀ r x, m.rowLocks r = some x → x ∈ m.active) (hown : own ∈ m.active) :
    m'.locks.Consistent ∧ (∀ r x, m'.rowLocks r = some x → x ∈ m.active) ∧
      (∀ x ≠ own, m'.lockOrder x = m.lockOrder x) ∧
      ∃ ids, m'.lockOrder own = m.lockOrder own ++ ids := by
  induction h with
  | refl => exact ⟨hlocks, hrunning, fun _ _ => rfl, [], by simp⟩
  | @tail m₁ m₂ hsteps hstep ih =>
    obtain ⟨hlocks₁, hrunning₁, hothers, ids, hids⟩ := ih
    cases hstep with
    | rowIds n => exact ⟨hlocks₁, hrunning₁, hothers, ids, hids⟩
    | @lock id _ hlock =>
      rcases tryRowLock_eq_ok hlock with rfl | ⟨rfl, hended⟩
      · exact ⟨hlocks₁, hrunning₁, hothers, ids, hids⟩
      · have hactive : m₁.active = m.active := (StmtSteps.frame hsteps).2.1
        have hfree : m₁.locks.holder id = none := by
          cases hx : m₁.rowLocks id with
          | none => exact hx
          | some x => exact absurd (hactive ▸ hrunning₁ id x hx) (hended x hx)
        refine ⟨hlocks₁.grant hfree own, fun r x hx => ?_, fun x hx => ?_, ids ++ [id], ?_⟩
        · simp only [grantLock] at hx
          by_cases hr : r = id
          · subst hr
            obtain rfl : own = x := by simpa using hx
            exact hown
          · exact hrunning₁ r x (by simpa [hr] using hx)
        · simp [grantLock, hx, hothers x hx]
        · simp [grantLock, hids]

theorem foldl_endTxn_locks (xids : List Xid) : (xids.foldl endTxn m).locks = m.locks := by
  induction xids generalizing m with
  | nil => rfl
  | cons x xids ih => exact ih (m := m.endTxn x)

theorem lookup_endTxn {x y : Xid} {snap : Snapshot} (h : (m.endTxn x).snapshots.lookup y = some snap) :
    y ≠ x ∧ m.snapshots.lookup y = some snap := by
  unfold endTxn at h
  by_cases hy : y = x
  · subst hy
    simp at h
  · exact ⟨hy, by rwa [AList.lookup_erase_ne hy] at h⟩

theorem lookup_foldl_endTxn {xids : List Xid} {x : Xid} {snap : Snapshot}
    (h : (xids.foldl endTxn m).snapshots.lookup x = some snap) :
    m.snapshots.lookup x = some snap := by
  induction xids generalizing m with
  | nil => exact h
  | cons y xids ih => exact (lookup_endTxn (ih h)).2

end TxnManager

section

variable {V K : Type} [DecidableEq K] [SqlValue V K] (eng : Engine V K) (ctx : StmtCtx)

open TxnManager

theorem execInsert_manager (table : String) (rows : List (List V)) :
    StmtSteps ctx.own eng.txns (execInsert eng ctx table rows).eng.txns := by
  unfold execInsert
  repeat' split
  · exact .refl
  · exact .refl
  · exact .refl
  · next ids eng' halloc =>
    cases halloc
    exact .single (.rowIds _)

theorem execUpdate_manager (table : String) (where_ : List V → Bool) (sets : SetList V) :
    StmtSteps ctx.own eng.txns (execUpdate eng ctx table where_ sets).eng.txns := by
  unfold execUpdate
  repeat' split
  · exact .refl
  · exact .refl
  · dsimp only
    split
    · exact .refl
    · next _ eng' halloc _ _ =>
      obtain rfl : (eng.allocRowIds _).2 = eng' := congrArg Prod.snd halloc
      exact .single (.rowIds _)

omit [DecidableEq K] [SqlValue V K] in
theorem execDelete_manager (table : String) (where_ : List V → Bool) :
    StmtSteps ctx.own eng.txns (execDelete eng ctx table where_).eng.txns := by
  unfold execDelete
  repeat' split
  · exact .refl
  · exact .refl
  · exact .refl

omit [DecidableEq K] [SqlValue V K] in
theorem truncateTables_manager (tables : List String) :
    StmtSteps ctx.own eng.txns (truncateTables ctx eng tables).eng.txns := by
  induction tables generalizing eng with
  | nil => exact .refl
  | cons table tables ih =>
    have hdelete := execDelete_manager eng ctx table fun _ => true
    unfold truncateTables
    rcases hout : execDelete eng ctx table fun _ => true with ⟨eng', writes, error⟩
    rw [hout] at hdelete
    cases error with
    | some e => exact hdelete
    | none => exact hdelete.trans (ih eng')

omit [DecidableEq K] [SqlValue V K] in
theorem acquireRowLocks_manager (table : String) (ids : List RowId) :
    StmtSteps ctx.own eng.txns (acquireRowLocks ctx table eng ids).eng.txns := by
  induction ids generalizing eng with
  | nil => exact .refl
  | cons id ids ih =>
    unfold acquireRowLocks
    cases hlock : eng.txns.tryRowLock id ctx.own with
    | error holder => exact .refl
    | ok txns => exact .head (.lock hlock) (ih { eng with txns })

theorem RowStmt.exec_manager (stmt : RowStmt V) :
    StmtSteps ctx.own eng.txns (stmt.exec eng ctx).eng.txns := by
  cases stmt with
  | insert table rows => exact execInsert_manager eng ctx table rows
  | update table where_ sets => exact execUpdate_manager eng ctx table where_ sets
  | delete table where_ => exact execDelete_manager eng ctx table where_
  | truncate tables =>
    simp only [RowStmt.exec, execTruncate]
    split
    · exact .refl
    · exact truncateTables_manager eng ctx tables
  | select table =>
    simp only [RowStmt.exec, execSelect]
    split <;> exact .refl
  | selectForUpdate table where_ =>
    simp only [RowStmt.exec, execSelectForUpdate]
    split
    · exact .refl
    · exact acquireRowLocks_manager eng ctx table _

omit [DecidableEq K] [SqlValue V K] in
theorem dropIndexes_txns (names : List String) :
    (dropIndexes ctx eng names).eng.txns = eng.txns := by
  induction names generalizing eng with
  | nil => rfl
  | cons name names ih =>
    unfold dropIndexes execDropOneIndex
    cases eng.db.findIndex name ctx.snap ctx.allXids with
    | none => rfl
    | some ix => exact ih _

theorem createIndexOn_txns (d : IndexDef) (t : Table V) :
    (createIndexOn eng ctx d t).eng.txns = eng.txns := by
  unfold createIndexOn
  split
  · dsimp only
    split <;> rfl
  · dsimp only
    split <;> rfl

theorem IndexStmt.exec_txns (stmt : IndexStmt) : (stmt.exec eng ctx).eng.txns = eng.txns := by
  cases stmt with
  | create name table columns unique nnd isPartial =>
    simp only [IndexStmt.exec, execCreateIndex]
    repeat' split
    · rfl
    · rfl
    · rfl
    · rfl
    · exact createIndexOn_txns eng ctx _ _
  | drop names =>
    simp only [IndexStmt.exec, execDropIndex]
    split
    · rfl
    · exact dropIndexes_txns eng ctx names

end
