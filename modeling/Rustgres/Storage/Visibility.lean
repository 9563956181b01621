-- SUMMARY: Transaction ids, snapshots and the transaction manager, and who sees a stamped version.
import Mathlib.Data.Finset.Sort
import Rustgres.Lib.Dict

/-!
# Snapshots and Visibility

The transaction manager hands out transaction ids and keeps the running ones. A snapshot remembers
which ids were running, and a version carries the ids of its creator and of its deleter: these
decide who sees it.
-/

abbrev Xid := Nat
abbrev RowId := Nat

/-- The ids running when the snapshot was taken, and the next id to be assigned. -/
structure Snapshot where
  active : Finset Xid
  nextXid : Xid
deriving DecidableEq

/-- `x` had ended when the snapshot was taken. -/
def Snapshot.Ended (snap : Snapshot) (x : Xid) : Prop :=
  x < snap.nextXid ∧ x ∉ snap.active

instance (snap : Snapshot) (x : Xid) : Decidable (snap.Ended x) :=
  inferInstanceAs (Decidable (_ ∧ _))

/-- The transaction state that all connections share. Id 0 is never handed out. -/
structure TxnManager where
  nextXid : Xid
  nextRowId : RowId
  active : Finset Xid
  snapshots : Dict Xid Snapshot
  rowLocks : RowId → Option Xid
  lockOrder : Xid → List RowId

namespace TxnManager

variable (m : TxnManager)

def allocXid : Xid × TxnManager :=
  (m.nextXid, { m with nextXid := m.nextXid + 1 })

/-- Allocate an id and register it as running. -/
def beginTxn : Xid × TxnManager :=
  let (xid, m) := m.allocXid
  (xid, { m with active := insert xid m.active })

/-- Unregister `xid` and drop its snapshot. -/
def endTxn (xid : Xid) : TxnManager :=
  { m with active := m.active.erase xid, snapshots := m.snapshots.erase xid }

def registerSnapshot (xid : Xid) (snap : Snapshot) : TxnManager :=
  { m with snapshots := m.snapshots.insert xid snap }

def allocRowId : RowId × TxnManager :=
  (m.nextRowId, { m with nextRowId := m.nextRowId + 1 })

def takeSnapshot : Snapshot := ⟨m.active, m.nextXid⟩

/-- An id that is not running any more counts as committed: an abort undoes its writes. -/
def XidCommitted (xid : Xid) : Prop := xid < m.nextXid ∧ xid ∉ m.active

instance (xid : Xid) : Decidable (m.XidCommitted xid) :=
  inferInstanceAs (Decidable (_ ∧ _))

/-! ## Row locks -/

def grantLock (rowId : RowId) (xid : Xid) : TxnManager :=
  { m with
    rowLocks := Function.update m.rowLocks rowId (some xid)
    lockOrder := Function.update m.lockOrder xid (m.lockOrder xid ++ [rowId]) }

/-- Lock a row, or name the running transaction that holds it. A lock of a transaction that has
ended is taken over. -/
def tryRowLock (rowId : RowId) (xid : Xid) : Except Xid TxnManager :=
  match m.rowLocks rowId with
  | some h =>
    if h = xid then .ok m
    else if h ∈ m.active then .error h
    else .ok (m.grantLock rowId xid)
  | none => .ok (m.grantLock rowId xid)

def rowLockHolder (rowId : RowId) : Option Xid := m.rowLocks rowId

def releaseTxnLocks (xid : Xid) : TxnManager :=
  { m with
    rowLocks := fun rowId => (m.rowLocks rowId).filter (· ≠ xid)
    lockOrder := Function.update m.lockOrder xid [] }

/-- Release the locks that `xid` took after its first `keep`, if it still holds them. -/
def releaseLocksAfter (xid : Xid) (keep : Nat) : TxnManager :=
  let dropped := (m.lockOrder xid).drop keep
  { m with
    rowLocks := fun rowId =>
      if rowId ∈ dropped ∧ m.rowLocks rowId = some xid then none else m.rowLocks rowId
    lockOrder := Function.update m.lockOrder xid ((m.lockOrder xid).take keep) }

def txnLockCount (xid : Xid) : Nat := (m.lockOrder xid).length

/-- A deleted version is dead when its creator and deleter have ended, and every registered
snapshot was taken after the deleter ended. -/
def DeadToAll (xmin xmax : Xid) : Prop :=
  xmax ≠ 0 ∧ xmin ∉ m.active ∧ xmax ∉ m.active ∧ ∀ snap ∈ m.snapshots.values, snap.Ended xmax

instance (xmin xmax : Xid) : Decidable (m.DeadToAll xmin xmax) :=
  inferInstanceAs (Decidable (_ ∧ _ ∧ _ ∧ ∀ snap ∈ _, _))

end TxnManager

namespace TxnManager

variable {m : TxnManager}

/-- Unregister the ids `xids`, one after the other. -/
theorem foldl_endTxn (xids : List Xid) :
    (∀ x, x ∈ (xids.foldl endTxn m).active ↔ x ∈ m.active ∧ x ∉ xids) ∧
      (∀ x ∉ xids, (xids.foldl endTxn m).snapshots.lookup x = m.snapshots.lookup x) ∧
      (∀ snap ∈ (xids.foldl endTxn m).snapshots.values, snap ∈ m.snapshots.values) ∧
      (xids.foldl endTxn m).nextXid = m.nextXid ∧
      (xids.foldl endTxn m).nextRowId = m.nextRowId := by
  induction xids generalizing m with
  | nil => simp
  | cons xid xids ih =>
    obtain ⟨hactive, hlookup, hvalues, hnext, hrow⟩ := ih (m := m.endTxn xid)
    refine ⟨fun x => ?_, fun x hx => ?_, fun snap hsnap => ?_, hnext, hrow⟩
    · rw [List.foldl_cons, hactive]
      simp only [endTxn, Finset.mem_erase, List.mem_cons]
      tauto
    · simp only [List.mem_cons, not_or] at hx
      rw [List.foldl_cons, hlookup x hx.2]
      exact AList.lookup_erase_ne hx.1
    · obtain ⟨x, hx⟩ := Dict.mem_values.1 (hvalues snap hsnap)
      rw [endTxn] at hx
      by_cases hxid : x = xid
      · subst hxid
        simp at hx
      · exact Dict.mem_values.2 ⟨x, by rwa [AList.lookup_erase_ne hxid] at hx⟩

end TxnManager

/-! ## Visibility -/

/-- The common rule of rows, tables, indexes and sequences: the creator is one of the own ids or
had ended, and the deleter, if any, is not. -/
def StampVisible (created deleted : Xid) (snap : Snapshot) (owns : List Xid) : Prop :=
  (created ∈ owns ∨ snap.Ended created) ∧
    (deleted = 0 ∨ deleted ∉ owns ∧ ¬ snap.Ended deleted)

instance (created deleted : Xid) (snap : Snapshot) (owns : List Xid) :
    Decidable (StampVisible created deleted snap owns) :=
  inferInstanceAs (Decidable (_ ∧ _))

/-- A dead version is seen by no registered snapshot. -/
theorem TxnManager.DeadToAll.not_visible_registered {m : TxnManager} {created deleted : Xid}
    (h : m.DeadToAll created deleted) {snap : Snapshot} (hsnap : snap ∈ m.snapshots.values)
    (owns : List Xid) : ¬ StampVisible created deleted snap owns := by
  obtain ⟨hne, -, -, hended⟩ := h
  rintro ⟨-, h0 | ⟨-, hrunning⟩⟩
  · exact hne h0
  · exact hrunning (hended snap hsnap)

/-- A dead version is seen by no snapshot taken now or later, whatever ids the reader owns. -/
theorem TxnManager.DeadToAll.not_visible_later {m m' : TxnManager} {created deleted : Xid}
    (h : m.DeadToAll created deleted) (hlt : deleted < m'.nextXid) (hact : deleted ∉ m'.active)
    (owns : List Xid) : ¬ StampVisible created deleted m'.takeSnapshot owns := by
  rintro ⟨-, h0 | ⟨-, hrunning⟩⟩
  · exact h.1 h0
  · exact hrunning ⟨hlt, hact⟩
