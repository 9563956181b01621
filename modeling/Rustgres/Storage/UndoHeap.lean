-- SUMMARY: What undo does to the heap: it expunges the changes it is given.
import Rustgres.Storage.Heap
import Rustgres.Storage.Undo

/-!
# Undo on the Heap

Undoing logged changes removes the versions they inserted and takes back the deletion marks they
left, of all versions that are still the transaction's own.
-/

variable {V K : Type}

namespace WriteOp

/-- The ids of the row versions that the operation inserted. -/
def inserted : WriteOp V K → List RowId
  | .insertRow _ id => [id]
  | .updateRow _ _ newId _ _ => [newId]
  | _ => []

/-- The ids of the row versions that the operation marked as deleted. -/
def deleted : WriteOp V K → List RowId
  | .deleteRow _ id _ => [id]
  | .updateRow _ oldId _ _ _ => [oldId]
  | _ => []

/-- The operation marked no version that carried a mark already. -/
def Unmarked : WriteOp V K → Prop
  | .deleteRow _ _ prev => prev = 0
  | .updateRow _ _ _ prev _ => prev = 0
  | _ => True

/-- The operation created, dropped or altered no table. -/
def KeepsTables : WriteOp V K → Prop
  | .createTable .. | .dropTable .. | .alterTable .. => False
  | _ => True

end WriteOp

/-- What undo leaves of a version that the undone operations have inserted or deleted, if they
have: the version goes, or its mark. -/
def RowVersion.undone (owns : List Xid) (inserted deleted : Prop) [Decidable inserted]
    [Decidable deleted] (v : RowVersion V) : Option (RowVersion V) :=
  if inserted ∧ v.xmin ∈ owns then none
  else if deleted ∧ v.xmax ∈ owns then some { v with xmax := 0 }
  else some v

/-- A version without the changes of the transaction ids `xids`. -/
def RowVersion.expunge (xids : List Xid) (v : RowVersion V) : Option (RowVersion V) :=
  v.undone xids True True

namespace RowVersion

variable (owns : List Xid) (ins del : Prop) [Decidable ins] [Decidable del] (v : RowVersion V)

theorem undone_inserted (hdel : ¬ del) :
    v.undone owns ins del = if ins then Option.filter (fun v => v.xmin ∉ owns) (some v) else some v := by
  unfold undone
  by_cases hins : ins <;> by_cases hxmin : v.xmin ∈ owns <;>
    simp [Option.filter, hins, hdel, hxmin]

theorem undone_deleted (hins : ¬ ins) :
    v.undone owns ins del
      = some (if del then (if v.xmax ∈ owns then { v with xmax := 0 } else v) else v) := by
  unfold undone
  by_cases hdel : del <;> by_cases hxmax : v.xmax ∈ owns <;> simp [hins, hdel, hxmax]

/-- Two undos in a row undo what either of them undoes. -/
theorem undone_bind_undone (ins' del' : Prop) [Decidable ins'] [Decidable del'] :
    (v.undone owns ins del).bind (undone owns ins' del')
      = v.undone owns (ins' ∨ ins) (del' ∨ del) := by
  by_cases hxmin : v.xmin ∈ owns
  · by_cases hins : ins
    · simp [undone, hxmin, hins]
    · by_cases hins' : ins'
      · by_cases hdel : del ∧ v.xmax ∈ owns <;> simp [undone, hxmin, hins, hins', hdel]
      · by_cases hdel : del <;> by_cases hdel' : del' <;> by_cases hxmax : v.xmax ∈ owns <;>
          simp [undone, hxmin, hins, hins', hdel, hdel', hxmax]
  · by_cases hdel : del <;> by_cases hdel' : del' <;> by_cases hxmax : v.xmax ∈ owns <;>
      simp [undone, hxmin, hdel, hdel', hxmax]

variable {owns ins del v} {v' : RowVersion V}

theorem xmin_of_undone (h : v.undone owns ins del = some v') : v'.xmin = v.xmin := by
  unfold undone at h
  split at h
  · cases h
  · split at h <;> cases h <;> rfl

theorem xmax_of_undone (h : v.undone owns ins del = some v') (hdel : del) (hxmax : v.xmax ∈ owns) :
    v'.xmax = 0 := by
  unfold undone at h
  split at h
  · cases h
  · simp only [hdel, hxmax, and_self, if_true, Option.some.injEq] at h
    rw [← h]

theorem eq_of_undone (h : v.undone owns ins del = some v') (hdel : ¬ (del ∧ v.xmax ∈ owns)) :
    v = v' := by
  unfold undone at h
  split at h
  · cases h
  · simpa [hdel] using h

end RowVersion

namespace Database

variable {db : Database V K}

theorem RowsOk.rowAt_undoDelete (h : db.RowsOk) (owns : List Xid) (id : RowId) (prev : Xid)
    (loc : Loc) (id' : RowId) :
    (db.undoDelete owns id prev).rowAt loc id'
      = if id' = id then
          (db.rowAt loc id').map fun v => if v.xmax ∈ owns then { v with xmax := prev } else v
        else db.rowAt loc id' := by
  unfold undoDelete
  split
  · next v hv =>
    obtain ⟨loc₀, hv⟩ := h.findRowVersion_eq_some.1 hv
    by_cases hid : id' = id
    · subst hid
      simp only [if_true]
      cases hr : db.rowAt loc id' with
      | none => split <;> simp [h.rowAt_setRowXmax, hr]
      | some r =>
        obtain rfl := h.unique loc loc₀ id' r v hr hv
        obtain rfl : r = v := by simpa [hr] using hv
        split
        · next hown => simp [h.rowAt_setRowXmax, hr, hown]
        · next hown => simp [hr, hown]
    · split <;> simp [h.rowAt_setRowXmax, hid]
  · next hnone =>
    split
    · next hid => simp [hid, h.findRowVersion_eq_none.1 hnone loc]
    · rfl

theorem RowsOk.undoDelete (h : db.RowsOk) (owns : List Xid) (id : RowId) (prev : Xid) :
    (db.undoDelete owns id prev).RowsOk := by
  unfold Database.undoDelete
  split
  · split
    · exact h.setRowXmax id prev
    · exact h
  · exact h

section

variable [DecidableEq K] [SqlValue V K]

theorem RowsOk.rowAt_undoInsert (h : db.RowsOk) (owns : List Xid) (table : String) (id : RowId)
    (loc : Loc) (id' : RowId) :
    (db.undoInsert owns table id).rowAt loc id'
      = if id' = id then (db.rowAt loc id').filter fun v => v.xmin ∉ owns
        else db.rowAt loc id' := by
  by_cases hown : ∃ loc₀ v, db.rowAt loc₀ id = some v ∧ v.xmin ∈ owns
  · obtain ⟨loc₀, v, hv, hxmin⟩ := hown
    obtain ⟨t, pos, ht, hpos, hremove⟩ := h.removeOwnVersion_of_own hv hxmin
    have hrow : (db.undoInsert owns table id).rowAt loc id'
        = (db.modifyAt loc₀ (·.swapRemoveVersion pos)).rowAt loc id' := by
      simp [undoInsert, hremove, rowAt, indexRemoveRow]
    rw [hrow, h.rowAt_swapRemove ht hpos]
    by_cases hid : id' = id
    · subst hid
      cases hr : db.rowAt loc id' with
      | none => simp
      | some r =>
        obtain rfl := h.unique loc loc₀ id' r v hr hv
        obtain rfl : r = v := by simpa [hr] using hv
        simp [Option.filter, hxmin]
    · simp [hid]
  · have hforeign : ∀ loc v, db.rowAt loc id = some v → v.xmin ∉ owns :=
      fun loc v hv hmem => hown ⟨loc, v, hv, hmem⟩
    simp only [undoInsert, h.removeOwnVersion_eq_none hforeign]
    split
    · next hid =>
      subst hid
      cases hv : db.rowAt loc id' with
      | none => rfl
      | some v => simp [Option.filter, hforeign loc v hv]
    · rfl

theorem RowsOk.undoInsert (h : db.RowsOk) (owns : List Xid) (table : String) (id : RowId) :
    (db.undoInsert owns table id).RowsOk := by
  refine h.of_rowAt ?_ ?_
  · by_cases hown : ∃ loc₀ v, db.rowAt loc₀ id = some v ∧ v.xmin ∈ owns
    · obtain ⟨loc₀, v, hv, hxmin⟩ := hown
      obtain ⟨t, pos, ht, hpos, hremove⟩ := h.removeOwnVersion_of_own hv hxmin
      intro loc' t' ht'
      simp only [Database.undoInsert, hremove, indexRemoveRow, tableAt_modifyLiveIndexes] at ht'
      exact h.synced_modifyAt (fun t ht => (h.synced _ t ht).swapRemoveVersion pos) loc' t' ht'
    · have hforeign : ∀ loc v, db.rowAt loc id = some v → v.xmin ∉ owns :=
        fun loc v hv hmem => hown ⟨loc, v, hv, hmem⟩
      simp only [Database.undoInsert, h.removeOwnVersion_eq_none hforeign]
      exact h.synced
  · intro loc id' r hr
    rw [h.rowAt_undoInsert] at hr
    split at hr
    · simp [(Option.filter_eq_some_iff.1 hr).1]
    · simp [hr]

/-- An operation on other objects leaves the tables alone. -/
theorem tableAt_undoWriteOp {op : WriteOp V K} (hkeeps : op.KeepsTables)
    (hins : op.inserted = []) (hdel : op.deleted = []) (owns : List Xid) (loc : Loc) :
    (db.undoWriteOp owns op).tableAt loc = db.tableAt loc := by
  cases op with
  | insertRow table id => simp [WriteOp.inserted] at hins
  | deleteRow table id prev => simp [WriteOp.deleted] at hdel
  | updateRow table oldId newId prev values => simp [WriteOp.inserted] at hins
  | createTable name => exact hkeeps.elim
  | dropTable name prev => exact hkeeps.elim
  | alterTable name prev target rewrite => exact hkeeps.elim
  | createIndex name =>
    simp only [undoWriteOp]
    split
    · split <;> rfl
    · rfl
  | dropIndex name index =>
    simp only [undoWriteOp]
    split
    · split <;> rfl
    · rfl
  | createType name prev => rfl
  | dropType name prev => rfl
  | createSequence name =>
    simp only [undoWriteOp]
    split <;> rfl
  | dropSequence name seq =>
    simp only [undoWriteOp]
    split
    · split <;> rfl
    · rfl
  | alterSequence name prev =>
    simp only [undoWriteOp]
    split <;> rfl
  | seqAdvance name => rfl

theorem RowsOk.undoWriteOp (h : db.RowsOk) {op : WriteOp V K} (hkeeps : op.KeepsTables)
    (owns : List Xid) : (db.undoWriteOp owns op).RowsOk := by
  cases op with
  | insertRow table id => exact h.undoInsert owns table id
  | deleteRow table id prev => exact h.undoDelete owns id prev
  | updateRow table oldId newId prev values =>
    exact (h.undoInsert owns table newId).undoDelete owns oldId prev
  | _ => exact h.congr fun loc => tableAt_undoWriteOp hkeeps rfl rfl owns loc

theorem RowsOk.rowAt_undoWriteOp (h : db.RowsOk) {op : WriteOp V K} (hkeeps : op.KeepsTables)
    (hprev : op.Unmarked) (owns : List Xid) (loc : Loc) (id : RowId) :
    (db.undoWriteOp owns op).rowAt loc id
      = (db.rowAt loc id).bind (RowVersion.undone owns (id ∈ op.inserted) (id ∈ op.deleted)) := by
  have hother (hins : op.inserted = []) (hdel : op.deleted = []) :
      (db.undoWriteOp owns op).rowAt loc id
        = (db.rowAt loc id).bind
            (RowVersion.undone owns (id ∈ op.inserted) (id ∈ op.deleted)) := by
    rw [rowAt_congr (tableAt_undoWriteOp hkeeps hins hdel owns)]
    cases db.rowAt loc id <;> simp [RowVersion.undone, hins, hdel]
  have hinsert (table : String) (id' : RowId) :
      (db.undoInsert owns table id').rowAt loc id
        = (db.rowAt loc id).bind (RowVersion.undone owns (id = id') False) := by
    rw [h.rowAt_undoInsert]
    cases db.rowAt loc id <;> simp [RowVersion.undone_inserted]
  have hdelete (id' : RowId) {db : Database V K} (h : db.RowsOk) :
      (db.undoDelete owns id' 0).rowAt loc id
        = (db.rowAt loc id).bind (RowVersion.undone owns False (id = id')) := by
    rw [h.rowAt_undoDelete]
    cases db.rowAt loc id <;> by_cases hid : id = id' <;> simp [RowVersion.undone_deleted, hid]
  cases op with
  | insertRow table id' =>
    simpa [Database.undoWriteOp, WriteOp.inserted, WriteOp.deleted] using hinsert table id'
  | deleteRow table id' prev =>
    obtain rfl : prev = 0 := hprev
    simpa [Database.undoWriteOp, WriteOp.inserted, WriteOp.deleted] using hdelete id' h
  | updateRow table oldId newId prev values =>
    obtain rfl : prev = 0 := hprev
    simp only [Database.undoWriteOp, hdelete oldId (h.undoInsert owns table newId),
      hinsert table newId, Option.bind_assoc, RowVersion.undone_bind_undone]
    simp [WriteOp.inserted, WriteOp.deleted]
  | _ => exact hother rfl rfl

end

end Database

namespace Engine

variable [DecidableEq K] [SqlValue V K] {eng : Engine V K}

theorem undoAll_cons (owns : List Xid) (op : WriteOp V K) (ops : List (WriteOp V K)) :
    eng.undoAll owns (op :: ops) = (eng.undoAll owns ops).undoWriteOp owns op := by
  simp [undoAll, List.foldl_append]

@[simp]
theorem undoAll_txns (owns : List Xid) (ops : List (WriteOp V K)) :
    (eng.undoAll owns ops).txns = eng.txns := by
  induction ops with
  | nil => rfl
  | cons op ops ih => rw [undoAll_cons]; exact ih

@[simp]
theorem undoAll_seqAdvanced (owns : List Xid) (ops : List (WriteOp V K)) :
    (eng.undoAll owns ops).seqAdvanced = eng.seqAdvanced := by
  induction ops with
  | nil => rfl
  | cons op ops ih => rw [undoAll_cons]; exact ih

theorem undoAll_rowsOk (h : eng.db.RowsOk) {ops : List (WriteOp V K)}
    (hkeeps : ∀ op ∈ ops, op.KeepsTables) (owns : List Xid) :
    (eng.undoAll owns ops).db.RowsOk := by
  induction ops with
  | nil => exact h
  | cons op ops ih =>
    rw [undoAll_cons]
    exact (ih fun o ho => hkeeps o (.tail _ ho)).undoWriteOp (hkeeps op (.head _)) owns

theorem rowAt_undoAll (h : eng.db.RowsOk) {ops : List (WriteOp V K)}
    (hkeeps : ∀ op ∈ ops, op.KeepsTables) (hprev : ∀ op ∈ ops, op.Unmarked) (owns : List Xid)
    (loc : Loc) (id : RowId) :
    (eng.undoAll owns ops).db.rowAt loc id
      = (eng.db.rowAt loc id).bind
          (RowVersion.undone owns (∃ op ∈ ops, id ∈ op.inserted)
            (∃ op ∈ ops, id ∈ op.deleted)) := by
  induction ops with
  | nil => cases hr : eng.db.rowAt loc id <;> simp [undoAll, RowVersion.undone, hr]
  | cons op ops ih =>
    have hkeeps' : ∀ o ∈ ops, o.KeepsTables := fun o ho => hkeeps o (.tail _ ho)
    have hprev' : ∀ o ∈ ops, o.Unmarked := fun o ho => hprev o (.tail _ ho)
    have hstep := (undoAll_rowsOk h hkeeps' owns).rowAt_undoWriteOp (hkeeps op (.head _))
      (hprev op (.head _)) owns loc id
    rw [undoAll_cons]
    refine hstep.trans ?_
    rw [ih hkeeps' hprev']
    cases hr : eng.db.rowAt loc id with
    | none => rfl
    | some v =>
      simp only [Option.bind_some, RowVersion.undone_bind_undone, List.mem_cons, exists_eq_or_imp]

end Engine
