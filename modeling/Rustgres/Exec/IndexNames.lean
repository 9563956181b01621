-- SUMMARY: Every index stands under its name, and the statements and their undo keep it so.
import Rustgres.Exec.IndexEntries

/-!
# Index Names

An index is found under the name in its definition. An entry of the dictionary is written by CREATE INDEX, under the name
of the new index, and by the undo of DROP INDEX.
-/

variable {V K : Type} [DecidableEq K] [SqlValue V K]

namespace Database

variable {db db' db'' : Database V K}

/-- Every index stands under its name. -/
def Named {V K : Type} (db : Database V K) : Prop :=
  ∀ name ix, db.indexes.lookup name = some ix → ix.defn.name = name

omit [DecidableEq K] [SqlValue V K] in
theorem Named.mem (h : db.Named) {ix : Index K} (hix : ix ∈ db.indexes.values) :
    db.indexes.lookup ix.defn.name = some ix := by
  obtain ⟨name, hname⟩ := Dict.mem_values.1 hix
  rw [h name ix hname]
  exact hname

omit [DecidableEq K] [SqlValue V K] in
theorem Named.of_eq (h : db.Named) (heq : db'.indexes = db.indexes) : db'.Named := by
  intro name ix hix
  rw [heq] at hix
  exact h name ix hix

omit [DecidableEq K] [SqlValue V K] in
theorem Named.mapValues (h : db.Named) {f : String → Index K → Index K}
    (hf : ∀ name ix, (f name ix).defn.name = ix.defn.name) (heq : db'.indexes = db.indexes.mapValues f) : db'.Named := by
  intro name ix hix
  rw [heq, Dict.lookup_mapValues] at hix
  obtain ⟨ix₀, hix₀, rfl⟩ := Option.map_eq_some_iff.1 hix
  rw [hf]
  exact h name ix₀ hix₀

omit [DecidableEq K] [SqlValue V K] in
theorem Named.update (h : db.Named) {name : String} {f : Index K → Index K}
    (heq : db'.indexes = db.indexes.update name f) (hf : ∀ ix, (f ix).defn.name = ix.defn.name) : db'.Named := by
  refine h.mapValues (f := fun k ix => if k = name then f ix else ix) (fun k ix => ?_) heq
  split
  · exact hf ix
  · rfl

omit [DecidableEq K] [SqlValue V K] in
theorem Named.erase (h : db.Named) {name : String} (heq : db'.indexes = db.indexes.erase name) : db'.Named := by
  intro name' ix hix
  rw [heq] at hix
  by_cases hname : name' = name
  · subst hname
    rw [AList.lookup_erase] at hix
    cases hix
  · rw [AList.lookup_erase_ne hname] at hix
    exact h name' ix hix

omit [DecidableEq K] [SqlValue V K] in
theorem Named.insert (h : db.Named) {ix : Index K} (heq : db'.indexes = db.indexes.insert ix.defn.name ix) : db'.Named := by
  intro name ix' hix'
  rw [heq] at hix'
  by_cases hname : name = ix.defn.name
  · subst hname
    rw [AList.lookup_insert] at hix'
    cases hix'
    rfl
  · rw [AList.lookup_insert_ne hname] at hix'
    exact h name ix' hix'

omit [DecidableEq K] [SqlValue V K] in
theorem Named.modifyLiveIndexes (h : db.Named) (table : String) {f : Index K → Index K}
    (hf : ∀ ix, (f ix).defn.name = ix.defn.name) : (db.modifyLiveIndexes table f).Named := by
  unfold Database.modifyLiveIndexes
  refine h.mapValues (f := fun _ ix => if ix.Live table then f ix else ix) (fun name ix => ?_) rfl
  split
  · exact hf ix
  · rfl

theorem Named.indexInsertRow (h : db.Named) (table : String) (id : RowId) (values : List V) :
    (db.indexInsertRow table id values).Named :=
  h.modifyLiveIndexes table fun _ => rfl

theorem Named.indexRemoveRow (h : db.Named) (table : String) (id : RowId) (values : List V) :
    (db.indexRemoveRow table id values).Named :=
  h.modifyLiveIndexes table fun _ => rfl

omit [DecidableEq K] [SqlValue V K] in
theorem Named.modifyTable (h : db.Named) (name : String) (snap : Snapshot) (owns : List Xid) (f : Table V → Table V) :
    (db.modifyTable name snap owns f).Named := by
  refine h.of_eq ?_
  unfold Database.modifyTable
  split
  · rfl
  · rfl

theorem Named.undoInsert (h : db.Named) (owns : List Xid) (table : String) (id : RowId) :
    (db.undoInsert owns table id).Named := by
  unfold Database.undoInsert
  split
  · rename_i values db' hremove
    have hindexes : db'.indexes = db.indexes := by
      unfold removeOwnVersion at hremove
      obtain ⟨loc, -, hremove⟩ := Option.bind_eq_some_iff.1 hremove
      obtain ⟨t, -, hremove⟩ := Option.bind_eq_some_iff.1 hremove
      obtain ⟨pos, -, hremove⟩ := Option.bind_eq_some_iff.1 hremove
      obtain ⟨v, -, hremove⟩ := Option.bind_eq_some_iff.1 hremove
      split at hremove
      · cases hremove
        rfl
      · cases hremove
    exact (h.of_eq hindexes).indexRemoveRow table id values
  · exact h

omit [DecidableEq K] [SqlValue V K] in
theorem Named.undoDelete (h : db.Named) (owns : List Xid) (id : RowId) (prev : Xid) :
    (db.undoDelete owns id prev).Named := by
  refine h.of_eq ?_
  unfold Database.undoDelete setRowXmax
  split
  · split
    · split <;> rfl
    · rfl
  · rfl

theorem Named.undoWriteOp (h : db.Named) {op : WriteOp V K} (hkeeps : op.KeepsTables) (hdrop : ¬op.IsDropIndex)
    (owns : List Xid) : (db.undoWriteOp owns op).Named := by
  cases op with
  | insertRow table id => exact h.undoInsert owns table id
  | deleteRow table id prev => exact h.undoDelete owns id prev
  | updateRow table oldId newId prev values => exact (h.undoInsert owns table newId).undoDelete owns oldId prev
  | createTable name => exact hkeeps.elim
  | dropTable name prev => exact hkeeps.elim
  | alterTable name prev target rewrite => exact hkeeps.elim
  | createIndex name =>
      unfold Database.undoWriteOp
      dsimp only
      split
      · split
        · exact h.erase rfl
        · exact h
      · exact h
  | dropIndex name index => exact absurd trivial hdrop
  | createType name prev => exact h.of_eq rfl
  | dropType name prev => exact h.of_eq rfl
  | createSequence name =>
      unfold Database.undoWriteOp
      dsimp only
      split
      · exact h.of_eq rfl
      · exact h
  | dropSequence name seq =>
      unfold Database.undoWriteOp
      dsimp only
      split
      · split
        · exact h.of_eq rfl
        · exact h
      · exact h
  | alterSequence name prev =>
      unfold Database.undoWriteOp
      dsimp only
      split
      · exact h.of_eq rfl
      · exact h
  | seqAdvance name => exact h

end Database

section

variable {eng : Engine V K} {ctx : StmtCtx}

theorem Engine.named_vacuumTable (h : eng.db.Named) (name : String) : (eng.vacuumTable name).db.Named :=
  h.mapValues (fun _ ix => congrArg IndexDef.name (Index.defn_removeRows name (eng.deadRows name) ix))
    (Engine.indexes_vacuumTable name)

theorem Engine.named_indexRows (h : eng.db.Named) (table : String) (rows : List (RowId × List V)) :
    (eng.indexRows table rows).db.Named := by
  unfold Engine.indexRows
  dsimp only
  generalize eng.db = db at h ⊢
  induction rows generalizing db with
  | nil => exact h
  | cons r rows ih => exact ih _ (h.indexInsertRow table r.1 r.2)

omit [DecidableEq K] [SqlValue V K] in
theorem Engine.named_modifyTable (h : eng.db.Named) (table : String) (f : Table V → Table V) :
    (eng.modifyTable ctx table f).db.Named :=
  h.modifyTable table ctx.snap ctx.allXids f

omit [DecidableEq K] [SqlValue V K] in
theorem execDelete_named (h : eng.db.Named) (table : String) (where_ : List V → Bool) :
    (execDelete eng ctx table where_).eng.db.Named := by
  unfold execDelete
  split
  · exact h
  · split
    · exact h
    · exact h.modifyTable table ctx.snap ctx.allXids _

omit [DecidableEq K] [SqlValue V K] in
theorem truncateTables_named (h : eng.db.Named) (tables : List String) :
    (truncateTables ctx eng tables).eng.db.Named := by
  induction tables generalizing eng with
  | nil => exact h
  | cons table tables ih =>
      have hdelete : (execDelete eng ctx table fun _ => true).eng.db.Named := execDelete_named h table fun _ => true
      unfold truncateTables
      rcases hout : execDelete eng ctx table fun _ => true with ⟨eng', writes, error⟩
      rw [hout] at hdelete
      cases error with
      | some e => exact hdelete
      | none => exact ih hdelete

theorem RowStmt.named (h : eng.db.Named) (stmt : RowStmt V) : (stmt.exec eng ctx).eng.db.Named := by
  cases stmt with
  | insert table rows =>
      unfold RowStmt.exec execInsert
      dsimp only
      split
      · exact h
      · split
        · exact h
        · split
          · exact h
          · have halloc : (eng.allocRowIds rows.length).2.db.Named := h
            exact Engine.named_indexRows (Engine.named_modifyTable halloc table _) table _
  | update table where_ sets =>
      unfold RowStmt.exec execUpdate
      dsimp only
      split
      · exact h
      · split
        · exact h
        · rename_i plan hplan
          split
          · exact h
          · have halloc : (eng.allocRowIds plan.length).2.db.Named := h
            exact Engine.named_indexRows (Engine.named_modifyTable halloc table _) table _
  | delete table where_ => exact execDelete_named h table where_
  | truncate tables =>
      unfold RowStmt.exec execTruncate
      dsimp only
      split
      · exact h
      · exact truncateTables_named h tables
  | select table =>
      unfold RowStmt.exec execSelect
      dsimp only
      split
      · exact h
      · exact h
  | selectForUpdate table where_ =>
      unfold RowStmt.exec execSelectForUpdate
      dsimp only
      split
      · exact h
      · rw [(acquireRowLocks_spec eng ctx table _).2.1]
        exact h

omit [DecidableEq K] [SqlValue V K] in
theorem execDropOneIndex_named (h : eng.db.Named) (name : String) : (execDropOneIndex eng ctx name).eng.db.Named := by
  unfold execDropOneIndex
  split
  · exact h
  · exact h.update (f := fun ix => { ix with defn := { ix.defn with droppedXmax := ctx.own } }) rfl fun _ => rfl

omit [DecidableEq K] [SqlValue V K] in
theorem dropIndexes_named (h : eng.db.Named) (names : List String) : (dropIndexes ctx eng names).eng.db.Named := by
  induction names generalizing eng with
  | nil => exact h
  | cons name names ih =>
      have hone : (execDropOneIndex eng ctx name).eng.db.Named := execDropOneIndex_named h name
      unfold dropIndexes
      rcases hout : execDropOneIndex eng ctx name with ⟨eng', writes, error⟩
      rw [hout] at hone
      cases error with
      | some e => exact hone
      | none => exact ih hone

theorem IndexStmt.named (h : eng.db.Named) (stmt : IndexStmt) : (stmt.exec eng ctx).eng.db.Named := by
  cases stmt with
  | create name table columns unique nnd isPartial =>
      unfold IndexStmt.exec execCreateIndex
      dsimp only
      split
      · exact h
      · split
        · exact h
        · split
          · exact h
          · split
            · exact h
            · unfold createIndexOn
              extract_lets ix₀ ix
              split
              · exact h
              · have hname : ix.defn.name = name := by
                  unfold ix
                  split
                  · rw [Index.defn_build]
                    rfl
                  · rfl
                refine @Database.Named.insert _ _ _ _ h ix ?_
                rw [hname]
  | drop names =>
      unfold IndexStmt.exec execDropIndex
      dsimp only
      split
      · exact h
      · exact dropIndexes_named h names

end
