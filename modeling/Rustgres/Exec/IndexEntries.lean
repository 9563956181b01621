-- SUMMARY: Live indexes have exactly the stored versions of their tables, and the statements and their undo keep it so.
import Rustgres.Exec.ExactUndo
import Rustgres.Lib.Postings

/-!
# Index Entries

An index that writes maintain has one entry for each version that the tables of its name store, whoever may see it.
Statements, the undo of their operations and VACUUM keep this, but for the undo of a DROP INDEX, which brings back an old
copy.
-/

variable {V K : Type} [DecidableEq K] [SqlValue V K]

namespace Database

variable {db db' : Database V K}

omit [DecidableEq K] [SqlValue V K] in
/-- The versions that the tables called `table` store. -/
def Stores (db : Database V K) (table : String) (id : RowId) (values : List V) : Prop :=
  ∃ pos v, db.rowAt (table, pos) id = some v ∧ v.values = values

/-- Every live index has exactly the stored versions of its table. -/
def Indexed (db : Database V K) : Prop :=
  ∀ ix ∈ db.indexes.values, ∀ table, ix.Live table → Postings.Exact ix.keyFor (db.Stores table) ix.tree

omit [DecidableEq K] [SqlValue V K] in
theorem RowsOk.stores_unique (h : db.RowsOk) {table : String} {id : RowId} {values values' : List V}
    (hv : db.Stores table id values) (hv' : db.Stores table id values') : values = values' := by
  obtain ⟨pos, v, hrow, rfl⟩ := hv
  obtain ⟨pos', v', hrow', rfl⟩ := hv'
  rw [h.unique _ _ _ _ _ hrow hrow', hrow'] at hrow
  cases hrow
  rfl

omit [DecidableEq K] [SqlValue V K] in
/-- The id is stored nowhere. -/
def Unstored (db : Database V K) (id : RowId) : Prop := ∀ loc, db.rowAt loc id = none

omit [DecidableEq K] [SqlValue V K] in
theorem Unstored.not_stores {id : RowId} (h : db.Unstored id) (table : String) (values : List V) :
    ¬db.Stores table id values := by
  rintro ⟨pos, v, hrow, -⟩
  rw [h] at hrow
  cases hrow

omit [DecidableEq K] in
/-- The same indexes over the same versions. -/
theorem Indexed.congr (h : db.Indexed) (hindexes : ∀ ix ∈ db'.indexes.values, ix ∈ db.indexes.values)
    (hstores : ∀ table id values, db'.Stores table id values ↔ db.Stores table id values) : db'.Indexed :=
  fun ix hix table hlive => (h ix (hindexes ix hix) table hlive).congr (hstores table)

omit [DecidableEq K] [SqlValue V K] in
theorem mem_values_mapValues {f : String → Index K → Index K} {d : Dict String (Index K)} {ix : Index K}
    (h : ix ∈ (d.mapValues f).values) : ∃ name, ∃ ix₀ ∈ d.values, ix = f name ix₀ := by
  obtain ⟨e, he, rfl⟩ := List.mem_map.1 h
  obtain ⟨e', he', rfl⟩ := List.mem_map.1 he
  exact ⟨e'.1, e'.2, List.mem_map_of_mem he', rfl⟩

/-! ## One version more, or less -/

/-- A version that is new in the tables called `table` is entered into their indexes. -/
theorem Indexed.indexInsertRow (h : db.Indexed) {table : String} {id : RowId} {values : List V}
    (hindexes : db'.indexes = db.indexes) (hfresh : ∀ w, ¬db.Stores table id w)
    (hstores : ∀ table' id' w, db'.Stores table' id' w ↔
      db.Stores table' id' w ∨ table' = table ∧ id' = id ∧ w = values) :
    (db'.indexInsertRow table id values).Indexed := by
  intro ix hix table' hlive
  obtain ⟨name, ix₀, hix₀, rfl⟩ := mem_values_mapValues hix
  rw [hindexes] at hix₀
  by_cases h₀ : ix₀.Live table
  · rw [if_pos h₀] at hlive ⊢
    obtain rfl : table = table' := h₀.1.symm.trans hlive.1
    refine ((h ix₀ hix₀ table h₀).insert (v := values) hfresh).congr fun id' w => ?_
    refine (hstores table id' w).trans ?_
    simp only [true_and]
  · rw [if_neg h₀] at hlive ⊢
    refine (h ix₀ hix₀ table' hlive).congr fun id' w => ?_
    have hne : table' ≠ table := fun heq => h₀ (heq ▸ hlive)
    refine (hstores table' id' w).trans ?_
    simp only [hne, false_and, or_false]

/-- A version that the tables called `table` store no more is taken out of their indexes. -/
theorem Indexed.indexRemoveRow (h : db.Indexed) {table : String} {id : RowId} {values : List V}
    (hindexes : db'.indexes = db.indexes) (honly : ∀ w, db.Stores table id w → w = values)
    (hstores : ∀ table' id' w, db'.Stores table' id' w ↔ db.Stores table' id' w ∧ ¬(table' = table ∧ id' = id)) :
    (db'.indexRemoveRow table id values).Indexed := by
  intro ix hix table' hlive
  obtain ⟨name, ix₀, hix₀, rfl⟩ := mem_values_mapValues hix
  rw [hindexes] at hix₀
  by_cases h₀ : ix₀.Live table
  · rw [if_pos h₀] at hlive ⊢
    obtain rfl : table = table' := h₀.1.symm.trans hlive.1
    refine ((h ix₀ hix₀ table h₀).remove honly).congr fun id' w => ?_
    refine (hstores table id' w).trans ?_
    simp only [true_and]
  · rw [if_neg h₀] at hlive ⊢
    refine (h ix₀ hix₀ table' hlive).congr fun id' w => ?_
    have hne : table' ≠ table := fun heq => h₀ (heq ▸ hlive)
    refine (hstores table' id' w).trans ?_
    simp only [hne, false_and, not_false_iff, and_true]

/-! ## Row operations -/

theorem RowsOk.stored_pushRow (hok : db.RowsOk) {loc : Loc} {x : Xid} {t : Table V} (ht : db.tableAt loc = some t)
    {r : RowId × List V} (hfresh : db.Unstored r.1) :
    (db.pushRow loc x r).RowsOk ∧ (db.pushRow loc x r).rowAt = Heap.set db.rowAt loc (.plain r.1 r.2 x) :=
  ⟨(hok.push ht (r := .plain r.1 r.2 x) hfresh).congr fun _ => rfl, hok.rowAt_push ht (r := .plain r.1 r.2 x) hfresh⟩

theorem RowsOk.unstored_pushRow (hok : db.RowsOk) {loc : Loc} {x : Xid} {t : Table V}
    (ht : db.tableAt loc = some t) {r : RowId × List V} (hfresh : db.Unstored r.1) {id : RowId} (hid : db.Unstored id)
    (hne : id ≠ r.1) : (db.pushRow loc x r).Unstored id := by
  intro loc'
  rw [(hok.stored_pushRow ht hfresh).2]
  unfold Heap.set
  rw [if_neg fun heq => hne heq.2]
  exact hid loc'

omit [DecidableEq K] [SqlValue V K] in
theorem RowsOk.unstored_mark (hok : db.RowsOk) {loc : Loc} {v : RowVersion V} (hv : db.rowAt loc v.id = some v)
    {x : Xid} {id : RowId} (hid : db.Unstored id) : (db.modifyAt loc (·.setXmax v.id x)).Unstored id := by
  intro loc'
  have hne : id ≠ v.id := by
    rintro rfl
    rw [hid loc] at hv
    cases hv
  rw [hok.rowAt_mark hv]
  unfold Heap.set
  rw [if_neg fun heq => hne heq.2]
  exact hid loc'

theorem Indexed.pushRow (h : db.Indexed) (hok : db.RowsOk) {loc : Loc} {x : Xid} {t : Table V}
    (ht : db.tableAt loc = some t) {r : RowId × List V} (hfresh : db.Unstored r.1) : (db.pushRow loc x r).Indexed := by
  have hindexes : (db.modifyAt loc (·.pushVersion (.plain r.1 r.2 x))).indexes = db.indexes := rfl
  refine h.indexInsertRow hindexes (hfresh.not_stores loc.1) fun table id w => ?_
  unfold Stores
  rw [hok.rowAt_push ht (r := .plain r.1 r.2 x) hfresh]
  constructor
  · rintro ⟨pos, v, hv, rfl⟩
    unfold Heap.set at hv
    split at hv
    · rename_i hnew
      cases hv
      exact .inr ⟨congrArg Prod.fst hnew.1, hnew.2, rfl⟩
    · exact .inl ⟨pos, v, hv, rfl⟩
  · rintro (⟨pos, v, hv, rfl⟩ | ⟨rfl, rfl, rfl⟩)
    · refine ⟨pos, v, ?_, rfl⟩
      unfold Heap.set
      rw [if_neg, hv]
      rintro ⟨-, rfl⟩
      rw [show db.rowAt (table, pos) (RowVersion.plain r.1 r.2 x).id = none from hfresh _] at hv
      cases hv
    · refine ⟨loc.2, .plain r.1 r.2 x, ?_, rfl⟩
      unfold Heap.set
      exact if_pos ⟨rfl, rfl⟩

omit [DecidableEq K] in
/-- Marks do not concern the indexes. -/
theorem Indexed.of_values (h : db.Indexed) (hindexes : db'.indexes = db.indexes)
    (hvalues : ∀ loc id, (db'.rowAt loc id).map RowVersion.values = (db.rowAt loc id).map RowVersion.values) :
    db'.Indexed := by
  refine h.congr (fun ix hix => hindexes ▸ hix) fun table id values => ?_
  have hiff : ∀ (d : Database V K) pos,
      (∃ v, d.rowAt (table, pos) id = some v ∧ v.values = values) ↔
        (d.rowAt (table, pos) id).map RowVersion.values = some values := fun d pos =>
    Option.map_eq_some_iff.symm
  unfold Stores
  exact exists_congr fun pos => by rw [hiff, hiff, hvalues]

omit [DecidableEq K] in
theorem Indexed.mark (h : db.Indexed) (hok : db.RowsOk) {loc : Loc} {v : RowVersion V} {id : RowId}
    (hv : db.rowAt loc id = some v) (x : Xid) : (db.modifyAt loc (·.setXmax id x)).Indexed := by
  refine h.of_values rfl fun loc' id' => ?_
  rw [hok.rowAt_mark hv]
  unfold Heap.set
  split
  · rename_i heq
    obtain rfl := hok.rowAt_id hv
    rw [heq.1, heq.2, hv]
    rfl
  · rfl

theorem Indexed.pushRows (h : db.Indexed) (hok : db.RowsOk) {loc : Loc} {x : Xid} {t : Table V}
    (ht : db.tableAt loc = some t) {rows : List (RowId × List V)} (hfresh : ∀ r ∈ rows, db.Unstored r.1)
    (hnodup : (rows.map Prod.fst).Nodup) : (rows.foldl (fun db r => db.pushRow loc x r) db).Indexed := by
  induction rows generalizing db t with
  | nil => exact h
  | cons r rows ih =>
      have hr := hfresh r List.mem_cons_self
      obtain ⟨hnot, hnodup⟩ := List.nodup_cons.1 hnodup
      have htable : (db.pushRow loc x r).tableAt loc = some (t.pushVersion (.plain r.1 r.2 x)) := by
        simp [Database.pushRow, Database.indexInsertRow, tableAt_modifyAt, ht]
      refine ih (h.pushRow hok ht hr) (hok.stored_pushRow ht hr).1 htable (fun r' hr' => ?_) hnodup
      refine hok.unstored_pushRow ht hr (hfresh r' (List.mem_cons_of_mem r hr')) fun heq => hnot ?_
      exact heq ▸ List.mem_map_of_mem hr'

omit [DecidableEq K] in
theorem Indexed.markRows (h : db.Indexed) (hok : db.RowsOk) {loc : Loc} {x : Xid} {rows : List (RowVersion V)}
    (hrows : ∀ r ∈ rows, db.rowAt loc r.id = some r) (hnodup : (rows.map RowVersion.id).Nodup) :
    (db.modifyAt loc (·.markRows x rows)).Indexed := by
  induction rows generalizing db with
  | nil => simpa [Table.markRows, modifyAt_id] using h
  | cons r rows ih =>
      have hr := hrows r List.mem_cons_self
      obtain ⟨hnot, hnodup⟩ := List.nodup_cons.1 hnodup
      have hrest := ih (h.mark hok hr x) (hok.mark hr x) (fun r' hr' => by
        have hne : r'.id ≠ r.id := fun heq => hnot (heq ▸ List.mem_map_of_mem hr')
        rw [hok.rowAt_mark hr]
        simpa [Heap.set, hne] using hrows r' (List.mem_cons_of_mem r hr')) hnodup
      rw [modifyAt_modifyAt] at hrest
      exact hrest

theorem Indexed.replaceRows (h : db.Indexed) (hok : db.RowsOk) {loc : Loc} {x : Xid} {t : Table V}
    (ht : db.tableAt loc = some t) {rows : List (RowVersion V × RowId × List V)}
    (hrows : ∀ r ∈ rows, db.rowAt loc r.1.id = some r.1) (hnodup : (rows.map fun r => r.1.id).Nodup)
    (hfresh : ∀ r ∈ rows, db.Unstored r.2.1) (hnew : (rows.map fun r => r.2.1).Nodup) :
    (rows.foldl (fun db r => db.replaceRow loc x r) db).Indexed := by
  induction rows generalizing db t with
  | nil => exact h
  | cons r rows ih =>
      have hr := hrows r List.mem_cons_self
      have hid := hfresh r List.mem_cons_self
      obtain ⟨hnot, hnodup⟩ := List.nodup_cons.1 hnodup
      obtain ⟨hnotNew, hnew⟩ := List.nodup_cons.1 hnew
      have hmark := hok.mark hr x
      have htable : (db.modifyAt loc (·.setXmax r.1.id x)).tableAt loc = some (t.setXmax r.1.id x) := by
        simp [tableAt_modifyAt, ht]
      have hid' : (db.modifyAt loc (·.setXmax r.1.id x)).Unstored r.2.1 := hok.unstored_mark hr hid
      have htable' : (db.replaceRow loc x r).tableAt loc
          = some ((t.setXmax r.1.id x).pushVersion (.plain r.2.1 r.2.2 x)) := by
        simp [Database.replaceRow, Database.pushRow, Database.indexInsertRow, tableAt_modifyAt, ht]
      have hpush := hmark.stored_pushRow (x := x) htable hid'
      refine ih ((h.mark hok hr x).pushRow hmark htable hid') hpush.1 htable' (fun r' hr' => ?_) hnodup
        (fun r' hr' => ?_) hnew
      · have hold := hrows r' (List.mem_cons_of_mem r hr')
        have hne : r'.1.id ≠ r.1.id := fun heq => hnot (List.mem_map.2 ⟨r', hr', heq⟩)
        have hne' : r'.1.id ≠ r.2.1 := by
          intro heq
          rw [heq, hid] at hold
          cases hold
        show ((db.modifyAt loc (·.setXmax r.1.id x)).pushRow loc x r.2).rowAt loc r'.1.id = some r'.1
        rw [hpush.2, hok.rowAt_mark hr]
        simp [Heap.set, hne, hne', hold]
      · refine hmark.unstored_pushRow htable hid' (hok.unstored_mark hr (hfresh r' (List.mem_cons_of_mem r hr')))
          fun heq => ?_
        exact hnotNew (List.mem_map.2 ⟨r', hr', heq⟩)

/-! ## Undo -/

omit [DecidableEq K] [SqlValue V K] in
theorem RowsOk.stores_swapRemove (h : db.RowsOk) {loc : Loc} {t : Table V} {id : RowId} {pos : Nat}
    (ht : db.tableAt loc = some t) (hpos : t.rowPos id = some pos) (table : String) (id' : RowId) (values : List V) :
    (db.modifyAt loc (·.swapRemoveVersion pos)).Stores table id' values ↔
      db.Stores table id' values ∧ ¬(table = loc.1 ∧ id' = id) := by
  have hsome : (db.rowAt loc id).isSome := by
    have hrow : (t.rowPos id).isSome = (t.row? id).isSome := (h.synced loc t ht).rowPos_isSome
    rw [hpos] at hrow
    rw [rowAt, ht, Option.bind_some, ← hrow]
    rfl
  obtain ⟨v₀, hv₀⟩ := Option.isSome_iff_exists.1 hsome
  unfold Stores
  simp only [h.rowAt_swapRemove ht hpos]
  constructor
  · rintro ⟨p, v, hv, hvalues⟩
    split at hv
    · cases hv
    · rename_i hne
      refine ⟨⟨p, v, hv, hvalues⟩, fun heq => hne ⟨?_, heq.2⟩⟩
      obtain ⟨-, rfl⟩ := heq
      exact h.unique _ _ _ _ _ hv hv₀
  · rintro ⟨⟨p, v, hv, hvalues⟩, hne⟩
    refine ⟨p, v, ?_, hvalues⟩
    rw [if_neg fun heq => hne ⟨congrArg Prod.fst heq.1, heq.2⟩]
    exact hv

/-- The version that is taken back is one of the table that the operation names. -/
theorem Indexed.undoInsert (h : db.Indexed) (hok : db.RowsOk) {owns : List Xid} {table : String} {id : RowId}
    (hplace : ∀ loc v, db.rowAt loc id = some v → loc.1 = table) : (db.undoInsert owns table id).Indexed := by
  by_cases hown : ∃ loc v, db.rowAt loc id = some v ∧ v.xmin ∈ owns
  · obtain ⟨loc, v, hv, hxmin⟩ := hown
    obtain rfl := hplace loc v hv
    obtain ⟨t, pos, ht, hpos, hremove⟩ := hok.removeOwnVersion_of_own hv hxmin
    unfold Database.undoInsert
    rw [hremove]
    have hindexes : (db.modifyAt loc (·.swapRemoveVersion pos)).indexes = db.indexes := rfl
    refine h.indexRemoveRow hindexes (fun w hw => ?_) (hok.stores_swapRemove ht hpos)
    exact hok.stores_unique hw ⟨loc.2, v, hv, rfl⟩
  · have hforeign : ∀ loc v, db.rowAt loc id = some v → v.xmin ∉ owns :=
      fun loc v hv hmem => hown ⟨loc, v, hv, hmem⟩
    unfold Database.undoInsert
    rw [hok.removeOwnVersion_eq_none hforeign]
    exact h

omit [DecidableEq K] in
theorem Indexed.undoDelete (h : db.Indexed) (hok : db.RowsOk) (owns : List Xid) (id : RowId) (prev : Xid) :
    (db.undoDelete owns id prev).Indexed := by
  refine h.of_values ?_ fun loc id' => ?_
  · unfold Database.undoDelete Database.setRowXmax
    split
    · split
      · split <;> rfl
      · rfl
    · rfl
  · rw [hok.rowAt_undoDelete]
    split
    · cases db.rowAt loc id' with
      | none => rfl
      | some v =>
          rw [Option.map_some, Option.map_some, Option.map_some]
          split <;> rfl
    · rfl

end Database

/-- The operation took an index away, and keeps a copy of it. -/
def WriteOp.IsDropIndex {V K : Type} : WriteOp V K → Prop
  | .dropIndex .. => True
  | _ => False

instance {V K : Type} : DecidablePred (@WriteOp.IsDropIndex V K)
  | .dropIndex .. => .isTrue trivial
  | .insertRow .. | .deleteRow .. | .updateRow .. | .createTable _ | .dropTable .. | .alterTable ..
  | .createIndex _ | .createType .. | .dropType .. | .createSequence _ | .dropSequence ..
  | .alterSequence .. | .seqAdvance _ => .isFalse id

/-- The version that an operation put into a table. -/
def WriteOp.pushed {V K : Type} : WriteOp V K → Option (String × RowId)
  | .insertRow table id => some (table, id)
  | .updateRow table _ newId _ _ => some (table, newId)
  | _ => none

/-- What the operation put into a table is nowhere else. -/
def WriteOp.Placed {V K : Type} (db : Database V K) (op : WriteOp V K) : Prop :=
  ∀ table id, op.pushed = some (table, id) → ∀ loc v, db.rowAt loc id = some v → loc.1 = table

namespace Database

variable {db : Database V K} {op : WriteOp V K} {owns : List Xid}

theorem Indexed.undoWriteOp (h : db.Indexed) (hok : db.RowsOk) (hkeeps : op.KeepsTables) (hdrop : ¬op.IsDropIndex)
    (hplaced : op.Placed db) : (db.undoWriteOp owns op).Indexed := by
  cases op with
  | insertRow table id => exact h.undoInsert hok (hplaced table id rfl)
  | deleteRow table id prev => exact h.undoDelete hok owns id prev
  | updateRow table oldId newId prev values =>
      exact (h.undoInsert hok (hplaced table newId rfl)).undoDelete (hok.undoInsert owns table newId) owns oldId prev
  | createTable name => exact hkeeps.elim
  | dropTable name prev => exact hkeeps.elim
  | alterTable name prev target rewrite => exact hkeeps.elim
  | createIndex name =>
      unfold Database.undoWriteOp
      dsimp only
      split
      · split
        · exact h.congr (fun ix hix => Dict.mem_values_erase hix) fun _ _ _ => Iff.rfl
        · exact h
      · exact h
  | dropIndex name index => exact absurd trivial hdrop
  | createType name prev => exact h.congr (fun _ hix => hix) fun _ _ _ => Iff.rfl
  | dropType name prev => exact h.congr (fun _ hix => hix) fun _ _ _ => Iff.rfl
  | createSequence name =>
      unfold Database.undoWriteOp
      dsimp only
      split
      · exact h.congr (fun _ hix => hix) fun _ _ _ => Iff.rfl
      · exact h
  | dropSequence name seq =>
      unfold Database.undoWriteOp
      dsimp only
      split
      · split
        · exact h.congr (fun _ hix => hix) fun _ _ _ => Iff.rfl
        · exact h
      · exact h
  | alterSequence name prev =>
      unfold Database.undoWriteOp
      dsimp only
      split
      · exact h.congr (fun _ hix => hix) fun _ _ _ => Iff.rfl
      · exact h
  | seqAdvance name => exact h

/-- Undo moves no version. -/
theorem RowsOk.stored_undoWriteOp (hok : db.RowsOk) (hkeeps : op.KeepsTables) {loc : Loc} {id : RowId}
    {v : RowVersion V} (hv : (db.undoWriteOp owns op).rowAt loc id = some v) : ∃ v₀, db.rowAt loc id = some v₀ := by
  cases op with
  | insertRow table id' =>
      rw [Database.undoWriteOp, hok.rowAt_undoInsert] at hv
      split at hv
      · exact ⟨v, (Option.filter_eq_some_iff.1 hv).1⟩
      · exact ⟨v, hv⟩
  | deleteRow table id' prev =>
      rw [Database.undoWriteOp, hok.rowAt_undoDelete] at hv
      split at hv
      · obtain ⟨v₀, hv₀, -⟩ := Option.map_eq_some_iff.1 hv
        exact ⟨v₀, hv₀⟩
      · exact ⟨v, hv⟩
  | updateRow table oldId newId prev values =>
      rw [Database.undoWriteOp, (hok.undoInsert owns table newId).rowAt_undoDelete] at hv
      have hins : ∃ v₀, (db.undoInsert owns table newId).rowAt loc id = some v₀ := by
        split at hv
        · obtain ⟨v₀, hv₀, -⟩ := Option.map_eq_some_iff.1 hv
          exact ⟨v₀, hv₀⟩
        · exact ⟨v, hv⟩
      obtain ⟨v₀, hv₀⟩ := hins
      rw [hok.rowAt_undoInsert] at hv₀
      split at hv₀
      · exact ⟨v₀, (Option.filter_eq_some_iff.1 hv₀).1⟩
      · exact ⟨v₀, hv₀⟩
  | _ =>
      refine ⟨v, ?_⟩
      rw [← hv]
      exact (rowAt_congr (fun loc => tableAt_undoWriteOp hkeeps rfl rfl owns loc) loc id).symm

end Database

/-! ## VACUUM -/

section Vacuum

variable {db : Database V K}

/-- The entries of some versions taken out of an index of `table`. -/
def Index.removeRows (table : String) (rows : List (RowVersion V)) (ix : Index K) : Index K :=
  rows.foldl (fun ix v => if ix.Live table then ix.remove (ix.keyFor v.values) v.id else ix) ix

theorem Index.defn_removeRows (table : String) (rows : List (RowVersion V)) (ix : Index K) :
    (ix.removeRows table rows).defn = ix.defn := by
  induction rows generalizing ix with
  | nil => rfl
  | cons v rows ih =>
      rw [show Index.removeRows table (v :: rows) ix
        = Index.removeRows table rows (if ix.Live table then ix.remove (ix.keyFor v.values) v.id else ix) from rfl, ih]
      split
      · rfl
      · rfl

theorem Index.removeRows_of_not_live {table : String} {ix : Index K} (h : ¬ix.Live table)
    (rows : List (RowVersion V)) : ix.removeRows table rows = ix := by
  induction rows with
  | nil => rfl
  | cons v rows ih =>
      show Index.removeRows table rows (if ix.Live table then _ else ix) = ix
      rw [if_neg h]
      exact ih

theorem Index.exact_removeRows {table : String} {items : RowId → List V → Prop} {rows : List (RowVersion V)}
    {ix : Index K} (hlive : ix.Live table) (h : Postings.Exact ix.keyFor items ix.tree)
    (honly : ∀ v ∈ rows, ∀ w, items v.id w → w = v.values) :
    Postings.Exact ix.keyFor (fun id w => items id w ∧ ∀ v ∈ rows, id ≠ v.id) (ix.removeRows table rows).tree := by
  induction rows generalizing ix items with
  | nil => exact h.congr fun id w => by simp
  | cons v rows ih =>
      have hstep := h.remove (honly v List.mem_cons_self)
      have hrest := @ih _ (ix.remove (ix.keyFor v.values) v.id) hlive hstep fun u hu w hw =>
        honly u (List.mem_cons_of_mem v hu) w hw.1
      show Postings.Exact ix.keyFor _ (Index.removeRows table rows (if ix.Live table then _ else ix)).tree
      rw [if_pos hlive]
      refine hrest.congr fun id w => ?_
      rw [List.forall_mem_cons, and_assoc]

theorem Database.indexes_foldl_removeRow (table : String) (rows : List (RowVersion V)) :
    (rows.foldl (fun db v => db.indexRemoveRow table v.id v.values) db).indexes =
      db.indexes.mapValues fun _ ix => ix.removeRows table rows := by
  induction rows generalizing db with
  | nil => exact (Dict.mapValues_eq_self fun _ _ => rfl).symm
  | cons v rows ih =>
      rw [List.foldl_cons, ih]
      unfold Database.indexRemoveRow Database.modifyLiveIndexes
      rw [Dict.mapValues_mapValues]
      rfl

variable {eng : Engine V K}

omit [DecidableEq K] [SqlValue V K] in
theorem Engine.mem_deadRows (h : eng.db.RowsOk) {name : String} {v : RowVersion V} :
    v ∈ eng.deadRows name ↔
      (∃ pos, eng.db.rowAt (name, pos) v.id = some v) ∧ eng.txns.DeadToAll v.xmin v.xmax := by
  unfold Engine.deadRows
  rw [List.mem_flatMap]
  constructor
  · rintro ⟨t, ht, hv⟩
    obtain ⟨hmem, hdead⟩ := List.mem_filter.1 hv
    cases hlook : eng.db.tables.lookup name with
    | none =>
        rw [hlook] at ht
        cases ht
    | some ts =>
        rw [hlook] at ht
        obtain ⟨pos, hpos⟩ := List.mem_iff_getElem?.1 ht
        have htable : eng.db.tableAt (name, pos) = some t := by
          rw [Option.getD_some] at hpos
          rw [Database.tableAt, hlook]
          exact hpos
        exact ⟨⟨pos, h.rowAt_of_mem htable hmem⟩, of_decide_eq_true hdead⟩
  · rintro ⟨⟨pos, hv⟩, hdead⟩
    obtain ⟨t, ht, hrow⟩ := Database.rowAt_eq_some.1 hv
    obtain ⟨ts, hlook, hget⟩ := Option.bind_eq_some_iff.1 ht
    refine ⟨t, ?_, List.mem_filter.2 ⟨((h.synced _ t ht).row?_eq_some.1 hrow).1, decide_eq_true hdead⟩⟩
    rw [show eng.db.tables.lookup name = some ts from hlook]
    exact List.mem_of_getElem? hget

theorem Engine.indexes_vacuumTable (name : String) :
    (eng.vacuumTable name).db.indexes = eng.db.indexes.mapValues fun _ ix => ix.removeRows name (eng.deadRows name) := by
  unfold Engine.vacuumTable
  exact Database.indexes_foldl_removeRow name (eng.deadRows name)

/-- VACUUM takes the entries of the versions that it removes out of the indexes. -/
theorem Database.Indexed.vacuumTable (h : eng.db.Indexed) (hok : eng.db.RowsOk) (name : String) :
    (eng.vacuumTable name).db.Indexed := by
  intro ix hix table hlive
  rw [Engine.indexes_vacuumTable] at hix
  obtain ⟨_, ix₀, hix₀, rfl⟩ := Database.mem_values_mapValues hix
  have hdefn : (ix₀.removeRows name (eng.deadRows name)).defn = ix₀.defn := Index.defn_removeRows _ _ _
  have hkeyFor : (ix₀.removeRows name (eng.deadRows name)).keyFor (V := V) = ix₀.keyFor := by
    unfold Index.keyFor
    rw [hdefn]
  have hlive₀ : ix₀.Live table := by
    unfold Index.Live at hlive ⊢
    rwa [hdefn] at hlive
  rw [hkeyFor]
  by_cases hname : table = name
  · subst hname
    have honly : ∀ v ∈ eng.deadRows table, ∀ w, eng.db.Stores table v.id w → w = v.values := by
      intro v hv w hw
      obtain ⟨⟨pos, hrow⟩, -⟩ := (Engine.mem_deadRows hok).1 hv
      exact hok.stores_unique hw ⟨pos, v, hrow, rfl⟩
    refine (Index.exact_removeRows hlive₀ (h ix₀ hix₀ table hlive₀) honly).congr fun id w => ?_
    unfold Database.Stores
    simp only [Engine.rowAt_vacuumTable hok, Option.filter_eq_some_iff, decide_eq_true_eq, true_and]
    constructor
    · rintro ⟨pos, v, ⟨hv, hdead⟩, hvalues⟩
      refine ⟨⟨pos, v, hv, hvalues⟩, fun u hu hid => ?_⟩
      obtain ⟨⟨pos', hrow⟩, hu⟩ := (Engine.mem_deadRows hok).1 hu
      rw [← hid] at hrow
      obtain rfl := congrArg Prod.snd (hok.unique _ _ _ _ _ hv hrow)
      rw [hv] at hrow
      cases hrow
      exact hdead hu
    · rintro ⟨⟨pos, v, hv, hvalues⟩, hne⟩
      refine ⟨pos, v, ⟨hv, fun hdead => ?_⟩, hvalues⟩
      have hid := hok.rowAt_id hv
      exact hne v ((Engine.mem_deadRows hok).2 ⟨⟨pos, hid ▸ hv⟩, hdead⟩) hid.symm
  · have hsame : ix₀.removeRows name (eng.deadRows name) = ix₀ :=
      Index.removeRows_of_not_live (fun hl => hname (hlive₀.1.symm.trans hl.1)) _
    rw [hsame]
    refine (h ix₀ hix₀ table hlive₀).congr fun id w => ?_
    unfold Database.Stores
    simp only [Engine.rowAt_vacuumTable hok, hname, false_and, not_false_iff, decide_true]
    refine exists_congr fun pos => exists_congr fun v => ?_
    cases eng.db.rowAt (table, pos) id <;> simp [Option.filter]

end Vacuum

/-! ## Index statements -/

section IndexStatements

variable {eng : Engine V K} {ctx : StmtCtx}

/-- Every table has one version. -/
def Database.OneVersion {V K : Type} (db : Database V K) : Prop :=
  ∀ name pos t, db.tableAt (name, pos) = some t → pos = 0

/-- A new index gets an entry for each version. -/
theorem Index.exact_build {rows : List (RowVersion V)} {ix : Index K} {items : RowId → List V → Prop}
    (h : Postings.Exact ix.keyFor items ix.tree) (hnodup : (rows.map RowVersion.id).Nodup)
    (hfresh : ∀ r ∈ rows, ∀ w, ¬items r.id w) :
    Postings.Exact ix.keyFor (fun id w => items id w ∨ ∃ r ∈ rows, r.id = id ∧ r.values = w) (ix.build rows).tree := by
  induction rows generalizing ix items with
  | nil => exact h.congr fun id w => by simp
  | cons r rows ih =>
      obtain ⟨hnot, hnodup⟩ := List.nodup_cons.1 hnodup
      have hstep := h.insert (v := r.values) (hfresh r List.mem_cons_self)
      have hrest := @ih (ix.insert (ix.keyFor r.values) r.id) _ hstep hnodup fun r' hr' w hw => by
        rcases hw with hw | ⟨heq, -⟩
        · exact hfresh r' (List.mem_cons_of_mem r hr') w hw
        · exact hnot (List.mem_map.2 ⟨r', hr', heq⟩)
      refine hrest.congr fun id w => ?_
      rw [List.exists_mem_cons_iff, or_assoc, eq_comm (a := id), eq_comm (a := w)]

theorem Index.defn_build (rows : List (RowVersion V)) (ix : Index K) : (ix.build rows).defn = ix.defn := by
  induction rows generalizing ix with
  | nil => rfl
  | cons r rows ih =>
      rw [show Index.build ix (r :: rows) = (ix.insert (ix.keyFor r.values) r.id).build rows from rfl, ih]
      rfl

theorem Index.exact_build_new {rows : List (RowVersion V)} (d : IndexDef) (hnodup : (rows.map RowVersion.id).Nodup) :
    Postings.Exact ((Index.new (K := K) d).build rows).keyFor (fun id w => ∃ r ∈ rows, r.id = id ∧ r.values = w)
      ((Index.new (K := K) d).build rows).tree := by
  have hempty : Postings.Exact (Index.new (K := K) d).keyFor (fun (_ : RowId) (_ : List V) => False)
      (Index.new (K := K) d).tree := Postings.exact_empty fun _ _ => id
  have hkeyFor : ((Index.new (K := K) d).build rows).keyFor (V := V) = (Index.new (K := K) d).keyFor := by
    unfold Index.keyFor
    rw [Index.defn_build]
  rw [hkeyFor]
  refine (Index.exact_build hempty hnodup fun r _ w => id).congr fun id w => ?_
  rw [false_or]

theorem Database.Indexed.onCreate (h : eng.db.Indexed) (hok : eng.db.RowsOk) (hone : eng.db.OneVersion)
    {d : IndexDef} {pos : Nat} {t : Table V} (ht : eng.db.tableAt (d.table, pos) = some t) :
    (createIndexOn eng ctx d t).eng.db.Indexed := by
  unfold createIndexOn
  extract_lets ix₀ ix
  split
  · exact h
  · intro ix' hix' table hlive
    rcases Dict.mem_values_insert hix' with rfl | hix'
    · have hdefn : ix.defn = d := by
        unfold ix
        split
        · exact Index.defn_build _ _
        · rfl
      have husable : d.plannerUsable = true := by
        have hu := hlive.2.2
        rwa [hdefn] at hu
      have hbuild : ix = ix₀.build t.rows := if_pos husable
      obtain rfl : d.table = table := by
        have htable := hlive.1
        rwa [hdefn] at htable
      rw [hbuild]
      refine (Index.exact_build_new d (hok.synced _ t ht).nodup).congr fun id w => ?_
      constructor
      · rintro ⟨p, v, hv, rfl⟩
        obtain ⟨t', ht', hrow⟩ := Database.rowAt_eq_some.1 hv
        obtain rfl := hone _ _ _ ht
        obtain rfl := hone _ _ _ ht'
        obtain rfl : t = t' := Option.some.inj (ht.symm.trans ht')
        exact ⟨v, ((hok.synced _ t ht).row?_eq_some.1 hrow).1, hok.rowAt_id hv, rfl⟩
      · rintro ⟨r, hr, rfl, rfl⟩
        exact ⟨pos, r, hok.rowAt_of_mem ht hr, rfl⟩
    · exact h ix' hix' table hlive

omit [DecidableEq K] in
theorem Database.Indexed.onDrop (h : eng.db.Indexed) (hown : ctx.own ≠ 0) (name : String) :
    (execDropOneIndex eng ctx name).eng.db.Indexed := by
  unfold execDropOneIndex
  split
  · exact h
  · intro ix hix table hlive
    rcases Dict.mem_values_update hix with ⟨ix₀, -, rfl⟩ | hix
    · exact absurd hlive.2.1 hown
    · exact h ix hix table hlive

omit [DecidableEq K] in
theorem Database.Indexed.onDrops (h : eng.db.Indexed) (hown : ctx.own ≠ 0) (names : List String) :
    (dropIndexes ctx eng names).eng.db.Indexed := by
  induction names generalizing eng with
  | nil => exact h
  | cons name names ih =>
      have hone := h.onDrop hown name
      unfold dropIndexes
      rcases hout : execDropOneIndex eng ctx name with ⟨eng', writes, error⟩
      rw [hout] at hone
      cases error with
      | some e => exact hone
      | none => exact ih hone

theorem IndexStmt.indexed (h : eng.db.Indexed) (hok : eng.db.RowsOk) (hone : eng.db.OneVersion) (hown : ctx.own ≠ 0)
    (stmt : IndexStmt) : (stmt.exec eng ctx).eng.db.Indexed := by
  cases stmt with
  | create name table columns unique nnd isPartial =>
      unfold IndexStmt.exec execCreateIndex
      dsimp only
      split
      · exact h
      · split
        · exact h
        · rename_i t ht
          obtain ⟨pos, -, htable⟩ := Database.findTable_eq_some.1 ht
          split
          · exact h
          · split
            · exact h
            · exact h.onCreate hok hone htable
  | drop names =>
      unfold IndexStmt.exec execDropIndex
      dsimp only
      split
      · exact h
      · exact h.onDrops hown names

end IndexStatements

/-! ## Row statements -/

section RowStatements

variable {eng : Engine V K} {ctx : StmtCtx}

theorem applyRowInserts_indexed (h : eng.db.Indexed) (hok : eng.db.RowsOk) (hids : eng.IdsBelow) {table : String}
    {pos : Nat} {t : Table V} (hpos : eng.db.visiblePos table ctx.snap ctx.allXids = some pos)
    (ht : eng.db.tableAt (table, pos) = some t) (rows : List (List V)) :
    (applyRowInserts (eng.allocRowIds rows.length).2 ctx table
      ((eng.allocRowIds rows.length).1.zip rows)).eng.db.Indexed := by
  set inserts := (eng.allocRowIds rows.length).1.zip rows with hinserts
  have hfst : inserts.map Prod.fst = List.range' eng.txns.nextRowId rows.length :=
    List.map_fst_zip (by simp [Engine.allocRowIds])
  have hids' : ∀ r ∈ inserts, eng.db.Unstored r.1 := by
    intro r hr
    have hmem := List.mem_map_of_mem (f := Prod.fst) hr
    rw [hfst, List.mem_range'_1] at hmem
    exact hids.fresh hmem.1
  have hdb : (applyRowInserts (eng.allocRowIds rows.length).2 ctx table inserts).eng.db
      = inserts.foldl (fun db r => db.pushRow (table, pos) ctx.writeXid r) eng.db := by
    rw [Database.foldl_pushRow]
    simp [applyRowInserts, Engine.indexRows, Engine.modifyTable, Engine.allocRowIds,
      Database.modifyTable_of_visiblePos hpos]
  rw [hdb]
  exact h.pushRows hok ht hids' (by rw [hfst]; exact List.nodup_range')

omit [DecidableEq K] in
theorem applyRowDeletes_indexed (h : eng.db.Indexed) (hok : eng.db.RowsOk) {table : String} {pos : Nat}
    (hpos : eng.db.visiblePos table ctx.snap ctx.allXids = some pos) {plan : List (RowVersion V)}
    (hplan : ∀ r ∈ plan, eng.db.rowAt (table, pos) r.id = some r) (hnodup : (plan.map RowVersion.id).Nodup) :
    (applyRowDeletes eng ctx table plan).eng.db.Indexed := by
  have hmark := h.markRows hok (x := ctx.writeXid) hplan hnodup
  unfold applyRowDeletes Engine.modifyTable
  rw [Database.modifyTable_of_visiblePos hpos]
  exact hmark

theorem applyRowUpdates_indexed (h : eng.db.Indexed) (hok : eng.db.RowsOk) (hids : eng.IdsBelow) {table : String}
    {pos : Nat} {t : Table V} (hpos : eng.db.visiblePos table ctx.snap ctx.allXids = some pos)
    (ht : eng.db.tableAt (table, pos) = some t) {plan : List (RowVersion V)}
    (hplan : ∀ r ∈ plan, eng.db.rowAt (table, pos) r.id = some r) (hnodup : (plan.map RowVersion.id).Nodup)
    {new : List (List V)} (hlen : new.length = plan.length) :
    (applyRowUpdates (eng.allocRowIds plan.length).2 ctx table
      (plan.zip ((eng.allocRowIds plan.length).1.zip new))).eng.db.Indexed := by
  obtain ⟨hpairs, hold, hnew, hids'⟩ := updatePairs_spec eng plan new hlen
  set pairs := plan.zip ((eng.allocRowIds plan.length).1.zip new)
  have hdb : (applyRowUpdates (eng.allocRowIds plan.length).2 ctx table pairs).eng.db
      = pairs.foldl (fun db r => db.replaceRow (table, pos) ctx.writeXid r) eng.db := by
    rw [Database.foldl_replaceRow]
    simp [applyRowUpdates, Engine.indexRows, Engine.modifyTable, Engine.allocRowIds,
      Database.modifyTable_of_visiblePos hpos]
  rw [hdb]
  refine h.replaceRows hok ht (fun r hr => hplan r.1 ?_) (by rw [hold]; exact hnodup)
    (fun r hr => hids.fresh (hids' r hr).1) (by rw [hnew]; exact List.nodup_range')
  rw [← hpairs]
  exact List.mem_map_of_mem hr

theorem execInsert_indexed (h : eng.db.Indexed) (hok : eng.db.RowsOk) (hids : eng.IdsBelow) (table : String)
    (rows : List (List V)) : (execInsert eng ctx table rows).eng.db.Indexed := by
  unfold execInsert
  split
  · exact h
  · rename_i t ht
    obtain ⟨pos, hpos, htable⟩ := Database.findTable_eq_some.1 ht
    split
    · exact h
    · split
      · exact h
      · exact applyRowInserts_indexed h hok hids hpos htable rows

omit [DecidableEq K] in
theorem execDelete_indexed (h : eng.db.Indexed) (hok : eng.db.RowsOk) (table : String) (where_ : List V → Bool) :
    (execDelete eng ctx table where_).eng.db.Indexed := by
  unfold execDelete
  split
  · exact h
  · rename_i t ht
    obtain ⟨pos, hpos, htable⟩ := Database.findTable_eq_some.1 ht
    split
    · exact h
    · rename_i plan hplan
      obtain ⟨hstored, hnodup⟩ := plan_stored hok htable hplan
      exact applyRowDeletes_indexed h hok hpos (fun r hr => (hstored r hr).1) hnodup

theorem execUpdate_indexed (h : eng.db.Indexed) (hok : eng.db.RowsOk) (hids : eng.IdsBelow) (table : String)
    (where_ : List V → Bool) (sets : SetList V) : (execUpdate eng ctx table where_ sets).eng.db.Indexed := by
  unfold execUpdate
  split
  · exact h
  · rename_i t ht
    obtain ⟨pos, hpos, htable⟩ := Database.findTable_eq_some.1 ht
    split
    · exact h
    · rename_i plan hplan
      obtain ⟨hstored, hnodup⟩ := plan_stored hok htable hplan
      extract_lets new checks
      cases checks with
      | error e => exact h
      | ok u =>
          exact applyRowUpdates_indexed h hok hids hpos htable (fun r hr => (hstored r hr).1) hnodup
            (List.length_map ..)

omit [DecidableEq K] in
theorem truncateTables_indexed (h : eng.db.Indexed) (hok : eng.db.RowsOk) (tables : List String) :
    (truncateTables ctx eng tables).eng.db.Indexed := by
  induction tables generalizing eng with
  | nil => exact h
  | cons table tables ih =>
      have hdoes : (execDelete eng ctx table fun _ => true).Does eng ctx.writeXid _ :=
        execDelete_does hok table fun _ => true
      have hindexed : (execDelete eng ctx table fun _ => true).eng.db.Indexed :=
        execDelete_indexed h hok table fun _ => true
      unfold truncateTables
      rcases hout : execDelete eng ctx table fun _ => true with ⟨eng', writes, error⟩
      rw [hout] at hdoes hindexed
      cases error with
      | some e => exact hindexed
      | none => exact ih hindexed hdoes.rowsOk

theorem RowStmt.indexed (h : eng.db.Indexed) (hok : eng.db.RowsOk) (hids : eng.IdsBelow) (stmt : RowStmt V) :
    (stmt.exec eng ctx).eng.db.Indexed := by
  cases stmt with
  | insert table rows => exact execInsert_indexed h hok hids table rows
  | update table where_ sets => exact execUpdate_indexed h hok hids table where_ sets
  | delete table where_ => exact execDelete_indexed h hok table where_
  | truncate tables =>
      unfold RowStmt.exec execTruncate
      dsimp only
      split
      · exact h
      · exact truncateTables_indexed h hok tables
  | select table =>
      unfold RowStmt.exec execSelect
      dsimp only
      split
      · exact h
      · exact h
  | selectForUpdate table where_ =>
      unfold RowStmt.exec execSelectForUpdate
      dsimp only
      split
      · exact h
      · rename_i t ht
        rw [(acquireRowLocks_spec eng ctx table _).2.1]
        exact h

end RowStatements

/-! ## The tables stay -/

namespace Database

variable {db db' db'' : Database V K}

/-- The same table versions, whatever they store. -/
def SameTables {V K : Type} (db db' : Database V K) : Prop := ∀ loc, (db'.tableAt loc).isSome = (db.tableAt loc).isSome

omit [DecidableEq K] [SqlValue V K] in
theorem SameTables.trans (h : db.SameTables db') (h' : db'.SameTables db'') : db.SameTables db'' :=
  fun loc => (h' loc).trans (h loc)

omit [DecidableEq K] [SqlValue V K] in
theorem sameTables_of_eq (h : ∀ loc, db'.tableAt loc = db.tableAt loc) : db.SameTables db' :=
  fun loc => congrArg Option.isSome (h loc)

omit [DecidableEq K] [SqlValue V K] in
theorem sameTables_modifyAt (loc : Loc) (f : Table V → Table V) : db.SameTables (db.modifyAt loc f) := by
  intro loc'
  rw [tableAt_modifyAt]
  split
  · rename_i heq
    rw [heq, Option.isSome_map]
  · rfl

omit [DecidableEq K] [SqlValue V K] in
theorem OneVersion.sameTables (h : db.OneVersion) (hsame : db.SameTables db') : db'.OneVersion := by
  intro name pos t ht
  have hsome := hsame (name, pos)
  rw [ht] at hsome
  obtain ⟨t₀, ht₀⟩ := Option.isSome_iff_exists.1 hsome.symm
  exact h name pos t₀ ht₀

omit [DecidableEq K] [SqlValue V K] in
theorem sameTables_modifyTable (name : String) (snap : Snapshot) (owns : List Xid) (f : Table V → Table V) :
    db.SameTables (db.modifyTable name snap owns f) := by
  unfold modifyTable
  split
  · exact sameTables_modifyAt _ f
  · exact sameTables_of_eq fun _ => rfl

omit [DecidableEq K] [SqlValue V K] in
theorem sameTables_undoDelete (owns : List Xid) (id : RowId) (prev : Xid) :
    db.SameTables (db.undoDelete owns id prev) := by
  unfold undoDelete setRowXmax
  split
  · split
    · split
      · exact sameTables_modifyAt _ _
      · exact sameTables_of_eq fun _ => rfl
    · exact sameTables_of_eq fun _ => rfl
  · exact sameTables_of_eq fun _ => rfl

theorem sameTables_undoInsert (hok : db.RowsOk) (owns : List Xid) (table : String) (id : RowId) :
    db.SameTables (db.undoInsert owns table id) := by
  by_cases hown : ∃ loc v, db.rowAt loc id = some v ∧ v.xmin ∈ owns
  · obtain ⟨loc, v, hv, hxmin⟩ := hown
    obtain ⟨t, pos, -, -, hremove⟩ := hok.removeOwnVersion_of_own hv hxmin
    unfold undoInsert
    rw [hremove]
    exact sameTables_modifyAt loc _
  · have hforeign : ∀ loc v, db.rowAt loc id = some v → v.xmin ∉ owns :=
      fun loc v hv hmem => hown ⟨loc, v, hv, hmem⟩
    unfold undoInsert
    rw [hok.removeOwnVersion_eq_none hforeign]
    exact sameTables_of_eq fun _ => rfl

theorem sameTables_undoWriteOp (hok : db.RowsOk) {op : WriteOp V K} (hkeeps : op.KeepsTables) (owns : List Xid) :
    db.SameTables (db.undoWriteOp owns op) := by
  cases op with
  | insertRow table id => exact sameTables_undoInsert hok owns table id
  | deleteRow table id prev => exact sameTables_undoDelete owns id prev
  | updateRow table oldId newId prev values =>
      exact (sameTables_undoInsert hok owns table newId).trans (sameTables_undoDelete owns oldId prev)
  | _ => exact sameTables_of_eq fun loc => tableAt_undoWriteOp hkeeps rfl rfl owns loc

end Database

section

variable {eng : Engine V K} {ctx : StmtCtx}

theorem Engine.sameTables_vacuumTable (name : String) : eng.db.SameTables (eng.vacuumTable name).db := by
  intro loc
  rw [Engine.tableAt_vacuumTable]
  split
  · rw [Option.isSome_map]
  · rfl

theorem sameTables_write (table : String) (f : Table V → Table V) (rows : List (RowId × List V)) :
    eng.db.SameTables ((eng.modifyTable ctx table f).indexRows table rows).db :=
  (Database.sameTables_modifyTable table ctx.snap ctx.allXids f).trans
    (Database.sameTables_of_eq fun loc => indexRows_tableAt table rows loc)

omit [DecidableEq K] [SqlValue V K] in
theorem execDelete_sameTables (table : String) (where_ : List V → Bool) :
    eng.db.SameTables (execDelete eng ctx table where_).eng.db := by
  unfold execDelete
  split
  · exact Database.sameTables_of_eq fun _ => rfl
  · split
    · exact Database.sameTables_of_eq fun _ => rfl
    · exact Database.sameTables_modifyTable table ctx.snap ctx.allXids _

omit [DecidableEq K] [SqlValue V K] in
theorem truncateTables_sameTables (tables : List String) :
    eng.db.SameTables (truncateTables ctx eng tables).eng.db := by
  induction tables generalizing eng with
  | nil => exact Database.sameTables_of_eq fun _ => rfl
  | cons table tables ih =>
      have hdelete : eng.db.SameTables (execDelete eng ctx table fun _ => true).eng.db :=
        execDelete_sameTables table fun _ => true
      unfold truncateTables
      rcases hout : execDelete eng ctx table fun _ => true with ⟨eng', writes, error⟩
      rw [hout] at hdelete
      cases error with
      | some e => exact hdelete
      | none => exact hdelete.trans ih

theorem RowStmt.sameTables (stmt : RowStmt V) : eng.db.SameTables (stmt.exec eng ctx).eng.db := by
  have hsame : eng.db.SameTables eng.db := Database.sameTables_of_eq fun _ => rfl
  have hwrite : ∀ (e : Engine V K) (table : String) (f : Table V → Table V) (rows : List (RowId × List V)),
      e.db.SameTables ((e.modifyTable ctx table f).indexRows table rows).db := fun _ table f rows =>
    sameTables_write table f rows
  cases stmt with
  | insert table rows =>
      unfold RowStmt.exec execInsert
      dsimp only
      split
      · exact hsame
      · split
        · exact hsame
        · split
          · exact hsame
          · exact hwrite (eng.allocRowIds rows.length).2 table _ _
  | update table where_ sets =>
      unfold RowStmt.exec execUpdate
      dsimp only
      split
      · exact hsame
      · split
        · exact hsame
        · split
          · exact hsame
          · exact hwrite (eng.allocRowIds _).2 table _ _
  | delete table where_ => exact execDelete_sameTables table where_
  | truncate tables =>
      unfold RowStmt.exec execTruncate
      dsimp only
      split
      · exact hsame
      · exact truncateTables_sameTables tables
  | select table =>
      unfold RowStmt.exec execSelect
      dsimp only
      split
      · exact hsame
      · exact hsame
  | selectForUpdate table where_ =>
      unfold RowStmt.exec execSelectForUpdate
      dsimp only
      split
      · exact hsame
      · rw [(acquireRowLocks_spec eng ctx table _).2.1]
        exact hsame

theorem IndexStmt.sameTables (stmt : IndexStmt) : eng.db.SameTables (stmt.exec eng ctx).eng.db := by
  have hsame : eng.db.SameTables eng.db := Database.sameTables_of_eq fun _ => rfl
  cases stmt with
  | create name table columns unique nnd isPartial =>
      unfold IndexStmt.exec execCreateIndex
      dsimp only
      split
      · exact hsame
      · split
        · exact hsame
        · split
          · exact hsame
          · split
            · exact hsame
            · unfold createIndexOn
              extract_lets ix₀ ix
              split
              · exact hsame
              · exact hsame
  | drop names =>
      unfold IndexStmt.exec execDropIndex
      dsimp only
      split
      · exact hsame
      · refine Database.sameTables_of_eq fun loc => ?_
        unfold Database.tableAt
        rw [(dropIndexes_spec eng ctx names).2.1]

end
