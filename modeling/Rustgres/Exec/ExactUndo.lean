-- SUMMARY: Undoing the row operations of a statement right away gives back the very same database.
import Rustgres.Exec.RowEffects

/-!
# Exact Undo

Undo takes changes back newest first. When nobody else has written in between, each pushed version
is still the last of its table and each index entry the last of its key, so that undo restores the
tables and the indexes as they were, down to the order of the versions.
-/

variable {V K : Type}

/-! ## Parts -/

theorem swapRemove_append_singleton {α : Type*} (l : List α) (a : α) :
    swapRemove (l ++ [a]) l.length = l := by
  simp [swapRemove]

/-- A pushed version is popped again. -/
theorem Table.swapRemoveVersion_pushVersion {t : Table V} {r : RowVersion V}
    (hfresh : t.rowIndex r.id = none) :
    (t.pushVersion r).swapRemoveVersion t.rows.length = t := by
  have hindex : Function.update t.rowIndex r.id none = t.rowIndex := by
    rw [← hfresh, Function.update_eq_self]
  simp [swapRemoveVersion, pushVersion, swapRemove_append_singleton, hindex]

/-- A mark is written over with what was there. -/
theorem Table.setXmax_setXmax {t : Table V} {r : RowVersion V} (hrow : t.row? r.id = some r)
    (x : Xid) : (t.setXmax r.id x).setXmax r.id r.xmax = t := by
  simp only [row?, Option.bind_eq_some_iff] at hrow
  obtain ⟨pos, hpos, hget⟩ := hrow
  have hrows : (t.rows.modify pos fun v => { v with xmax := x }).modify pos
      (fun v => { v with xmax := r.xmax }) = t.rows := by
    rw [List.modify_modify_eq]
    apply List.ext_getElem?
    intro i
    rw [List.getElem?_modify]
    by_cases hi : pos = i
    · subst hi
      simp [hget]
    · cases t.rows[i]? <;> simp [hi]
  simp only [setXmax, rowPos] at hpos ⊢
  simp only [hpos, hrows]

section Index

variable [DecidableEq K] [SqlValue V K]

omit [SqlValue V K] in
/-- A new entry is the last one of its key, and is removed again. -/
theorem Index.remove_insert {ix : Index K} {key : IndexKey K} {id : RowId}
    (hid : id ∉ ix.tree key) : (ix.insert key id).remove key id = ix := by
  have hfind : (ix.tree key ++ [id]).findIdx? (· = id) = some (ix.tree key).length := by
    rw [List.findIdx?_append]
    have hnone : (ix.tree key).findIdx? (· = id) = none := by
      rw [List.findIdx?_eq_none_iff]
      intro a ha
      simp only [decide_eq_false_iff_not]
      rintro rfl
      exact hid ha
    simp [hnone]
  simp [Index.remove, Index.insert, swapRemoveFirst, hfind, swapRemove_append_singleton]

namespace Database

variable {db : Database V K}

omit [DecidableEq K] [SqlValue V K] in
/-- No index has an entry of this id. -/
def Unindexed (db : Database V K) (id : RowId) : Prop :=
  ∀ ix ∈ db.indexes.values, ∀ key, id ∉ ix.tree key

theorem indexRemoveRow_indexInsertRow {id : RowId} (hid : db.Unindexed id) (table : String)
    (values : List V) : (db.indexInsertRow table id values).indexRemoveRow table id values = db := by
  have hindexes : ((db.indexInsertRow table id values).indexRemoveRow table id values).indexes
      = db.indexes := by
    simp only [indexRemoveRow, indexInsertRow, modifyLiveIndexes]
    rw [Dict.mapValues_mapValues]
    apply Dict.mapValues_eq_self
    intro e he
    have hentry : id ∉ e.2.tree (e.2.keyFor values) :=
      hid e.2 (List.mem_map_of_mem he) _
    by_cases hlive : e.2.Live table
    · have hlive' : (e.2.insert (e.2.keyFor values) id).Live table := hlive
      simp only [hlive, hlive', if_true]
      exact Index.remove_insert hentry
    · simp [hlive]
  calc (db.indexInsertRow table id values).indexRemoveRow table id values
      = { db with indexes :=
          ((db.indexInsertRow table id values).indexRemoveRow table id values).indexes } := rfl
    _ = db := by rw [hindexes]

theorem unindexed_indexInsertRow {id id' : RowId} (hid : db.Unindexed id) (hne : id ≠ id')
    (table : String) (values : List V) : (db.indexInsertRow table id' values).Unindexed id := by
  intro ix hix key hmem
  obtain ⟨e, he, rfl⟩ := List.mem_map.1 hix
  obtain ⟨e', he', rfl⟩ := List.mem_map.1 he
  have hentry := hid e'.2 (List.mem_map_of_mem he')
  by_cases hlive : e'.2.Live table
  · simp only [hlive, if_true, Index.insert, Function.update_apply] at hmem
    split at hmem
    · rcases List.mem_append.1 hmem with hmem | hmem
      · exact hentry _ hmem
      · exact hne (List.mem_singleton.1 hmem)
    · exact hentry key hmem
  · simp only [hlive, if_false] at hmem
    exact hentry key hmem

omit [DecidableEq K] [SqlValue V K] in
theorem modifyAt_eq_self {loc : Loc} {f : Table V → Table V}
    (h : ∀ t, db.tableAt loc = some t → f t = t) : db.modifyAt loc f = db := by
  have htables : db.tables.update loc.1 (·.modify loc.2 f) = db.tables := by
    unfold Dict.update
    apply Dict.mapValues_eq_self
    intro e he
    split
    · next hname =>
      have hlook : db.tables.lookup loc.1 = some e.2 := hname ▸ AList.mem_lookup_iff.2 he
      apply List.ext_getElem?
      intro i
      rw [List.getElem?_modify]
      split
      · next hi =>
        cases ht : e.2[i]? with
        | none => rfl
        | some t =>
          have hfix := h t (by simp [tableAt, hlook, hi, ht])
          simp [hfix]
      · simp
    · rfl
  unfold modifyAt
  rw [htables]

end Database

end Index

/-! ## One operation -/

section Step

variable [DecidableEq K] [SqlValue V K]

namespace Database

variable {db : Database V K} {loc : Loc} {x : Xid} {owns : List Xid}

/-- Push a version and enter it into the indexes. -/
def pushRow (db : Database V K) (loc : Loc) (x : Xid) (r : RowId × List V) : Database V K :=
  (db.modifyAt loc (·.pushVersion (.plain r.1 r.2 x))).indexInsertRow loc.1 r.1 r.2

/-- Mark the old version, push the new one and enter it into the indexes. -/
def replaceRow (db : Database V K) (loc : Loc) (x : Xid) (r : RowVersion V × RowId × List V) :
    Database V K :=
  (db.modifyAt loc (·.setXmax r.1.id x)).pushRow loc x r.2

/-- The id is stored nowhere and has no index entry. -/
structure Fresh (db : Database V K) (id : RowId) : Prop where
  unstored : ∀ loc, db.rowAt loc id = none
  unindexed : db.Unindexed id

theorem RowsOk.pushRow (h : db.RowsOk) {t : Table V} (ht : db.tableAt loc = some t)
    {r : RowId × List V} (hfresh : db.Fresh r.1) : (db.pushRow loc x r).RowsOk :=
  (h.push ht (r := .plain r.1 r.2 x) hfresh.unstored).congr fun _ => rfl

theorem RowsOk.rowAt_pushRow (h : db.RowsOk) {t : Table V} (ht : db.tableAt loc = some t)
    {r : RowId × List V} (hfresh : db.Fresh r.1) :
    (db.pushRow loc x r).rowAt = Heap.set db.rowAt loc (.plain r.1 r.2 x) :=
  h.rowAt_push ht (r := .plain r.1 r.2 x) hfresh.unstored

theorem Fresh.pushRow (h : db.RowsOk) {t : Table V} (ht : db.tableAt loc = some t)
    {r : RowId × List V} (hr : db.Fresh r.1) {id : RowId} (hid : db.Fresh id) (hne : id ≠ r.1) :
    (db.pushRow loc x r).Fresh id where
  unstored loc' := by
    rw [h.rowAt_pushRow ht hr]
    simp [Heap.set, hne, hid.unstored]
  unindexed := unindexed_indexInsertRow hid.unindexed hne _ _

theorem undoInsert_pushRow (h : db.RowsOk) {t : Table V} (ht : db.tableAt loc = some t)
    {r : RowId × List V} (hfresh : db.Fresh r.1) (hx : x ∈ owns) :
    (db.pushRow loc x r).undoInsert owns loc.1 r.1 = db := by
  have hrow : (db.pushRow loc x r).rowAt loc r.1 = some (.plain r.1 r.2 x) := by
    rw [h.rowAt_pushRow ht hfresh]
    simp [Heap.set]
  obtain ⟨t', pos, ht', hpos, hremove⟩ :=
    (h.pushRow ht hfresh).removeOwnVersion_of_own hrow (hx : x ∈ owns)
  have hnone : t.rowIndex r.1 = none := by
    have hunstored := hfresh.unstored loc
    rw [rowAt, ht, Option.bind_some] at hunstored
    have hsome : (t.rowPos r.1).isSome = (t.row? r.1).isSome := (h.synced _ t ht).rowPos_isSome
    rw [hunstored] at hsome
    exact Option.isNone_iff_eq_none.1 (by simpa [Table.rowPos] using hsome)
  obtain rfl : t' = t.pushVersion (.plain r.1 r.2 x) := by
    simp only [Database.pushRow, indexInsertRow, tableAt_modifyLiveIndexes, tableAt_modifyAt, ht,
      Option.map_some, if_true, Option.some.injEq] at ht'
    exact ht'.symm
  obtain rfl : pos = t.rows.length := by
    simpa [Table.rowPos, Table.pushVersion] using hpos.symm
  have hpop : (db.modifyAt loc (·.pushVersion (.plain r.1 r.2 x))).modifyAt loc
      (·.swapRemoveVersion t.rows.length) = db := by
    rw [modifyAt_modifyAt]
    apply modifyAt_eq_self
    intro t' ht'
    obtain rfl : t = t' := by simpa [ht] using ht'
    exact Table.swapRemoveVersion_pushVersion hnone
  simp only [undoInsert, hremove]
  calc (((db.modifyAt loc (·.pushVersion (.plain r.1 r.2 x))).indexInsertRow loc.1 r.1 r.2).modifyAt
          loc (·.swapRemoveVersion t.rows.length)).indexRemoveRow loc.1 r.1 r.2
      = (((db.modifyAt loc (·.pushVersion (.plain r.1 r.2 x))).modifyAt loc
          (·.swapRemoveVersion t.rows.length)).indexInsertRow loc.1 r.1 r.2).indexRemoveRow
            loc.1 r.1 r.2 := rfl
    _ = db := by rw [hpop, indexRemoveRow_indexInsertRow hfresh.unindexed]

omit [DecidableEq K] [SqlValue V K] in
theorem undoDelete_mark (h : db.RowsOk) {v : RowVersion V} (hv : db.rowAt loc v.id = some v)
    (hx : x ∈ owns) :
    (db.modifyAt loc (·.setXmax v.id x)).undoDelete owns v.id v.xmax = db := by
  have hmark := h.rowAt_mark hv x
  have hrow : (db.modifyAt loc (·.setXmax v.id x)).rowAt loc v.id = some { v with xmax := x } := by
    rw [hmark]
    simp [Heap.set]
  have hhome : (db.modifyAt loc (·.setXmax v.id x)).rowHome v.id = some loc := by
    rw [(h.mark hv x).rowHome_eq_some, hrow]
    rfl
  have hfind := (h.mark hv x).findRowVersion_eq_some.2 ⟨loc, hrow⟩
  simp only [undoDelete, hfind, hx, if_true, setRowXmax, hhome]
  rw [modifyAt_modifyAt]
  apply modifyAt_eq_self
  intro t ht
  exact Table.setXmax_setXmax (by simpa [rowAt, ht] using hv) x

/-! ## Batches -/

/-- Undo logged changes, newest first. -/
def undoWrites (db : Database V K) (owns : List Xid) (ops : List (WriteOp V K)) : Database V K :=
  ops.reverse.foldl (fun db op => db.undoWriteOp owns op) db

@[simp]
theorem undoWrites_nil (owns : List Xid) : db.undoWrites owns [] = db := rfl

theorem undoWrites_append (owns : List Xid) (ops ops' : List (WriteOp V K)) :
    db.undoWrites owns (ops ++ ops') = (db.undoWrites owns ops').undoWrites owns ops := by
  simp [undoWrites, List.foldl_append]

theorem undoWrites_cons (owns : List Xid) (op : WriteOp V K) (ops : List (WriteOp V K)) :
    db.undoWrites owns (op :: ops) = (db.undoWrites owns ops).undoWriteOp owns op := by
  simp [undoWrites, List.foldl_append]

/-- Every index entry has an id below `n`. -/
def EntriesBelow (db : Database V K) (n : RowId) : Prop :=
  ∀ ix ∈ db.indexes.values, ∀ key, ∀ id ∈ ix.tree key, id < n

omit [DecidableEq K] [SqlValue V K] in
theorem EntriesBelow.unindexed {n : RowId} (h : db.EntriesBelow n) {id : RowId} (hid : n ≤ id) :
    db.Unindexed id :=
  fun ix hix key hmem => absurd (h ix hix key id hmem) (Nat.not_lt.2 hid)

omit [DecidableEq K] [SqlValue V K] in
theorem EntriesBelow.mono {n n' : RowId} (h : db.EntriesBelow n) (hle : n ≤ n') :
    db.EntriesBelow n' :=
  fun ix hix key id hmem => (h ix hix key id hmem).trans_le hle

theorem EntriesBelow.pushRow {n : RowId} (h : db.EntriesBelow n) {r : RowId × List V}
    (hr : r.1 < n) : (db.pushRow loc x r).EntriesBelow n := by
  intro ix hix key id hmem
  by_cases hid : id = r.1
  · exact hid ▸ hr
  · by_contra hge
    have hunindexed := unindexed_indexInsertRow (h.unindexed (Nat.not_lt.1 hge)) hid loc.1 r.2
    exact hunindexed ix hix key hmem

theorem EntriesBelow.pushRows {n : RowId} (h : db.EntriesBelow n) {rows : List (RowId × List V)}
    (hrows : ∀ r ∈ rows, r.1 < n) :
    (rows.foldl (fun db r => db.pushRow loc x r) db).EntriesBelow n := by
  induction rows generalizing db with
  | nil => exact h
  | cons r rows ih => exact ih (h.pushRow (hrows r (.head _))) fun r' hr' => hrows r' (.tail _ hr')

theorem EntriesBelow.replaceRows {n : RowId} (h : db.EntriesBelow n)
    {rows : List (RowVersion V × RowId × List V)} (hrows : ∀ r ∈ rows, r.2.1 < n) :
    (rows.foldl (fun db r => db.replaceRow loc x r) db).EntriesBelow n := by
  induction rows generalizing db with
  | nil => exact h
  | cons r rows ih =>
    have hmark : (db.modifyAt loc (·.setXmax r.1.id x)).EntriesBelow n := h
    exact ih (hmark.pushRow (hrows r (.head _))) fun r' hr' => hrows r' (.tail _ hr')

/-- The rows of a batch are pushed before any of them is entered into the indexes. -/
theorem foldl_pushRow (rows : List (RowId × List V)) :
    rows.foldl (fun db r => db.pushRow loc x r) db
      = rows.foldl (fun db r => db.indexInsertRow loc.1 r.1 r.2)
          (db.modifyAt loc (·.pushRows x rows)) := by
  induction rows generalizing db with
  | nil => simp [Table.pushRows, modifyAt_id]
  | cons r rows ih =>
    rw [List.foldl_cons, ih, List.foldl_cons]
    congr 1
    have hsplit : (db.modifyAt loc (·.pushVersion (.plain r.1 r.2 x))).modifyAt loc
        (·.pushRows x rows) = _ := modifyAt_modifyAt ..
    calc (db.pushRow loc x r).modifyAt loc (·.pushRows x rows)
        = ((db.modifyAt loc (·.pushVersion (.plain r.1 r.2 x))).modifyAt loc
            (·.pushRows x rows)).indexInsertRow loc.1 r.1 r.2 := rfl
      _ = _ := by rw [hsplit]; rfl

theorem foldl_replaceRow (rows : List (RowVersion V × RowId × List V)) :
    rows.foldl (fun db r => db.replaceRow loc x r) db
      = (rows.map Prod.snd).foldl (fun db r => db.indexInsertRow loc.1 r.1 r.2)
          (db.modifyAt loc (·.replaceRows x rows)) := by
  induction rows generalizing db with
  | nil => simp [Table.replaceRows, modifyAt_id]
  | cons r rows ih =>
    rw [List.foldl_cons, ih, List.map_cons, List.foldl_cons]
    congr 1
    have hmark : (db.modifyAt loc (·.setXmax r.1.id x)).modifyAt loc
        (·.pushVersion (.plain r.2.1 r.2.2 x)) = _ := modifyAt_modifyAt ..
    have hsplit : (db.modifyAt loc ((·.pushVersion (.plain r.2.1 r.2.2 x)) ∘
        (·.setXmax r.1.id x))).modifyAt loc (·.replaceRows x rows) = _ := modifyAt_modifyAt ..
    calc (db.replaceRow loc x r).modifyAt loc (·.replaceRows x rows)
        = (((db.modifyAt loc (·.setXmax r.1.id x)).modifyAt loc
            (·.pushVersion (.plain r.2.1 r.2.2 x))).modifyAt loc
              (·.replaceRows x rows)).indexInsertRow loc.1 r.2.1 r.2.2 := rfl
      _ = _ := by rw [hmark, hsplit]; rfl

theorem undoWrites_pushRows (h : db.RowsOk) {t : Table V} (ht : db.tableAt loc = some t)
    {rows : List (RowId × List V)} (hfresh : ∀ r ∈ rows, db.Fresh r.1)
    (hnodup : (rows.map Prod.fst).Nodup) (hx : x ∈ owns) :
    (rows.foldl (fun db r => db.pushRow loc x r) db).undoWrites owns
      (rows.map fun r => .insertRow loc.1 r.1) = db := by
  induction rows generalizing db t with
  | nil => rfl
  | cons r rows ih =>
    have hr := hfresh r (.head _)
    simp only [List.map_cons, List.nodup_cons, List.mem_map, not_exists, not_and] at hnodup
    have htable : (db.pushRow loc x r).tableAt loc = some (t.pushVersion (.plain r.1 r.2 x)) := by
      simp [pushRow, indexInsertRow, tableAt_modifyAt, ht]
    have hrest := ih (h.pushRow ht hr) htable
      (fun r' hr' => .pushRow h ht hr (hfresh r' (.tail _ hr')) fun heq =>
        hnodup.1 r' hr' heq) hnodup.2
    rw [List.foldl_cons, List.map_cons, undoWrites_cons, hrest]
    exact undoInsert_pushRow h ht hr hx

omit [DecidableEq K] [SqlValue V K] in
theorem Fresh.mark (h : db.RowsOk) {v : RowVersion V} (hv : db.rowAt loc v.id = some v)
    {id : RowId} (hid : db.Fresh id) : (db.modifyAt loc (·.setXmax v.id x)).Fresh id where
  unstored loc' := by
    have hne : id ≠ v.id := by
      rintro rfl
      simp [hid.unstored loc] at hv
    rw [h.rowAt_mark hv]
    simp [Heap.set, hne, hid.unstored]
  unindexed := hid.unindexed

theorem undoWrites_markRows (h : db.RowsOk) {rows : List (RowVersion V)}
    (hrows : ∀ r ∈ rows, db.rowAt loc r.id = some r) (hnodup : (rows.map RowVersion.id).Nodup)
    (hx : x ∈ owns) :
    (db.modifyAt loc (·.markRows x rows)).undoWrites owns
      (rows.map fun r => .deleteRow loc.1 r.id r.xmax) = db := by
  induction rows generalizing db with
  | nil => simp [Table.markRows, modifyAt_id]
  | cons r rows ih =>
    have hr := hrows r (.head _)
    simp only [List.map_cons, List.nodup_cons, List.mem_map, not_exists, not_and] at hnodup
    have hrest := ih (h.mark hr x) (fun r' hr' => by
      have hne : r'.id ≠ r.id := fun heq => hnodup.1 r' hr' heq
      rw [h.rowAt_mark hr]
      simpa [Heap.set, hne] using hrows r' (.tail _ hr')) hnodup.2
    rw [modifyAt_modifyAt] at hrest
    rw [List.map_cons, undoWrites_cons]
    change Database.undoWriteOp (Database.undoWrites (db.modifyAt loc
      ((·.markRows x rows) ∘ (·.setXmax r.id x))) owns _) owns _ = db
    rw [hrest]
    exact undoDelete_mark h hr hx

theorem undoWrites_replaceRows (h : db.RowsOk) {t : Table V} (ht : db.tableAt loc = some t)
    {rows : List (RowVersion V × RowId × List V)}
    (hrows : ∀ r ∈ rows, db.rowAt loc r.1.id = some r.1)
    (hnodup : (rows.map fun r => r.1.id).Nodup) (hfresh : ∀ r ∈ rows, db.Fresh r.2.1)
    (hnew : (rows.map fun r => r.2.1).Nodup) (hx : x ∈ owns) :
    (rows.foldl (fun db r => db.replaceRow loc x r) db).undoWrites owns
      (rows.map fun r => .updateRow loc.1 r.1.id r.2.1 r.1.xmax r.1.values) = db := by
  induction rows generalizing db t with
  | nil => rfl
  | cons r rows ih =>
    have hr := hrows r (.head _)
    have hid := hfresh r (.head _)
    simp only [List.map_cons, List.nodup_cons, List.mem_map, not_exists, not_and] at hnodup hnew
    have hmark := h.mark hr x
    have htable : (db.modifyAt loc (·.setXmax r.1.id x)).tableAt loc
        = some (t.setXmax r.1.id x) := by
      simp [tableAt_modifyAt, ht]
    have hid' : (db.modifyAt loc (·.setXmax r.1.id x)).Fresh r.2.1 := .mark h hr hid
    have htable' : (db.replaceRow loc x r).tableAt loc
        = some ((t.setXmax r.1.id x).pushVersion (.plain r.2.1 r.2.2 x)) := by
      simp [replaceRow, pushRow, indexInsertRow, tableAt_modifyAt, ht]
    have hok : (db.replaceRow loc x r).RowsOk := hmark.pushRow htable hid'
    have hrest := ih hok htable'
      (fun r' hr' => by
        have hold := hrows r' (.tail _ hr')
        have hne : r'.1.id ≠ r.1.id := fun heq => hnodup.1 r' hr' heq
        have hne' : r'.1.id ≠ r.2.1 := by
          intro heq
          simp [heq, hid.unstored loc] at hold
        rw [replaceRow, hmark.rowAt_pushRow htable hid', h.rowAt_mark hr]
        simp [Heap.set, hne, hne', hold])
      hnodup.2
      (fun r' hr' => .pushRow hmark htable hid' (.mark h hr (hfresh r' (.tail _ hr')))
        fun heq => hnew.1 r' hr' heq)
      hnew.2
    rw [List.foldl_cons, List.map_cons, undoWrites_cons, hrest]
    calc (((db.modifyAt loc (·.setXmax r.1.id x)).pushRow loc x r.2).undoInsert owns loc.1
            r.2.1).undoDelete owns r.1.id r.1.xmax
        = (db.modifyAt loc (·.setXmax r.1.id x)).undoDelete owns r.1.id r.1.xmax := by
          rw [undoInsert_pushRow hmark htable hid' hx]
      _ = db := undoDelete_mark h hr hx

end Database

end Step

/-! ## Statements -/

section Statements

variable [DecidableEq K] [SqlValue V K] {eng : Engine V K} {ctx : StmtCtx}

theorem Engine.undoAll_db (owns : List Xid) (ops : List (WriteOp V K)) :
    (eng.undoAll owns ops).db = eng.db.undoWrites owns ops := by
  unfold undoAll Database.undoWrites
  generalize ops.reverse = rev
  induction rev generalizing eng with
  | nil => rfl
  | cons op rev ih => exact ih

/-- Every stored id and every index entry has been handed out. -/
structure Engine.Ok (eng : Engine V K) : Prop where
  rowsOk : eng.db.RowsOk
  idsBelow : eng.IdsBelow
  entriesBelow : eng.db.EntriesBelow eng.txns.nextRowId

omit [DecidableEq K] [SqlValue V K] in
theorem Engine.Ok.fresh (h : eng.Ok) {id : RowId} (hid : eng.txns.nextRowId ≤ id) :
    eng.db.Fresh id :=
  ⟨h.idsBelow.fresh hid, h.entriesBelow.unindexed hid⟩

/-- The log of the outcome is row operations, and undoing it gives back the database. -/
structure ExecOut.Undone (out : ExecOut V K) (eng : Engine V K) (x : Xid) : Prop where
  undoWrites : ∀ owns, x ∈ owns → out.eng.db.undoWrites owns out.writes = eng.db
  entriesBelow : out.eng.db.EntriesBelow out.eng.txns.nextRowId
  rowOps : ∀ op ∈ out.writes, ¬ op.IsIndexOp

namespace ExecOut.Undone

variable {x : Xid} {out out' : ExecOut V K}

theorem of_silent (h : eng.Ok) (hwrites : out.writes = []) (hdb : out.eng.db = eng.db)
    (htxns : eng.txns.Extends out.eng.txns) : out.Undone eng x where
  undoWrites owns _ := by rw [hwrites, hdb, Database.undoWrites_nil]
  entriesBelow := hdb ▸ h.entriesBelow.mono htxns.nextRowId
  rowOps := by simp [hwrites]

theorem fail (h : eng.Ok) (e : ExecError) : (ExecOut.fail eng e).Undone eng x :=
  of_silent h rfl rfl (.refl _)

theorem andThen (h : out.Undone eng x) (h' : out'.Undone out.eng x) {error : Option ExecError} :
    ExecOut.Undone ⟨out'.eng, out.writes ++ out'.writes, error⟩ eng x where
  undoWrites owns hx := by
    rw [Database.undoWrites_append, h'.undoWrites owns hx, h.undoWrites owns hx]
  entriesBelow := h'.entriesBelow
  rowOps op hop := by
    rcases List.mem_append.1 hop with hop | hop
    · exact h.rowOps op hop
    · exact h'.rowOps op hop

end ExecOut.Undone

theorem applyRowInserts_undone (h : eng.Ok) {table : String} {pos : Nat} {t : Table V}
    (hpos : eng.db.visiblePos table ctx.snap ctx.allXids = some pos)
    (ht : eng.db.tableAt (table, pos) = some t) (rows : List (List V)) :
    (applyRowInserts (eng.allocRowIds rows.length).2 ctx table
      ((eng.allocRowIds rows.length).1.zip rows)).Undone eng ctx.writeXid := by
  set inserts := (eng.allocRowIds rows.length).1.zip rows with hinserts
  have hfst : inserts.map Prod.fst = List.range' eng.txns.nextRowId rows.length :=
    List.map_fst_zip (by simp [Engine.allocRowIds])
  have hids : ∀ r ∈ inserts,
      eng.txns.nextRowId ≤ r.1 ∧ r.1 < eng.txns.nextRowId + rows.length := by
    intro r hr
    have hmem := List.mem_map_of_mem (f := Prod.fst) hr
    rw [hfst] at hmem
    simpa using hmem
  have hdb : (applyRowInserts (eng.allocRowIds rows.length).2 ctx table inserts).eng.db
      = inserts.foldl (fun db r => db.pushRow (table, pos) ctx.writeXid r) eng.db := by
    rw [Database.foldl_pushRow]
    simp [applyRowInserts, Engine.indexRows, Engine.modifyTable, Engine.allocRowIds,
      Database.modifyTable_of_visiblePos hpos]
  constructor
  · intro owns hx
    rw [hdb]
    exact Database.undoWrites_pushRows h.rowsOk ht (fun r hr => h.fresh (hids r hr).1)
      (by rw [hfst]; exact List.nodup_range') hx
  · rw [hdb]
    have hbelow : eng.db.EntriesBelow (eng.txns.nextRowId + rows.length) :=
      h.entriesBelow.mono (Nat.le_add_right _ _)
    exact hbelow.pushRows fun r hr => (hids r hr).2
  · intro op hop
    obtain ⟨r, -, rfl⟩ := List.mem_map.1 hop
    exact id

omit [DecidableEq K] [SqlValue V K] in
theorem applyRowDeletes_entries (table : String) (plan : List (RowVersion V)) :
    (applyRowDeletes eng ctx table plan).eng.db.indexes = eng.db.indexes := by
  simp only [applyRowDeletes, Engine.modifyTable, Database.modifyTable]
  split <;> rfl

theorem applyRowDeletes_undone (h : eng.Ok) {table : String} {pos : Nat}
    (hpos : eng.db.visiblePos table ctx.snap ctx.allXids = some pos) {plan : List (RowVersion V)}
    (hplan : ∀ r ∈ plan, eng.db.rowAt (table, pos) r.id = some r)
    (hnodup : (plan.map RowVersion.id).Nodup) :
    (applyRowDeletes eng ctx table plan).Undone eng ctx.writeXid where
  undoWrites owns hx := by
    have hundo := Database.undoWrites_markRows h.rowsOk hplan hnodup hx
    simpa [applyRowDeletes, Engine.modifyTable, Database.modifyTable_of_visiblePos hpos] using hundo
  entriesBelow := by
    unfold Database.EntriesBelow
    rw [applyRowDeletes_entries]
    exact h.entriesBelow
  rowOps op hop := by
    obtain ⟨r, -, rfl⟩ := List.mem_map.1 hop
    exact id

theorem applyRowUpdates_undone (h : eng.Ok) {table : String} {pos : Nat} {t : Table V}
    (hpos : eng.db.visiblePos table ctx.snap ctx.allXids = some pos)
    (ht : eng.db.tableAt (table, pos) = some t) {plan : List (RowVersion V)}
    (hplan : ∀ r ∈ plan, eng.db.rowAt (table, pos) r.id = some r)
    (hnodup : (plan.map RowVersion.id).Nodup) {new : List (List V)}
    (hlen : new.length = plan.length) :
    (applyRowUpdates (eng.allocRowIds plan.length).2 ctx table
      (plan.zip ((eng.allocRowIds plan.length).1.zip new))).Undone eng ctx.writeXid := by
  obtain ⟨hpairs, hold, hnew, hids⟩ := updatePairs_spec eng plan new hlen
  set pairs := plan.zip ((eng.allocRowIds plan.length).1.zip new)
  have hdb : (applyRowUpdates (eng.allocRowIds plan.length).2 ctx table pairs).eng.db
      = pairs.foldl (fun db r => db.replaceRow (table, pos) ctx.writeXid r) eng.db := by
    rw [Database.foldl_replaceRow]
    simp [applyRowUpdates, Engine.indexRows, Engine.modifyTable, Engine.allocRowIds,
      Database.modifyTable_of_visiblePos hpos]
  constructor
  · intro owns hx
    rw [hdb]
    exact Database.undoWrites_replaceRows h.rowsOk ht
      (fun r hr => hplan r.1 (by rw [← hpairs]; exact List.mem_map_of_mem hr))
      (by rw [hold]; exact hnodup) (fun r hr => h.fresh (hids r hr).1)
      (by rw [hnew]; exact List.nodup_range') hx
  · rw [hdb]
    have hbelow : eng.db.EntriesBelow (eng.txns.nextRowId + plan.length) :=
      h.entriesBelow.mono (Nat.le_add_right _ _)
    exact hbelow.replaceRows fun r hr => (hids r hr).2
  · intro op hop
    obtain ⟨r, -, rfl⟩ := List.mem_map.1 hop
    exact id

/-- What holds of the engine holds after a statement. -/
theorem ExecOut.Does.ok {out : ExecOut V K} {x : Xid} {P : RowVersion V → Prop} (h : eng.Ok)
    (hdoes : out.Does eng x P) (hundone : out.Undone eng x) : out.eng.Ok :=
  ⟨hdoes.rowsOk, hdoes.idsBelow h.rowsOk h.idsBelow, hundone.entriesBelow⟩

theorem execInsert_undone (h : eng.Ok) (table : String) (rows : List (List V)) :
    (execInsert eng ctx table rows).Undone eng ctx.writeXid := by
  unfold execInsert
  split
  · exact .fail h _
  · next t ht =>
    obtain ⟨pos, hpos, htable⟩ := Database.findTable_eq_some.1 ht
    split
    · exact .fail h _
    · split
      · exact .fail h _
      · exact applyRowInserts_undone h hpos htable rows

theorem execDelete_undone (h : eng.Ok) (table : String) (where_ : List V → Bool) :
    (execDelete eng ctx table where_).Undone eng ctx.writeXid := by
  unfold execDelete
  split
  · exact .fail h _
  · next t ht =>
    obtain ⟨pos, hpos, htable⟩ := Database.findTable_eq_some.1 ht
    split
    · exact .fail h _
    · next plan hplan =>
      obtain ⟨hstored, hnodup⟩ := plan_stored h.rowsOk htable hplan
      exact applyRowDeletes_undone h hpos (fun r hr => (hstored r hr).1) hnodup

theorem execUpdate_undone (h : eng.Ok) (table : String) (where_ : List V → Bool)
    (sets : SetList V) : (execUpdate eng ctx table where_ sets).Undone eng ctx.writeXid := by
  unfold execUpdate
  split
  · exact .fail h _
  · next t ht =>
    obtain ⟨pos, hpos, htable⟩ := Database.findTable_eq_some.1 ht
    split
    · exact .fail h _
    · next plan hplan =>
      obtain ⟨hstored, hnodup⟩ := plan_stored h.rowsOk htable hplan
      extract_lets new checks
      cases checks with
      | error e => exact .fail h e
      | ok u =>
        exact applyRowUpdates_undone h hpos htable (fun r hr => (hstored r hr).1) hnodup
          (List.length_map ..)

theorem truncateTables_undone (h : eng.Ok) (tables : List String) :
    (truncateTables ctx eng tables).Undone eng ctx.writeXid := by
  induction tables generalizing eng with
  | nil => exact .of_silent h rfl rfl (.refl _)
  | cons table tables ih =>
    have hdoes : (execDelete eng ctx table fun _ => true).Does eng ctx.writeXid _ :=
      execDelete_does h.rowsOk table fun _ => true
    have hundone : (execDelete eng ctx table fun _ => true).Undone eng ctx.writeXid :=
      execDelete_undone h table fun _ => true
    unfold truncateTables
    rcases hout : execDelete eng ctx table fun _ => true with ⟨eng', writes, error⟩
    rw [hout] at hdoes hundone
    cases error with
    | some e => exact hundone
    | none => exact hundone.andThen (ih (hdoes.ok h hundone))

/-- A row statement is undone by undoing its log. -/
theorem RowStmt.exec_undone (h : eng.Ok) (stmt : RowStmt V) :
    (stmt.exec eng ctx).Undone eng ctx.writeXid := by
  cases stmt with
  | insert table rows => exact execInsert_undone h table rows
  | update table where_ sets => exact execUpdate_undone h table where_ sets
  | delete table where_ => exact execDelete_undone h table where_
  | truncate tables =>
    simp only [RowStmt.exec, execTruncate]
    split
    · exact .fail h _
    · exact truncateTables_undone h tables
  | select table =>
    simp only [RowStmt.exec, execSelect]
    split
    · exact .fail h _
    · exact .of_silent h rfl rfl (.refl _)
  | selectForUpdate table where_ =>
    simp only [RowStmt.exec, execSelectForUpdate]
    split
    · exact .fail h _
    · next t ht =>
      obtain ⟨hwrites, hdb, htxns, -⟩ := acquireRowLocks_spec eng ctx table
        (((visibleRows ctx t).filter fun r => where_ r.values).map RowVersion.id)
      exact .of_silent h hwrites hdb htxns

end Statements
