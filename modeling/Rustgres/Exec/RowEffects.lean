-- SUMMARY: Every statement changes the heap by exactly the operations that it logs.
import Rustgres.Exec.Dml
import Rustgres.Exec.IndexDdl
import Rustgres.Storage.Effects

/-!
# What Statements Do to the Heap

A statement applies its changes in batches, and to the indexes as well. On the heap the outcome is
that of the logged operations, one after the other, all stamped with the writing id.
-/

variable {V K : Type}

namespace Database

variable {db : Database V K} {P : RowVersion V → Prop}

theorem RowsOk.pushRows (h : db.RowsOk) {loc : Loc} {t : Table V} (ht : db.tableAt loc = some t)
    (x : Xid) {rows : List (RowId × List V)}
    (hfresh : ∀ r ∈ rows, ∀ loc, db.rowAt loc r.1 = none)
    (hnodup : (rows.map Prod.fst).Nodup) :
    (db.modifyAt loc (·.pushRows x rows)).RowsOk ∧
      WriteOp.Effects (K := K) x P db.rowAt (rows.map fun r => .insertRow loc.1 r.1)
        (db.modifyAt loc (·.pushRows x rows)).rowAt := by
  induction rows generalizing db t with
  | nil => exact ⟨by simpa [Table.pushRows, modifyAt_id] using h,
      by simpa [Table.pushRows, modifyAt_id] using .nil⟩
  | cons r rows ih =>
    obtain ⟨id, values⟩ := r
    have hid : ∀ loc, db.rowAt loc (RowVersion.plain id values x).id = none := hfresh _ (.head _)
    have hrow := h.rowAt_push ht hid
    have htable : (db.modifyAt loc (·.pushVersion (.plain id values x))).tableAt loc
        = some (t.pushVersion (.plain id values x)) := by
      simp [tableAt_modifyAt, ht]
    simp only [List.map_cons, List.nodup_cons, List.mem_map, not_exists, not_and] at hnodup
    have hrest := ih (h.push ht hid) htable
      (fun r hr loc' => by
        have hne : r.1 ≠ id := hnodup.1 r hr
        rw [hrow]
        simp [Heap.set, hne, hfresh r (.tail _ hr) loc'])
      hnodup.2
    rw [modifyAt_modifyAt] at hrest
    refine ⟨hrest.1, .cons ?_ hrest.2⟩
    rw [hrow]
    exact .insertRow hid

theorem RowsOk.markRows (h : db.RowsOk) (loc : Loc) (x : Xid) {rows : List (RowVersion V)}
    (hrows : ∀ r ∈ rows, db.rowAt loc r.id = some r ∧ P r)
    (hnodup : (rows.map RowVersion.id).Nodup) :
    (db.modifyAt loc (·.markRows x rows)).RowsOk ∧
      WriteOp.Effects (K := K) x P db.rowAt (rows.map fun r => .deleteRow loc.1 r.id r.xmax)
        (db.modifyAt loc (·.markRows x rows)).rowAt := by
  induction rows generalizing db with
  | nil => exact ⟨by simpa [Table.markRows, modifyAt_id] using h,
      by simpa [Table.markRows, modifyAt_id] using .nil⟩
  | cons r rows ih =>
    obtain ⟨hr, hP⟩ := hrows r (.head _)
    have hrow := h.rowAt_mark hr x
    simp only [List.map_cons, List.nodup_cons, List.mem_map, not_exists, not_and] at hnodup
    have hrest := ih (h.mark hr x)
      (fun r' hr' => by
        have hne : r'.id ≠ r.id := hnodup.1 r' hr'
        rw [hrow]
        simpa [Heap.set, hne] using hrows r' (.tail _ hr'))
      hnodup.2
    rw [modifyAt_modifyAt] at hrest
    refine ⟨hrest.1, .cons ?_ hrest.2⟩
    rw [hrow]
    exact .deleteRow hr hP

theorem RowsOk.replaceRows (h : db.RowsOk) {loc : Loc} {t : Table V} (ht : db.tableAt loc = some t)
    (x : Xid) {rows : List (RowVersion V × RowId × List V)}
    (hrows : ∀ r ∈ rows, db.rowAt loc r.1.id = some r.1 ∧ P r.1)
    (hnodup : (rows.map fun r => r.1.id).Nodup)
    (hfresh : ∀ r ∈ rows, ∀ loc, db.rowAt loc r.2.1 = none)
    (hnew : (rows.map fun r => r.2.1).Nodup) :
    (db.modifyAt loc (·.replaceRows x rows)).RowsOk ∧
      WriteOp.Effects (K := K) x P db.rowAt
        (rows.map fun r => .updateRow loc.1 r.1.id r.2.1 r.1.xmax r.1.values)
        (db.modifyAt loc (·.replaceRows x rows)).rowAt := by
  induction rows generalizing db t with
  | nil => exact ⟨by simpa [Table.replaceRows, modifyAt_id] using h,
      by simpa [Table.replaceRows, modifyAt_id] using .nil⟩
  | cons r rows ih =>
    obtain ⟨old, id, values⟩ := r
    obtain ⟨hold, hP⟩ := hrows _ (.head _)
    have hid : ∀ loc, db.rowAt loc id = none := hfresh _ (.head _)
    have hmark := h.rowAt_mark hold x
    have htable : (db.modifyAt loc (·.setXmax old.id x)).tableAt loc = some (t.setXmax old.id x) := by
      simp [tableAt_modifyAt, ht]
    have hid' : ∀ loc', (db.modifyAt loc (·.setXmax old.id x)).rowAt loc'
        (RowVersion.plain id values x).id = none := by
      intro loc'
      have hne : id ≠ old.id := by
        rintro rfl
        simp [hid loc] at hold
      rw [hmark]
      simp [Heap.set, hne, hid loc']
    have hrow := (h.mark hold x).rowAt_push htable hid'
    rw [hmark] at hrow
    have hok := (h.mark hold x).push htable hid'
    have htable' : ((db.modifyAt loc (·.setXmax old.id x)).modifyAt loc
        (·.pushVersion (.plain id values x))).tableAt loc
          = some ((t.setXmax old.id x).pushVersion (.plain id values x)) := by
      simp [tableAt_modifyAt, ht]
    simp only [List.map_cons, List.nodup_cons, List.mem_map, not_exists, not_and] at hnodup hnew
    have hrest := ih hok htable'
      (fun r hr => by
        have hne : r.1.id ≠ old.id := hnodup.1 r hr
        obtain ⟨hv, hP⟩ := hrows r (.tail _ hr)
        have hne' : r.1.id ≠ id := by
          intro heq
          simp [heq, hid loc] at hv
        rw [hrow]
        exact ⟨by simp [Heap.set, hne, hne', hv], hP⟩)
      hnodup.2
      (fun r hr loc' => by
        have hne : r.2.1 ≠ id := hnew.1 r hr
        have hnone := hfresh r (.tail _ hr)
        have hne' : r.2.1 ≠ old.id := by
          intro heq
          simp [← heq, hnone loc] at hold
        rw [hrow]
        simp [Heap.set, hne, hne', hnone loc'])
      hnew.2
    rw [modifyAt_modifyAt, modifyAt_modifyAt] at hrest
    refine ⟨hrest.1, .cons ?_ hrest.2⟩
    rw [hrow]
    exact .updateRow hold hP hid

end Database

/-! ## The outcome of a statement -/

/-- The shared state after a statement: the ids stay, row ids and locks may have been taken. -/
structure TxnManager.Extends (m m' : TxnManager) : Prop where
  nextXid : m'.nextXid = m.nextXid
  active : m'.active = m.active
  snapshots : m'.snapshots = m.snapshots
  nextRowId : m.nextRowId ≤ m'.nextRowId

theorem TxnManager.Extends.refl (m : TxnManager) : m.Extends m := ⟨rfl, rfl, rfl, le_rfl⟩

theorem TxnManager.Extends.trans {m m' m'' : TxnManager} (h : m.Extends m') (h' : m'.Extends m'') :
    m.Extends m'' :=
  ⟨h'.nextXid.trans h.nextXid, h'.active.trans h.active, h'.snapshots.trans h.snapshots,
    h.nextRowId.trans h'.nextRowId⟩

/-- The outcome changed the engine by the operations it logs, on versions that satisfy `P`. -/
structure ExecOut.Does (out : ExecOut V K) (eng : Engine V K) (x : Xid) (P : RowVersion V → Prop) :
    Prop where
  rowsOk : out.eng.db.RowsOk
  effects : WriteOp.Effects x P eng.db.rowAt out.writes out.eng.db.rowAt
  fresh : ∀ op ∈ out.writes, ∀ id ∈ op.inserted,
    eng.txns.nextRowId ≤ id ∧ id < out.eng.txns.nextRowId
  txns : eng.txns.Extends out.eng.txns
  seqAdvanced : out.eng.seqAdvanced = eng.seqAdvanced

/-- Every stored id has been handed out. -/
def Engine.IdsBelow (eng : Engine V K) : Prop :=
  ∀ loc id r, eng.db.rowAt loc id = some r → id < eng.txns.nextRowId

theorem Engine.IdsBelow.fresh {eng : Engine V K} (h : eng.IdsBelow) {id : RowId}
    (hid : eng.txns.nextRowId ≤ id) (loc : Loc) : eng.db.rowAt loc id = none := by
  cases hr : eng.db.rowAt loc id with
  | none => rfl
  | some r => exact absurd (h loc id r hr) (Nat.not_lt.2 hid)

namespace ExecOut.Does

variable {eng : Engine V K} {x : Xid} {P Q : RowVersion V → Prop} {out : ExecOut V K}

/-- Nothing is logged and no table changes. -/
theorem of_silent (h : eng.db.RowsOk) (hwrites : out.writes = [])
    (htables : ∀ loc, out.eng.db.tableAt loc = eng.db.tableAt loc)
    (htxns : eng.txns.Extends out.eng.txns) (hseq : out.eng.seqAdvanced = eng.seqAdvanced) :
    out.Does eng x P where
  rowsOk := h.congr htables
  effects := by
    have hrows : out.eng.db.rowAt = eng.db.rowAt := by
      funext loc id
      exact Database.rowAt_congr htables loc id
    rw [hwrites, hrows]
    exact .nil
  fresh := by simp [hwrites]
  txns := htxns
  seqAdvanced := hseq

theorem fail (h : eng.db.RowsOk) (e : ExecError) : (ExecOut.fail eng e).Does eng x P :=
  of_silent h rfl (fun _ => rfl) (.refl _) rfl

theorem mono (h : out.Does eng x P) (hPQ : ∀ v, P v → Q v) : out.Does eng x Q :=
  { h with effects := h.effects.mono hPQ }

/-- Two statements, the second in the state that the first leaves. -/
theorem andThen {out' : ExecOut V K} (h : out.Does eng x P) (h' : out'.Does out.eng x P)
    {error : Option ExecError} : ExecOut.Does ⟨out'.eng, out.writes ++ out'.writes, error⟩ eng x P where
  rowsOk := h'.rowsOk
  effects := h.effects.append h'.effects
  fresh op hop id hid := by
    rcases List.mem_append.1 hop with hop | hop
    · obtain ⟨hge, hlt⟩ := h.fresh op hop id hid
      exact ⟨hge, hlt.trans_le h'.txns.nextRowId⟩
    · obtain ⟨hge, hlt⟩ := h'.fresh op hop id hid
      exact ⟨h.txns.nextRowId.trans hge, hlt⟩
  txns := h.txns.trans h'.txns
  seqAdvanced := h'.seqAdvanced.trans h.seqAdvanced

theorem idsBelow (h : out.Does eng x P) (hok : eng.db.RowsOk) (hids : eng.IdsBelow) :
    out.eng.IdsBelow := by
  intro loc id r hr
  rcases h.effects.stored hok.unique hr with ⟨r₀, hr₀⟩ | ⟨op, hop, hid⟩
  · exact (hids loc id r₀ hr₀).trans_le h.txns.nextRowId
  · exact (h.fresh op hop id hid).2

end ExecOut.Does

/-! ## Row statements -/

section Statements

variable [DecidableEq K] [SqlValue V K]

section Targets

variable (eng : Engine V K) (ctx : StmtCtx)

/-- The versions that a DELETE marks. -/
def deleteTargets (table : String) (where_ : List V → Bool) : List (RowVersion V) :=
  match eng.db.findTable table ctx.snap ctx.allXids with
  | none => []
  | some t => (planRows eng ctx table where_ (visibleRows ctx t)).toOption.getD []

/-- The versions that an UPDATE marks: none if it fails a unique check. -/
def updateTargets (table : String) (where_ : List V → Bool) (sets : SetList V) :
    List (RowVersion V) :=
  let plan := deleteTargets eng ctx table where_
  let new := plan.map fun r => sets.apply r.values
  match checkUpdateUnique eng ctx table (plan.map RowVersion.id) new,
      checkUpdateUniquePairs eng ctx table [] new with
  | .ok (), .ok () => plan
  | _, _ => []

/-- The versions that a TRUNCATE marks in one table after the other. -/
def truncateTargets : Engine V K → List String → List (RowVersion V)
  | _, [] => []
  | eng, table :: tables =>
    deleteTargets eng ctx table (fun _ => true) ++
      match execDelete eng ctx table fun _ => true with
      | ⟨eng, _, none⟩ => truncateTargets eng tables
      | ⟨_, _, some _⟩ => []

/-- The versions that a statement is about to mark as deleted. -/
def RowStmt.targets : RowStmt V → List (RowVersion V)
  | .update table where_ sets => updateTargets eng ctx table where_ sets
  | .delete table where_ => deleteTargets eng ctx table where_
  | .truncate tables =>
    match tables.find? fun t => (eng.db.findTable t ctx.snap ctx.allXids).isNone with
    | some _ => []
    | none => truncateTargets ctx eng tables
  | .insert .. | .select _ | .selectForUpdate .. => []

end Targets

variable {eng : Engine V K} {ctx : StmtCtx}

omit [DecidableEq K] [SqlValue V K] in
theorem planRows_eq_ok {table : String} {where_ : List V → Bool} {rs plan : List (RowVersion V)}
    (h : planRows eng ctx table where_ rs = .ok plan) : plan = rs.filter (where_ ·.values) := by
  induction rs generalizing plan with
  | nil => cases h; rfl
  | cons r rs ih =>
    unfold planRows at h
    cases hconf : checkWriteConflict eng ctx r.xmax with
    | error e => simp [hconf, bind, Except.bind] at h
    | ok u =>
      by_cases hw : where_ r.values
      · cases hlock : checkRowLock eng ctx table r.id with
        | error e => simp [hconf, hw, hlock, bind, Except.bind] at h
        | ok u' =>
          cases hrest : planRows eng ctx table where_ rs with
          | error e => simp [hconf, hw, hlock, hrest, bind, Except.bind] at h
          | ok plan' =>
            simp only [hconf, hw, hlock, hrest, bind, Except.bind, if_true, pure, Except.pure,
              Except.ok.injEq] at h
            simp [← h, ih hrest, hw]
      · simp only [hconf, hw, bind, Except.bind] at h
        simp [ih (by simpa using h), hw]

omit [DecidableEq K] [SqlValue V K] in
/-- The planned rows are visible, stored in the table that was found, and distinct. -/
theorem plan_stored (h : eng.db.RowsOk) {table : String} {pos : Nat} {t : Table V}
    (ht : eng.db.tableAt (table, pos) = some t) {where_ : List V → Bool}
    {plan : List (RowVersion V)}
    (hplan : planRows eng ctx table where_ (visibleRows ctx t) = .ok plan) :
    (∀ r ∈ plan, eng.db.rowAt (table, pos) r.id = some r ∧ RowVisible r ctx.snap ctx.allXids) ∧
      (plan.map RowVersion.id).Nodup := by
  obtain rfl := planRows_eq_ok hplan
  constructor
  · intro r hr
    simp only [visibleRows, List.mem_filter, decide_eq_true_eq] at hr
    exact ⟨h.rowAt_of_mem ht hr.1.1, hr.1.2⟩
  · refine (h.synced _ t ht).nodup.sublist (List.Sublist.map _ ?_)
    exact List.filter_sublist.trans List.filter_sublist

/-- What the operations of a statement mark: visible versions, among its targets. -/
def Marks (ctx : StmtCtx) (targets : List (RowVersion V)) (v : RowVersion V) : Prop :=
  RowVisible v ctx.snap ctx.allXids ∧ v ∈ targets

theorem indexRows_tableAt (table : String) (rows : List (RowId × List V)) (loc : Loc) :
    (eng.indexRows table rows).db.tableAt loc = eng.db.tableAt loc := by
  suffices hfold : ∀ db : Database V K,
      (rows.foldl (fun db r => db.indexInsertRow table r.1 r.2) db).tableAt loc = db.tableAt loc from
    hfold eng.db
  induction rows with
  | nil => intro db; rfl
  | cons r rows ih => intro db; exact ih _

/-- The entries in the indexes do not matter to the heap. -/
theorem ExecOut.Does.indexRows {x : Xid} {P : RowVersion V → Prop} {eng' : Engine V K}
    {writes : List (WriteOp V K)} {error : Option ExecError}
    (h : ExecOut.Does ⟨eng', writes, error⟩ eng x P) (table : String)
    (rows : List (RowId × List V)) :
    ExecOut.Does ⟨eng'.indexRows table rows, writes, error⟩ eng x P where
  rowsOk := h.rowsOk.congr (indexRows_tableAt table rows)
  effects := by
    have hrows : (eng'.indexRows table rows).db.rowAt = eng'.db.rowAt := by
      funext loc id
      exact Database.rowAt_congr (indexRows_tableAt table rows) loc id
    simp only [hrows]
    exact h.effects
  fresh := h.fresh
  txns := h.txns
  seqAdvanced := h.seqAdvanced

theorem applyRowInserts_does (h : eng.db.RowsOk) (hids : eng.IdsBelow) {P : RowVersion V → Prop}
    {table : String} {pos : Nat} {t : Table V}
    (hpos : eng.db.visiblePos table ctx.snap ctx.allXids = some pos)
    (ht : eng.db.tableAt (table, pos) = some t) (rows : List (List V)) :
    (applyRowInserts (eng.allocRowIds rows.length).2 ctx table
      ((eng.allocRowIds rows.length).1.zip rows)).Does eng ctx.writeXid P := by
  have hfst : ((eng.allocRowIds rows.length).1.zip rows).map Prod.fst
      = List.range' eng.txns.nextRowId rows.length :=
    List.map_fst_zip (by simp [Engine.allocRowIds])
  have hfresh : ∀ r ∈ (eng.allocRowIds rows.length).1.zip rows,
      eng.txns.nextRowId ≤ r.1 ∧ r.1 < eng.txns.nextRowId + rows.length := by
    intro r hr
    have hmem := List.mem_map_of_mem (f := Prod.fst) hr
    rw [hfst] at hmem
    simpa using hmem
  obtain ⟨hok, heffects⟩ := h.pushRows ht ctx.writeXid (P := P)
    (fun r hr => hids.fresh (hfresh r hr).1) (by rw [hfst]; exact List.nodup_range')
  refine ExecOut.Does.indexRows ?_ _ _
  constructor
  · simpa [Engine.modifyTable, Engine.allocRowIds, Database.modifyTable_of_visiblePos hpos] using hok
  · simpa [Engine.modifyTable, Engine.allocRowIds, Database.modifyTable_of_visiblePos hpos]
      using heffects
  · intro op hop id hid
    obtain ⟨r, hr, rfl⟩ := List.mem_map.1 hop
    obtain rfl := List.mem_singleton.1 hid
    exact hfresh r hr
  · exact ⟨rfl, rfl, rfl, Nat.le_add_right _ _⟩
  · rfl

omit [DecidableEq K] [SqlValue V K] in
theorem applyRowDeletes_does (h : eng.db.RowsOk) {P : RowVersion V → Prop} {table : String}
    {pos : Nat} (hpos : eng.db.visiblePos table ctx.snap ctx.allXids = some pos)
    {plan : List (RowVersion V)}
    (hplan : ∀ r ∈ plan, eng.db.rowAt (table, pos) r.id = some r ∧ P r)
    (hnodup : (plan.map RowVersion.id).Nodup) :
    (applyRowDeletes eng ctx table plan).Does eng ctx.writeXid P := by
  obtain ⟨hok, heffects⟩ := h.markRows (table, pos) ctx.writeXid hplan hnodup
  constructor
  · simpa [applyRowDeletes, Engine.modifyTable, Database.modifyTable_of_visiblePos hpos] using hok
  · simpa [applyRowDeletes, Engine.modifyTable, Database.modifyTable_of_visiblePos hpos]
      using heffects
  · intro op hop id hid
    obtain ⟨r, -, rfl⟩ := List.mem_map.1 hop
    simp [WriteOp.inserted] at hid
  · exact .refl _
  · rfl

omit [DecidableEq K] [SqlValue V K] in
/-- The old rows of an UPDATE with fresh ids and their new values. -/
theorem updatePairs_spec (eng : Engine V K) (plan : List (RowVersion V)) (new : List (List V))
    (hlen : new.length = plan.length) :
    let pairs := plan.zip ((eng.allocRowIds plan.length).1.zip new)
    pairs.map Prod.fst = plan ∧ pairs.map (fun r => r.1.id) = plan.map RowVersion.id ∧
      pairs.map (fun r => r.2.1) = List.range' eng.txns.nextRowId plan.length ∧
      ∀ r ∈ pairs, eng.txns.nextRowId ≤ r.2.1 ∧ r.2.1 < eng.txns.nextRowId + plan.length := by
  intro pairs
  change (plan.zip ((List.range' eng.txns.nextRowId plan.length).zip new)).map Prod.fst = plan ∧ _
  have hpairs : (plan.zip ((List.range' eng.txns.nextRowId plan.length).zip new)).map Prod.fst
      = plan := List.map_fst_zip (by simp [hlen])
  have hsnd : (plan.zip ((List.range' eng.txns.nextRowId plan.length).zip new)).map Prod.snd
      = (List.range' eng.txns.nextRowId plan.length).zip new := List.map_snd_zip (by simp [hlen])
  have hnew : (plan.zip ((List.range' eng.txns.nextRowId plan.length).zip new)).map
      (fun r => r.2.1) = List.range' eng.txns.nextRowId plan.length := by
    have hcomp := congrArg (List.map Prod.fst) hsnd
    rw [List.map_map, List.map_fst_zip (by simp [hlen])] at hcomp
    exact hcomp
  have hold : (plan.zip ((List.range' eng.txns.nextRowId plan.length).zip new)).map
      (fun r => r.1.id) = plan.map RowVersion.id := by
    have hcomp := congrArg (List.map RowVersion.id) hpairs
    rw [List.map_map] at hcomp
    exact hcomp
  have hfresh : ∀ r ∈ plan.zip ((List.range' eng.txns.nextRowId plan.length).zip new),
      eng.txns.nextRowId ≤ r.2.1 ∧ r.2.1 < eng.txns.nextRowId + plan.length := by
    intro r hr
    have hmem := List.mem_map_of_mem (f := fun r => r.2.1) hr
    rw [hnew] at hmem
    simpa using hmem
  exact ⟨hpairs, hold, hnew, hfresh⟩

theorem applyRowUpdates_does (h : eng.db.RowsOk) (hids : eng.IdsBelow) {P : RowVersion V → Prop}
    {table : String} {pos : Nat} {t : Table V}
    (hpos : eng.db.visiblePos table ctx.snap ctx.allXids = some pos)
    (ht : eng.db.tableAt (table, pos) = some t) {plan : List (RowVersion V)}
    (hplan : ∀ r ∈ plan, eng.db.rowAt (table, pos) r.id = some r ∧ P r)
    (hnodup : (plan.map RowVersion.id).Nodup) {new : List (List V)}
    (hlen : new.length = plan.length) :
    (applyRowUpdates (eng.allocRowIds plan.length).2 ctx table
      (plan.zip ((eng.allocRowIds plan.length).1.zip new))).Does eng ctx.writeXid P := by
  obtain ⟨hpairs, hold, hnew, hfresh⟩ := updatePairs_spec eng plan new hlen
  obtain ⟨hok, heffects⟩ := h.replaceRows ht ctx.writeXid (P := P)
    (fun r hr => hplan r.1 (by rw [← hpairs]; exact List.mem_map_of_mem hr))
    (by rw [hold]; exact hnodup) (fun r hr => hids.fresh (hfresh r hr).1)
    (by rw [hnew]; exact List.nodup_range')
  refine ExecOut.Does.indexRows ?_ _ _
  constructor
  · simpa [Engine.modifyTable, Engine.allocRowIds, Database.modifyTable_of_visiblePos hpos] using hok
  · simpa [Engine.modifyTable, Engine.allocRowIds, Database.modifyTable_of_visiblePos hpos]
      using heffects
  · intro op hop id hid
    obtain ⟨r, hr, rfl⟩ := List.mem_map.1 hop
    obtain rfl := List.mem_singleton.1 hid
    exact hfresh r hr
  · exact ⟨rfl, rfl, rfl, Nat.le_add_right _ _⟩
  · rfl

theorem execInsert_does (h : eng.db.RowsOk) (hids : eng.IdsBelow) (P : RowVersion V → Prop)
    (table : String) (rows : List (List V)) :
    (execInsert eng ctx table rows).Does eng ctx.writeXid P := by
  unfold execInsert
  split
  · exact .fail h _
  · next t ht =>
    obtain ⟨pos, hpos, htable⟩ := Database.findTable_eq_some.1 ht
    split
    · exact .fail h _
    · split
      · exact .fail h _
      · exact applyRowInserts_does h hids hpos htable rows

omit [DecidableEq K] [SqlValue V K] in
theorem execDelete_does (h : eng.db.RowsOk) (table : String) (where_ : List V → Bool) :
    (execDelete eng ctx table where_).Does eng ctx.writeXid
      (Marks ctx (deleteTargets eng ctx table where_)) := by
  unfold execDelete
  split
  · exact .fail h _
  · next t ht =>
    obtain ⟨pos, hpos, htable⟩ := Database.findTable_eq_some.1 ht
    split
    · exact .fail h _
    · next plan hplan =>
      obtain ⟨hstored, hnodup⟩ := plan_stored h htable hplan
      refine applyRowDeletes_does h hpos (fun r hr => ?_) hnodup
      have htarget : r ∈ deleteTargets eng ctx table where_ := by
        simpa [deleteTargets, ht, hplan, Except.toOption] using hr
      exact ⟨(hstored r hr).1, (hstored r hr).2, htarget⟩

theorem execUpdate_does (h : eng.db.RowsOk) (hids : eng.IdsBelow) (table : String)
    (where_ : List V → Bool) (sets : SetList V) :
    (execUpdate eng ctx table where_ sets).Does eng ctx.writeXid
      (Marks ctx (updateTargets eng ctx table where_ sets)) := by
  unfold execUpdate
  split
  · exact .fail h _
  · next t ht =>
    obtain ⟨pos, hpos, htable⟩ := Database.findTable_eq_some.1 ht
    split
    · exact .fail h _
    · next plan hplan =>
      obtain ⟨hstored, hnodup⟩ := plan_stored h htable hplan
      have hdelete : deleteTargets eng ctx table where_ = plan := by
        simp [deleteTargets, ht, hplan, Except.toOption]
      cases hunique : checkUpdateUnique eng ctx table (plan.map RowVersion.id)
          (plan.map fun r => sets.apply r.values) with
      | error e =>
        simp only [hunique, bind, Except.bind]
        exact .fail h _
      | ok u =>
        cases hpairs : checkUpdateUniquePairs eng ctx table []
            (plan.map fun r => sets.apply r.values) with
        | error e =>
          simp only [hunique, hpairs, bind, Except.bind]
          exact .fail h _
        | ok u' =>
          simp only [hunique, hpairs, bind, Except.bind]
          refine applyRowUpdates_does h hids hpos htable (fun r hr => ?_) hnodup
            (List.length_map ..)
          have htarget : r ∈ updateTargets eng ctx table where_ sets := by
            simpa [updateTargets, hdelete, hunique, hpairs] using hr
          exact ⟨(hstored r hr).1, (hstored r hr).2, htarget⟩

omit [DecidableEq K] [SqlValue V K] in
theorem truncateTables_does (h : eng.db.RowsOk) (tables : List String) :
    (truncateTables ctx eng tables).Does eng ctx.writeXid
      (Marks ctx (truncateTargets ctx eng tables)) := by
  induction tables generalizing eng with
  | nil => exact .of_silent h rfl (fun _ => rfl) (.refl _) rfl
  | cons table tables ih =>
    have hdelete : (execDelete eng ctx table fun _ => true).Does eng ctx.writeXid _ :=
      execDelete_does h table fun _ => true
    unfold truncateTables truncateTargets
    rcases hout : execDelete eng ctx table fun _ => true with ⟨eng', writes, error⟩
    rw [hout] at hdelete
    cases error with
    | some e => exact hdelete.mono fun v hv => ⟨hv.1, by simpa using hv.2⟩
    | none =>
      refine (hdelete.mono fun v hv => ?_).andThen ((ih hdelete.rowsOk).mono fun v hv => ?_)
      · exact ⟨hv.1, List.mem_append_left _ hv.2⟩
      · exact ⟨hv.1, List.mem_append_right _ hv.2⟩

omit [DecidableEq K] [SqlValue V K] in
theorem tryRowLock_extends {m m' : TxnManager} {id : RowId} {xid : Xid}
    (h : m.tryRowLock id xid = .ok m') : m.Extends m' := by
  unfold TxnManager.tryRowLock at h
  split at h
  · split at h
    · cases h
      exact .refl m
    · split at h
      · cases h
      · cases h
        exact ⟨rfl, rfl, rfl, le_rfl⟩
  · cases h
    exact ⟨rfl, rfl, rfl, le_rfl⟩

omit [DecidableEq K] [SqlValue V K] in
/-- Taking row locks changes nothing but the locks. -/
theorem acquireRowLocks_spec (eng : Engine V K) (ctx : StmtCtx) (table : String) (ids : List RowId) :
    (acquireRowLocks ctx table eng ids).writes = [] ∧
      (acquireRowLocks ctx table eng ids).eng.db = eng.db ∧
      eng.txns.Extends (acquireRowLocks ctx table eng ids).eng.txns ∧
      (acquireRowLocks ctx table eng ids).eng.seqAdvanced = eng.seqAdvanced := by
  induction ids generalizing eng with
  | nil => exact ⟨rfl, rfl, .refl _, rfl⟩
  | cons id ids ih =>
    unfold acquireRowLocks
    cases hlock : eng.txns.tryRowLock id ctx.own with
    | error holder => exact ⟨rfl, rfl, .refl _, rfl⟩
    | ok txns =>
      obtain ⟨hwrites, hdb, htxns, hseq⟩ := ih { eng with txns }
      exact ⟨hwrites, hdb, (tryRowLock_extends hlock).trans htxns, hseq⟩

/-- A row statement changes the heap by what it logs, and marks its targets. -/
theorem RowStmt.exec_does (h : eng.db.RowsOk) (hids : eng.IdsBelow) (stmt : RowStmt V) :
    (stmt.exec eng ctx).Does eng ctx.writeXid (Marks ctx (stmt.targets eng ctx)) := by
  cases stmt with
  | insert table rows => exact execInsert_does h hids _ table rows
  | update table where_ sets => exact execUpdate_does h hids table where_ sets
  | delete table where_ => exact execDelete_does h table where_
  | truncate tables =>
    simp only [RowStmt.exec, execTruncate, RowStmt.targets]
    cases tables.find? fun t => (eng.db.findTable t ctx.snap ctx.allXids).isNone with
    | some t => exact .fail h _
    | none => exact truncateTables_does h tables
  | select table =>
    simp only [RowStmt.exec, execSelect]
    split
    · exact .fail h _
    · exact .of_silent h rfl (fun _ => rfl) (.refl _) rfl
  | selectForUpdate table where_ =>
    simp only [RowStmt.exec, execSelectForUpdate]
    split
    · exact .fail h _
    · next t ht =>
      obtain ⟨hwrites, hdb, htxns, hseq⟩ := acquireRowLocks_spec eng ctx table
        (((visibleRows ctx t).filter fun r => where_ r.values).map RowVersion.id)
      exact .of_silent h hwrites (fun _ => by rw [hdb]) htxns hseq

/-! ## Index statements -/

omit [DecidableEq K] [SqlValue V K] in
/-- An index statement leaves the tables alone. -/
theorem ExecOut.Does.of_index {x : Xid} {P : RowVersion V → Prop} {out : ExecOut V K}
    (h : eng.db.RowsOk) (hwrites : ∀ op ∈ out.writes, op.IsIndexOp)
    (htables : out.eng.db.tables = eng.db.tables) (htxns : out.eng.txns = eng.txns)
    (hseq : out.eng.seqAdvanced = eng.seqAdvanced) : out.Does eng x P where
  rowsOk := h.congr fun loc => by simp [Database.tableAt, htables]
  effects := by
    have hrows : out.eng.db.rowAt = eng.db.rowAt := by
      funext loc id
      simp [Database.rowAt, Database.tableAt, htables]
    rw [hrows]
    exact .of_index hwrites
  fresh op hop id hid := by
    have hindex := hwrites op hop
    cases op <;> first | exact hindex.elim | simp [WriteOp.inserted] at hid
  txns := htxns ▸ .refl _
  seqAdvanced := hseq

omit [DecidableEq K] [SqlValue V K] in
theorem dropIndexes_spec (eng : Engine V K) (ctx : StmtCtx) (names : List String) :
    (∀ op ∈ (dropIndexes ctx eng names).writes, op.IsIndexOp) ∧
      (dropIndexes ctx eng names).eng.db.tables = eng.db.tables ∧
      (dropIndexes ctx eng names).eng.txns = eng.txns ∧
      (dropIndexes ctx eng names).eng.seqAdvanced = eng.seqAdvanced := by
  induction names generalizing eng with
  | nil => exact ⟨by simp [dropIndexes], rfl, rfl, rfl⟩
  | cons name names ih =>
    unfold dropIndexes execDropOneIndex
    split
    · next heq =>
      split at heq
      · cases heq
        exact ⟨by simp, rfl, rfl, rfl⟩
      · cases heq
    · next heq =>
      split at heq
      · cases heq
      · cases heq
        obtain ⟨hwrites, htables, htxns, hseq⟩ := ih _
        refine ⟨fun op hop => ?_, htables, htxns, hseq⟩
        rcases List.mem_append.1 hop with hop | hop
        · obtain rfl := List.mem_singleton.1 hop
          trivial
        · exact hwrites op hop

theorem createIndexOn_does (h : eng.db.RowsOk) {x : Xid} (P : RowVersion V → Prop) (d : IndexDef)
    (t : Table V) : (createIndexOn eng ctx d t).Does eng x P := by
  unfold createIndexOn
  extract_lets ix₀ ix
  split
  · exact .fail h _
  · exact .of_index h (by simp [WriteOp.IsIndexOp]) rfl rfl rfl

theorem IndexStmt.exec_does (h : eng.db.RowsOk) (P : RowVersion V → Prop) (stmt : IndexStmt) :
    (stmt.exec eng ctx).Does eng ctx.writeXid P := by
  cases stmt with
  | create name table columns unique nnd isPartial =>
    simp only [IndexStmt.exec, execCreateIndex]
    split
    · exact .fail h _
    · split
      · exact .fail h _
      · split
        · exact .fail h _
        · split
          · exact .fail h _
          · exact createIndexOn_does h P _ _
  | drop names =>
    simp only [IndexStmt.exec, execDropIndex]
    split
    · exact .fail h _
    · obtain ⟨hwrites, htables, htxns, hseq⟩ := dropIndexes_spec eng ctx names
      exact .of_index h hwrites htables htxns hseq

end Statements
