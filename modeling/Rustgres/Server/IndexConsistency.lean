-- SUMMARY: In every state that the sessions reach, the live indexes have exactly the stored versions of their tables.
import Rustgres.Exec.IndexEntries
import Rustgres.Server.Isolation

/-!
# Indexes over Whole Runs

Whatever the sessions do, in any order, a live index has one entry for each stored version of its table, and no other. Only
the rollback of a DROP INDEX is left out: it brings back the entries of an earlier time.
-/

namespace Backend

variable {V K : Type} [DecidableEq K] [SqlValue V K]

/-- No DROP INDEX is rolled back. -/
def KeepsDrops (s : Sys V K) : Act V → Prop
  | .abort sid => ∀ t, s.txns sid = some t → ∀ op ∈ t.writes, ¬op.IsDropIndex
  | .rollbackTo sid name => ∀ t, s.txns sid = some t → ∀ save ∈ (t.fromName name).head?,
      ∀ op ∈ t.writes.drop save.mark, ¬op.IsDropIndex
  | _ => True

instance (s : Sys V K) : ∀ a, Decidable (KeepsDrops s a)
  | .abort sid =>
    decidable_of_iff (∀ t ∈ s.txns sid, ∀ op ∈ t.writes, ¬op.IsDropIndex) Iff.rfl
  | .rollbackTo sid name =>
    decidable_of_iff (∀ t ∈ s.txns sid, ∀ save ∈ (t.fromName name).head?,
      ∀ op ∈ t.writes.drop save.mark, ¬op.IsDropIndex) Iff.rfl
  | .begin .. | .pin _ | .stmt .. | .fail _ | .savepoint .. | .release .. | .commit _
  | .vacuum _ => .isTrue trivial

/-- What the rollback of a logged operation needs: it is no DDL on tables, and the version that it put into a table is
nowhere else. -/
structure Undoable (eng : Engine V K) (op : WriteOp V K) : Prop where
  keepsTables : op.KeepsTables
  placed : op.Placed eng.db
  below : ∀ table id, op.pushed = some (table, id) → id < eng.txns.nextRowId

/-- The indexes agree with the tables, and every open transaction can be undone. -/
structure Consistent (s : Sys V K) : Prop where
  rowsOk : s.eng.db.RowsOk
  idsBelow : s.eng.IdsBelow
  indexed : s.eng.db.Indexed
  oneVersion : s.eng.db.OneVersion
  pos : 0 < s.eng.txns.nextXid
  xid : ∀ sid t, s.txns sid = some t → t.xid ≠ 0
  logs : ∀ sid t, s.txns sid = some t → ∀ op ∈ t.writes, Undoable s.eng op

/-! ## Engines -/

section

variable {eng eng' : Engine V K} {op : WriteOp V K}

omit [DecidableEq K] [SqlValue V K] in
theorem WriteOp.mem_inserted {table : String} {id : RowId} (h : op.pushed = some (table, id)) : id ∈ op.inserted := by
  cases op with
  | insertRow | updateRow =>
      cases h
      exact List.mem_singleton_self id
  | _ => cases h

omit [DecidableEq K] [SqlValue V K] in
/-- Ids that were handed out move to no other place. -/
theorem Undoable.mono (h : Undoable eng op) (hn : eng.txns.nextRowId ≤ eng'.txns.nextRowId)
    (hstored : ∀ loc id v, id < eng.txns.nextRowId → eng'.db.rowAt loc id = some v →
      ∃ v₀, eng.db.rowAt loc id = some v₀) : Undoable eng' op where
  keepsTables := h.keepsTables
  placed table id hpush loc v hv := by
    obtain ⟨v₀, hv₀⟩ := hstored loc id v (h.below table id hpush) hv
    exact h.placed table id hpush loc v₀ hv₀
  below table id hpush := (h.below table id hpush).trans_le hn

/-- Undo keeps the indexes in agreement, and moves no version. -/
theorem undoAll_consistent (hok : eng.db.RowsOk) (hindexed : eng.db.Indexed) {ops : List (WriteOp V K)}
    (hops : ∀ op ∈ ops, Undoable eng op) (hdrops : ∀ op ∈ ops, ¬op.IsDropIndex) (owns : List Xid) :
    (eng.undoAll owns ops).db.Indexed ∧ eng.db.SameTables (eng.undoAll owns ops).db ∧
      ∀ loc id v, (eng.undoAll owns ops).db.rowAt loc id = some v → ∃ v₀, eng.db.rowAt loc id = some v₀ := by
  induction ops with
  | nil => exact ⟨hindexed, Database.sameTables_of_eq fun _ => rfl, fun _ _ v hv => ⟨v, hv⟩⟩
  | cons op ops ih =>
      obtain ⟨hix, hsame, hstored⟩ := ih (fun o ho => hops o (List.mem_cons_of_mem op ho)) fun o ho =>
        hdrops o (List.mem_cons_of_mem op ho)
      have hop := hops op List.mem_cons_self
      have hok' : (eng.undoAll owns ops).db.RowsOk :=
        Engine.undoAll_rowsOk hok (fun o ho => (hops o (List.mem_cons_of_mem op ho)).keepsTables) owns
      rw [Engine.undoAll_cons]
      refine ⟨?_, hsame.trans (Database.sameTables_undoWriteOp hok' hop.keepsTables owns), fun loc id v hv => ?_⟩
      · refine hix.undoWriteOp hok' hop.keepsTables (hdrops op List.mem_cons_self) fun table id hpush loc v hv => ?_
        obtain ⟨v₀, hv₀⟩ := hstored loc id v hv
        exact hop.placed table id hpush loc v₀ hv₀
      · obtain ⟨v₀, hv₀⟩ := hok'.stored_undoWriteOp hop.keepsTables hv
        exact hstored loc id v₀ hv₀

omit [DecidableEq K] [SqlValue V K] in
/-- A logged operation has put its version into the table that it names. -/
theorem effects_placed {x : Xid} {P : RowVersion V → Prop} {heap heap' : Heap V} {ops : List (WriteOp V K)}
    (h : WriteOp.Effects x P heap ops heap') (hunique : heap.Unique) :
    ∀ op ∈ ops, ∀ table id, op.pushed = some (table, id) → ∀ loc v, heap' loc id = some v → loc.1 = table := by
  induction h with
  | nil => exact fun op hop => absurd hop List.not_mem_nil
  | @cons heap heap₁ heap₂ op ops hop hops ih =>
      have hunique₁ := hop.unique hunique
      refine List.forall_mem_cons.2 ⟨fun table id hpush loc v hv => ?_, ih hunique₁⟩
      have hhome : ∃ pos w, heap₁ (table, pos) id = some w := by
        cases hop with
        | @insertRow table' pos id' values hfresh =>
            cases hpush
            exact ⟨pos, .plain id values x, if_pos ⟨rfl, rfl⟩⟩
        | deleteRow => cases hpush
        | @updateRow table' pos v' newId values hv' hP hfresh =>
            cases hpush
            exact ⟨pos, .plain id values x, if_pos ⟨rfl, rfl⟩⟩
        | index hindex => cases op <;> first | exact hindex.elim | cases hpush
      obtain ⟨pos, w, hw⟩ := hhome
      rcases hops.stored hunique₁ hv with ⟨v₁, hv₁⟩ | ⟨op', hop', hid⟩
      · exact congrArg Prod.fst (hunique₁ _ _ _ _ _ hv₁ hw)
      · exact absurd hid (hops.not_inserted hunique₁ hw op' hop')

omit [DecidableEq K] [SqlValue V K] in
theorem effects_keepsTables {x : Xid} {P : RowVersion V → Prop} {heap heap' : Heap V} {ops : List (WriteOp V K)}
    (h : WriteOp.Effects x P heap ops heap') : ∀ op ∈ ops, op.KeepsTables := by
  induction h with
  | nil => exact fun op hop => absurd hop List.not_mem_nil
  | cons hop _ ih => exact List.forall_mem_cons.2 ⟨hop.keepsTables, ih⟩

/-- A statement keeps the engine and the log of its transaction in agreement. -/
theorem Stmt.consistent (hok : eng.db.RowsOk) (hids : eng.IdsBelow) (hindexed : eng.db.Indexed)
    (hone : eng.db.OneVersion) {ctx : StmtCtx} (hown : ctx.own ≠ 0) (st : Stmt V) :
    (st.exec eng ctx).eng.db.Indexed ∧ eng.db.SameTables (st.exec eng ctx).eng.db ∧
      (∀ op, Undoable eng op → Undoable (st.exec eng ctx).eng op) ∧
      ∀ op ∈ (st.exec eng ctx).writes, Undoable (st.exec eng ctx).eng op := by
  have hdoes := st.exec_does hok hids ctx
  have hix : (st.exec eng ctx).eng.db.Indexed := by
    cases st with
    | row s => exact s.indexed hindexed hok hids
    | index s => exact s.indexed hindexed hok hone hown
  have hsame : eng.db.SameTables (st.exec eng ctx).eng.db := by
    cases st with
    | row s => exact s.sameTables
    | index s => exact s.sameTables
  refine ⟨hix, hsame, fun op hop => hop.mono hdoes.txns.nextRowId fun loc id v hlt hv => ?_, fun op hop => ?_⟩
  · rcases hdoes.effects.stored hok.unique hv with hstored | ⟨op', hop', hid⟩
    · exact hstored
    · exact absurd (hdoes.fresh op' hop' id hid).1 (Nat.not_le.2 hlt)
  · refine ⟨?_, effects_placed hdoes.effects hok.unique op hop, fun table id hpush => ?_⟩
    · exact effects_keepsTables hdoes.effects op hop
    · exact (hdoes.fresh op hop id (WriteOp.mem_inserted hpush)).2

omit [DecidableEq K] [SqlValue V K] in
theorem Undoable.seqAdvance (name : String) : Undoable eng (.seqAdvance name) where
  keepsTables := trivial
  placed table id hpush := by cases hpush
  below table id hpush := by cases hpush

omit [DecidableEq K] [SqlValue V K] in
theorem Undoable.marker (hop : op ∈ advanceMarkers eng') : Undoable eng op := by
  obtain ⟨name, -, rfl⟩ := List.mem_map.1 hop
  exact .seqAdvance name

end

/-! ## Actions -/

namespace Consistent

variable {s s' : Sys V K} {sid : Sid} {t : Txn V K}

omit [DecidableEq K] in
/-- A session is put in place. -/
theorem put (hs : Consistent s) {eng : Engine V K} {t' : Option (Txn V K)} (hrows : eng.db.RowsOk)
    (hids : eng.IdsBelow) (hindexed : eng.db.Indexed) (hone : eng.db.OneVersion)
    (hnext : s.eng.txns.nextXid ≤ eng.txns.nextXid) (hundo : ∀ op, Undoable s.eng op → Undoable eng op)
    (hxid : ∀ t, t' = some t → t.xid ≠ 0) (hlogs : ∀ t, t' = some t → ∀ op ∈ t.writes, Undoable eng op) :
    Consistent (s.put sid eng t') where
  rowsOk := hrows
  idsBelow := hids
  indexed := hindexed
  oneVersion := hone
  pos := hs.pos.trans_le hnext
  xid sid' t₁ ht₁ := by
    by_cases hne : sid' = sid
    · subst hne
      exact hxid t₁ (by simpa using ht₁)
    · exact hs.xid sid' t₁ (by simpa [Sys.put, hne] using ht₁)
  logs sid' t₁ ht₁ op hop := by
    by_cases hne : sid' = sid
    · subst hne
      exact hlogs t₁ (by simpa using ht₁) op hop
    · exact hundo op (hs.logs sid' t₁ (by simpa [Sys.put, hne] using ht₁) op hop)

omit [DecidableEq K] in
/-- The tables and the indexes stay, and so do the row ids. -/
theorem put_db (hs : Consistent s) {eng : Engine V K} {t' : Option (Txn V K)} (hdb : eng.db = s.eng.db)
    (hrow : eng.txns.nextRowId = s.eng.txns.nextRowId) (hnext : s.eng.txns.nextXid ≤ eng.txns.nextXid)
    (hxid : ∀ t, t' = some t → t.xid ≠ 0) (hlogs : ∀ t, t' = some t → ∀ op ∈ t.writes, Undoable s.eng op) :
    Consistent (s.put sid eng t') := by
  have hundo : ∀ op, Undoable s.eng op → Undoable eng op := fun op hop =>
    hop.mono hrow.ge fun loc id v _ hv => ⟨v, hdb ▸ hv⟩
  refine hs.put (hdb ▸ hs.rowsOk) ?_ (hdb ▸ hs.indexed) (hdb ▸ hs.oneVersion) hnext hundo hxid fun t ht op hop =>
    hundo op (hlogs t ht op hop)
  intro loc id v hv
  rw [hdb] at hv
  rw [hrow]
  exact hs.idsBelow loc id v hv

omit [DecidableEq K] in
/-- The transaction keeps its id and its log. -/
theorem put_keep (hs : Consistent s) (ht : s.txns sid = some t) {eng : Engine V K} {t' : Txn V K}
    (hdb : eng.db = s.eng.db) (hrow : eng.txns.nextRowId = s.eng.txns.nextRowId)
    (hnext : s.eng.txns.nextXid ≤ eng.txns.nextXid) (hxid : t'.xid = t.xid) (hwrites : t'.writes = t.writes) :
    Consistent (s.put sid eng (some t')) := by
  refine hs.put_db hdb hrow hnext ?_ ?_
  · rintro t₁ ht₁
    cases ht₁
    rw [hxid]
    exact hs.xid sid t ht
  · rintro t₁ ht₁
    cases ht₁
    rw [hwrites]
    exact hs.logs sid t ht

omit [DecidableEq K] in
theorem act_begin (hs : Consistent s) (level : IsolationLevel) :
    Consistent (s.put sid (beginTxn s.eng level).1 (some (beginTxn s.eng level).2)) := by
  refine hs.put_db rfl rfl (Nat.le_succ _) ?_ ?_
  · rintro t ht
    cases ht
    exact hs.pos.ne'
  · rintro t ht op hop
    cases ht
    exact absurd hop List.not_mem_nil

omit [DecidableEq K] in
theorem act_pin (hs : Consistent s) (ht : s.txns sid = some t) :
    Consistent (s.put sid (stmtSnapshot s.eng t).2.1 (some (stmtSnapshot s.eng t).2.2)) := by
  unfold stmtSnapshot
  split
  · exact hs.put_keep ht rfl rfl le_rfl rfl rfl
  · exact hs.put_keep ht rfl rfl le_rfl rfl rfl
  · exact hs.put_keep ht rfl rfl le_rfl rfl rfl

omit [DecidableEq K] in
theorem act_savepoint (hs : Consistent s) (ht : s.txns sid = some t) (name : String) :
    Consistent (s.put sid (txnSavepoint s.eng t name).1 (some (txnSavepoint s.eng t name).2)) :=
  hs.put_keep ht rfl rfl (Nat.le_succ _) rfl rfl

theorem act_stmt (hs : Consistent s) (ht : s.txns sid = some t) (snap : Snapshot) (st : Stmt V) :
    Consistent (s.put sid { (st.exec s.eng (t.ctx snap)).eng with seqAdvanced := [] }
      (some (t.logged (st.exec s.eng (t.ctx snap))))) := by
  have hdoes := st.exec_does hs.rowsOk hs.idsBelow (t.ctx snap)
  have hown : (t.ctx snap).own ≠ 0 := hs.xid sid t ht
  obtain ⟨hindexed, hsame, hundo, hwrites⟩ := st.consistent hs.rowsOk hs.idsBelow hs.indexed hs.oneVersion hown
  generalize st.exec s.eng (t.ctx snap) = out at hdoes hindexed hsame hundo hwrites ⊢
  have hkeep : ∀ op, Undoable out.eng op → Undoable { out.eng with seqAdvanced := [] } op := fun op hop =>
    hop.mono le_rfl fun loc id v _ hv => ⟨v, hv⟩
  refine hs.put hdoes.rowsOk (hdoes.idsBelow hs.rowsOk hs.idsBelow) hindexed (hs.oneVersion.sameTables hsame)
    hdoes.txns.nextXid.ge (fun op hop => hkeep op (hundo op hop)) ?_ ?_
  · rintro t' ht'
    cases ht'
    unfold Txn.logged
    split
    · exact hs.xid sid t ht
    · exact hs.xid sid t ht
  · rintro t' ht' op hop
    cases ht'
    refine hkeep op ?_
    have hlog : ∀ op ∈ t.writes ++ out.writes, Undoable out.eng op := by
      intro op hop
      rcases List.mem_append.1 hop with hop | hop
      · exact hundo op (hs.logs sid t ht op hop)
      · exact hwrites op hop
    unfold Txn.logged at hop
    split at hop
    · rcases List.mem_append.1 hop with hop | hop
      · exact hlog op hop
      · exact .marker hop
    · exact hlog op hop

/-- What is left after the undo of some operations of a log. -/
theorem undone (hs : Consistent s) {ops : List (WriteOp V K)} (hops : ∀ op ∈ ops, Undoable s.eng op)
    (hdrops : ∀ op ∈ ops, ¬op.IsDropIndex) (owns : List Xid) {eng : Engine V K} {t' : Option (Txn V K)}
    (hdb : eng.db = (s.eng.undoAll owns ops).db) (hrow : eng.txns.nextRowId = s.eng.txns.nextRowId)
    (hnext : s.eng.txns.nextXid ≤ eng.txns.nextXid) (hxid : ∀ t, t' = some t → t.xid ≠ 0)
    (hlogs : ∀ t, t' = some t → ∀ op ∈ t.writes, Undoable s.eng op) : Consistent (s.put sid eng t') := by
  obtain ⟨hindexed, hsame, hstored⟩ := undoAll_consistent hs.rowsOk hs.indexed hops hdrops owns
  rw [← hdb] at hindexed hsame hstored
  have hundo : ∀ op, Undoable s.eng op → Undoable eng op := fun op hop =>
    hop.mono hrow.ge fun loc id v _ hv => hstored loc id v hv
  refine hs.put ?_ ?_ hindexed (hs.oneVersion.sameTables hsame) hnext hundo hxid fun t ht op hop =>
    hundo op (hlogs t ht op hop)
  · rw [hdb]
    exact Engine.undoAll_rowsOk hs.rowsOk (fun op hop => (hops op hop).keepsTables) owns
  · intro loc id v hv
    obtain ⟨v₀, hv₀⟩ := hstored loc id v hv
    rw [hrow]
    exact hs.idsBelow loc id v₀ hv₀

theorem act_rollbackTo (hs : Consistent s) (ht : s.txns sid = some t) (save : Savepoint) (rest : List Savepoint)
    (hdrops : ∀ op ∈ t.writes.drop save.mark, ¬op.IsDropIndex) :
    Consistent (s.put sid (txnRollbackTo s.eng t save rest).1 (some (txnRollbackTo s.eng t save rest).2)) := by
  have hwrites := hs.logs sid t ht
  refine hs.undone (fun op hop => hwrites op (List.mem_of_mem_drop hop)) hdrops t.allXids rfl ?_ ?_ ?_ ?_
  · rw [txnRollbackTo_txns]
    rfl
  · rw [txnRollbackTo_txns]
    exact Nat.le_succ _
  · rintro t' ht'
    cases ht'
    exact hs.xid sid t ht
  · rintro t' ht' op hop
    cases ht'
    rcases List.mem_append.1 hop with hop | hop
    · exact hwrites op (List.mem_of_mem_take hop)
    · exact hwrites op (List.mem_of_mem_drop (List.mem_filter.1 hop).1)

theorem act_abort (hs : Consistent s) (ht : s.txns sid = some t) (hdrops : ∀ op ∈ t.writes, ¬op.IsDropIndex) :
    Consistent (s.put sid (retireTxnFamily (s.eng.undoAll t.allXids t.writes) t) none) := by
  refine hs.undone (hs.logs sid t ht) hdrops t.allXids rfl ?_ ?_ (by simp) (by simp)
  · rw [nextRowId_retire, Engine.undoAll_txns]
  · rw [nextXid_retire, Engine.undoAll_txns]

omit [DecidableEq K] in
theorem act_commit (hs : Consistent s) (wal : List (List (WalRecord V))) :
    Consistent { s.put sid (retireTxnFamily s.eng t) none with wal } := by
  have hput : Consistent (s.put sid (retireTxnFamily s.eng t) none) :=
    hs.put_db rfl (nextRowId_retire ..) (nextXid_retire ..).ge (by simp) (by simp)
  exact ⟨hput.rowsOk, hput.idsBelow, hput.indexed, hput.oneVersion, hput.pos, hput.xid, hput.logs⟩

theorem act_vacuum (hs : Consistent s) (table : String) : Consistent { s with eng := s.eng.vacuumTable table } := by
  have hstored : ∀ loc id v, (s.eng.vacuumTable table).db.rowAt loc id = some v →
      s.eng.db.rowAt loc id = some v := fun loc id v hv => by
    rw [Engine.rowAt_vacuumTable hs.rowsOk, Option.filter_eq_some_iff] at hv
    exact hv.1
  constructor
  · exact Engine.vacuumTable_rowsOk hs.rowsOk table
  · exact fun loc id v hv => hs.idsBelow loc id v (hstored loc id v hv)
  · exact hs.indexed.vacuumTable hs.rowsOk table
  · exact hs.oneVersion.sameTables (Engine.sameTables_vacuumTable table)
  · exact hs.pos
  · exact hs.xid
  · exact fun sid t ht op hop => (hs.logs sid t ht op hop).mono le_rfl fun loc id v _ hv => ⟨v, hstored loc id v hv⟩

/-- Every action keeps the indexes in agreement, unless it rolls a DROP INDEX back. -/
theorem step {a : Act V} (hs : Consistent s) (hdrops : KeepsDrops s a) (hact : s.act a = some s') :
    Consistent s' := by
  cases a with
  | begin sid level =>
      cases ht : s.txns sid with
      | some t => simp [Sys.act, ht] at hact
      | none =>
          obtain rfl : s.put sid _ _ = s' := by simpa [Sys.act, ht] using hact
          exact hs.act_begin level
  | pin sid =>
      obtain ⟨t, ht, rfl⟩ := Option.map_eq_some_iff.1 hact
      exact hs.act_pin ht
  | stmt sid st =>
      obtain ⟨t, ht, hstmt⟩ := Option.bind_eq_some_iff.1 hact
      obtain ⟨snap, -, rfl⟩ := Option.map_eq_some_iff.1 hstmt
      exact hs.act_stmt ht snap st
  | fail sid =>
      obtain ⟨t, ht, rfl⟩ := Option.map_eq_some_iff.1 hact
      exact hs.put_keep ht rfl rfl le_rfl rfl rfl
  | savepoint sid name =>
      obtain ⟨t, ht, rfl⟩ := Option.map_eq_some_iff.1 hact
      exact hs.act_savepoint ht name
  | rollbackTo sid name =>
      obtain ⟨t, ht, hroll⟩ := Option.bind_eq_some_iff.1 hact
      cases hfrom : t.fromName name with
      | nil => simp [hfrom] at hroll
      | cons save rest =>
          obtain rfl : s.put sid _ _ = s' := by simpa [hfrom] using hroll
          exact hs.act_rollbackTo ht save rest (hdrops t ht save (by rw [hfrom]; rfl))
  | release sid name =>
      obtain ⟨t, ht, hrel⟩ := Option.bind_eq_some_iff.1 hact
      cases hfrom : t.fromName name with
      | nil => simp [hfrom] at hrel
      | cons save rest =>
          obtain rfl : s.put sid _ _ = s' := by simpa [hfrom] using hrel
          exact hs.put_keep ht rfl rfl le_rfl rfl rfl
  | commit sid =>
      obtain ⟨t, ht, hcommit⟩ := Option.bind_eq_some_iff.1 hact
      cases hrecords : recordsForCommit s.eng t.xid t.writes with
      | error msg => simp [hrecords] at hcommit
      | ok records =>
          simp only [hrecords, Option.some.injEq] at hcommit
          subst hcommit
          exact hs.act_commit _
  | abort sid =>
      obtain ⟨t, ht, rfl⟩ := Option.map_eq_some_iff.1 hact
      exact hs.act_abort ht (hdrops t ht)
  | vacuum table =>
      obtain rfl : { s with eng := s.eng.vacuumTable table } = s' := by simpa [Sys.act] using hact
      exact hs.act_vacuum table

theorem runs {as : List (Act V)} (hs : Consistent s) (hdrops : run.Along Sys.act KeepsDrops s as)
    (hrun : run Sys.act s as = some s') : Consistent s' :=
  run.inv_along Consistent (fun _ _ _ hs hd hstep => hs.step hd hstep) hdrops hs hrun

end Consistent

omit [DecidableEq K] in
/-- Nobody has an open transaction, and the indexes agree with the tables. -/
theorem Quiescent.consistent {s : Sys V K} (h : Quiescent s) (hindexed : s.eng.db.Indexed)
    (hone : s.eng.db.OneVersion) : Consistent s where
  rowsOk := h.rowsOk
  idsBelow := h.idsBelow
  indexed := hindexed
  oneVersion := hone
  pos := h.pos
  xid sid t ht := by simp [h.idle sid] at ht
  logs sid t ht := by simp [h.idle sid] at ht

def insertRow (n : Int) : Stmt (Option Int) := .row (.insert "t" [[some n]])

def createIndex : Stmt (Option Int) := .index (.create "i" "t" ["a"] false false false)

/-- Session 1 writes while session 0 creates an index; session 2 rolls back to a savepoint, deletes and commits. -/
def indexActs : List (Act (Option Int)) :=
  [.begin 0 .readCommitted, .begin 1 .readCommitted, .stmt 1 (insertRow 7), .stmt 0 createIndex, .stmt 1 (insertRow 9),
    .commit 0, .begin 2 .readCommitted, .savepoint 2 "s", .stmt 2 (insertRow 7), .rollbackTo 2 "s", .stmt 2 deleteAll,
    .commit 2, .abort 1, .vacuum "t", .begin 3 .readCommitted, .stmt 3 (insertRow 7), .commit 3]

theorem oneRow_indexed : oneRow.eng.db.Indexed := fun _ hix => absurd hix List.not_mem_nil

theorem oneRow_oneVersion : oneRow.eng.db.OneVersion := fun _ _ _ ht => congrArg Prod.snd (oneRow_tableAt ht).1

/-- Session 0 drops the index, session 1 inserts a row and commits, and session 0 rolls back. -/
def droppedActs : List (Act (Option Int)) :=
  [.begin 0 .readCommitted, .stmt 0 createIndex, .commit 0, .begin 0 .readCommitted, .stmt 0 (.index (.drop ["i"])),
    .begin 1 .readCommitted, .stmt 1 (insertRow 9), .commit 1, .abort 0]

/-- The index that comes back does not have the row. -/
theorem rolled_back_drop_misses_row : ∃ s ix v, run Sys.act oneRow droppedActs = some s ∧
    ix ∈ s.eng.db.indexes.values ∧ ix.Live "t" ∧ s.eng.db.rowAt ("t", 0) 2 = some v ∧
    2 ∉ ix.tree (ix.keyFor v.values) := by
  have hsome : (run Sys.act oneRow droppedActs).isSome := by decide +kernel
  obtain ⟨s, hrun⟩ := Option.isSome_iff_exists.1 hsome
  have hmisses : ∀ s ∈ run Sys.act oneRow droppedActs, ∃ ix ∈ s.eng.db.indexes.values,
      ∃ v ∈ s.eng.db.rowAt ("t", 0) 2, ix.Live "t" ∧ 2 ∉ ix.tree (ix.keyFor v.values) := by decide +kernel
  obtain ⟨ix, hix, v, hv, hlive, hmiss⟩ := hmisses s hrun
  exact ⟨s, ix, v, hrun, hix, hlive, hv, hmiss⟩

end Backend
