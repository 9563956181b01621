-- SUMMARY: Every action keeps the engine, the transactions and the history in agreement.
import Rustgres.Server.Recorded

/-!
# Sound States

The engine, the open transactions and the history agree: the tables are in step, the running ids
are those of the transactions, each log is the journal of its session, and the stamps are those of
the history. Every action keeps this, as long as statements mark only versions without a mark.
-/

namespace Backend

variable {V K : Type}

/-- The positions of the savepoints in the log. -/
def Txn.marks (t : Txn V K) : List (String × Nat) := t.savepoints.map fun s => (s.name, s.mark)

theorem Txn.fromName_marks (t : Txn V K) (name : String) :
    t.marks.dropWhile (·.1 ≠ name) = (t.fromName name).map fun s => (s.name, s.mark) := by
  unfold marks fromName
  rw [List.dropWhile_map]
  rfl

/-- The log of the transaction is the journal of its session, under its ids. -/
structure Logs (t : Txn V K) (j : Journal (Logged V K)) : Prop where
  marks : Journal.MarksOk t.writes.length t.marks
  log : j.map Prod.snd = Journal.ofLog t.writes t.marks
  own : ∀ e ∈ j.items, e.1 ∈ t.allXids

theorem Logs.items {t : Txn V K} {j : Journal (Logged V K)} (h : Logs t j) :
    j.items.map Prod.snd = t.writes := by
  rw [← Journal.items_map, h.log, Journal.items_ofLog]

/-- The parts of the state agree with each other and with the history. -/
structure Sound (c : Sys V K × History V K) : Prop where
  rowsOk : c.1.eng.db.RowsOk
  idsBelow : c.1.eng.IdsBelow
  seqAdvanced : c.1.eng.seqAdvanced = []
  family : Family c.1.eng.txns c.1.txns
  recorded : Recorded c.1.eng.db.rowAt c.1.eng.txns.nextRowId c.1.eng.txns c.2
  idle : ∀ sid, c.1.txns sid = none → c.2.pending sid = []
  logs : ∀ sid t, c.1.txns sid = some t → Logs t (c.2.pending sid)

/-! ## The condition -/

/-- The versions that a statement is about to mark as deleted. -/
def Stmt.targets [DecidableEq K] [SqlValue V K] (eng : Engine V K) (ctx : StmtCtx) :
    Stmt V → List (RowVersion V)
  | .row s => s.targets eng ctx
  | .index _ => []

/-- The statement marks only versions that carry no mark. -/
def OverwritesNoMark [DecidableEq K] [SqlValue V K] (s : Sys V K) : Act V → Prop
  | .stmt sid st => ∀ t snap, s.txns sid = some t → t.readSnapshot s.eng = some snap →
      ∀ v ∈ st.targets s.eng (t.ctx snap), v.xmax = 0
  | _ => True

section

variable [DecidableEq K] [SqlValue V K]

instance (s : Sys V K) : ∀ a, Decidable (OverwritesNoMark s a)
  | .stmt sid st =>
    decidable_of_iff (∀ t ∈ s.txns sid, ∀ snap ∈ t.readSnapshot s.eng,
        ∀ v ∈ st.targets s.eng (t.ctx snap), v.xmax = 0) <| by
      simp only [Option.mem_def, OverwritesNoMark]
      exact forall_congr' fun t => ⟨fun h snap ht => h ht snap, fun h ht snap => h snap ht⟩
  | .begin .. | .pin _ | .fail _ | .savepoint .. | .rollbackTo .. | .release .. | .commit _
  | .abort _ | .vacuum _ => .isTrue trivial

theorem Stmt.exec_does {eng : Engine V K} (h : eng.db.RowsOk) (hids : eng.IdsBelow) (ctx : StmtCtx)
    (st : Stmt V) :
    (st.exec eng ctx).Does eng ctx.writeXid (Marks ctx (st.targets eng ctx)) := by
  cases st with
  | row s => exact s.exec_does h hids
  | index s => exact s.exec_does h _

end

namespace Sound

variable {s s' : Sys V K} {h : History V K} {sid : Sid} {t : Txn V K}

/-- Pending changes of other sessions carry other ids. -/
theorem others (hs : Sound (s, h)) (ht : s.txns sid = some t) {sid' : Sid} (hne : sid' ≠ sid)
    {e : Logged V K} (he : e ∈ (h.pending sid').items) : e.1 ∉ t.allXids := by
  cases ht' : s.txns sid' with
  | none =>
    rw [hs.idle sid' ht'] at he
    simp at he
  | some t' =>
    exact fun hx => hne (hs.family.disjoint _ _ _ _ _ ht' ht ((hs.logs sid' t' ht').own e he) hx)

/-- Committed changes do not carry the ids of an open transaction. -/
theorem done_ended (hs : Sound (s, h)) (ht : s.txns sid = some t) {e : Logged V K}
    (he : e ∈ h.done) : e.1 ∉ t.allXids :=
  fun hx => (hs.recorded.ended e he).2 (hs.family.mem_active ht hx)

theorem zero_not_mem (hs : Sound (s, h)) (ht : s.txns sid = some t) : 0 ∉ t.allXids :=
  fun hx => absurd (hs.family.active_lt 0 (hs.family.mem_active ht hx)).1 (lt_irrefl 0)

/-- A session is put in place, with its journal. -/
theorem put (hs : Sound (s, h)) {eng : Engine V K} {t' : Option (Txn V K)} {h' : History V K}
    {j : Journal (Logged V K)} (hpending : h'.pending = Function.update h.pending sid j)
    (hrows : eng.db.RowsOk) (hids : eng.IdsBelow) (hseq : eng.seqAdvanced = [])
    (hfamily : Family eng.txns (Function.update s.txns sid t'))
    (hrecorded : Recorded eng.db.rowAt eng.txns.nextRowId eng.txns h')
    (hidle : t' = none → j = []) (hlogs : ∀ t, t' = some t → Logs t j) :
    Sound (s.put sid eng t', h') where
  rowsOk := hrows
  idsBelow := hids
  seqAdvanced := hseq
  family := hfamily
  recorded := hrecorded
  idle sid' hsid' := by
    rw [hpending]
    by_cases hne : sid' = sid
    · subst hne
      simpa using hidle (by simpa [Sys.put] using hsid')
    · simpa [hne] using hs.idle sid' (by simpa [Sys.put, hne] using hsid')
  logs sid' t₁ ht₁ := by
    rw [hpending]
    by_cases hne : sid' = sid
    · subst hne
      simpa using hlogs t₁ (by simpa [Sys.put] using ht₁)
    · simpa [hne] using hs.logs sid' t₁ (by simpa [Sys.put, hne] using ht₁)

/-! ## Actions -/

theorem act_begin (hs : Sound (s, h)) (level : IsolationLevel) (hsid : s.txns sid = none) :
    Sound (s.put sid (beginTxn s.eng level).1 (some (beginTxn s.eng level).2), h) := by
  have hj : h.pending sid = [] := hs.idle sid hsid
  have hpending : h.pending = Function.update h.pending sid [] := by
    rw [← hj, Function.update_eq_self]
  refine hs.put hpending hs.rowsOk hs.idsBelow hs.seqAdvanced ?_ ?_ ?_ ?_
  · exact hs.family.beginTxn hsid level
  · exact hs.recorded.grow le_rfl rfl rfl rfl
  · simp
  · rintro t ht
    cases ht
    exact ⟨trivial, rfl, by simp⟩

theorem act_pin (hs : Sound (s, h)) (ht : s.txns sid = some t) :
    Sound (s.put sid (stmtSnapshot s.eng t).2.1 (some (stmtSnapshot s.eng t).2.2), h) := by
  have hpending : h.pending = Function.update h.pending sid (h.pending sid) := by
    rw [Function.update_eq_self]
  have hlogs := hs.logs sid t ht
  have hsame : Sound (s.put sid s.eng (some t), h) := by
    refine hs.put hpending hs.rowsOk hs.idsBelow hs.seqAdvanced ?_ hs.recorded (by simp) ?_
    · rw [← ht, Function.update_eq_self]
      exact hs.family
    · rintro t' ht'
      cases ht'
      exact hlogs
  unfold stmtSnapshot
  split
  · exact hsame
  · exact hsame
  · refine hs.put hpending hs.rowsOk hs.idsBelow hs.seqAdvanced (hs.family.pin ht) ?_ (by simp) ?_
    · exact hs.recorded.pin
    · rintro t' ht'
      cases ht'
      exact ⟨hlogs.marks, hlogs.log, hlogs.own⟩

theorem act_fail (hs : Sound (s, h)) (ht : s.txns sid = some t) :
    Sound (s.put sid s.eng (some { t with failed := true }), h) := by
  have hlogs := hs.logs sid t ht
  refine hs.put (j := h.pending sid) (by rw [Function.update_eq_self]) hs.rowsOk hs.idsBelow
    hs.seqAdvanced ?_ hs.recorded (by simp) ?_
  · exact hs.family.keep ht rfl rfl rfl (fun _ hsave => hsave) rfl rfl rfl
  · rintro t' ht'
    cases ht'
    exact ⟨hlogs.marks, hlogs.log, hlogs.own⟩

theorem act_savepoint (hs : Sound (s, h)) (ht : s.txns sid = some t) (name : String) :
    Sound (s.put sid (txnSavepoint s.eng t name).1 (some (txnSavepoint s.eng t name).2),
      h.put sid ((h.pending sid).save name)) := by
  have hlogs := hs.logs sid t ht
  have hitems : (Journal.save name (h.pending sid)).items = (h.pending sid).items := by simp
  refine hs.put rfl hs.rowsOk hs.idsBelow hs.seqAdvanced ?_ ?_ (by simp) ?_
  · exact hs.family.savepoint ht name
  · exact (hs.recorded.put hitems).grow le_rfl rfl rfl rfl
  · rintro t' ht'
    cases ht'
    constructor
    · exact ⟨le_rfl, hlogs.marks⟩
    · rw [Journal.map_save, hlogs.log]
      exact (Journal.ofLog_save _ _ _).symm
    · intro e he
      rw [hitems] at he
      have := hlogs.own e he
      simp only [txnSavepoint, Txn.allXids, List.mem_cons, List.mem_append] at this ⊢
      tauto

theorem act_release (hs : Sound (s, h)) (ht : s.txns sid = some t) {name : String}
    {save : Savepoint} {rest : List Savepoint} (hfrom : t.fromName name = save :: rest) :
    Sound (s.put sid s.eng (some (txnRelease t rest)),
      h.put sid ((h.pending sid).release name)) := by
  have hlogs := hs.logs sid t ht
  have hmarks : t.marks.dropWhile (·.1 ≠ name)
      = (save.name, save.mark) :: rest.map fun s => (s.name, s.mark) := by
    rw [t.fromName_marks, hfrom]
    rfl
  have hitems : (Journal.release name (h.pending sid)).items = (h.pending sid).items := by simp
  have hsub : ∀ s ∈ rest, s ∈ t.savepoints := fun s hs =>
    (List.dropWhile_suffix _).subset (hfrom ▸ List.mem_cons_of_mem _ hs)
  refine hs.put rfl hs.rowsOk hs.idsBelow hs.seqAdvanced ?_ (hs.recorded.put hitems) (by simp) ?_
  · exact hs.family.keep ht rfl rfl rfl hsub rfl rfl rfl
  · rintro t' ht'
    cases ht'
    obtain ⟨hle, hrest⟩ := hlogs.marks.fromName hmarks
    constructor
    · exact hrest.mono hle
    · rw [Journal.map_release, hlogs.log]
      exact Journal.ofLog_release hlogs.marks hmarks
    · intro e he
      rw [hitems] at he
      exact hlogs.own e he

variable [DecidableEq K] [SqlValue V K]

theorem act_stmt (hs : Sound (s, h)) (ht : s.txns sid = some t) {snap : Snapshot} {st : Stmt V}
    (hmarks : ∀ v ∈ st.targets s.eng (t.ctx snap), v.xmax = 0) :
    Sound (s.put sid { (st.exec s.eng (t.ctx snap)).eng with seqAdvanced := [] }
        (some (t.logged (st.exec s.eng (t.ctx snap)))),
      h.put sid ((h.pending sid).record
        ((st.exec s.eng (t.ctx snap)).writes.map fun op => (t.writeXid, op)))) := by
  have hlogs := hs.logs sid t ht
  have hdoes := st.exec_does hs.rowsOk hs.idsBelow (t.ctx snap)
  generalize st.exec s.eng (t.ctx snap) = out at hdoes ⊢
  have hmem : t.writeXid ∈ t.allXids := hs.family.writeXid_mem ht
  have hwrite : t.writeXid ∈ s.eng.txns.active := hs.family.mem_active ht hmem
  have hseq : s.eng.seqAdvanced = [] := hs.seqAdvanced
  have hmarkers : advanceMarkers (V := V) (K := K) out.eng = [] := by
    simp [advanceMarkers, hdoes.seqAdvanced, hseq]
  have hlogged : t.logged out
      = { t with writes := t.writes ++ out.writes, failed := t.failed || out.error.isSome } := by
    unfold Txn.logged
    cases out.error <;> simp [hmarkers]
  rw [hlogged]
  refine hs.put rfl hdoes.rowsOk (hdoes.idsBelow hs.rowsOk hs.idsBelow) rfl ?_ ?_ (by simp) ?_
  · exact hs.family.keep ht rfl rfl rfl (fun _ hsave => hsave) hdoes.txns.nextXid
      hdoes.txns.active hdoes.txns.snapshots
  · have hbase := hs.recorded.extends_ hdoes.txns.nextRowId (.refl s.eng.txns)
    have hnew : ∀ op ∈ out.writes, ∀ id ∈ op.inserted, id < out.eng.txns.nextRowId ∧
        ∀ y, ¬ h.Inserted y id ∧ ¬ h.Deleted y id := by
      intro op hop id hid
      obtain ⟨hge, hlt⟩ := hdoes.fresh op hop id hid
      exact ⟨hlt, fun y => ⟨fun hy => absurd (hs.recorded.below y id (.inl hy)) (Nat.not_lt.2 hge),
        fun hy => absurd (hs.recorded.below y id (.inr hy)) (Nat.not_lt.2 hge)⟩⟩
    refine Recorded.extends_ ?_ le_rfl hdoes.txns
    exact hbase.effects hs.rowsOk.unique hdoes.effects (fun v hv => hmarks v hv.2) hwrite
      (hs.family.active_lt _ hwrite).1.ne' hnew
  · rintro t' ht'
    cases ht'
    constructor
    · exact hlogs.marks.mono (by simp)
    · rw [Journal.map_record, hlogs.log, List.map_map]
      have hsnd : out.writes.map (Prod.snd ∘ fun op => (t.writeXid, op)) = out.writes := by
        simp [Function.comp_def]
      rw [hsnd]
      exact (Journal.ofLog_append hlogs.marks out.writes).symm
    · intro e he
      rw [Journal.items_record, List.mem_append] at he
      rcases he with he | he
      · exact hlogs.own e he
      · obtain ⟨op, -, rfl⟩ := List.mem_map.1 he
        exact hmem

omit [DecidableEq K] [SqlValue V K] in
/-- An open transaction has logged row and index operations only, and marked unmarked versions. -/
theorem kind_of_mem (hs : Sound (s, h)) (ht : s.txns sid = some t) :
    ∀ op ∈ t.writes, op.KeepsTables ∧ op.Unmarked := by
  intro op hop
  rw [← (hs.logs sid t ht).items] at hop
  obtain ⟨e, he, rfl⟩ := List.mem_map.1 hop
  obtain ⟨hkeeps, hun, -⟩ := hs.recorded.kind e (.of_mem he)
  exact ⟨hkeeps, hun⟩

omit [DecidableEq K] [SqlValue V K] in
theorem exists_mem_map {es : List (Logged V K)} (p : WriteOp V K → Prop) :
    (∃ op ∈ es.map Prod.snd, p op) ↔ ∃ e ∈ es, p e.2 := by
  constructor
  · rintro ⟨op, hop, hp⟩
    obtain ⟨e, he, rfl⟩ := List.mem_map.1 hop
    exact ⟨e, he, hp⟩
  · rintro ⟨e, he, hp⟩
    exact ⟨e.2, List.mem_map_of_mem he, hp⟩

/-- What undo leaves of the heap, for the operations that a session forgets. -/
theorem undo (hs : Sound (s, h)) (ht : s.txns sid = some t) {kept dropped : List (Logged V K)}
    {j : Journal (Logged V K)} (hitems : (h.pending sid).items = kept ++ dropped)
    (hj : j.items = kept) :
    (s.eng.undoAll t.allXids (dropped.map Prod.snd)).db.RowsOk ∧
      (s.eng.undoAll t.allXids (dropped.map Prod.snd)).IdsBelow ∧
      Recorded (s.eng.undoAll t.allXids (dropped.map Prod.snd)).db.rowAt s.eng.txns.nextRowId
        s.eng.txns (h.put sid j) := by
  have hkind : ∀ op ∈ dropped.map Prod.snd, op.KeepsTables ∧ op.Unmarked := by
    intro op hop
    obtain ⟨e, he, rfl⟩ := List.mem_map.1 hop
    have hmem : e ∈ (h.pending sid).items := by rw [hitems]; exact List.mem_append_right _ he
    obtain ⟨hkeeps, hun, -⟩ := hs.recorded.kind e (.of_mem hmem)
    exact ⟨hkeeps, hun⟩
  have hheap := Engine.rowAt_undoAll hs.rowsOk (fun op hop => (hkind op hop).1)
    (fun op hop => (hkind op hop).2) t.allXids
  refine ⟨Engine.undoAll_rowsOk hs.rowsOk (fun op hop => (hkind op hop).1) _, ?_, ?_⟩
  · intro loc id r hr
    rw [hheap, Option.bind_eq_some_iff] at hr
    obtain ⟨v, hv, -⟩ := hr
    rw [Engine.undoAll_txns]
    exact hs.idsBelow loc id v hv
  · exact hs.recorded.undo hitems hj (hs.logs sid t ht).own (fun sid' hne e he => hs.others ht hne he)
      (fun e he => hs.done_ended ht he) (fun id => exists_mem_map fun op => id ∈ op.inserted)
      (fun id => exists_mem_map fun op => id ∈ op.deleted) hheap

theorem txnRollbackTo_writes (eng : Engine V K) {t : Txn V K} {save : Savepoint}
    {rest : List Savepoint}
    (hne : ∀ op ∈ t.writes.drop save.mark, ∀ name, op ≠ .seqAdvance name) :
    (txnRollbackTo eng t save rest).2.writes = t.writes.take save.mark := by
  simp only [txnRollbackTo]
  rw [List.append_right_eq_self, List.filter_eq_nil_iff]
  intro op hop
  split
  · next name => exact absurd rfl (hne _ hop name)
  · simp

theorem act_rollbackTo (hs : Sound (s, h)) (ht : s.txns sid = some t) {name : String}
    {save : Savepoint} {rest : List Savepoint} (hfrom : t.fromName name = save :: rest) :
    Sound (s.put sid (txnRollbackTo s.eng t save rest).1 (some (txnRollbackTo s.eng t save rest).2),
      h.put sid ((h.pending sid).rollbackTo name)) := by
  have hlogs := hs.logs sid t ht
  have hmarks : t.marks.dropWhile (·.1 ≠ name)
      = (save.name, save.mark) :: rest.map fun s => (s.name, s.mark) := by
    rw [t.fromName_marks, hfrom]
    rfl
  obtain ⟨hle, hrest⟩ := hlogs.marks.fromName hmarks
  obtain ⟨dropped, hitems⟩ := Journal.items_rollbackTo name (h.pending sid)
  -- the log is cut where the journal is
  have hlog : ((h.pending sid).rollbackTo name).map Prod.snd
      = Journal.ofLog (t.writes.take save.mark) ((save.name, save.mark) :: rest.map fun s => (s.name, s.mark)) := by
    rw [Journal.map_rollbackTo, hlogs.log]
    exact Journal.ofLog_rollbackTo hlogs.marks hmarks
  have hkept : ((h.pending sid).rollbackTo name).items.map Prod.snd = t.writes.take save.mark := by
    rw [← Journal.items_map, hlog, Journal.items_ofLog]
  have hdropped : dropped.map Prod.snd = t.writes.drop save.mark := by
    have hall := hlogs.items
    rw [← hitems, List.map_append, hkept] at hall
    exact List.append_cancel_left (hall.trans (List.take_append_drop save.mark t.writes).symm)
  obtain ⟨hrows, hids, hrecorded⟩ := hs.undo ht hitems.symm rfl
  rw [hdropped] at hrows hids hrecorded
  have hwrites : (txnRollbackTo s.eng t save rest).2.writes = t.writes.take save.mark := by
    refine txnRollbackTo_writes s.eng fun op hop => ?_
    rw [← hdropped] at hop
    obtain ⟨e, he, rfl⟩ := List.mem_map.1 hop
    have hmem : e ∈ (h.pending sid).items := by rw [← hitems]; exact List.mem_append_right _ he
    exact (hs.recorded.kind e (.of_mem hmem)).2.2
  have hseq : (txnRollbackTo s.eng t save rest).1.seqAdvanced = [] := by
    simpa [txnRollbackTo] using hs.seqAdvanced
  have hdb : (txnRollbackTo s.eng t save rest).1.db
      = (s.eng.undoAll t.allXids (t.writes.drop save.mark)).db := rfl
  have hids' : (txnRollbackTo s.eng t save rest).1.IdsBelow := by
    intro loc id r hr
    have hlt := hids loc id r hr
    rw [Engine.undoAll_txns] at hlt
    rw [txnRollbackTo_txns]
    exact hlt
  refine hs.put rfl hrows hids' hseq ?_ ?_ (by simp) ?_
  · exact hs.family.rollbackTo ht hfrom
  · rw [txnRollbackTo_txns, hdb]
    exact hrecorded.grow le_rfl rfl rfl rfl
  · rintro t' ht'
    cases ht'
    have hlen : (t.writes.take save.mark).length = save.mark := by
      simp only [List.length_take]
      exact Nat.min_eq_left hle
    constructor
    · rw [hwrites, hlen]
      exact ⟨le_rfl, hrest⟩
    · rw [hwrites]
      exact hlog
    · intro e he
      have hmem : e ∈ (h.pending sid).items := by rw [← hitems]; exact List.mem_append_left _ he
      have := hlogs.own e hmem
      simp only [txnRollbackTo, Txn.allXids, List.mem_cons, List.mem_append] at this ⊢
      tauto

theorem act_abort (hs : Sound (s, h)) (ht : s.txns sid = some t) :
    Sound (s.put sid (retireTxnFamily (s.eng.undoAll t.allXids t.writes) t) none, h.put sid []) := by
  have hitems := (hs.logs sid t ht).items
  obtain ⟨hrows, hids, hrecorded⟩ := hs.undo ht (List.nil_append _).symm Journal.items_nil
  rw [hitems] at hrows hids hrecorded
  have hfamily : Family (s.eng.undoAll t.allXids t.writes).txns s.txns := by
    rw [Engine.undoAll_txns]
    exact hs.family
  have hseq : (retireTxnFamily (s.eng.undoAll t.allXids t.writes) t).seqAdvanced = [] := by
    simpa [retireTxnFamily, retireTxn] using hs.seqAdvanced
  refine hs.put rfl hrows ?_ hseq (hfamily.retire ht) ?_ (fun _ => rfl) (by simp)
  · intro loc id r hr
    rw [nextRowId_retire]
    exact hids loc id r hr
  · rw [nextRowId_retire, Engine.undoAll_txns]
    have hnone : ((h.put sid []).pending sid).items = [] := by simp [History.put]
    refine hrecorded.retire hnone (fun sid' hne e he => (?_ : e.1 ∉ t.allXids)) ?_ ?_ ?_
    · exact hs.others ht hne (by simpa [History.put, hne] using he)
    · rw [nextXid_retire, Engine.undoAll_txns]
    · intro x
      rw [mem_active_retire, Engine.undoAll_txns]
    · intro snap hsnap
      have := values_retire _ _ hsnap
      rwa [Engine.undoAll_txns] at this

omit [DecidableEq K] [SqlValue V K] in
theorem act_commit (hs : Sound (s, h)) (ht : s.txns sid = some t) :
    Sound (s.put sid (retireTxnFamily s.eng t) none,
      { h.put sid [] with done := h.done ++ (h.pending sid).items }) := by
  refine hs.put rfl hs.rowsOk ?_ hs.seqAdvanced (hs.family.retire ht) ?_ (fun _ => rfl) (by simp)
  · intro loc id r hr
    rw [nextRowId_retire]
    exact hs.idsBelow loc id r hr
  · rw [nextRowId_retire]
    exact hs.recorded.commit (hs.logs sid t ht).own (fun sid' hne e he => hs.others ht hne he)
      (fun x hx => (hs.family.active_lt x hx).2) (nextXid_retire ..)
      (fun x => mem_active_retire ..) fun snap hsnap => values_retire _ _ hsnap

theorem act_vacuum (hs : Sound (s, h)) (table : String) :
    Sound ({ s with eng := s.eng.vacuumTable table }, h) where
  rowsOk := Engine.vacuumTable_rowsOk hs.rowsOk table
  idsBelow loc id r hr := by
    rw [Engine.rowAt_vacuumTable hs.rowsOk, Option.filter_eq_some_iff] at hr
    exact hs.idsBelow loc id r hr.1
  seqAdvanced := hs.seqAdvanced
  family := hs.family
  recorded := hs.recorded.vacuum (p := fun loc => loc.1 = table)
    fun loc id => Engine.rowAt_vacuumTable hs.rowsOk table loc id
  idle := hs.idle
  logs := hs.logs

/-- Every action keeps the agreement. -/
theorem step {c c' : Sys V K × History V K} {a : Act V} (hs : Sound c)
    (hmarks : OverwritesNoMark c.1 a) (hstep : track c a = some c') : Sound c' := by
  obtain ⟨s, h⟩ := c
  obtain ⟨s', hact, rfl⟩ := Option.map_eq_some_iff.1 hstep
  cases a with
  | begin sid level =>
    cases ht : s.txns sid with
    | some t => simp [Sys.act, ht] at hact
    | none =>
      obtain rfl : s.put sid _ _ = s' := by simpa [Sys.act, ht] using hact
      exact hs.act_begin level ht
  | pin sid =>
    obtain ⟨t, ht, rfl⟩ := Option.map_eq_some_iff.1 hact
    exact hs.act_pin ht
  | stmt sid st =>
    obtain ⟨t, ht, hstmt⟩ := Option.bind_eq_some_iff.1 hact
    obtain ⟨snap, hsnap, rfl⟩ := Option.map_eq_some_iff.1 hstmt
    have hafter : (h.after s (.stmt sid st)) = h.put sid ((h.pending sid).record
        ((st.exec s.eng (t.ctx snap)).writes.map fun op => (t.writeXid, op))) := by
      simp only [History.after, show s.txns sid = some t from ht,
        show t.readSnapshot s.eng = some snap from hsnap, Option.bind_some, Option.map_some]
      rfl
    rw [hafter]
    exact hs.act_stmt ht (hmarks t snap ht hsnap)
  | fail sid =>
    obtain ⟨t, ht, rfl⟩ := Option.map_eq_some_iff.1 hact
    exact hs.act_fail ht
  | savepoint sid name =>
    obtain ⟨t, ht, rfl⟩ := Option.map_eq_some_iff.1 hact
    exact hs.act_savepoint ht name
  | rollbackTo sid name =>
    obtain ⟨t, ht, hroll⟩ := Option.bind_eq_some_iff.1 hact
    cases hfrom : t.fromName name with
    | nil => simp [hfrom] at hroll
    | cons save rest =>
      obtain rfl : s.put sid _ _ = s' := by simpa [hfrom] using hroll
      exact hs.act_rollbackTo ht hfrom
  | release sid name =>
    obtain ⟨t, ht, hrel⟩ := Option.bind_eq_some_iff.1 hact
    cases hfrom : t.fromName name with
    | nil => simp [hfrom] at hrel
    | cons save rest =>
      obtain rfl : s.put sid _ _ = s' := by simpa [hfrom] using hrel
      exact hs.act_release ht hfrom
  | commit sid =>
    obtain ⟨t, ht, hcommit⟩ := Option.bind_eq_some_iff.1 hact
    cases hrecords : recordsForCommit s.eng t.xid t.writes with
    | error msg => simp [hrecords] at hcommit
    | ok records =>
      simp only [hrecords, Option.some.injEq] at hcommit
      have hput := hs.act_commit ht
      subst hcommit
      exact ⟨hput.rowsOk, hput.idsBelow, hput.seqAdvanced, hput.family, hput.recorded, hput.idle,
        hput.logs⟩
  | abort sid =>
    obtain ⟨t, ht, rfl⟩ := Option.map_eq_some_iff.1 hact
    exact hs.act_abort ht
  | vacuum table =>
    obtain rfl : { s with eng := s.eng.vacuumTable table } = s' := by simpa [Sys.act] using hact
    exact hs.act_vacuum table

/-- Every run of actions that write over no mark keeps the agreement. -/
theorem runs {c c' : Sys V K × History V K} {as : List (Act V)} (hs : Sound c)
    (hmarks : run.Along track (fun c a => OverwritesNoMark c.1 a) c as)
    (hrun : run track c as = some c') : Sound c' :=
  run.inv_along Sound (fun _ _ _ hs hm hstep => hs.step hm hstep) hmarks hs hrun

end Sound

end Backend
