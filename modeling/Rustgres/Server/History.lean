-- SUMMARY: Which changes of a run are committed, and which are pending, as the commands define it.
import Rustgres.Exec.RowEffects
import Rustgres.Lib.Journal
import Rustgres.Server.Actions

/-!
# Histories

The history of a run is kept apart from the engine: the changes that committed transactions made,
and for every session the journal of the open one. A rollback to a savepoint forgets the changes
made since, a rollback all of them.
-/

namespace Backend

variable {V K : Type}

/-- A logged change, with the id that it was stamped with. -/
abbrev Logged (V K : Type) := Xid × WriteOp V K

structure History (V K : Type) where
  done : List (Logged V K)
  pending : Sid → Journal (Logged V K)

namespace History

variable (h : History V K)

/-- The change was made and has not been undone. -/
def Holds (e : Logged V K) : Prop := e ∈ h.done ∨ ∃ sid, e ∈ (h.pending sid).items

/-- `x` inserted the version `id`. -/
def Inserted (x : Xid) (id : RowId) : Prop := ∃ op, h.Holds (x, op) ∧ id ∈ op.inserted

/-- `x` deleted the version `id`. -/
def Deleted (x : Xid) (id : RowId) : Prop := ∃ op, h.Holds (x, op) ∧ id ∈ op.deleted

/-- `x` inserted the version `id` and has committed that. -/
def DoneInserted (x : Xid) (id : RowId) : Prop := ∃ op, (x, op) ∈ h.done ∧ id ∈ op.inserted

def DoneDeleted (x : Xid) (id : RowId) : Prop := ∃ op, (x, op) ∈ h.done ∧ id ∈ op.deleted

/-- Replace the journal of a session. -/
def put (sid : Sid) (j : Journal (Logged V K)) : History V K :=
  { h with pending := Function.update h.pending sid j }

variable [DecidableEq K] [SqlValue V K]

/-- The history after an action in the state `s`. -/
def after (s : Sys V K) : Act V → History V K
  | .stmt sid st =>
    match (s.txns sid).bind fun t => (t.readSnapshot s.eng).map fun snap => t.ctx snap with
    | none => h
    | some ctx =>
      h.put sid ((h.pending sid).record
        ((Stmt.exec s.eng ctx st).writes.map fun op => (ctx.writeXid, op)))
  | .savepoint sid name => h.put sid ((h.pending sid).save name)
  | .rollbackTo sid name => h.put sid ((h.pending sid).rollbackTo name)
  | .release sid name => h.put sid ((h.pending sid).release name)
  | .commit sid => { h.put sid [] with done := h.done ++ (h.pending sid).items }
  | .abort sid => h.put sid []
  | .begin .. | .pin _ | .fail _ | .vacuum _ => h

end History

/-- An action in the system, and in the history. -/
def track [DecidableEq K] [SqlValue V K] (c : Sys V K × History V K) (a : Act V) :
    Option (Sys V K × History V K) :=
  (c.1.act a).map fun s => (s, c.2.after c.1 a)

/-- A command of a session in the system, and in the history. -/
def trackCmd [DecidableEq K] [SqlValue V K] (c : Sys V K × History V K) (i : Sid × Cmd V) :
    Option (Sys V K × History V K) :=
  run track c (c.1.acts i)

section

variable [DecidableEq K] [SqlValue V K]

theorem run_track_fst {c : Sys V K × History V K} {as : List (Act V)} :
    (run track c as).map Prod.fst = run Sys.act c.1 as := by
  induction as generalizing c with
  | nil => rfl
  | cons a as ih =>
    simp only [run.cons, track]
    cases c.1.act a with
    | none => rfl
    | some s => exact ih

/-- The history goes along with every run of the system. -/
theorem trackCmd_fst (c : Sys V K × History V K) (i : Sid × Cmd V) :
    (trackCmd c i).map Prod.fst = c.1.step i := by
  rw [trackCmd, run_track_fst, run_acts]
  rfl

end

/-! ## Transaction ids in use -/

/-- The snapshot was taken no later than now: what runs now had not ended then. -/
def Before (snap : Snapshot) (m : TxnManager) : Prop :=
  snap.nextXid ≤ m.nextXid ∧ ∀ x ∈ m.active, ¬ snap.Ended x

/-- The open transactions run, each under ids of its own. -/
structure Family (m : TxnManager) (txns : Sid → Option (Txn V K)) : Prop where
  pos : 0 < m.nextXid
  active_lt : ∀ x ∈ m.active, 0 < x ∧ x < m.nextXid
  runs : ∀ sid t x, txns sid = some t → x ∈ t.allXids → x ∈ m.active
  disjoint : ∀ sid sid' t t' x, txns sid = some t → txns sid' = some t' → x ∈ t.allXids →
    x ∈ t'.allXids → sid = sid'
  sub : ∀ sid t, txns sid = some t → ∀ save ∈ t.savepoints, save.subXid ∈ t.ownedXids
  pinned : ∀ sid t snap, txns sid = some t → t.snapshot = some snap →
    m.snapshots.lookup t.xid = some snap
  running : ∀ snap ∈ m.snapshots.values, Before snap m

namespace Family

variable {m m' : TxnManager} {txns : Sid → Option (Txn V K)} {sid : Sid} {t t' : Txn V K}

theorem mem_active (h : Family m txns) (ht : txns sid = some t) {x : Xid} (hx : x ∈ t.allXids) :
    x ∈ m.active :=
  h.runs sid t x ht hx

theorem writeXid_mem (h : Family m txns) (ht : txns sid = some t) : t.writeXid ∈ t.allXids := by
  unfold Txn.writeXid Txn.allXids
  cases hsaves : t.savepoints with
  | nil => simp
  | cons save rest =>
    have := h.sub sid t ht save (by simp [hsaves])
    simp [this]

theorem before_takeSnapshot (m : TxnManager) : Before m.takeSnapshot m :=
  ⟨le_rfl, fun _ hx hended => hended.2 hx⟩

/-- The ids of the transaction stay; its snapshot may change. -/
theorem update (h : Family m txns) (ht : txns sid = some t) (hxid : t'.xid = t.xid)
    (howned : t'.ownedXids = t.ownedXids) (hsaves : ∀ save ∈ t'.savepoints, save ∈ t.savepoints)
    (hnext : m'.nextXid = m.nextXid) (hactive : m'.active = m.active)
    (hpin : ∀ snap, t'.snapshot = some snap → m'.snapshots.lookup t'.xid = some snap)
    (hothers : ∀ x, x ∉ t.allXids → m'.snapshots.lookup x = m.snapshots.lookup x)
    (hvalues : ∀ snap ∈ m'.snapshots.values, Before snap m) :
    Family m' (Function.update txns sid (some t')) := by
  have hall : t'.allXids = t.allXids := by simp [Txn.allXids, hxid, howned]
  have hlook : ∀ sid₁ t₁, Function.update txns sid (some t') sid₁ = some t₁ →
      ∃ t₀, txns sid₁ = some t₀ ∧ t₁.allXids = t₀.allXids ∧ t₁.ownedXids = t₀.ownedXids ∧
        ∀ save ∈ t₁.savepoints, save ∈ t₀.savepoints := by
    intro sid₁ t₁ h₁
    by_cases hsid : sid₁ = sid
    · subst hsid
      obtain rfl : t' = t₁ := by simpa using h₁
      exact ⟨t, ht, hall, howned, hsaves⟩
    · exact ⟨t₁, by simpa [hsid] using h₁, rfl, rfl, fun _ hs => hs⟩
  constructor
  · rw [hnext]; exact h.pos
  · rw [hnext, hactive]; exact h.active_lt
  · intro sid₁ t₁ x h₁ hx
    obtain ⟨t₀, h₀, heq, -⟩ := hlook sid₁ t₁ h₁
    rw [hactive]
    exact h.runs sid₁ t₀ x h₀ (heq ▸ hx)
  · intro sid₁ sid₂ t₁ t₂ x h₁ h₂ hx₁ hx₂
    obtain ⟨t₁', h₁', heq₁, -⟩ := hlook sid₁ t₁ h₁
    obtain ⟨t₂', h₂', heq₂, -⟩ := hlook sid₂ t₂ h₂
    exact h.disjoint sid₁ sid₂ t₁' t₂' x h₁' h₂' (heq₁ ▸ hx₁) (heq₂ ▸ hx₂)
  · intro sid₁ t₁ h₁ save hsave
    obtain ⟨t₀, h₀, -, hown, hsaves⟩ := hlook sid₁ t₁ h₁
    rw [hown]
    exact h.sub sid₁ t₀ h₀ save (hsaves save hsave)
  · intro sid₁ t₁ snap h₁ hs
    by_cases hsid : sid₁ = sid
    · subst hsid
      obtain rfl : t' = t₁ := by simpa using h₁
      exact hpin snap hs
    · have h₁' : txns sid₁ = some t₁ := by simpa [hsid] using h₁
      have hnot : t₁.xid ∉ t.allXids := fun hx =>
        hsid (h.disjoint _ _ _ _ _ h₁' ht (List.mem_cons_self ..) hx)
      rw [hothers _ hnot]
      exact h.pinned sid₁ t₁ snap h₁' hs
  · intro snap hs
    obtain ⟨hle, hrun⟩ := hvalues snap hs
    exact ⟨hnext ▸ hle, hactive ▸ hrun⟩

/-- Nothing of the transaction that concerns ids changes. -/
theorem keep (h : Family m txns) (ht : txns sid = some t) (hxid : t'.xid = t.xid)
    (howned : t'.ownedXids = t.ownedXids) (hsnap : t'.snapshot = t.snapshot)
    (hsaves : ∀ save ∈ t'.savepoints, save ∈ t.savepoints) (hnext : m'.nextXid = m.nextXid)
    (hactive : m'.active = m.active) (hsnaps : m'.snapshots = m.snapshots) :
    Family m' (Function.update txns sid (some t')) := by
  apply h.update ht hxid howned hsaves hnext hactive
  · intro snap hs
    rw [hsnaps, hxid]
    exact h.pinned sid t snap ht (hsnap ▸ hs)
  · intro x _
    rw [hsnaps]
  · rw [hsnaps]
    exact h.running

/-- The transaction registers its snapshot. -/
theorem pin (h : Family m txns) (ht : txns sid = some t) :
    Family (m.registerSnapshot t.xid m.takeSnapshot)
      (Function.update txns sid (some { t with snapshot := some m.takeSnapshot })) := by
  refine h.update ht ?_ ?_ ?_ ?_ ?_ ?_ ?_ ?_ <;> try rfl
  · exact fun _ hs => hs
  · intro snap hs
    obtain rfl : m.takeSnapshot = snap := by simpa using hs
    exact AList.lookup_insert _
  · intro x hx
    have hne : x ≠ t.xid := fun heq => hx (heq ▸ List.mem_cons_self ..)
    exact AList.lookup_insert_ne hne
  · intro snap hs
    obtain ⟨x, hx⟩ := Dict.mem_values.1 hs
    by_cases hxid : x = t.xid
    · subst hxid
      simp only [TxnManager.registerSnapshot, AList.lookup_insert, Option.some.injEq] at hx
      exact hx ▸ before_takeSnapshot m
    · simp only [TxnManager.registerSnapshot, AList.lookup_insert_ne hxid] at hx
      exact h.running snap (Dict.mem_values.2 ⟨x, hx⟩)

/-- A new id for a transaction, which may be new itself. -/
theorem grow (h : Family m txns)
    (hall : ∀ x, x ∈ t'.allXids ↔ x = m.nextXid ∨ ∃ t, txns sid = some t ∧ x ∈ t.allXids)
    (hsub : ∀ save ∈ t'.savepoints, save.subXid ∈ t'.ownedXids)
    (hpin : ∀ snap, t'.snapshot = some snap → m.snapshots.lookup t'.xid = some snap)
    (hnext : m'.nextXid = m.nextXid + 1) (hactive : m'.active = insert m.nextXid m.active)
    (hsnaps : m'.snapshots = m.snapshots) : Family m' (Function.update txns sid (some t')) := by
  have hfresh : ∀ sid t, txns sid = some t → m.nextXid ∉ t.allXids := fun sid t ht hx =>
    absurd (h.active_lt _ (h.mem_active ht hx)).2 (lt_irrefl _)
  -- the family of any session, before
  have hlook : ∀ sid₁ t₁ x, Function.update txns sid (some t') sid₁ = some t₁ → x ∈ t₁.allXids →
      (sid₁ = sid ∧ x = m.nextXid) ∨ ∃ t₀, txns sid₁ = some t₀ ∧ x ∈ t₀.allXids := by
    intro sid₁ t₁ x h₁ hx
    by_cases hsid : sid₁ = sid
    · subst hsid
      obtain rfl : t' = t₁ := by simpa using h₁
      exact ((hall x).1 hx).imp_left fun h => ⟨rfl, h⟩
    · exact .inr ⟨t₁, by simpa [hsid] using h₁, hx⟩
  have hlt : m.nextXid < m'.nextXid := by rw [hnext]; exact Nat.lt_succ_self _
  constructor
  · exact h.pos.trans hlt
  · intro x hx
    rw [hactive, Finset.mem_insert] at hx
    rcases hx with rfl | hx
    · exact ⟨h.pos, hlt⟩
    · exact (h.active_lt x hx).imp_right (·.trans hlt)
  · intro sid₁ t₁ x h₁ hx
    rw [hactive, Finset.mem_insert]
    rcases hlook sid₁ t₁ x h₁ hx with ⟨-, rfl⟩ | ⟨t₀, h₀, hx₀⟩
    · exact .inl rfl
    · exact .inr (h.runs sid₁ t₀ x h₀ hx₀)
  · intro sid₁ sid₂ t₁ t₂ x h₁ h₂ hx₁ hx₂
    rcases hlook sid₁ t₁ x h₁ hx₁ with ⟨rfl, rfl⟩ | ⟨t₁', h₁', hx₁'⟩
    · rcases hlook sid₂ t₂ _ h₂ hx₂ with ⟨rfl, -⟩ | ⟨t₂', h₂', hx₂'⟩
      · rfl
      · exact absurd hx₂' (hfresh _ _ h₂')
    · rcases hlook sid₂ t₂ x h₂ hx₂ with ⟨rfl, rfl⟩ | ⟨t₂', h₂', hx₂'⟩
      · exact absurd hx₁' (hfresh _ _ h₁')
      · exact h.disjoint sid₁ sid₂ t₁' t₂' x h₁' h₂' hx₁' hx₂'
  · intro sid₁ t₁ h₁ save hsave
    by_cases hsid : sid₁ = sid
    · subst hsid
      obtain rfl : t' = t₁ := by simpa using h₁
      exact hsub save hsave
    · exact h.sub sid₁ t₁ (by simpa [hsid] using h₁) save hsave
  · intro sid₁ t₁ snap h₁ hs
    rw [hsnaps]
    by_cases hsid : sid₁ = sid
    · subst hsid
      obtain rfl : t' = t₁ := by simpa using h₁
      exact hpin snap hs
    · exact h.pinned sid₁ t₁ snap (by simpa [hsid] using h₁) hs
  · rw [hsnaps]
    intro snap hs
    obtain ⟨hle, hrun⟩ := h.running snap hs
    refine ⟨hle.trans hlt.le, fun x hx hended => ?_⟩
    rw [hactive, Finset.mem_insert] at hx
    rcases hx with rfl | hx
    · exact absurd hended.1 (Nat.not_lt.2 hle)
    · exact hrun x hx hended

end Family

section

variable (eng : Engine V K) (t : Txn V K)

theorem mem_active_retire {x : Xid} :
    x ∈ (retireTxnFamily eng t).txns.active ↔ x ∈ eng.txns.active ∧ x ∉ t.allXids := by
  simp only [retireTxnFamily, retireTxn, TxnManager.releaseTxnLocks, TxnManager.endTxn,
    Finset.mem_erase, (TxnManager.foldl_endTxn t.ownedXids).1, Txn.allXids, List.mem_cons]
  tauto

theorem lookup_retire {x : Xid} (hx : x ∉ t.allXids) :
    (retireTxnFamily eng t).txns.snapshots.lookup x = eng.txns.snapshots.lookup x := by
  simp only [Txn.allXids, List.mem_cons, not_or] at hx
  have hother : x ≠ t.xid := hx.1
  simp only [retireTxnFamily, retireTxn, TxnManager.releaseTxnLocks, TxnManager.endTxn,
    AList.lookup_erase_ne hother, (TxnManager.foldl_endTxn t.ownedXids).2.1 x hx.2]

theorem values_retire {snap : Snapshot}
    (hs : snap ∈ (retireTxnFamily eng t).txns.snapshots.values) :
    snap ∈ eng.txns.snapshots.values := by
  obtain ⟨x, hx⟩ := Dict.mem_values.1 hs
  refine (TxnManager.foldl_endTxn t.ownedXids).2.2.1 snap (Dict.mem_values.2 ⟨x, ?_⟩)
  by_cases hxid : x = t.xid
  · subst hxid
    simp [retireTxnFamily, retireTxn, TxnManager.releaseTxnLocks, TxnManager.endTxn] at hx
  · simpa [retireTxnFamily, retireTxn, TxnManager.releaseTxnLocks, TxnManager.endTxn,
      AList.lookup_erase_ne hxid] using hx

@[simp]
theorem nextXid_retire : (retireTxnFamily eng t).txns.nextXid = eng.txns.nextXid :=
  (TxnManager.foldl_endTxn t.ownedXids).2.2.2.1

@[simp]
theorem nextRowId_retire : (retireTxnFamily eng t).txns.nextRowId = eng.txns.nextRowId :=
  (TxnManager.foldl_endTxn t.ownedXids).2.2.2.2

@[simp]
theorem db_retire : (retireTxnFamily eng t).db = eng.db := rfl

end

theorem Family.retire {eng : Engine V K} {txns : Sid → Option (Txn V K)} {sid : Sid} {t : Txn V K}
    (h : Family eng.txns txns) (ht : txns sid = some t) :
    Family (retireTxnFamily eng t).txns (Function.update txns sid none) := by
  have hother : ∀ sid₁ t₁, Function.update txns sid none sid₁ = some t₁ →
      sid₁ ≠ sid ∧ txns sid₁ = some t₁ := by
    intro sid₁ t₁ h₁
    by_cases hsid : sid₁ = sid
    · simp [hsid] at h₁
    · exact ⟨hsid, by simpa [hsid] using h₁⟩
  constructor
  · rw [nextXid_retire]; exact h.pos
  · intro x hx
    rw [nextXid_retire]
    exact h.active_lt x ((mem_active_retire ..).1 hx).1
  · intro sid₁ t₁ x h₁ hx
    obtain ⟨hsid, h₁⟩ := hother sid₁ t₁ h₁
    rw [mem_active_retire]
    exact ⟨h.runs sid₁ t₁ x h₁ hx, fun hx' => hsid (h.disjoint _ _ _ _ x h₁ ht hx hx')⟩
  · intro sid₁ sid₂ t₁ t₂ x h₁ h₂
    exact h.disjoint sid₁ sid₂ t₁ t₂ x (hother _ _ h₁).2 (hother _ _ h₂).2
  · intro sid₁ t₁ h₁
    exact h.sub sid₁ t₁ (hother _ _ h₁).2
  · intro sid₁ t₁ snap h₁ hs
    obtain ⟨hsid, h₁⟩ := hother sid₁ t₁ h₁
    rw [lookup_retire]
    · exact h.pinned sid₁ t₁ snap h₁ hs
    · exact fun hx => hsid (h.disjoint _ _ _ _ t₁.xid h₁ ht (List.mem_cons_self ..) hx)
  · intro snap hs
    obtain ⟨hle, hrun⟩ := h.running snap (values_retire eng t hs)
    exact ⟨by rw [nextXid_retire]; exact hle,
      fun x hx => hrun x ((mem_active_retire ..).1 hx).1⟩

/-- Ids that belong to no transaction come and go. -/
theorem Family.bump {m m' : TxnManager} {txns : Sid → Option (Txn V K)} (h : Family m txns)
    (hnext : m.nextXid ≤ m'.nextXid) (hsub : m.active ⊆ m'.active)
    (hnew : ∀ x ∈ m'.active, x ∈ m.active ∨ m.nextXid ≤ x ∧ x < m'.nextXid)
    (hlook : ∀ x < m.nextXid, m'.snapshots.lookup x = m.snapshots.lookup x)
    (hvalues : ∀ snap ∈ m'.snapshots.values, snap ∈ m.snapshots.values) : Family m' txns where
  pos := h.pos.trans_le hnext
  active_lt x hx := by
    rcases hnew x hx with hold | ⟨hge, hlt⟩
    · exact (h.active_lt x hold).imp_right (·.trans_le hnext)
    · exact ⟨h.pos.trans_le hge, hlt⟩
  runs sid t x ht hx := hsub (h.runs sid t x ht hx)
  disjoint := h.disjoint
  sub := h.sub
  pinned sid t snap ht hsnap := by
    rw [hlook _ (h.active_lt _ (h.mem_active ht (List.mem_cons_self ..))).2]
    exact h.pinned sid t snap ht hsnap
  running snap hs := by
    obtain ⟨hle, hrun⟩ := h.running snap (hvalues snap hs)
    refine ⟨hle.trans hnext, fun x hx => ?_⟩
    rcases hnew x hx with hold | ⟨hge, -⟩
    · exact hrun x hold
    · exact fun hended => absurd hended.1 (Nat.not_lt.2 (hle.trans hge))

/-- A new transaction. -/
theorem Family.beginTxn {eng : Engine V K} {txns : Sid → Option (Txn V K)} {sid : Sid}
    (h : Family eng.txns txns) (hsid : txns sid = none) (level : IsolationLevel) :
    Family (Backend.beginTxn eng level).1.txns
      (Function.update txns sid (some (Backend.beginTxn eng level).2)) := by
  refine h.grow ?_ ?_ ?_ rfl rfl rfl
  · intro x
    simp [Backend.beginTxn, TxnManager.beginTxn, TxnManager.allocXid, Txn.allXids, hsid]
  · simp [Backend.beginTxn]
  · simp [Backend.beginTxn]

/-- A savepoint has a new id. -/
theorem Family.savepoint {eng : Engine V K} {txns : Sid → Option (Txn V K)} {sid : Sid}
    {t : Txn V K} (h : Family eng.txns txns) (ht : txns sid = some t) (name : String) :
    Family (txnSavepoint eng t name).1.txns
      (Function.update txns sid (some (txnSavepoint eng t name).2)) := by
  refine h.grow ?_ ?_ ?_ rfl rfl rfl
  · intro x
    simp [txnSavepoint, TxnManager.beginTxn, TxnManager.allocXid, Txn.allXids, ht]
    tauto
  · intro save hsave
    simp only [txnSavepoint, TxnManager.beginTxn, TxnManager.allocXid, List.mem_cons] at hsave ⊢
    rcases hsave with rfl | hsave
    · simp
    · simp [h.sub sid t ht save hsave]
  · exact fun snap hsnap => h.pinned sid t snap ht hsnap

/-- The shared state after a rollback to a savepoint: one more id, and fewer locks. -/
theorem txnRollbackTo_txns [DecidableEq K] [SqlValue V K] (eng : Engine V K) (t : Txn V K)
    (save : Savepoint) (rest : List Savepoint) :
    (txnRollbackTo eng t save rest).1.txns
      = (eng.txns.releaseLocksAfter t.xid save.locks).beginTxn.2 := by
  simp [txnRollbackTo]

/-- A savepoint that was rolled back to has a new id. -/
theorem Family.rollbackTo [DecidableEq K] [SqlValue V K] {eng : Engine V K}
    {txns : Sid → Option (Txn V K)} {sid : Sid} {t : Txn V K} (h : Family eng.txns txns)
    (ht : txns sid = some t) {name : String} {save : Savepoint} {rest : List Savepoint}
    (hfrom : t.fromName name = save :: rest) :
    Family (txnRollbackTo eng t save rest).1.txns
      (Function.update txns sid (some (txnRollbackTo eng t save rest).2)) := by
  have hsub : ∀ s ∈ rest, s.subXid ∈ t.ownedXids := fun s hmem =>
    h.sub sid t ht s ((List.dropWhile_suffix _).subset (hfrom ▸ List.mem_cons_of_mem _ hmem))
  rw [txnRollbackTo_txns]
  refine h.grow ?_ ?_ ?_ rfl rfl rfl
  · intro x
    simp [txnRollbackTo, TxnManager.beginTxn, TxnManager.allocXid, TxnManager.releaseLocksAfter,
      Txn.allXids, ht]
    tauto
  · intro s hmem
    simp only [txnRollbackTo, TxnManager.beginTxn, TxnManager.allocXid, List.mem_cons] at hmem ⊢
    rcases hmem with rfl | hmem
    · simp
    · simp [hsub s hmem]
  · exact fun snap hsnap => h.pinned sid t snap ht hsnap

end Backend
