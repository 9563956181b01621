-- SUMMARY: The transaction manager holds the ids, snapshots and row locks of the open transactions only.
import Rustgres.Exec.Manager
import Rustgres.Server.Isolation
import Rustgres.Server.Moves

/-!
# Hygiene of the Transaction Manager

The running ids, the registered snapshots and the row locks are those of the open transactions. The
locks that a transaction held at each of its savepoints are kept apart from the engine, and a
rollback to a savepoint gives back what was taken since.
-/

namespace Backend

variable {V K : Type}

/-! ## The locks at each savepoint -/

/-- The locks that a session's transaction held at each savepoint, innermost first. -/
abbrev LockMarks := Sid → List (String × Set RowId)

def LockMarks.after (s : Sys V K) (g : LockMarks) : Act V → LockMarks
  | .savepoint sid name =>
    match s.txns sid with
    | none => g
    | some t => Function.update g sid ((name, s.eng.txns.locks.held t.xid) :: g sid)
  | .rollbackTo sid name => Function.update g sid ((g sid).dropWhile (·.1 ≠ name))
  | .release sid name => Function.update g sid ((g sid).dropWhile (·.1 ≠ name)).tail
  | .begin sid _ | .commit sid | .abort sid => Function.update g sid []
  | .pin _ | .stmt .. | .fail _ | .vacuum _ => g

/-- Each savepoint marks the place in the list of locks where the marked set ends. -/
def Marked : List RowId → List Savepoint → List (String × Set RowId) → Prop
  | _, [], [] => True
  | order, save :: saves, (name, held) :: marks =>
    save.name = name ∧ save.locks ≤ order.length ∧ (∀ r, r ∈ held ↔ r ∈ order.take save.locks) ∧
      Marked (order.take save.locks) saves marks
  | _, _, _ => False

namespace Marked

variable {order : List RowId} {saves : List Savepoint} {marks : List (String × Set RowId)}

theorem append (h : Marked order saves marks) (ids : List RowId) :
    Marked (order ++ ids) saves marks := by
  cases saves with
  | nil => cases marks <;> trivial
  | cons save saves =>
    cases marks with
    | nil => exact h.elim
    | cons mark marks =>
      obtain ⟨hname, hle, hheld, hrest⟩ := h
      refine ⟨hname, hle.trans (by simp), ?_, ?_⟩
      · rw [List.take_append_of_le_length hle]
        exact hheld
      · rw [List.take_append_of_le_length hle]
        exact hrest

theorem of_take {n : Nat} (h : Marked (order.take n) saves marks) : Marked order saves marks := by
  have := h.append (order.drop n)
  rwa [List.take_append_drop] at this

/-- The innermost savepoint called `name`, with the locks that were held at it. -/
theorem fromName (h : Marked order saves marks) {name : String} {save : Savepoint}
    {rest : List Savepoint} (hfrom : saves.dropWhile (·.name ≠ name) = save :: rest) :
    ∃ held marks', marks.dropWhile (·.1 ≠ name) = (name, held) :: marks' ∧
      (∀ r, r ∈ held ↔ r ∈ order.take save.locks) ∧
      Marked (order.take save.locks) (save :: rest) ((name, held) :: marks') ∧
      Marked (order.take save.locks) rest marks' := by
  induction saves generalizing order marks with
  | nil => cases hfrom
  | cons s saves ih =>
    cases marks with
    | nil => exact h.elim
    | cons mark marks =>
      obtain ⟨mname, mheld⟩ := mark
      obtain ⟨rfl, hle, hheld, hrest⟩ := h
      rw [List.dropWhile_cons] at hfrom ⊢
      by_cases hname : s.name = name
      · simp only [hname, ne_eq, not_true, decide_false] at hfrom ⊢
        cases hfrom
        refine ⟨mheld, marks, rfl, hheld, ⟨hname, ?_, ?_, ?_⟩, hrest⟩
        · simpa using hle
        · simpa [List.take_take] using hheld
        · simpa [List.take_take] using hrest
      · simp only [ne_eq, hname, not_false_eq_true, decide_true, if_true] at hfrom ⊢
        obtain ⟨held, marks', hmarks, hheld', hin, hrest'⟩ := ih hrest hfrom
        have hinner : save.locks ≤ s.locks := by
          have hlen := hin.2.1
          simp only [List.length_take] at hlen
          omega
        have htake : (order.take s.locks).take save.locks = order.take save.locks := by
          rw [List.take_take, Nat.min_eq_left hinner]
        rw [htake] at hheld' hin hrest'
        exact ⟨held, marks', hmarks, hheld', hin, hrest'⟩

end Marked

/-! ## The invariant -/

structure Hygienic (c : Sys V K × LockMarks) : Prop where
  family : Family c.1.eng.txns c.1.txns
  owner : ∀ x ∈ c.1.eng.txns.active, ∃ sid t, c.1.txns sid = some t ∧ x ∈ t.allXids
  registered : ∀ x snap, c.1.eng.txns.snapshots.lookup x = some snap →
    ∃ sid t, c.1.txns sid = some t ∧ t.xid = x ∧ t.snapshot = some snap
  locks : c.1.eng.txns.locks.Consistent
  owners : ∀ x r, r ∈ c.1.eng.txns.lockOrder x → ∃ sid t, c.1.txns sid = some t ∧ t.xid = x
  marked : ∀ sid t, c.1.txns sid = some t →
    Marked (c.1.eng.txns.lockOrder t.xid) t.savepoints (c.2 sid)

theorem mem_allXids_append (t : Txn V K) (x y : Xid) (saves : List Savepoint)
    (writes : List (WriteOp V K)) (failed : Bool) :
    y ∈ ({ t with writes, failed, savepoints := saves, ownedXids := t.ownedXids ++ [x] } :
        Txn V K).allXids
      ↔ y ∈ t.allXids ∨ y = x := by
  simp [Txn.allXids, or_assoc]

namespace Hygienic

variable {s : Sys V K} {g : LockMarks} {sid : Sid} {t : Txn V K}

/-- Whoever has a lock is running. -/
theorem holder_active (hc : Hygienic (s, g)) {r : RowId} {x : Xid}
    (hr : s.eng.txns.rowLocks r = some x) : x ∈ s.eng.txns.active := by
  obtain ⟨sid, t, ht, rfl⟩ := hc.owners x r ((hc.locks.holder r x).1 hr)
  exact hc.family.mem_active ht (List.mem_cons_self ..)

/-- A session is put in place. -/
theorem put (hc : Hygienic (s, g)) {eng : Engine V K} {t' : Option (Txn V K)} {g' : LockMarks}
    (hfamily : Family eng.txns (Function.update s.txns sid t'))
    (howner : ∀ x ∈ eng.txns.active, (∃ t, t' = some t ∧ x ∈ t.allXids) ∨
      x ∈ s.eng.txns.active ∧ ∀ t, s.txns sid = some t → x ∉ t.allXids)
    (hregistered : ∀ x snap, eng.txns.snapshots.lookup x = some snap →
      (∃ t, t' = some t ∧ t.xid = x ∧ t.snapshot = some snap) ∨
        s.eng.txns.snapshots.lookup x = some snap ∧ ∀ t, s.txns sid = some t → x ≠ t.xid)
    (hlocks : eng.txns.locks.Consistent)
    (howners : ∀ x r, r ∈ eng.txns.lockOrder x → (∃ t, t' = some t ∧ t.xid = x) ∨
      r ∈ s.eng.txns.lockOrder x ∧ ∀ t, s.txns sid = some t → x ≠ t.xid)
    (hmarked : ∀ t, t' = some t → Marked (eng.txns.lockOrder t.xid) t.savepoints (g' sid))
    (hothers : ∀ sid' t, sid' ≠ sid → s.txns sid' = some t →
      eng.txns.lockOrder t.xid = s.eng.txns.lockOrder t.xid ∧ g' sid' = g sid') :
    Hygienic (s.put sid eng t', g') where
  family := hfamily
  owner x hx := by
    rcases howner x hx with ⟨t, rfl, hmem⟩ | ⟨hold, hne⟩
    · exact ⟨sid, t, by simp [Sys.put], hmem⟩
    · obtain ⟨sid', t, ht, hmem⟩ := hc.owner x hold
      have hsid : sid' ≠ sid := by
        rintro rfl
        exact hne t ht hmem
      exact ⟨sid', t, by simpa [Sys.put, hsid] using ht, hmem⟩
  registered x snap hx := by
    rcases hregistered x snap hx with ⟨t, rfl, hxid, hsnap⟩ | ⟨hold, hne⟩
    · exact ⟨sid, t, by simp [Sys.put], hxid, hsnap⟩
    · obtain ⟨sid', t, ht, hxid, hsnap⟩ := hc.registered x snap hold
      have hsid : sid' ≠ sid := by
        rintro rfl
        exact hne t ht hxid.symm
      exact ⟨sid', t, by simpa [Sys.put, hsid] using ht, hxid, hsnap⟩
  locks := hlocks
  owners x r hr := by
    rcases howners x r hr with ⟨t, rfl, hxid⟩ | ⟨hold, hne⟩
    · exact ⟨sid, t, by simp [Sys.put], hxid⟩
    · obtain ⟨sid', t, ht, hxid⟩ := hc.owners x r hold
      have hsid : sid' ≠ sid := by
        rintro rfl
        exact hne t ht hxid.symm
      exact ⟨sid', t, by simpa [Sys.put, hsid] using ht, hxid⟩
  marked sid' t ht := by
    by_cases hsid : sid' = sid
    · subst hsid
      exact hmarked t (by simpa [Sys.put] using ht)
    · have ht' : s.txns sid' = some t := by simpa [Sys.put, hsid] using ht
      obtain ⟨horder, hg⟩ := hothers sid' t hsid ht'
      have hold := hc.marked sid' t ht'
      dsimp only [Sys.put] at hold ⊢
      rwa [horder, hg]

/-- The transaction keeps its ids and its snapshot. -/
theorem keep (hc : Hygienic (s, g)) (ht : s.txns sid = some t) {eng : Engine V K} {t' : Txn V K}
    {g' : LockMarks} (hxid : t'.xid = t.xid) (hids : ∀ x ∈ t.allXids, x ∈ t'.allXids)
    (hactive : ∀ x ∈ eng.txns.active, x ∈ t'.allXids ∨ x ∈ s.eng.txns.active)
    (hsnap : t'.snapshot = t.snapshot)
    (hfamily : Family eng.txns (Function.update s.txns sid (some t')))
    (hsnaps : eng.txns.snapshots = s.eng.txns.snapshots) (hlocks : eng.txns.locks.Consistent)
    (horder : ∀ x ≠ t.xid, eng.txns.lockOrder x = s.eng.txns.lockOrder x)
    (hmarked : Marked (eng.txns.lockOrder t.xid) t'.savepoints (g' sid))
    (hg : ∀ sid' ≠ sid, g' sid' = g sid') : Hygienic (s.put sid eng (some t'), g') := by
  have hown : ∀ t₀, s.txns sid = some t₀ → t₀ = t := fun t₀ h₀ =>
    Option.some.inj (h₀.symm.trans ht)
  refine hc.put hfamily ?_ ?_ hlocks ?_ ?_ ?_
  · intro x hx
    rcases hactive x hx with hmem | hold
    · exact .inl ⟨t', rfl, hmem⟩
    · by_cases hmem : x ∈ t.allXids
      · exact .inl ⟨t', rfl, hids x hmem⟩
      · exact .inr ⟨hold, fun t₀ h₀ => hown t₀ h₀ ▸ hmem⟩
  · intro x snap hx
    rw [hsnaps] at hx
    by_cases hxt : x = t.xid
    · subst hxt
      obtain ⟨sid₀, t₀, h₀, hxid₀, hsnap₀⟩ := hc.registered _ snap hx
      obtain rfl : sid₀ = sid := hc.family.disjoint _ _ _ _ t.xid h₀ ht
        (hxid₀ ▸ List.mem_cons_self ..) (List.mem_cons_self ..)
      obtain rfl := hown t₀ h₀
      exact .inl ⟨t', rfl, hxid, hsnap ▸ hsnap₀⟩
    · exact .inr ⟨hx, fun t₀ h₀ => hown t₀ h₀ ▸ hxt⟩
  · intro x r hr
    by_cases hxt : x = t.xid
    · exact .inl ⟨t', rfl, hxid.trans hxt.symm⟩
    · exact .inr ⟨horder x hxt ▸ hr, fun t₀ h₀ => hown t₀ h₀ ▸ hxt⟩
  · rintro t₀ h₀
    cases h₀
    rw [hxid]
    exact hmarked
  · intro sid' t₁ hsid h₁
    have hne : t₁.xid ≠ t.xid := fun heq => hsid (hc.family.disjoint _ _ _ _ t.xid h₁ ht
      (heq ▸ List.mem_cons_self ..) (List.mem_cons_self ..))
    exact ⟨horder _ hne, hg sid' hsid⟩

/-- The session's transaction ends. -/
theorem retire (hc : Hygienic (s, g)) (ht : s.txns sid = some t) {eng : Engine V K}
    (htxns : eng.txns = s.eng.txns) :
    Hygienic (s.put sid (retireTxnFamily eng t) none, Function.update g sid []) := by
  have hown : ∀ t₀, s.txns sid = some t₀ → t₀ = t := fun t₀ h₀ =>
    Option.some.inj (h₀.symm.trans ht)
  have hlocks : (retireTxnFamily eng t).txns.locks = s.eng.txns.locks.releaseAll t.xid := by
    have hfold := TxnManager.foldl_endTxn_locks (m := eng.txns) t.ownedXids
    rw [htxns] at hfold
    rw [← hfold]
    simp only [retireTxnFamily, retireTxn, TxnManager.locks_releaseTxnLocks, htxns]
    rfl
  have horder : ∀ x, (retireTxnFamily eng t).txns.lockOrder x
      = if x = t.xid then [] else s.eng.txns.lockOrder x := by
    intro x
    have hx : (retireTxnFamily eng t).txns.lockOrder x = (s.eng.txns.locks.releaseAll t.xid).order x :=
      congrFun (congrArg LockTable.order hlocks) x
    rw [hx]
    exact Function.update_apply ..
  refine hc.put ?_ ?_ ?_ ?_ ?_ (by simp) ?_
  · have hfamily : Family eng.txns s.txns := htxns ▸ hc.family
    exact hfamily.retire ht
  · intro x hx
    obtain ⟨hold, hne⟩ := (mem_active_retire ..).1 hx
    exact .inr ⟨htxns ▸ hold, fun t₀ h₀ => hown t₀ h₀ ▸ hne⟩
  · intro x snap hx
    obtain ⟨hne, hold⟩ := TxnManager.lookup_endTxn hx
    have hlook := TxnManager.lookup_foldl_endTxn hold
    exact .inr ⟨htxns ▸ hlook, fun t₀ h₀ => hown t₀ h₀ ▸ hne⟩
  · rw [hlocks]
    exact hc.locks.releaseAll t.xid
  · intro x r hr
    rw [horder] at hr
    split at hr
    · cases hr
    · next hne => exact .inr ⟨hr, fun t₀ h₀ => hown t₀ h₀ ▸ hne⟩
  · intro sid' t₁ hsid h₁
    have hne : t₁.xid ≠ t.xid := fun heq => hsid (hc.family.disjoint _ _ _ _ t.xid h₁ ht
      (heq ▸ List.mem_cons_self ..) (List.mem_cons_self ..))
    exact ⟨by rw [horder, if_neg hne], by simp [hsid]⟩

/-! ## Actions -/

theorem act_begin (hc : Hygienic (s, g)) (level : IsolationLevel) (hsid : s.txns sid = none) :
    Hygienic (s.put sid (beginTxn s.eng level).1 (some (beginTxn s.eng level).2),
      Function.update g sid []) := by
  have hnone : ∀ t₀ : Txn V K, s.txns sid = some t₀ → False := fun t₀ h₀ => by
    rw [hsid] at h₀
    cases h₀
  refine hc.put (hc.family.beginTxn hsid level) ?_ ?_ hc.locks ?_ ?_ ?_
  · intro x hx
    rcases Finset.mem_insert.1 hx with rfl | hold
    · exact .inl ⟨_, rfl, List.mem_cons_self ..⟩
    · exact .inr ⟨hold, fun t₀ h₀ => (hnone t₀ h₀).elim⟩
  · exact fun x snap hx => .inr ⟨hx, fun t₀ h₀ => (hnone t₀ h₀).elim⟩
  · exact fun x r hr => .inr ⟨hr, fun t₀ h₀ => (hnone t₀ h₀).elim⟩
  · rintro t₀ h₀
    cases h₀
    simp [beginTxn, Marked]
  · exact fun sid' t₁ hne h₁ => ⟨rfl, by simp [hne]⟩

theorem act_pin (hc : Hygienic (s, g)) (ht : s.txns sid = some t) :
    Hygienic (s.put sid (stmtSnapshot s.eng t).2.1 (some (stmtSnapshot s.eng t).2.2), g) := by
  have hsame : Hygienic (s.put sid s.eng (some t), g) := by
    refine hc.keep ht rfl (fun _ hx => hx) (fun _ hx => .inr hx) rfl ?_ rfl hc.locks
      (fun _ _ => rfl) (hc.marked sid t ht) fun _ _ => rfl
    rw [← ht, Function.update_eq_self]
    exact hc.family
  unfold stmtSnapshot
  split
  · exact hsame
  · exact hsame
  · refine hc.put (hc.family.pin ht) ?_ ?_ hc.locks ?_ ?_ ?_
    · intro x hx
      obtain ⟨sid₁, t₁, h₁, hmem⟩ := hc.owner x hx
      by_cases hsid : sid₁ = sid
      · subst hsid
        obtain rfl : t₁ = t := Option.some.inj (h₁.symm.trans ht)
        exact .inl ⟨_, rfl, hmem⟩
      · refine .inr ⟨hx, fun t₀ h₀ hmem₀ => hsid ?_⟩
        exact hc.family.disjoint _ _ _ _ x h₁ h₀ hmem hmem₀
    · intro x snap hx
      by_cases hxt : x = t.xid
      · subst hxt
        simp only [TxnManager.registerSnapshot, AList.lookup_insert] at hx
        exact .inl ⟨_, rfl, rfl, hx⟩
      · simp only [TxnManager.registerSnapshot, AList.lookup_insert_ne hxt] at hx
        refine .inr ⟨hx, fun t₀ h₀ => ?_⟩
        obtain rfl : t₀ = t := Option.some.inj (h₀.symm.trans ht)
        exact hxt
    · intro x r hr
      by_cases hxt : x = t.xid
      · exact .inl ⟨_, rfl, hxt.symm⟩
      · refine .inr ⟨hr, fun t₀ h₀ => ?_⟩
        obtain rfl : t₀ = t := Option.some.inj (h₀.symm.trans ht)
        exact hxt
    · rintro t₀ h₀
      cases h₀
      exact hc.marked sid t ht
    · exact fun sid' t₁ hne h₁ => ⟨rfl, rfl⟩

theorem act_fail (hc : Hygienic (s, g)) (ht : s.txns sid = some t) :
    Hygienic (s.put sid s.eng (some { t with failed := true }), g) :=
  hc.keep ht rfl (fun _ hx => hx) (fun _ hx => .inr hx) rfl
    (hc.family.keep ht rfl rfl rfl (fun _ hsave => hsave) rfl rfl rfl) rfl hc.locks
    (fun _ _ => rfl) (hc.marked sid t ht) fun _ _ => rfl

theorem act_savepoint (hc : Hygienic (s, g)) (ht : s.txns sid = some t) (name : String) :
    Hygienic (s.put sid (txnSavepoint s.eng t name).1 (some (txnSavepoint s.eng t name).2),
      Function.update g sid ((name, s.eng.txns.locks.held t.xid) :: g sid)) := by
  refine hc.keep ht rfl ?_ ?_ rfl (hc.family.savepoint ht name) rfl hc.locks (fun _ _ => rfl) ?_
    fun sid' hne => by simp [hne]
  · exact fun x hx => (mem_allXids_append ..).2 (.inl hx)
  · exact fun x hx => (Finset.mem_insert.1 hx).imp_left fun hnew =>
      (mem_allXids_append ..).2 (.inr hnew)
  · rw [Function.update_self]
    refine ⟨rfl, le_rfl, fun r => ?_, ?_⟩
    · rw [hc.locks.mem_held_iff]
      exact Iff.of_eq (congrArg (r ∈ ·) (List.take_length ..).symm)
    · have hmarked := hc.marked sid t ht
      exact (List.take_length (l := s.eng.txns.lockOrder t.xid)).symm ▸ hmarked

theorem act_release (hc : Hygienic (s, g)) (ht : s.txns sid = some t) {name : String}
    {save : Savepoint} {rest : List Savepoint} (hfrom : t.fromName name = save :: rest) :
    Hygienic (s.put sid s.eng (some (txnRelease t rest)),
      Function.update g sid ((g sid).dropWhile (·.1 ≠ name)).tail) := by
  obtain ⟨held, marks, hmarks, -, -, hrest⟩ := (hc.marked sid t ht).fromName hfrom
  have hsub : ∀ s ∈ rest, s ∈ t.savepoints := fun s hs =>
    (List.dropWhile_suffix _).subset (hfrom ▸ List.mem_cons_of_mem _ hs)
  refine hc.keep ht rfl (fun _ hx => hx) (fun _ hx => .inr hx) rfl
    (hc.family.keep ht rfl rfl rfl hsub rfl rfl rfl) rfl hc.locks (fun _ _ => rfl) ?_
    fun sid' hne => by simp [hne]
  rw [Function.update_self, hmarks]
  exact hrest.of_take

variable [DecidableEq K] [SqlValue V K]

theorem act_stmt (hc : Hygienic (s, g)) (ht : s.txns sid = some t) (snap : Snapshot) (st : Stmt V) :
    Hygienic (s.put sid { (st.exec s.eng (t.ctx snap)).eng with seqAdvanced := [] }
      (some (t.logged (st.exec s.eng (t.ctx snap)))), g) := by
  have hsteps : TxnManager.StmtSteps t.xid s.eng.txns (st.exec s.eng (t.ctx snap)).eng.txns := by
    cases st with
    | row st => exact st.exec_manager s.eng (t.ctx snap)
    | index st =>
      have htxns := st.exec_txns s.eng (t.ctx snap)
      simp only [Stmt.exec, htxns]
      exact .refl
  generalize st.exec s.eng (t.ctx snap) = out at hsteps ⊢
  obtain ⟨hnext, hactive, hsnaps⟩ := hsteps.frame
  obtain ⟨hlocks, -, hothers, ids, horder⟩ := hsteps.locks hc.locks (fun r x => hc.holder_active)
    (hc.family.mem_active ht (List.mem_cons_self ..))
  obtain ⟨hxid, howned, hsnap, hsaves⟩ : (t.logged out).xid = t.xid ∧
      (t.logged out).ownedXids = t.ownedXids ∧ (t.logged out).snapshot = t.snapshot ∧
      (t.logged out).savepoints = t.savepoints := by
    unfold Txn.logged
    cases out.error <;> exact ⟨rfl, rfl, rfl, rfl⟩
  have hids : (t.logged out).allXids = t.allXids := by rw [Txn.allXids, hxid, howned, Txn.allXids]
  refine hc.keep ht hxid (fun x hx => hids ▸ hx) (fun x hx => .inr ?_) hsnap ?_ hsnaps hlocks hothers
    ?_ fun _ _ => rfl
  · rw [← hactive]
    exact hx
  · exact hc.family.keep ht hxid howned hsnap (fun save hsave => hsaves ▸ hsave) hnext hactive hsnaps
  · rw [hsaves]
    show Marked (out.eng.txns.lockOrder t.xid) _ _
    rw [horder]
    exact (hc.marked sid t ht).append ids

theorem act_rollbackTo (hc : Hygienic (s, g)) (ht : s.txns sid = some t) {name : String}
    {save : Savepoint} {rest : List Savepoint} (hfrom : t.fromName name = save :: rest) :
    Hygienic (s.put sid (txnRollbackTo s.eng t save rest).1
        (some (txnRollbackTo s.eng t save rest).2),
      Function.update g sid ((g sid).dropWhile (·.1 ≠ name))) := by
  obtain ⟨held, marks, hmarks, -, hin, -⟩ := (hc.marked sid t ht).fromName hfrom
  have htxns := txnRollbackTo_txns s.eng t save rest
  refine hc.keep ht rfl ?_ ?_ rfl (hc.family.rollbackTo ht hfrom) ?_ ?_ (fun x hx => ?_) ?_
    fun sid' hne => by simp [hne]
  · exact fun x hx => (mem_allXids_append ..).2 (.inl hx)
  · intro x hx
    rw [htxns] at hx
    refine (Finset.mem_insert.1 hx).imp_left fun hnew => (mem_allXids_append ..).2 (.inr ?_)
    rw [Engine.undoAll_txns]
    exact hnew
  · rw [htxns]
    rfl
  · rw [htxns]
    exact hc.locks.releaseAfter t.xid save.locks
  · rw [htxns]
    exact Function.update_of_ne hx ..
  · have horder : (txnRollbackTo s.eng t save rest).1.txns.lockOrder t.xid
        = (s.eng.txns.lockOrder t.xid).take save.locks := by
      rw [htxns]
      exact Function.update_self ..
    rw [horder, Function.update_self, hmarks]
    -- the savepoint stays, with a new id
    exact hin

/-! ## Moves -/

theorem act {c c' : Sys V K × LockMarks} {a : Act V} (hc : Hygienic c)
    (hstep : trackMove LockMarks.after c (.act a) = some c') : Hygienic c' := by
  obtain ⟨s, g⟩ := c
  obtain ⟨s', hact, rfl⟩ := Option.map_eq_some_iff.1 hstep
  change s.act a = some s' at hact
  cases a with
  | begin sid level =>
    cases ht : s.txns sid with
    | some t => simp [Sys.act, ht] at hact
    | none =>
      obtain rfl : s.put sid _ _ = s' := by simpa [Sys.act, ht] using hact
      exact hc.act_begin level ht
  | pin sid =>
    obtain ⟨t, ht, rfl⟩ := Option.map_eq_some_iff.1 hact
    exact hc.act_pin ht
  | stmt sid st =>
    obtain ⟨t, ht, hstmt⟩ := Option.bind_eq_some_iff.1 hact
    obtain ⟨snap, -, rfl⟩ := Option.map_eq_some_iff.1 hstmt
    exact hc.act_stmt ht snap st
  | fail sid =>
    obtain ⟨t, ht, rfl⟩ := Option.map_eq_some_iff.1 hact
    exact hc.act_fail ht
  | savepoint sid name =>
    obtain ⟨t, ht, rfl⟩ := Option.map_eq_some_iff.1 hact
    have hsave := hc.act_savepoint ht name
    simpa only [LockMarks.after, ht] using hsave
  | rollbackTo sid name =>
    obtain ⟨t, ht, hroll⟩ := Option.bind_eq_some_iff.1 hact
    cases hfrom : t.fromName name with
    | nil => simp [hfrom] at hroll
    | cons save rest =>
      obtain rfl : s.put sid _ _ = s' := by simpa [hfrom] using hroll
      exact hc.act_rollbackTo ht hfrom
  | release sid name =>
    obtain ⟨t, ht, hrel⟩ := Option.bind_eq_some_iff.1 hact
    cases hfrom : t.fromName name with
    | nil => simp [hfrom] at hrel
    | cons save rest =>
      obtain rfl : s.put sid _ _ = s' := by simpa [hfrom] using hrel
      exact hc.act_release ht hfrom
  | commit sid =>
    obtain ⟨t, ht, hcommit⟩ := Option.bind_eq_some_iff.1 hact
    cases hrecords : recordsForCommit s.eng t.xid t.writes with
    | error msg => simp [hrecords] at hcommit
    | ok records =>
      simp only [hrecords, Option.some.injEq] at hcommit
      have hput := hc.retire ht (rfl : s.eng.txns = s.eng.txns)
      subst hcommit
      exact ⟨hput.family, hput.owner, hput.registered, hput.locks, hput.owners, hput.marked⟩
  | abort sid =>
    obtain ⟨t, ht, rfl⟩ := Option.map_eq_some_iff.1 hact
    exact hc.retire ht (Engine.undoAll_txns ..)
  | vacuum table =>
    obtain rfl : { s with eng := s.eng.vacuumTable table } = s' := by simpa [Sys.act] using hact
    exact ⟨hc.family, hc.owner, hc.registered, hc.locks, hc.owners, hc.marked⟩

omit [DecidableEq K] [SqlValue V K] in
/-- An id is begun and ended. -/
theorem evaluate (hc : Hygienic (s, g)) :
    Hygienic ({ s with eng := { s.eng with
      txns := s.eng.txns.beginTxn.2.endTxn s.eng.txns.nextXid } }, g) := by
  have hfresh : s.eng.txns.nextXid ∉ s.eng.txns.active := fun hx =>
    absurd (hc.family.active_lt _ hx).2 (lt_irrefl _)
  have hactive : (s.eng.txns.beginTxn.2.endTxn s.eng.txns.nextXid).active = s.eng.txns.active :=
    Finset.erase_insert hfresh
  refine ⟨hc.family.bump (Nat.le_succ _) hactive.ge (fun x hx => .inl (hactive ▸ hx)) ?_ ?_, ?_, ?_,
    hc.locks, hc.owners, hc.marked⟩
  · exact fun x hx => AList.lookup_erase_ne hx.ne
  · intro snap hsnap
    obtain ⟨x, hx⟩ := Dict.mem_values.1 hsnap
    exact Dict.mem_values.2 ⟨x, (TxnManager.lookup_endTxn hx).2⟩
  · exact fun x hx => hc.owner x (hactive ▸ hx)
  · exact fun x snap hx => hc.registered x snap (TxnManager.lookup_endTxn hx).2

omit [DecidableEq K] [SqlValue V K] in
/-- An id is begun and retired. -/
theorem probe (hc : Hygienic (s, g)) : Hygienic ({ s with eng := Server.probe s.eng }, g) := by
  have hev := hc.evaluate
  have hfresh : ∀ t sid, s.txns sid = some t → t.xid ≠ s.eng.txns.nextXid := fun t sid ht =>
    (hc.family.active_lt _ (hc.family.mem_active ht (List.mem_cons_self ..))).2.ne
  have hfamily : Family (Server.probe s.eng).txns s.txns :=
    hev.family.bump le_rfl (Finset.Subset.refl _) (fun _ hx => .inl hx) (fun _ _ => rfl)
      fun _ hsnap => hsnap
  refine ⟨hfamily, hev.owner, hev.registered, hev.locks.releaseAll _, fun x r hr => ?_, fun sid t ht => ?_⟩
  · by_cases hx : x = s.eng.txns.nextXid
    · subst hx
      simp [Server.probe, retireTxn, TxnManager.releaseTxnLocks, TxnManager.beginTxn,
        TxnManager.allocXid] at hr
    · refine hc.owners x r ?_
      simpa [Server.probe, retireTxn, TxnManager.releaseTxnLocks, TxnManager.beginTxn,
        TxnManager.allocXid, TxnManager.endTxn, hx] using hr
  · have hmarked := hc.marked sid t ht
    simpa [Server.probe, retireTxn, TxnManager.releaseTxnLocks, TxnManager.beginTxn,
      TxnManager.allocXid, TxnManager.endTxn, hfresh t sid ht] using hmarked

theorem move {c c' : Sys V K × LockMarks} {m : Move V} (hc : Hygienic c)
    (hleak : m ≠ .leak) (hstep : trackMove LockMarks.after c m = some c') : Hygienic c' := by
  cases m with
  | act a => exact hc.act hstep
  | probe =>
    cases hstep
    exact hc.probe
  | evaluate =>
    cases hstep
    exact hc.evaluate
  | leak => exact absurd rfl hleak

theorem moves {c c' : Sys V K × LockMarks} {ms : List (Move V)} (hc : Hygienic c)
    (hleak : .leak ∉ ms) (hrun : run (trackMove LockMarks.after) c ms = some c') :
    Hygienic c' := by
  induction ms generalizing c with
  | nil =>
    cases hrun
    exact hc
  | cons m ms ih =>
    obtain ⟨d, hd, hrest⟩ := Option.bind_eq_some_iff.1 hrun
    simp only [List.mem_cons, not_or] at hleak
    exact ih (hc.move (Ne.symm hleak.1) hd) hleak.2 hrest

end Hygienic

/-! ## Runs of requests -/

/-- The manager holds what belongs to open transactions, and no more. -/
structure Tidy (c : Server V K × LockMarks) : Prop where
  active : ∀ x, x ∈ c.1.sys.eng.txns.active ↔ ∃ sid t, c.1.sys.txns sid = some t ∧ x ∈ t.allXids
  snapshots : ∀ x snap, c.1.sys.eng.txns.snapshots.lookup x = some snap
    ↔ ∃ sid t, c.1.sys.txns sid = some t ∧ t.xid = x ∧ t.snapshot = some snap
  /-- A lock is in the list of its holder and in no other. -/
  exclusive : ∀ x y r, r ∈ c.1.sys.eng.txns.lockOrder x → r ∈ c.1.sys.eng.txns.lockOrder y → x = y
  holder : ∀ x r, c.1.sys.eng.txns.rowLockHolder r = some x ↔ r ∈ c.1.sys.eng.txns.lockOrder x
  finished : ∀ x r, c.1.sys.eng.txns.rowLockHolder r = some x →
    ∃ sid t, c.1.sys.txns sid = some t ∧ t.xid = x

/-- A rollback to a savepoint would leave the transaction with the locks it held at the savepoint,
and the others with theirs. -/
def RestoresLocks [DecidableEq K] [SqlValue V K] (c : Server V K × LockMarks) : Prop :=
  ∀ sid t name save rest, c.1.sys.txns sid = some t → t.fromName name = save :: rest →
    ∃ held marks, (c.2 sid).dropWhile (·.1 ≠ name) = (name, held) :: marks ∧
      (txnRollbackTo c.1.sys.eng t save rest).1.txns.locks.held t.xid = held ∧
      ∀ x ≠ t.xid, (txnRollbackTo c.1.sys.eng t save rest).1.txns.locks.held x
        = c.1.sys.eng.txns.locks.held x

theorem Hygienic.tidy {s : Server V K} {g : LockMarks} (hc : Hygienic (s.sys, g)) : Tidy (s, g) where
  active x := ⟨hc.owner x, fun ⟨sid, t, ht, hx⟩ => hc.family.runs sid t x ht hx⟩
  snapshots x snap := by
    constructor
    · exact hc.registered x snap
    · rintro ⟨sid, t, ht, rfl, hsnap⟩
      exact hc.family.pinned sid t snap ht hsnap
  exclusive x y r hx hy := by
    have hx' := (hc.locks.holder r x).2 hx
    exact Option.some.inj (hx'.symm.trans ((hc.locks.holder r y).2 hy))
  holder x r := hc.locks.holder r x
  finished x r hr := hc.owners x r ((hc.locks.holder r x).1 hr)

section

variable [DecidableEq K] [SqlValue V K]

theorem Hygienic.restoresLocks {s : Server V K} {g : LockMarks} (hc : Hygienic (s.sys, g)) :
    RestoresLocks (s, g) := by
  intro sid t name save rest ht hfrom
  obtain ⟨held, marks, hmarks, hheld, -, -⟩ := (hc.marked sid t ht).fromName hfrom
  refine ⟨held, marks, hmarks, ?_, fun x hx => ?_⟩
  · rw [txnRollbackTo_txns]
    ext r
    exact hc.locks.mem_held_releaseAfter.trans (hheld r).symm
  · rw [txnRollbackTo_txns]
    exact LockTable.Consistent.held_releaseAfter_ne (l := s.sys.eng.txns.locks) hx

/-- The arguments of an EXECUTE that gets as far as that can be evaluated. -/
def ArgsEvaluate (s : Server V K) : Sid × Request V K → Prop
  | (sid, .query extended (.execute name args _)) =>
    ¬ (extended ∧ s.aborted sid) → ∀ p, (s.fronts sid).prepared.lookup name = some p →
      ¬ (p.types ≠ 0 ∧ args.length ≠ p.types) →
      (evalArgs s.sys.eng.db s.sys.eng.txns.takeSnapshot args).isOk
  | _ => True

instance (s : Server V K) : ∀ i, Decidable (ArgsEvaluate s i)
  | (sid, .query extended (.execute name args _)) =>
    decidable_of_iff (¬ (extended ∧ s.aborted sid) →
        ∀ p ∈ (s.fronts sid).prepared.lookup name, ¬ (p.types ≠ 0 ∧ args.length ≠ p.types) →
          (evalArgs s.sys.eng.db s.sys.eng.txns.takeSnapshot args).isOk) Iff.rfl
  | (_, .query _ (.cmd _)) | (_, .query _ (.prepare ..)) | (_, .query _ (.deallocate _))
  | (_, .query _ (.declare ..)) | (_, .query _ (.fetch ..)) | (_, .query _ (.close _))
  | (_, .query _ (.setting _)) | (_, .malformed _) | (_, .copyTo ..) | (_, .copyFrom ..)
  | (_, .disconnect) => .isTrue trivial

theorem leak_not_mem_cmdMoves (s : Sys V K) (sid : Sid) (c : Cmd V) :
    Move.leak ∉ cmdMoves s sid c := by
  simp [cmdMoves]

theorem leak_not_mem_resolvedMoves (s : Server V K) (sid : Sid) (st : Statement V K) :
    Move.leak ∉ s.resolvedMoves sid st := by
  cases st with
  | cmd c =>
    simp only [Server.resolvedMoves]
    split
    · exact List.not_mem_nil
    · exact leak_not_mem_cmdMoves _ _ _
  | fetch name io =>
    simp only [Server.resolvedMoves]
    split
    · exact List.not_mem_nil
    · split
      · exact leak_not_mem_cmdMoves _ _ _
      · exact List.not_mem_nil
  | _ => simp [Server.resolvedMoves]

theorem leak_not_mem_moves {s : Server V K} {i : Sid × Request V K} (h : ArgsEvaluate s i) :
    Move.leak ∉ s.moves i := by
  obtain ⟨sid, r⟩ := i
  have hreport : ∀ fails (out : Server V K × Reply),
      Move.leak ∉ Server.reportMoves sid fails out := by
    intro fails out
    unfold Server.reportMoves
    split <;> simp
  rw [Server.moves, List.mem_append, not_or]
  refine ⟨?_, hreport _ _⟩
  cases r with
  | query extended st =>
    simp only [Server.answerMoves]
    split
    · exact List.not_mem_nil
    · next hblocked =>
      cases st with
      | execute name args io =>
        simp only [Server.statementMoves, List.mem_append, not_or]
        refine ⟨?_, ?_⟩
        · unfold Server.resolveMoves
          split
          · simp
          · next p hp =>
            split
            · simp
            · next harity =>
              have hok := h (fun hb => hblocked ⟨hb.1, hb.2, rfl⟩) p hp harity
              simp [hok]
        · split
          · exact List.not_mem_nil
          · exact leak_not_mem_resolvedMoves _ _ _
      | _ =>
        simp only [Server.statementMoves]
        exact leak_not_mem_resolvedMoves _ _ _
  | malformed e => exact List.not_mem_nil
  | copyTo extended table columns =>
    simp only [Server.answerMoves, Server.copyToMoves]
    split
    · exact List.not_mem_nil
    · cases s.sys.txns sid with
      | none => simp
      | some t =>
        dsimp only
        split <;> simp
  | copyFrom extended table columns data io =>
    simp only [Server.answerMoves, Server.copyFromMoves]
    split
    · exact List.not_mem_nil
    · simp only [List.mem_cons, reduceCtorEq, false_or]
      split
      · split
        · split
          · exact leak_not_mem_cmdMoves _ _ _
          · exact List.not_mem_nil
        · exact leak_not_mem_cmdMoves _ _ _
      · exact List.not_mem_nil
  | disconnect =>
    simp only [Server.answerMoves]
    split
    · exact leak_not_mem_cmdMoves _ _ _
    · exact List.not_mem_nil

omit [DecidableEq K] [SqlValue V K] in
theorem markFailed_eng (s : Server V K) (sid : Sid) : (s.markFailed sid).sys.eng = s.sys.eng := by
  unfold Server.markFailed
  split <;> rfl

omit [DecidableEq K] [SqlValue V K] in
theorem markFailed_allXids {s : Server V K} {sid sid' : Sid} {t : Txn V K}
    (ht : (s.markFailed sid).sys.txns sid' = some t) :
    ∃ t', s.sys.txns sid' = some t' ∧ t.allXids = t'.allXids := by
  unfold Server.markFailed at ht
  split at ht
  · exact ⟨t, ht, rfl⟩
  · next t₀ h₀ =>
    by_cases hsid : sid' = sid
    · subst hsid
      obtain rfl : { t₀ with failed := true } = t := by simpa [Sys.put] using ht
      exact ⟨t₀, h₀, rfl⟩
    · exact ⟨t, by simpa [Sys.put, hsid] using ht, rfl⟩

/-- An EXECUTE with an argument that cannot be evaluated. -/
theorem exec_of_not_argsEvaluate {s : Server V K} {i : Sid × Request V K}
    (h : ¬ ArgsEvaluate s i) :
    (s.exec i.1 i.2).1.sys.eng.txns = s.sys.eng.txns.beginTxn.2 ∧
      ∀ sid t, (s.exec i.1 i.2).1.sys.txns sid = some t →
        ∃ t', s.sys.txns sid = some t' ∧ t.allXids = t'.allXids := by
  obtain ⟨sid, r⟩ := i
  unfold ArgsEvaluate at h
  split at h
  · next sid' extended name args io heq =>
    cases heq
    simp only [Classical.not_imp, not_forall] at h
    obtain ⟨hopen, p, hp, harity, hargs⟩ := h
    have hblocked : ¬ (extended ∧ s.aborted sid ∧ !Server.endsAborted
        (.execute name args io : Statement V K)) := fun hb => hopen ⟨hb.1, hb.2.1⟩
    obtain ⟨e, he⟩ : ∃ e, evalArgs s.sys.eng.db s.sys.eng.txns.takeSnapshot args = .error e := by
      cases heval : evalArgs s.sys.eng.db s.sys.eng.txns.takeSnapshot args with
      | error e => exact ⟨e, rfl⟩
      | ok params => simp [heval, Except.isOk, Except.toBool] at hargs
    have hresolve : resolveSqlExecute s.sys.eng (s.fronts sid) name args
        = ({ s.sys.eng with txns := s.sys.eng.txns.beginTxn.2 }, .error e) := by
      simp only [resolveSqlExecute, hp, if_neg harity, he]
    have hrun : s.answer sid (.query extended (.execute name args io))
        = ({ s with sys := { s.sys with
            eng := { s.sys.eng with txns := s.sys.eng.txns.beginTxn.2 } } }, .error e) := by
      simp only [Server.answer, if_neg hblocked, Server.runStatement, hresolve]
    have hreport : ∀ s₁ : Server V K, s₁.sys.txns = s.sys.txns →
        s₁.sys.eng.txns = s.sys.eng.txns.beginTxn.2 →
        (Server.report sid extended (s₁, .error e)).1.sys.eng.txns = s.sys.eng.txns.beginTxn.2 ∧
          ∀ sid' t, (Server.report sid extended (s₁, .error e)).1.sys.txns sid' = some t →
            ∃ t', s.sys.txns sid' = some t' ∧ t.allXids = t'.allXids := by
      intro s₁ htxns heng
      unfold Server.report
      dsimp only
      split
      · rw [markFailed_eng]
        exact ⟨heng, fun sid' t ht => htxns ▸ markFailed_allXids ht⟩
      · exact ⟨heng, fun sid' t ht => ⟨t, htxns ▸ ht, rfl⟩⟩
    simp only [Server.exec, hrun]
    exact hreport _ rfl rfl
  · exact absurd trivial h

/-- Otherwise an id is running that belongs to no transaction. -/
theorem not_tidy_of_leak {s : Server V K} {g g' : LockMarks} {i : Sid × Request V K}
    (hc : Hygienic (s.sys, g)) (h : ¬ ArgsEvaluate s i) : ¬ Tidy ((s.exec i.1 i.2).1, g') := by
  intro htidy
  obtain ⟨htxns, hids⟩ := exec_of_not_argsEvaluate h
  have hactive : s.sys.eng.txns.nextXid ∈ (s.exec i.1 i.2).1.sys.eng.txns.active := by
    rw [htxns]
    exact Finset.mem_insert_self ..
  obtain ⟨sid, t, ht, hx⟩ := (htidy.active _).1 hactive
  obtain ⟨t', ht', hall⟩ := hids sid t ht
  have hlt := (hc.family.active_lt _ (hc.family.mem_active ht' (hall ▸ hx))).2
  exact absurd hlt (lt_irrefl _)

/-- No transaction is open, and the manager holds nothing. -/
structure Idle (s : Server V K) : Prop where
  txns : ∀ sid, s.sys.txns sid = none
  active : s.sys.eng.txns.active = ∅
  snapshots : ∀ x, s.sys.eng.txns.snapshots.lookup x = none
  rowLocks : ∀ r, s.sys.eng.txns.rowLocks r = none
  lockOrder : ∀ x, s.sys.eng.txns.lockOrder x = []
  pos : 0 < s.sys.eng.txns.nextXid

omit [DecidableEq K] [SqlValue V K] in
theorem Idle.hygienic {s : Server V K} (h : Idle s) : Hygienic (s.sys, fun _ => []) := by
  have hnone : ∀ {sid} {t : Txn V K}, s.sys.txns sid = some t → False := fun ht => by
    rw [h.txns] at ht
    cases ht
  refine ⟨⟨h.pos, ?_, ?_, ?_, ?_, ?_, ?_⟩, ?_, ?_, ⟨?_, ?_⟩, ?_, ?_⟩
  · simp [h.active]
  · exact fun _ _ _ ht => (hnone ht).elim
  · exact fun _ _ _ _ _ ht => (hnone ht).elim
  · exact fun _ _ ht => (hnone ht).elim
  · exact fun _ _ _ ht => (hnone ht).elim
  · intro snap hsnap
    obtain ⟨x, hx⟩ := Dict.mem_values.1 hsnap
    rw [h.snapshots] at hx
    cases hx
  · simp [h.active]
  · intro x snap hx
    rw [h.snapshots] at hx
    cases hx
  · simp [TxnManager.locks, h.rowLocks, h.lockOrder]
  · simp [TxnManager.locks, h.lockOrder]
  · simp [h.lockOrder]
  · exact fun _ _ ht => (hnone ht).elim

theorem Hygienic.request {c c' : Server V K × LockMarks} {i : Sid × Request V K}
    (hc : Hygienic (c.1.sys, c.2)) (hargs : ArgsEvaluate c.1 i)
    (hstep : trackRequest LockMarks.after c i = some c') : Hygienic (c'.1.sys, c'.2) :=
  hc.moves (leak_not_mem_moves hargs) (trackRequest_eq_some hstep).1

theorem Hygienic.along_of_tidy {c : Server V K × LockMarks} (hc : Hygienic (c.1.sys, c.2))
    {is : List (Sid × Request V K)}
    (htidy : ∀ js ks d, is = js ++ ks → run (trackRequest LockMarks.after) c js = some d → Tidy d) :
    run.Along (trackRequest LockMarks.after) (fun c i => ArgsEvaluate c.1 i) c is := by
  induction is generalizing c with
  | nil => trivial
  | cons i is ih =>
    obtain ⟨d, hd, hexec⟩ := Option.map_eq_some_iff.1 (trackRequest_fst LockMarks.after c i)
    have hargs : ArgsEvaluate c.1 i := by
      by_contra hleak
      have hd := htidy [i] is d rfl (by simp [hd])
      rw [show d = ((c.1.exec i.1 i.2).1, d.2) from Prod.ext hexec rfl] at hd
      exact not_tidy_of_leak hc hleak hd
    refine ⟨hargs, fun c' hc' => ih (hc.request hargs hc') fun js ks e hsplit hrun => ?_⟩
    exact htidy (i :: js) ks e (by rw [hsplit, List.cons_append]) (by simp [hc', hrun])

end

/-- The sessions of a server that has just started. -/
def oneRowServer : Server (Option Int) (Option Int) := ⟨oneRow, fun _ => .new⟩

theorem oneRowServer_idle : Idle oneRowServer where
  txns _ := rfl
  active := rfl
  snapshots _ := rfl
  rowLocks _ := rfl
  lockOrder _ := rfl
  pos := by decide

def lockAll : Statement (Option Int) (Option Int) :=
  .cmd (.stmt (.row (.selectForUpdate "t" fun _ => true)) none)

/-- A lock taken after a savepoint, an EXECUTE whose argument evaluates, and a client that goes
away. -/
def lockAndLeave : List (Sid × Request (Option Int) (Option Int)) :=
  [(0, .query false (.prepare "p" ⟨1, fun _ => .ok selectAll⟩)),
    (0, .query false (.cmd (.begin .repeatableRead))),
    (0, .query false (.cmd (.savepoint "a"))),
    (0, .query false lockAll),
    (1, .query true lockAll),
    (0, .query false (.execute "p" [fun _ _ => .ok (some 1)] none)),
    (0, .query false (.cmd (.rollbackTo "a"))),
    (0, .disconnect)]

end Backend
