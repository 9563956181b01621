-- SUMMARY: The stamps of the stored versions agree with the history of the run.
import Rustgres.Server.History

/-!
# Stamps and History

While no mark is written over another one, the two stamps of a stored version are those of the
changes that the history holds of it. Each operation, undo, VACUUM and end of a transaction keeps
this so.
-/

namespace Backend

variable {V K : Type}

namespace History

variable {h : History V K} {sid : Sid} {j : Journal (Logged V K)} {e : Logged V K}

theorem Holds.of_mem {sid' : Sid} (he : e ∈ (h.pending sid').items) : h.Holds e := .inr ⟨sid', he⟩

/-- What holds after the journal of one session is replaced. -/
theorem holds_put : (h.put sid j).Holds e
    ↔ e ∈ h.done ∨ e ∈ j.items ∨ ∃ sid' ≠ sid, e ∈ (h.pending sid').items := by
  unfold Holds put
  constructor
  · rintro (hdone | ⟨sid', he⟩)
    · exact .inl hdone
    · by_cases hsid : sid' = sid
      · exact .inr (.inl (by simpa [hsid] using he))
      · exact .inr (.inr ⟨sid', hsid, by simpa [hsid] using he⟩)
  · rintro (hdone | hj | ⟨sid', hsid, he⟩)
    · exact .inl hdone
    · exact .inr ⟨sid, by simpa using hj⟩
    · exact .inr ⟨sid', by simpa [hsid] using he⟩

theorem holds_iff (sid : Sid) : h.Holds e
    ↔ e ∈ h.done ∨ e ∈ (h.pending sid).items ∨ ∃ sid' ≠ sid, e ∈ (h.pending sid').items := by
  have hsame : h.put sid (h.pending sid) = h := by simp [put]
  rw [← holds_put, hsame]

theorem holds_record (es : List (Logged V K)) :
    (h.put sid ((h.pending sid).record es)).Holds e ↔ h.Holds e ∨ e ∈ es := by
  rw [holds_put, holds_iff sid, Journal.items_record, List.mem_append]
  simp only [or_assoc, or_comm, or_left_comm]

/-- The history with the same changes. -/
theorem holds_put_of_items (hitems : j.items = (h.pending sid).items) :
    (h.put sid j).Holds e ↔ h.Holds e := by
  rw [holds_put, holds_iff sid, hitems]

end History

/-- The stored versions carry the stamps of the changes that hold. `n` bounds the row ids. -/
structure Recorded (heap : Heap V) (n : RowId) (m : TxnManager) (h : History V K) : Prop where
  created : ∀ loc id v, heap loc id = some v → ∀ x, h.Inserted x id ↔ x = v.xmin
  deleted : ∀ loc id v, heap loc id = some v → ∀ x, h.Deleted x id ↔ x ≠ 0 ∧ x = v.xmax
  /-- A version that is gone was deleted before any registered snapshot was taken. -/
  present : ∀ x id, h.Inserted x id → (∃ loc v, heap loc id = some v) ∨
    ∃ d, h.DoneDeleted d id ∧ ∀ snap ∈ m.snapshots.values, snap.Ended d
  below : ∀ x id, h.Inserted x id ∨ h.Deleted x id → id < n
  once : ∀ sid, ((h.pending sid).items.flatMap fun e => e.2.inserted).Nodup ∧
    ((h.pending sid).items.flatMap fun e => e.2.deleted).Nodup
  ended : ∀ e ∈ h.done, e.1 < m.nextXid ∧ e.1 ∉ m.active
  running : ∀ sid, ∀ e ∈ (h.pending sid).items, e.1 ∈ m.active
  kind : ∀ e, h.Holds e → e.2.KeepsTables ∧ e.2.Unmarked ∧ ∀ name, e.2 ≠ .seqAdvance name

namespace Recorded

variable {heap heap' : Heap V} {n : RowId} {m m' : TxnManager} {h : History V K} {sid : Sid}
  {x : Xid} {op : WriteOp V K} {P : RowVersion V → Prop}

/-- The history with the same changes, under a manager that runs the same ids. -/
theorem congr {n' : RowId} (hr : Recorded heap n m h) {j : Journal (Logged V K)}
    (hitems : j.items = (h.pending sid).items) (hn : n ≤ n') (hnext : m.nextXid ≤ m'.nextXid)
    (hsub : m.active ⊆ m'.active) (hnew : ∀ x ∈ m'.active, x ∈ m.active ∨ m.nextXid ≤ x)
    (hsnaps : ∀ snap ∈ m'.snapshots.values, snap ∈ m.snapshots.values ∨ snap = m.takeSnapshot) :
    Recorded heap n' m' (h.put sid j) := by
  have hholds : ∀ e, (h.put sid j).Holds e ↔ h.Holds e := fun e =>
    History.holds_put_of_items hitems
  have hpending : ∀ sid', ((h.put sid j).pending sid').items = (h.pending sid').items := by
    intro sid'
    by_cases hsid : sid' = sid
    · subst hsid
      simpa [History.put] using hitems
    · simp [History.put, hsid]
  constructor
  · simpa only [History.Inserted, hholds] using hr.created
  · simpa only [History.Deleted, hholds] using hr.deleted
  · intro x id hx
    simp only [History.Inserted, hholds] at hx
    refine (hr.present x id hx).imp_right ?_
    rintro ⟨d, hd, hended⟩
    refine ⟨d, hd, fun snap hs => ?_⟩
    rcases hsnaps snap hs with hs | rfl
    · exact hended snap hs
    · obtain ⟨op, hop, -⟩ := hd
      exact hr.ended _ hop
  · intro x id hx
    simp only [History.Inserted, History.Deleted, hholds] at hx
    exact (hr.below x id hx).trans_le hn
  · simpa only [hpending] using hr.once
  · intro e he
    obtain ⟨hlt, hnot⟩ := hr.ended e he
    refine ⟨hlt.trans_le hnext, fun hmem => ?_⟩
    rcases hnew _ hmem with hold | hge
    · exact hnot hold
    · exact absurd hlt (Nat.not_lt.2 hge)
  · intro sid' e he
    rw [hpending] at he
    exact hsub (hr.running sid' e he)
  · simpa only [hholds] using hr.kind

theorem put (hr : Recorded heap n m h) {j : Journal (Logged V K)}
    (hitems : j.items = (h.pending sid).items) : Recorded heap n m (h.put sid j) :=
  hr.congr hitems le_rfl le_rfl (Finset.Subset.refl _) (fun _ hx => .inl hx) fun _ hs => .inl hs

/-- The manager changes, the history does not. -/
theorem manager {n' : RowId} (hr : Recorded heap n m h) (hn : n ≤ n') (hnext : m.nextXid ≤ m'.nextXid)
    (hsub : m.active ⊆ m'.active) (hnew : ∀ x ∈ m'.active, x ∈ m.active ∨ m.nextXid ≤ x)
    (hsnaps : ∀ snap ∈ m'.snapshots.values, snap ∈ m.snapshots.values ∨ snap = m.takeSnapshot) :
    Recorded heap n' m' h := by
  have hsame : h.put 0 (h.pending 0) = h := by simp [History.put]
  rw [← hsame]
  exact hr.congr rfl hn hnext hsub hnew hsnaps

/-- A new id runs. -/
theorem grow {n' : RowId} (hr : Recorded heap n m h) (hn : n ≤ n')
    (hnext : m'.nextXid = m.nextXid + 1) (hactive : m'.active = insert m.nextXid m.active)
    (hsnaps : m'.snapshots = m.snapshots) : Recorded heap n' m' h := by
  apply hr.manager hn
  · rw [hnext]
    exact Nat.le_succ _
  · rw [hactive]
    exact Finset.subset_insert _ _
  · intro x hx
    rw [hactive, Finset.mem_insert] at hx
    exact hx.symm.imp_right fun h => h.ge
  · rw [hsnaps]
    exact fun snap hs => .inl hs

theorem pin (hr : Recorded heap n m h) : Recorded heap n (m.registerSnapshot x m.takeSnapshot) h := by
  refine hr.manager le_rfl ?_ ?_ ?_ ?_
  · exact le_rfl
  · exact Finset.Subset.refl _
  · exact fun _ hx => .inl hx
  intro snap hs
  obtain ⟨y, hy⟩ := Dict.mem_values.1 hs
  by_cases hxy : y = x
  · subst hxy
    simp only [TxnManager.registerSnapshot, AList.lookup_insert, Option.some.injEq] at hy
    exact .inr hy.symm
  · simp only [TxnManager.registerSnapshot, AList.lookup_insert_ne hxy] at hy
    exact .inl (Dict.mem_values.2 ⟨y, hy⟩)

/-- A statement may take row ids and locks. -/
theorem extends_ {n' : RowId} (hr : Recorded heap n m h) (hn : n ≤ n') (hm : m.Extends m') :
    Recorded heap n' m' h :=
  hr.manager hn hm.nextXid.ge (fun _ hx => hm.active ▸ hx) (fun _ hx => .inl (hm.active ▸ hx))
    fun _ hs => .inl (hm.snapshots ▸ hs)

/-- One more operation of the session `sid`, stamped with `x`. -/
theorem effect (hr : Recorded heap n m h) (hunique : heap.Unique) (hop : op.Effect x P heap heap')
    (hP : ∀ v, P v → v.xmax = 0) (hx : x ∈ m.active) (hpos : x ≠ 0)
    (hnew : ∀ id ∈ op.inserted, id < n ∧ ∀ y, ¬ h.Inserted y id ∧ ¬ h.Deleted y id) :
    Recorded heap' n m (h.put sid ((h.pending sid).record [(x, op)])) := by
  have hholds : ∀ e, (h.put sid ((h.pending sid).record [(x, op)])).Holds e
      ↔ h.Holds e ∨ e = (x, op) := by
    intro e
    rw [History.holds_record, List.mem_singleton]
  have hins : ∀ y id, (h.put sid ((h.pending sid).record [(x, op)])).Inserted y id
      ↔ h.Inserted y id ∨ y = x ∧ id ∈ op.inserted := by
    intro y id
    simp only [History.Inserted, hholds, Prod.mk.injEq]
    constructor
    · rintro ⟨op', hop' | ⟨rfl, rfl⟩, hid⟩
      · exact .inl ⟨op', hop', hid⟩
      · exact .inr ⟨rfl, hid⟩
    · rintro (⟨op', hop', hid⟩ | ⟨rfl, hid⟩)
      · exact ⟨op', .inl hop', hid⟩
      · exact ⟨op, .inr ⟨rfl, rfl⟩, hid⟩
  have hdel : ∀ y id, (h.put sid ((h.pending sid).record [(x, op)])).Deleted y id
      ↔ h.Deleted y id ∨ y = x ∧ id ∈ op.deleted := by
    intro y id
    simp only [History.Deleted, hholds, Prod.mk.injEq]
    constructor
    · rintro ⟨op', hop' | ⟨rfl, rfl⟩, hid⟩
      · exact .inl ⟨op', hop', hid⟩
      · exact .inr ⟨rfl, hid⟩
    · rintro (⟨op', hop', hid⟩ | ⟨rfl, hid⟩)
      · exact ⟨op', .inl hop', hid⟩
      · exact ⟨op, .inr ⟨rfl, rfl⟩, hid⟩
  -- a marked version was stored without a mark
  have hmarked : ∀ id ∈ op.deleted, ∃ loc v, heap loc id = some v ∧ v.xmax = 0 := by
    intro id hid
    obtain ⟨loc, v, hv, hPv⟩ := hop.deleted_stored hid
    exact ⟨loc, v, hv, hP v hPv⟩
  have hunmarked : ∀ id ∈ op.deleted, ∀ y, ¬ h.Deleted y id := by
    intro id hid y hy
    obtain ⟨loc, v, hv, hv0⟩ := hmarked id hid
    obtain ⟨hne, heq⟩ := (hr.deleted loc id v hv y).1 hy
    exact hne (heq.trans hv0)
  constructor
  · intro loc id v' hv' y
    have hrow := hop.row hunique loc id
    rw [hv'] at hrow
    rw [hins]
    generalize hbefore : heap loc id = before at hrow
    cases hrow with
    | kept hi hd =>
      rw [hr.created loc id v' hbefore]
      simp [hi rfl]
    | inserted hi hd =>
      have hnone := (hnew id hi).2 y
      simp [hnone.1, hi, RowVersion.plain]
    | marked hi hd hPv =>
      rw [hr.created loc id _ hbefore]
      simp [hi]
  · intro loc id v' hv' y
    have hrow := hop.row hunique loc id
    rw [hv'] at hrow
    rw [hdel]
    generalize hbefore : heap loc id = before at hrow
    cases hrow with
    | kept hi hd =>
      rw [hr.deleted loc id v' hbefore]
      simp [hd rfl]
    | inserted hi hd =>
      have hnone := (hnew id hi).2 y
      simp [hnone.2, hd, RowVersion.plain]
    | marked hi hd hPv =>
      simp only [hunmarked id hd y, hd, and_true, false_or]
      constructor
      · rintro rfl
        exact ⟨hpos, rfl⟩
      · exact And.right
  · intro y id hy
    rcases (hins y id).1 hy with hy | ⟨rfl, hid⟩
    · rcases hr.present y id hy with ⟨loc, v, hv⟩ | hgone
      · obtain ⟨v', hv'⟩ := hop.stays hunique hv
        exact .inl ⟨loc, v', hv'⟩
      · exact .inr hgone
    · exact .inl (hop.inserted_stored hid)
  · intro y id hy
    rw [hins, hdel] at hy
    rcases hy with (hy | ⟨-, hid⟩) | (hy | ⟨-, hid⟩)
    · exact hr.below y id (.inl hy)
    · exact (hnew id hid).1
    · exact hr.below y id (.inr hy)
    · obtain ⟨loc, v, hv, -⟩ := hmarked id hid
      exact hr.below v.xmin id (.inl ((hr.created loc id v hv _).2 rfl))
  · intro sid'
    by_cases hsid : sid' = sid
    · subst hsid
      simp only [History.put, Function.update_self, Journal.items_record, List.flatMap_append,
        List.flatMap_singleton]
      obtain ⟨honce, honce'⟩ := hr.once sid'
      constructor
      · refine List.nodup_append.2 ⟨honce, op.nodup_inserted, ?_⟩
        intro id hold id' hid heq
        obtain ⟨e, he, hide⟩ := List.mem_flatMap.1 hold
        exact ((hnew id' hid).2 e.1).1 ⟨e.2, .of_mem he, heq ▸ hide⟩
      · refine List.nodup_append.2 ⟨honce', op.nodup_deleted, ?_⟩
        intro id hold id' hid heq
        obtain ⟨e, he, hide⟩ := List.mem_flatMap.1 hold
        exact hunmarked id' hid e.1 ⟨e.2, .of_mem he, heq ▸ hide⟩
    · simpa [History.put, hsid] using hr.once sid'
  · exact hr.ended
  · intro sid' e he
    by_cases hsid : sid' = sid
    · subst hsid
      simp only [History.put, Function.update_self, Journal.items_record, List.mem_append,
        List.mem_singleton] at he
      rcases he with he | rfl
      · exact hr.running sid' e he
      · exact hx
    · exact hr.running sid' e (by simpa [History.put, hsid] using he)
  · intro e he
    rcases (hholds e).1 he with he | rfl
    · exact hr.kind e he
    · exact ⟨hop.keepsTables, hop.unmarked hP, hop.ne_seqAdvance⟩

/-- The operations of a statement, one after the other. -/
theorem effects (hr : Recorded heap n m h) (hunique : heap.Unique) {ops : List (WriteOp V K)}
    (hops : WriteOp.Effects x P heap ops heap') (hP : ∀ v, P v → v.xmax = 0) (hx : x ∈ m.active)
    (hpos : x ≠ 0)
    (hnew : ∀ op ∈ ops, ∀ id ∈ op.inserted,
      id < n ∧ ∀ y, ¬ h.Inserted y id ∧ ¬ h.Deleted y id) :
    Recorded heap' n m (h.put sid ((h.pending sid).record (ops.map fun op => (x, op)))) := by
  induction hops generalizing h with
  | nil => simpa [Journal.record, History.put] using hr
  | @cons heap heap₁ heap₂ op ops hop hops ih =>
    have hstep : Recorded heap₁ n m (h.put sid ((h.pending sid).record [(x, op)])) :=
      hr.effect hunique hop hP hx hpos (hnew op (.head _))
    have hrest := ih hstep (hop.unique hunique) fun op' hop' id hid => by
      obtain ⟨hlt, hnone⟩ := hnew op' (.tail _ hop') id hid
      refine ⟨hlt, fun y => ⟨?_, ?_⟩⟩
      · rintro ⟨e, he, hide⟩
        rcases (History.holds_record _).1 he with he | he
        · exact (hnone y).1 ⟨e, he, hide⟩
        · obtain ⟨-, rfl⟩ := Prod.mk.inj (List.mem_singleton.1 he)
          obtain ⟨loc, v, hv⟩ := hop.inserted_stored hide
          exact hops.not_inserted (hop.unique hunique) hv op' hop' hid
      · rintro ⟨e, he, hide⟩
        rcases (History.holds_record _).1 he with he | he
        · exact (hnone y).2 ⟨e, he, hide⟩
        · obtain ⟨-, rfl⟩ := Prod.mk.inj (List.mem_singleton.1 he)
          obtain ⟨loc, v, hv, -⟩ := hop.deleted_stored hide
          obtain ⟨v', hv'⟩ := hop.stays hunique hv
          exact hops.not_inserted (hop.unique hunique) hv' op' hop' hid
    simpa [History.put, ← Journal.record_append] using hrest

/-- Undo takes back the changes that a session forgets. -/
theorem undo (hr : Recorded heap n m h) {owns : List Xid} {kept dropped : List (Logged V K)}
    {j : Journal (Logged V K)} (hitems : (h.pending sid).items = kept ++ dropped)
    (hj : j.items = kept) (hown : ∀ e ∈ (h.pending sid).items, e.1 ∈ owns)
    (hothers : ∀ sid' ≠ sid, ∀ e ∈ (h.pending sid').items, e.1 ∉ owns)
    (hdone : ∀ e ∈ h.done, e.1 ∉ owns)
    {ins del : RowId → Prop} [DecidablePred ins] [DecidablePred del]
    (hins : ∀ id, ins id ↔ ∃ e ∈ dropped, id ∈ e.2.inserted)
    (hdel : ∀ id, del id ↔ ∃ e ∈ dropped, id ∈ e.2.deleted)
    (hheap : ∀ loc id, heap' loc id
      = (heap loc id).bind (RowVersion.undone owns (ins id) (del id))) :
    Recorded heap' n m (h.put sid j) := by
  have hle : ∀ e, (h.put sid j).Holds e → h.Holds e := by
    intro e he
    rw [History.holds_put, hj] at he
    rw [History.holds_iff sid, hitems, List.mem_append]
    exact he.imp_right (.imp_left .inl)
  have hdropped : ∀ e, h.Holds e → ¬ (h.put sid j).Holds e → e ∈ dropped := by
    intro e he hnot
    rw [History.holds_put, hj] at hnot
    rw [History.holds_iff sid, hitems, List.mem_append] at he
    rcases he with he | (he | he) | he
    · exact absurd (.inl he) hnot
    · exact absurd (.inr (.inl he)) hnot
    · exact he
    · exact absurd (.inr (.inr he)) hnot
  -- a dropped change and one that stays are different entries of the journal
  have hkept : ∀ e, (h.put sid j).Holds e → e.1 ∈ owns → e ∈ kept := by
    intro e he hmem
    rw [History.holds_put, hj] at he
    rcases he with he | he | ⟨sid', hsid, he⟩
    · exact absurd hmem (hdone e he)
    · exact he
    · exact absurd hmem (hothers sid' hsid e he)
  have hmem : ∀ e ∈ dropped, h.Holds e ∧ e.1 ∈ owns := by
    intro e he
    have : e ∈ (h.pending sid).items := by rw [hitems]; exact List.mem_append_right _ he
    exact ⟨.of_mem this, hown e this⟩
  obtain ⟨honce, honce'⟩ := hr.once sid
  rw [hitems, List.flatMap_append] at honce honce'
  have hinsOnce : ∀ id, ∀ e ∈ kept, id ∈ e.2.inserted → ¬ ins id := by
    intro id e he hid hi
    obtain ⟨e', he', hid'⟩ := (hins id).1 hi
    exact (List.nodup_append.1 honce).2.2 id (List.mem_flatMap.2 ⟨e, he, hid⟩) id
      (List.mem_flatMap.2 ⟨e', he', hid'⟩) rfl
  have hdelOnce : ∀ id, ∀ e ∈ kept, id ∈ e.2.deleted → ¬ del id := by
    intro id e he hid hi
    obtain ⟨e', he', hid'⟩ := (hdel id).1 hi
    exact (List.nodup_append.1 honce').2.2 id (List.mem_flatMap.2 ⟨e, he, hid⟩) id
      (List.mem_flatMap.2 ⟨e', he', hid'⟩) rfl
  have hbefore : ∀ loc id v', heap' loc id = some v' → ∃ v, heap loc id = some v ∧
      RowVersion.undone owns (ins id) (del id) v = some v' := by
    intro loc id v' hv'
    rwa [hheap, Option.bind_eq_some_iff] at hv'
  constructor
  · intro loc id v' hv' y
    obtain ⟨v, hv, hundone⟩ := hbefore loc id v' hv'
    have hxmin : v'.xmin = v.xmin := RowVersion.xmin_of_undone hundone
    rw [hxmin]
    constructor
    · rintro ⟨op, hop, hid⟩
      exact (hr.created loc id v hv y).1 ⟨op, hle _ hop, hid⟩
    · rintro rfl
      obtain ⟨op, hop, hid⟩ := (hr.created loc id v hv v.xmin).2 rfl
      by_cases hstays : (h.put sid j).Holds (v.xmin, op)
      · exact ⟨op, hstays, hid⟩
      · have hgone := hdropped _ hop hstays
        have hi : ins id := (hins id).2 ⟨_, hgone, hid⟩
        simp [RowVersion.undone, hi, (hmem _ hgone).2] at hundone
  · intro loc id v' hv' y
    obtain ⟨v, hv, hundone⟩ := hbefore loc id v' hv'
    by_cases hmark : del id ∧ v.xmax ∈ owns
    · have hzero : v'.xmax = 0 := RowVersion.xmax_of_undone hundone hmark.1 hmark.2
      rw [hzero]
      constructor
      · rintro ⟨op, hop, hid⟩
        obtain ⟨-, rfl⟩ := (hr.deleted loc id v hv y).1 ⟨op, hle _ hop, hid⟩
        exact absurd hmark.1 (hdelOnce id _ (hkept _ hop hmark.2) hid)
      · intro hboth
        exact absurd hboth.2 hboth.1
    · obtain rfl : v = v' := RowVersion.eq_of_undone hundone hmark
      rw [← hr.deleted loc id v hv y]
      constructor
      · rintro ⟨op, hop, hid⟩
        exact ⟨op, hle _ hop, hid⟩
      · rintro ⟨op, hop, hid⟩
        by_cases hstays : (h.put sid j).Holds (y, op)
        · exact ⟨op, hstays, hid⟩
        · have hgone := hdropped _ hop hstays
          obtain ⟨-, rfl⟩ := (hr.deleted loc id v hv y).1 ⟨op, hop, hid⟩
          exact absurd ⟨(hdel id).2 ⟨_, hgone, hid⟩, (hmem _ hgone).2⟩ hmark
  · rintro y id ⟨op, hop, hid⟩
    rcases hr.present y id ⟨op, hle _ hop, hid⟩ with ⟨loc, v, hv⟩ | ⟨d, hd, hended⟩
    · refine .inl ⟨loc, ?_⟩
      have hstays : ¬ (ins id ∧ v.xmin ∈ owns) := by
        rintro ⟨hi, hxmin⟩
        obtain rfl := (hr.created loc id v hv y).1 ⟨op, hle _ hop, hid⟩
        exact hinsOnce id _ (hkept _ hop hxmin) hid hi
      rw [hheap, hv, Option.bind_some]
      simp only [RowVersion.undone, hstays, if_false]
      split <;> exact ⟨_, rfl⟩
    · exact .inr ⟨d, hd, hended⟩
  · intro y id hy
    refine hr.below y id (hy.imp ?_ ?_)
    · rintro ⟨op, hop, hid⟩
      exact ⟨op, hle _ hop, hid⟩
    · rintro ⟨op, hop, hid⟩
      exact ⟨op, hle _ hop, hid⟩
  · intro sid'
    by_cases hsid : sid' = sid
    · subst hsid
      simp only [History.put, Function.update_self, hj]
      exact ⟨(List.nodup_append.1 honce).1, (List.nodup_append.1 honce').1⟩
    · simpa [History.put, hsid] using hr.once sid'
  · exact hr.ended
  · intro sid' e he
    by_cases hsid : sid' = sid
    · subst hsid
      simp only [History.put, Function.update_self, hj] at he
      exact hr.running sid' e (by rw [hitems]; exact List.mem_append_left _ he)
    · exact hr.running sid' e (by simpa [History.put, hsid] using he)
  · exact fun e he => hr.kind e (hle e he)

/-- VACUUM removes versions that a committed change deleted. -/
theorem vacuum (hr : Recorded heap n m h) {p : Loc → Prop} [DecidablePred p]
    (hheap : ∀ loc id, heap' loc id
      = (heap loc id).filter fun v => ¬ (p loc ∧ m.DeadToAll v.xmin v.xmax)) :
    Recorded heap' n m h := by
  have hbefore : ∀ loc id v, heap' loc id = some v → heap loc id = some v := by
    intro loc id v hv
    rw [hheap, Option.filter_eq_some_iff] at hv
    exact hv.1
  constructor
  · exact fun loc id v hv => hr.created loc id v (hbefore loc id v hv)
  · exact fun loc id v hv => hr.deleted loc id v (hbefore loc id v hv)
  · intro x id hx
    rcases hr.present x id hx with ⟨loc, v, hv⟩ | hgone
    · by_cases hdead : p loc ∧ m.DeadToAll v.xmin v.xmax
      · obtain ⟨-, hne, -, hrunning, hended⟩ := hdead
        obtain ⟨op, hop, hid⟩ := (hr.deleted loc id v hv v.xmax).2 ⟨hne, rfl⟩
        refine .inr ⟨v.xmax, ⟨op, ?_, hid⟩, hended⟩
        rcases hop with hdone | ⟨sid, hpending⟩
        · exact hdone
        · exact absurd (hr.running sid _ hpending) hrunning
      · exact .inl ⟨loc, v, by simpa [hheap, hv, imp_iff_not_or] using hdead⟩
    · exact .inr hgone
  · exact hr.below
  · exact hr.once
  · exact hr.ended
  · exact hr.running
  · exact hr.kind

/-- A commit makes the pending changes of its session permanent, and ends its ids. -/
theorem commit (hr : Recorded heap n m h) {owns : List Xid}
    (hown : ∀ e ∈ (h.pending sid).items, e.1 ∈ owns)
    (hothers : ∀ sid' ≠ sid, ∀ e ∈ (h.pending sid').items, e.1 ∉ owns)
    (hlt : ∀ x ∈ m.active, x < m.nextXid) (hnext : m'.nextXid = m.nextXid)
    (hactive : ∀ x, x ∈ m'.active ↔ x ∈ m.active ∧ x ∉ owns)
    (hsnaps : ∀ snap ∈ m'.snapshots.values, snap ∈ m.snapshots.values) :
    Recorded heap n m' { h.put sid [] with done := h.done ++ (h.pending sid).items } := by
  have hholds : ∀ e, History.Holds { h.put sid [] with done := h.done ++ (h.pending sid).items } e
      ↔ h.Holds e := by
    intro e
    have hput : History.Holds (History.put { h with done := h.done ++ (h.pending sid).items } sid []) e
        ↔ _ := History.holds_put
    simp only [List.mem_append, Journal.items_nil, List.not_mem_nil, false_or, or_assoc] at hput
    exact hput.trans (History.holds_iff sid).symm
  have hpending : ∀ sid', sid' ≠ sid → (Function.update h.pending sid []) sid' = h.pending sid' :=
    fun sid' hsid => by simp [hsid]
  constructor
  · simpa only [History.Inserted, hholds] using hr.created
  · simpa only [History.Deleted, hholds] using hr.deleted
  · intro x id hx
    simp only [History.Inserted, hholds] at hx
    refine (hr.present x id hx).imp_right ?_
    rintro ⟨d, ⟨op, hop, hid⟩, hended⟩
    exact ⟨d, ⟨op, List.mem_append_left _ hop, hid⟩, fun snap hs => hended snap (hsnaps snap hs)⟩
  · simpa only [History.Inserted, History.Deleted, hholds] using hr.below
  · intro sid'
    by_cases hsid : sid' = sid
    · simp [History.put, hsid]
    · simpa [History.put, hsid] using hr.once sid'
  · intro e he
    rw [hnext, hactive]
    rcases List.mem_append.1 he with he | he
    · exact ⟨(hr.ended e he).1, fun hmem => (hr.ended e he).2 hmem.1⟩
    · exact ⟨hlt _ (hr.running sid e he), fun hmem => hmem.2 (hown e he)⟩
  · intro sid' e he
    by_cases hsid : sid' = sid
    · simp [History.put, hsid] at he
    · have he' : e ∈ (h.pending sid').items := by simpa [History.put, hsid] using he
      exact (hactive _).2 ⟨hr.running sid' e he', hothers sid' hsid e he'⟩
  · simpa only [hholds] using hr.kind

/-- The ids of a session without changes end. -/
theorem retire (hr : Recorded heap n m h) {owns : List Xid} (hnone : (h.pending sid).items = [])
    (hothers : ∀ sid' ≠ sid, ∀ e ∈ (h.pending sid').items, e.1 ∉ owns)
    (hnext : m'.nextXid = m.nextXid)
    (hactive : ∀ x, x ∈ m'.active ↔ x ∈ m.active ∧ x ∉ owns)
    (hsnaps : ∀ snap ∈ m'.snapshots.values, snap ∈ m.snapshots.values) : Recorded heap n m' h where
  created := hr.created
  deleted := hr.deleted
  present x id hx := (hr.present x id hx).imp_right fun ⟨d, hd, hended⟩ =>
    ⟨d, hd, fun snap hs => hended snap (hsnaps snap hs)⟩
  below := hr.below
  once := hr.once
  ended e he := by
    rw [hnext, hactive]
    exact ⟨(hr.ended e he).1, fun hmem => (hr.ended e he).2 hmem.1⟩
  running sid' e he := by
    by_cases hsid : sid' = sid
    · subst hsid
      simp [hnone] at he
    · exact (hactive _).2 ⟨hr.running sid' e he, hothers sid' hsid e he⟩
  kind := hr.kind

end Recorded

end Backend
