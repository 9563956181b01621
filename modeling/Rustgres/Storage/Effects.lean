-- SUMMARY: What the logged row operations did to the heap, one change of the map at a time.
import Rustgres.Storage.UndoHeap

/-!
# Effects on the Heap

Executing a statement changes the heap by the operations it logs. An effect relates the heap before
and after one operation, whatever batch the statement applied it in.
-/

/-- The stored row versions, by place and id. -/
abbrev Heap (V : Type) := Loc → RowId → Option (RowVersion V)

/-- Write one place of the heap. -/
def Heap.set {V : Type} (h : Heap V) (loc : Loc) (r : RowVersion V) : Heap V :=
  fun loc' id => if loc' = loc ∧ id = r.id then some r else h loc' id

/-- A version id is stored in one place. -/
def Heap.Unique {V : Type} (h : Heap V) : Prop :=
  ∀ loc loc' id r r', h loc id = some r → h loc' id = some r' → loc = loc'

/-- A write of a new id, or over the version that is stored there. -/
theorem Heap.Unique.set {V : Type} {h : Heap V} (hunique : h.Unique) {loc : Loc} {r : RowVersion V}
    (hplace : ∀ loc' v, h loc' r.id = some v → loc' = loc) : (h.set loc r).Unique := by
  intro loc₁ loc₂ id r₁ r₂ h₁ h₂
  unfold Heap.set at h₁ h₂
  split at h₁
  · next hnew =>
    split at h₂
    · next hnew' => exact hnew.1.trans hnew'.1.symm
    · exact hnew.1.trans (hplace loc₂ r₂ (hnew.2 ▸ h₂)).symm
  · split at h₂
    · next hnew' => exact (hplace loc₁ r₁ (hnew'.2 ▸ h₁)).trans hnew'.1.symm
    · exact hunique loc₁ loc₂ id r₁ r₂ h₁ h₂

/-- The operation creates or drops an index. -/
def WriteOp.IsIndexOp {V K : Type} : WriteOp V K → Prop
  | .createIndex _ | .dropIndex _ _ => True
  | _ => False

/-- One logged operation of the id `x`, on versions that satisfy `P`. -/
inductive WriteOp.Effect {V K : Type} (x : Xid) (P : RowVersion V → Prop) :
    Heap V → WriteOp V K → Heap V → Prop where
  | insertRow {h : Heap V} {table : String} {pos : Nat} {id : RowId} {values : List V}
      (hfresh : ∀ loc, h loc id = none) :
      Effect x P h (.insertRow table id) (h.set (table, pos) (.plain id values x))
  | deleteRow {h : Heap V} {table : String} {pos : Nat} {v : RowVersion V}
      (hv : h (table, pos) v.id = some v) (hP : P v) :
      Effect x P h (.deleteRow table v.id v.xmax) (h.set (table, pos) { v with xmax := x })
  | updateRow {h : Heap V} {table : String} {pos : Nat} {v : RowVersion V} {newId : RowId}
      {values : List V} (hv : h (table, pos) v.id = some v) (hP : P v)
      (hfresh : ∀ loc, h loc newId = none) :
      Effect x P h (.updateRow table v.id newId v.xmax v.values)
        ((h.set (table, pos) { v with xmax := x }).set (table, pos) (.plain newId values x))
  | index {h : Heap V} {op : WriteOp V K} (hop : op.IsIndexOp) : Effect x P h op h

/-- The logged operations, one after the other. -/
inductive WriteOp.Effects {V K : Type} (x : Xid) (P : RowVersion V → Prop) :
    Heap V → List (WriteOp V K) → Heap V → Prop where
  | nil {h : Heap V} : Effects x P h [] h
  | cons {h h₁ h₂ : Heap V} {op : WriteOp V K} {ops : List (WriteOp V K)}
      (hop : op.Effect x P h h₁) (hops : Effects x P h₁ ops h₂) : Effects x P h (op :: ops) h₂

namespace WriteOp

variable {V K : Type} {x : Xid} {P Q : RowVersion V → Prop} {h h₁ h₂ : Heap V}
  {op : WriteOp V K} {ops ops' : List (WriteOp V K)}

theorem Effects.append (hops : Effects x P h ops h₁) (hops' : Effects x P h₁ ops' h₂) :
    Effects x P h (ops ++ ops') h₂ := by
  induction hops with
  | nil => exact hops'
  | cons hop _ ih => exact .cons hop (ih hops')

theorem Effects.of_index (hops : ∀ op ∈ ops, op.IsIndexOp) : Effects x P h ops h := by
  induction ops with
  | nil => exact .nil
  | cons op ops ih =>
    exact .cons (.index (hops op (.head _))) (ih fun o ho => hops o (.tail _ ho))

theorem Effect.mono (hop : op.Effect x P h h₁) (hPQ : ∀ v, P v → Q v) : op.Effect x Q h h₁ := by
  cases hop with
  | insertRow hfresh => exact .insertRow hfresh
  | deleteRow hv hP => exact .deleteRow hv (hPQ _ hP)
  | updateRow hv hP hfresh => exact .updateRow hv (hPQ _ hP) hfresh
  | index hop => exact .index hop

theorem Effects.mono (hops : Effects x P h ops h₁) (hPQ : ∀ v, P v → Q v) :
    Effects x Q h ops h₁ := by
  induction hops with
  | nil => exact .nil
  | cons hop _ ih => exact .cons (hop.mono hPQ) ih

theorem Effect.keepsTables (hop : op.Effect x P h h₁) : op.KeepsTables := by
  cases hop with
  | insertRow => trivial
  | deleteRow => trivial
  | updateRow => trivial
  | index hop => cases op <;> trivial

theorem Effect.ne_seqAdvance (hop : op.Effect x P h h₁) (name : String) :
    op ≠ .seqAdvance name := by
  cases hop with
  | insertRow => simp
  | deleteRow => simp
  | updateRow => simp
  | index hop =>
    rintro rfl
    exact hop

theorem Effect.unmarked (hop : op.Effect x P h h₁) (hP : ∀ v, P v → v.xmax = 0) :
    op.Unmarked := by
  cases hop with
  | insertRow => trivial
  | deleteRow hv hPv => exact hP _ hPv
  | updateRow hv hPv _ => exact hP _ hPv
  | index hop => cases op <;> trivial

/-! ## One place of the heap -/

/-- What one operation does to the version `id` at one place. -/
inductive RowEffect (x : Xid) (P : RowVersion V → Prop) (op : WriteOp V K) (id : RowId) :
    Option (RowVersion V) → Option (RowVersion V) → Prop where
  | kept {o : Option (RowVersion V)} (hins : o.isSome → id ∉ op.inserted)
      (hdel : o.isSome → id ∉ op.deleted) : RowEffect x P op id o o
  | inserted {values : List V} (hins : id ∈ op.inserted) (hdel : id ∉ op.deleted) :
      RowEffect x P op id none (some (.plain id values x))
  | marked {v : RowVersion V} (hins : id ∉ op.inserted) (hdel : id ∈ op.deleted) (hP : P v) :
      RowEffect x P op id (some v) (some { v with xmax := x })

theorem Effect.row (hop : op.Effect x P h h₁) (hunique : h.Unique) (loc : Loc) (id : RowId) :
    RowEffect x P op id (h loc id) (h₁ loc id) := by
  cases hop with
  | @insertRow table pos newId values hfresh =>
    unfold Heap.set
    split
    · next heq =>
      obtain ⟨-, rfl⟩ := heq
      simp only [hfresh]
      exact .inserted (by simp [inserted]) (by simp [deleted])
    · refine .kept (fun hsome => ?_) (fun _ => by simp [deleted])
      rintro hid
      obtain rfl : id = newId := by simpa [inserted] using hid
      simp [hfresh] at hsome
  | @deleteRow table pos v hv hP =>
    unfold Heap.set
    split
    · next heq =>
      obtain ⟨rfl, rfl⟩ := heq
      simp only [hv]
      exact .marked (by simp [inserted]) (by simp [deleted]) hP
    · next hne =>
      refine .kept (fun _ => by simp [inserted]) (fun hsome hid => hne ?_)
      obtain rfl : id = v.id := by simpa [deleted] using hid
      obtain ⟨r, hr⟩ := Option.isSome_iff_exists.1 hsome
      exact ⟨hunique _ _ _ _ _ hr hv, rfl⟩
  | @updateRow table pos v newId values hv hP hfresh =>
    have hne : v.id ≠ newId := by
      rintro heq
      simp [heq, hfresh] at hv
    unfold Heap.set
    split
    · next heq =>
      obtain ⟨-, rfl⟩ := heq
      simp only [hfresh]
      exact .inserted (by simp [inserted]) (by simpa [deleted] using hne.symm)
    · next hnew =>
      split
      · next heq =>
        obtain ⟨rfl, rfl⟩ := heq
        simp only [hv]
        exact .marked (by simpa [inserted] using hne) (by simp [deleted]) hP
      · next hold =>
        refine .kept (fun hsome hid => ?_) (fun hsome hid => hold ?_)
        · obtain rfl : id = newId := by simpa [inserted] using hid
          simp [hfresh] at hsome
        · obtain rfl : id = v.id := by simpa [deleted] using hid
          obtain ⟨r, hr⟩ := Option.isSome_iff_exists.1 hsome
          exact ⟨hunique _ _ _ _ _ hr hv, rfl⟩
  | index hop =>
    refine .kept (fun _ => ?_) (fun _ => ?_)
    · cases op <;> first | exact hop.elim | simp [inserted]
    · cases op <;> first | exact hop.elim | simp [deleted]

/-- No version disappears. -/
theorem Effect.stays (hop : op.Effect x P h h₁) (hunique : h.Unique) {loc : Loc} {id : RowId}
    {v : RowVersion V} (hv : h loc id = some v) : ∃ v', h₁ loc id = some v' := by
  have hrow := hop.row hunique loc id
  rw [hv] at hrow
  generalize h₁ loc id = after at hrow ⊢
  cases hrow with
  | kept => exact ⟨v, rfl⟩
  | marked => exact ⟨_, rfl⟩

theorem nodup_inserted (op : WriteOp V K) : op.inserted.Nodup := by
  cases op <;> simp [inserted]

theorem nodup_deleted (op : WriteOp V K) : op.deleted.Nodup := by
  cases op <;> simp [deleted]

/-- The inserted versions are stored. -/
theorem Effect.inserted_stored (hop : op.Effect x P h h₁) {id : RowId} (hid : id ∈ op.inserted) :
    ∃ loc v, h₁ loc id = some v := by
  cases hop with
  | @insertRow table pos id' values hfresh =>
    obtain rfl := List.mem_singleton.1 hid
    exact ⟨(table, pos), .plain id values x, by simp [Heap.set]⟩
  | deleteRow => simp [inserted] at hid
  | @updateRow table pos v newId values hv hP hfresh =>
    obtain rfl := List.mem_singleton.1 hid
    exact ⟨(table, pos), .plain id values x, by simp [Heap.set]⟩
  | index hop => cases op <;> first | exact hop.elim | simp [inserted] at hid

/-- The inserted ids were free. -/
theorem Effect.inserted_fresh (hop : op.Effect x P h h₁) {id : RowId} (hid : id ∈ op.inserted)
    (loc : Loc) : h loc id = none := by
  cases hop with
  | insertRow hfresh =>
    obtain rfl := List.mem_singleton.1 hid
    exact hfresh loc
  | deleteRow => simp [inserted] at hid
  | updateRow hv hP hfresh =>
    obtain rfl := List.mem_singleton.1 hid
    exact hfresh loc
  | index hop => cases op <;> first | exact hop.elim | simp [inserted] at hid

/-- The marked versions were stored. -/
theorem Effect.deleted_stored (hop : op.Effect x P h h₁) {id : RowId} (hid : id ∈ op.deleted) :
    ∃ loc v, h loc id = some v ∧ P v := by
  cases hop with
  | insertRow => simp [deleted] at hid
  | deleteRow hv hP =>
    obtain rfl := List.mem_singleton.1 hid
    exact ⟨_, _, hv, hP⟩
  | updateRow hv hP =>
    obtain rfl := List.mem_singleton.1 hid
    exact ⟨_, _, hv, hP⟩
  | index hop => cases op <;> first | exact hop.elim | simp [deleted] at hid

theorem Effect.unique (hop : op.Effect x P h h₁) (hunique : h.Unique) : h₁.Unique := by
  cases hop with
  | insertRow hfresh => exact hunique.set fun loc' v hv => by simp [hfresh] at hv
  | deleteRow hv hP => exact hunique.set fun loc' v' hv' => hunique _ _ _ _ _ hv' hv
  | @updateRow table pos v newId values hv hP hfresh =>
    have hne : newId ≠ v.id := by
      rintro rfl
      simp [hfresh] at hv
    have hmark : (h.set (table, pos) { v with xmax := x }).Unique :=
      hunique.set fun loc' v' hv' => hunique _ _ _ _ _ hv' hv
    refine hmark.set fun loc' v' hv' => ?_
    simp [Heap.set, hne, hfresh] at hv'
  | index hop => exact hunique

/-- A stored id is not inserted again. -/
theorem Effects.not_inserted (hops : Effects x P h ops h₁) (hunique : h.Unique) {loc : Loc}
    {id : RowId} {v : RowVersion V} (hv : h loc id = some v) : ∀ op ∈ ops, id ∉ op.inserted := by
  induction hops generalizing v with
  | nil => simp
  | cons hop hops ih =>
    obtain ⟨v', hv'⟩ := hop.stays hunique hv
    intro op' hop' hid
    rcases List.mem_cons.1 hop' with rfl | hop'
    · simp [hop.inserted_fresh hid loc] at hv
    · exact ih (hop.unique hunique) hv' op' hop' hid

theorem Effects.unique (hops : Effects x P h ops h₁) (hunique : h.Unique) : h₁.Unique := by
  induction hops with
  | nil => exact hunique
  | cons hop _ ih => exact ih (hop.unique hunique)

/-- What is stored afterwards was stored before or has been inserted. -/
theorem Effects.stored (hops : Effects x P h ops h₁) (hunique : h.Unique) {loc : Loc} {id : RowId}
    {r : RowVersion V} (hr : h₁ loc id = some r) :
    (∃ r₀, h loc id = some r₀) ∨ ∃ op ∈ ops, id ∈ op.inserted := by
  induction hops with
  | nil => exact .inl ⟨r, hr⟩
  | @cons h h₁ h₂ op ops hop hops ih =>
    rcases ih (hop.unique hunique) hr with ⟨r₁, hr₁⟩ | ⟨op', hop', hid⟩
    · have hrow := hop.row hunique loc id
      rw [hr₁] at hrow
      generalize h loc id = before at hrow ⊢
      cases hrow with
      | kept => exact .inl ⟨r₁, rfl⟩
      | inserted hins _ => exact .inr ⟨op, .head _, hins⟩
      | marked => exact .inl ⟨_, rfl⟩
    · exact .inr ⟨op', .tail _ hop', hid⟩

end WriteOp

/-! ## Batches -/

namespace Database

variable {V K : Type} {db : Database V K}

theorem modifyAt_modifyAt (loc : Loc) (f g : Table V → Table V) :
    (db.modifyAt loc f).modifyAt loc g = db.modifyAt loc (g ∘ f) := by
  simp only [modifyAt, Dict.update_update, Function.comp_def, List.modify_modify_eq]

theorem modifyAt_id (loc : Loc) : db.modifyAt loc (fun t => t) = db := by
  have hid : (fun ts : List (Table V) => ts.modify loc.2 fun t => t) = fun ts => ts := by
    funext ts
    exact List.modify_id loc.2 ts
  simp only [modifyAt, hid, Dict.update_id]

/-- A pushed version takes its place in the heap. -/
theorem RowsOk.rowAt_push (h : db.RowsOk) {loc : Loc} {t : Table V} (ht : db.tableAt loc = some t)
    {r : RowVersion V} (hfresh : ∀ loc, db.rowAt loc r.id = none) :
    (db.modifyAt loc (·.pushVersion r)).rowAt = Heap.set db.rowAt loc r := by
  have hrow : t.row? r.id = none := by simpa [rowAt, ht] using hfresh loc
  funext loc' id
  rw [rowAt_modifyAt]
  by_cases hloc : loc' = loc
  · subst hloc
    simp [ht, (h.synced _ t ht).row?_push hrow, Heap.set, rowAt]
  · simp [Heap.set, hloc]

theorem RowsOk.push (h : db.RowsOk) {loc : Loc} {t : Table V} (ht : db.tableAt loc = some t)
    {r : RowVersion V} (hfresh : ∀ loc, db.rowAt loc r.id = none) :
    (db.modifyAt loc (·.pushVersion r)).RowsOk where
  synced := h.synced_modifyAt fun t' ht' =>
    (h.synced _ t' ht').push (by simpa [rowAt, ht'] using hfresh loc)
  unique loc₁ loc₂ id r₁ r₂ h₁ h₂ := by
    rw [h.rowAt_push ht hfresh] at h₁ h₂
    unfold Heap.set at h₁ h₂
    split at h₁
    · next hnew =>
      split at h₂
      · next hnew' => exact hnew.1.trans hnew'.1.symm
      · rw [hnew.2, hfresh] at h₂
        cases h₂
    · split at h₂
      · next hnew' =>
        rw [hnew'.2, hfresh] at h₁
        cases h₁
      · exact h.unique loc₁ loc₂ id r₁ r₂ h₁ h₂

/-- A mark is written in place. -/
theorem RowsOk.rowAt_mark (h : db.RowsOk) {loc : Loc} {v : RowVersion V} {id : RowId}
    (hv : db.rowAt loc id = some v) (x : Xid) :
    (db.modifyAt loc (·.setXmax id x)).rowAt = Heap.set db.rowAt loc { v with xmax := x } := by
  obtain ⟨t, ht, hrow⟩ := rowAt_eq_some.1 hv
  funext loc' id'
  rw [rowAt_modifyAt]
  by_cases hloc : loc' = loc
  · subst hloc
    by_cases hid : id' = id
    · subst hid
      simp [ht, (h.synced _ t ht).row?_setXmax, Heap.set, hrow, h.rowAt_id hv]
    · simp [ht, (h.synced _ t ht).row?_setXmax, Heap.set, hid, rowAt, h.rowAt_id hv]
  · simp [Heap.set, hloc]

theorem RowsOk.mark (h : db.RowsOk) {loc : Loc} {v : RowVersion V} {id : RowId}
    (hv : db.rowAt loc id = some v) (x : Xid) : (db.modifyAt loc (·.setXmax id x)).RowsOk := by
  apply h.of_rowAt
  · exact h.synced_modifyAt fun t ht => (h.synced _ t ht).setXmax id x
  · intro loc' id' r hr
    rw [h.rowAt_mark hv] at hr
    unfold Heap.set at hr
    split at hr
    · next heq => simp [heq.1, heq.2, h.rowAt_id hv, hv]
    · simp [hr]

theorem findTable_eq_some {name : String} {snap : Snapshot} {owns : List Xid} {t : Table V} :
    db.findTable name snap owns = some t
      ↔ ∃ pos, db.visiblePos name snap owns = some pos ∧ db.tableAt (name, pos) = some t := by
  simp [findTable, Option.bind_eq_some_iff]

theorem modifyTable_of_visiblePos {name : String} {snap : Snapshot} {owns : List Xid} {pos : Nat}
    (hpos : db.visiblePos name snap owns = some pos) (f : Table V → Table V) :
    db.modifyTable name snap owns f = db.modifyAt (name, pos) f := by
  simp [modifyTable, hpos]

end Database
