-- SUMMARY: The stored row versions as a map, and what the row operations of the database do to it.
import Rustgres.Storage.Database

/-!
# The Heap

While ids are unique and every table is in step with its index, the database is a map from places
and ids to row versions. Each row operation is an update of that map.
-/

namespace Database

variable {V K : Type} {db : Database V K}

/-- Tables are in step with their indexes, and a row id is stored in one place. -/
structure RowsOk (db : Database V K) : Prop where
  synced : ∀ loc t, db.tableAt loc = some t → t.Synced
  unique : ∀ loc loc' id r r', db.rowAt loc id = some r → db.rowAt loc' id = some r' → loc = loc'

theorem tableAt_modifyAt (loc loc' : Loc) (f : Table V → Table V) :
    (db.modifyAt loc f).tableAt loc'
      = if loc' = loc then (db.tableAt loc).map f else db.tableAt loc' := by
  obtain ⟨name, pos⟩ := loc
  obtain ⟨name', pos'⟩ := loc'
  simp only [tableAt, modifyAt, Prod.mk.injEq]
  by_cases hname : name' = name
  · subst hname
    cases h : db.tables.lookup name' with
    | none => simp [h]
    | some ts =>
      by_cases hpos : pos' = pos
      · simp [h, hpos]
      · have hne : pos ≠ pos' := fun e => hpos e.symm
        simp [h, hpos, hne]
  · simp [hname, Dict.lookup_update_ne hname]

theorem rowAt_eq_some {loc : Loc} {id : RowId} {r : RowVersion V} :
    db.rowAt loc id = some r ↔ ∃ t, db.tableAt loc = some t ∧ t.row? id = some r := by
  simp [rowAt, Option.bind_eq_some_iff]

/-- A table version stores the version under its own id. -/
theorem RowsOk.rowAt_id (h : db.RowsOk) {loc : Loc} {id : RowId} {r : RowVersion V}
    (hr : db.rowAt loc id = some r) : r.id = id := by
  obtain ⟨t, ht, hrow⟩ := rowAt_eq_some.1 hr
  exact ((h.synced loc t ht).row?_eq_some.1 hrow).2

theorem RowsOk.rowAt_of_mem (h : db.RowsOk) {loc : Loc} {t : Table V} {r : RowVersion V}
    (ht : db.tableAt loc = some t) (hr : r ∈ t.rows) : db.rowAt loc r.id = some r :=
  rowAt_eq_some.2 ⟨t, ht, (h.synced loc t ht).row?_id hr⟩

theorem rowAt_modifyAt (loc loc' : Loc) (f : Table V → Table V) (id : RowId) :
    (db.modifyAt loc f).rowAt loc' id
      = if loc' = loc then (db.tableAt loc).bind fun t => (f t).row? id else db.rowAt loc' id := by
  simp only [rowAt, tableAt_modifyAt]
  split
  · cases db.tableAt loc <;> rfl
  · rfl

/-! ## The home of a row id -/

theorem RowsOk.isSome_of_rowHome (h : db.RowsOk) {id : RowId} {loc : Loc}
    (hloc : db.rowHome id = some loc) : (db.rowAt loc id).isSome := by
  obtain ⟨e, he, hpos⟩ := List.exists_of_findSome?_eq_some hloc
  simp only [Option.map_eq_some_iff] at hpos
  obtain ⟨pos, hpos, rfl⟩ := hpos
  obtain ⟨hlt, hsome, -⟩ := List.findIdx?_eq_some_iff_getElem.1 hpos
  have ht : db.tableAt (e.1, pos) = some e.2[pos] := by
    have hlook : db.tables.lookup e.1 = some e.2 := AList.mem_lookup_iff.2 he
    simp [tableAt, hlook, hlt]
  rw [(h.synced _ _ ht).rowPos_isSome] at hsome
  simpa [rowAt, ht] using hsome

theorem RowsOk.rowHome_eq_some (h : db.RowsOk) {id : RowId} {loc : Loc} :
    db.rowHome id = some loc ↔ (db.rowAt loc id).isSome := by
  constructor
  · exact h.isSome_of_rowHome
  · intro hrow
    obtain ⟨r, hr⟩ := Option.isSome_iff_exists.1 hrow
    cases hhome : db.rowHome id with
    | some loc' =>
      obtain ⟨r', hr'⟩ := Option.isSome_iff_exists.1 (h.isSome_of_rowHome hhome)
      rw [h.unique loc loc' id r r' hr hr']
    | none =>
      obtain ⟨t, ht, hrt⟩ := rowAt_eq_some.1 hr
      simp only [tableAt, Option.bind_eq_some_iff] at ht
      obtain ⟨ts, hlook, hget⟩ := ht
      have hnone := List.findSome?_eq_none_iff.1 hhome ⟨loc.1, ts⟩ (AList.mem_lookup_iff.1 hlook)
      simp only [Option.map_eq_none_iff, List.findIdx?_eq_none_iff] at hnone
      have hsync := h.synced loc t (by simp [tableAt, hlook, hget])
      have := hnone t (List.mem_of_getElem? hget)
      simp [hsync.rowPos_isSome, hrt] at this

theorem RowsOk.findRowVersion_eq_some (h : db.RowsOk) {id : RowId} {r : RowVersion V} :
    db.findRowVersion id = some r ↔ ∃ loc, db.rowAt loc id = some r := by
  simp only [findRowVersion, Option.bind_eq_some_iff]
  constructor
  · rintro ⟨loc, -, hr⟩
    exact ⟨loc, hr⟩
  · rintro ⟨loc, hr⟩
    exact ⟨loc, h.rowHome_eq_some.2 (by simp [hr]), hr⟩

theorem RowsOk.findRowVersion_eq_none (h : db.RowsOk) {id : RowId} :
    db.findRowVersion id = none ↔ ∀ loc, db.rowAt loc id = none := by
  constructor
  · intro hnone loc
    cases hr : db.rowAt loc id with
    | none => rfl
    | some r =>
      have := h.findRowVersion_eq_some.2 ⟨loc, hr⟩
      simp [hnone] at this
  · intro hall
    cases hf : db.findRowVersion id with
    | none => rfl
    | some r =>
      obtain ⟨loc, hr⟩ := h.findRowVersion_eq_some.1 hf
      simp [hall loc] at hr

/-! ## Updates in place -/

/-- An operation that keeps the tables in step and brings no id to a second place. -/
theorem RowsOk.of_rowAt {db' : Database V K} (h : db.RowsOk)
    (hsync : ∀ loc t, db'.tableAt loc = some t → t.Synced)
    (hrows : ∀ loc id r, db'.rowAt loc id = some r → (db.rowAt loc id).isSome) :
    db'.RowsOk where
  synced := hsync
  unique loc loc' id r r' hr hr' := by
    obtain ⟨r₁, h₁⟩ := Option.isSome_iff_exists.1 (hrows loc id r hr)
    obtain ⟨r₂, h₂⟩ := Option.isSome_iff_exists.1 (hrows loc' id r' hr')
    exact h.unique loc loc' id r₁ r₂ h₁ h₂

theorem RowsOk.synced_modifyAt (h : db.RowsOk) {loc : Loc} {f : Table V → Table V}
    (hf : ∀ t, db.tableAt loc = some t → (f t).Synced) (loc' : Loc) (t : Table V)
    (ht : (db.modifyAt loc f).tableAt loc' = some t) : t.Synced := by
  rw [tableAt_modifyAt] at ht
  split at ht
  · obtain ⟨t₀, ht₀, rfl⟩ := Option.map_eq_some_iff.1 ht
    exact hf t₀ ht₀
  · exact h.synced loc' t ht

theorem RowsOk.rowAt_setRowXmax (h : db.RowsOk) (id : RowId) (x : Xid) (loc : Loc) (id' : RowId) :
    (db.setRowXmax id x).rowAt loc id'
      = if id' = id then (db.rowAt loc id').map fun v => { v with xmax := x }
        else db.rowAt loc id' := by
  unfold setRowXmax
  split
  · next home hhome =>
    rw [rowAt_modifyAt]
    split
    · next hloc =>
      subst hloc
      simp only [rowAt]
      cases ht : db.tableAt loc with
      | none => simp
      | some t =>
        simp only [Option.bind_some, (h.synced loc t ht).row?_setXmax]
        split
        · next hid => rw [hid]
        · rfl
    · next hloc =>
      split
      · next hid =>
        subst hid
        cases hr : db.rowAt loc id' with
        | none => rfl
        | some r =>
          obtain ⟨r', hr'⟩ := Option.isSome_iff_exists.1 (h.rowHome_eq_some.1 hhome)
          exact absurd (h.unique _ _ _ _ _ hr hr') hloc
      · rfl
  · next hnone =>
    split
    · next hid =>
      subst hid
      cases hr : db.rowAt loc id' with
      | none => rfl
      | some r => simp [h.rowHome_eq_some.2 (show (db.rowAt loc id').isSome by simp [hr])] at hnone
    · rfl

theorem RowsOk.setRowXmax (h : db.RowsOk) (id : RowId) (x : Xid) : (db.setRowXmax id x).RowsOk := by
  refine h.of_rowAt ?_ ?_
  · unfold Database.setRowXmax
    split
    · exact h.synced_modifyAt fun t ht => (h.synced _ t ht).setXmax id x
    · exact h.synced
  · intro loc id' r hr
    rw [h.rowAt_setRowXmax] at hr
    split at hr
    · obtain ⟨r', hr', -⟩ := Option.map_eq_some_iff.1 hr
      simp [hr']
    · simp [hr]

/-! ## Removal -/

/-- A stored version of ours is removed from its place. -/
theorem RowsOk.removeOwnVersion_of_own (h : db.RowsOk) {loc : Loc} {id : RowId} {v : RowVersion V}
    (hv : db.rowAt loc id = some v) {owns : List Xid} (hown : v.xmin ∈ owns) :
    ∃ t pos, db.tableAt loc = some t ∧ t.rowPos id = some pos ∧
      db.removeOwnVersion id owns = some (v.values, db.modifyAt loc (·.swapRemoveVersion pos)) := by
  have hhome : db.rowHome id = some loc := h.rowHome_eq_some.2 (by simp [hv])
  obtain ⟨t, ht, hrow⟩ := rowAt_eq_some.1 hv
  simp only [Table.row?, Option.bind_eq_some_iff] at hrow
  obtain ⟨pos, hpos, hget⟩ := hrow
  refine ⟨t, pos, ht, hpos, ?_⟩
  simp [removeOwnVersion, hhome, ht, hpos, hget, hown]

/-- A version of somebody else stays. -/
theorem RowsOk.removeOwnVersion_eq_none (h : db.RowsOk) {id : RowId} {owns : List Xid}
    (hforeign : ∀ loc v, db.rowAt loc id = some v → v.xmin ∉ owns) :
    db.removeOwnVersion id owns = none := by
  cases hhome : db.rowHome id with
  | none => simp [removeOwnVersion, hhome]
  | some loc =>
    obtain ⟨v, hv⟩ := Option.isSome_iff_exists.1 (h.rowHome_eq_some.1 hhome)
    have hnot := hforeign loc v hv
    obtain ⟨t, ht, hrow⟩ := rowAt_eq_some.1 hv
    simp only [Table.row?, Option.bind_eq_some_iff] at hrow
    obtain ⟨pos, hpos, hget⟩ := hrow
    simp [removeOwnVersion, hhome, ht, hpos, hget, hnot]

theorem RowsOk.rowAt_swapRemove (h : db.RowsOk) {loc : Loc} {t : Table V} {id : RowId} {pos : Nat}
    (ht : db.tableAt loc = some t) (hpos : t.rowPos id = some pos) (loc' : Loc) (id' : RowId) :
    (db.modifyAt loc (·.swapRemoveVersion pos)).rowAt loc' id'
      = if loc' = loc ∧ id' = id then none else db.rowAt loc' id' := by
  rw [rowAt_modifyAt]
  by_cases hloc : loc' = loc
  · subst hloc
    simp only [if_true, ht, Option.bind_some, (h.synced _ t ht).row?_swapRemoveVersion hpos,
      true_and, rowAt]
  · simp [hloc]

/-! ## Operations that only touch indexes -/

@[simp]
theorem tableAt_modifyLiveIndexes (table : String) (f : Index K → Index K) (loc : Loc) :
    (db.modifyLiveIndexes table f).tableAt loc = db.tableAt loc := rfl

theorem rowAt_congr {db' : Database V K} (htables : ∀ loc, db'.tableAt loc = db.tableAt loc)
    (loc : Loc) (id : RowId) : db'.rowAt loc id = db.rowAt loc id := by
  simp [rowAt, htables]

theorem RowsOk.congr {db' : Database V K} (h : db.RowsOk)
    (htables : ∀ loc, db'.tableAt loc = db.tableAt loc) : db'.RowsOk := by
  constructor
  · simpa only [htables] using h.synced
  · simpa only [rowAt_congr htables] using h.unique

end Database

/-! ## VACUUM -/

theorem Table.reap_synced {V : Type} {t : Table V} (h : t.Synced) (dead : RowVersion V → Bool) :
    (t.reap dead).Synced := by
  unfold reap
  simp only
  split
  · exact h.filter _
  · exact h

theorem Table.row?_reap {V : Type} {t : Table V} (h : t.Synced) (dead : RowVersion V → Bool)
    (id : RowId) : (t.reap dead).row? id = (t.row? id).filter fun v => !dead v := by
  unfold reap
  simp only
  split
  · exact h.row?_filter _ id
  · next hlen =>
    -- nothing was removed, so nothing is dead
    have hall : t.rows.filter (fun v => !dead v) = t.rows :=
      List.filter_sublist.eq_of_length_le (by omega)
    rw [List.filter_eq_self] at hall
    cases hr : t.row? id with
    | none => rfl
    | some r => simp [Option.filter, hall r (h.row?_eq_some.1 hr).1]

namespace Engine

variable {V K : Type} [DecidableEq K] [SqlValue V K] {eng : Engine V K}

theorem tableAt_vacuumTable (name : String) (loc : Loc) :
    (eng.vacuumTable name).db.tableAt loc
      = if loc.1 = name then
          (eng.db.tableAt loc).map fun t => t.reap fun v => eng.txns.DeadToAll v.xmin v.xmax
        else eng.db.tableAt loc := by
  have hindexes : ∀ (rows : List (RowVersion V)) (db : Database V K),
      (rows.foldl (fun db v => db.indexRemoveRow name v.id v.values) db).tableAt loc
        = db.tableAt loc := by
    intro rows
    induction rows with
    | nil => intro db; rfl
    | cons v rows ih => intro db; rw [List.foldl_cons, ih]; rfl
  unfold vacuumTable
  simp only [hindexes]
  simp only [Database.tableAt]
  split
  · next hname =>
    subst hname
    simp only [Dict.lookup_update, Option.bind_map]
    cases eng.db.tables.lookup loc.1 <;> simp
  · next hname => simp [Dict.lookup_update_ne hname]

theorem rowAt_vacuumTable (h : eng.db.RowsOk) (name : String) (loc : Loc) (id : RowId) :
    (eng.vacuumTable name).db.rowAt loc id
      = (eng.db.rowAt loc id).filter fun v => ¬ (loc.1 = name ∧ eng.txns.DeadToAll v.xmin v.xmax) := by
  simp only [Database.rowAt, tableAt_vacuumTable]
  cases ht : eng.db.tableAt loc with
  | none => simp
  | some t =>
    split
    · next hname =>
      simp only [Option.map_some, Option.bind_some, Table.row?_reap (h.synced loc t ht), hname,
        true_and]
      congr 1
      funext v
      simp
    · next hname =>
      simp only [hname, false_and, not_false_eq_true, decide_true, Option.bind_some]
      cases t.row? id <;> rfl

theorem vacuumTable_rowsOk (h : eng.db.RowsOk) (name : String) :
    (eng.vacuumTable name).db.RowsOk := by
  apply h.of_rowAt
  · intro loc t ht
    rw [tableAt_vacuumTable] at ht
    split at ht
    · obtain ⟨t₀, ht₀, rfl⟩ := Option.map_eq_some_iff.1 ht
      exact Table.reap_synced (h.synced loc t₀ ht₀) _
    · exact h.synced loc t ht
  · intro loc id r hr
    rw [rowAt_vacuumTable h, Option.filter_eq_some_iff] at hr
    simp [hr.1]

@[simp]
theorem vacuumTable_txns (name : String) : (eng.vacuumTable name).txns = eng.txns := rfl

end Engine
