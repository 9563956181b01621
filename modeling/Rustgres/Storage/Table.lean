-- SUMMARY: Row versions and table versions, with the position index of a table kept in step.
import Rustgres.Lib.ListOps
import Rustgres.Storage.Visibility

/-!
# Tables

A table version stores row versions in a vector and finds them by id through `rowIndex`. While the
index is in step with the vector, the table is a finite map from row ids to row versions, and each
operation is an update of that map.
-/

/-- How an index sees a value: what `index_key_cmp` compares, and whether that is NULL. -/
class SqlValue (V : Type) (K : outParam Type) where
  key : V → K
  isNull : K → Bool

structure RowVersion (V : Type) where
  id : RowId
  values : List V
  xmin : Xid
  xmax : Xid
deriving DecidableEq, Repr

/-- A version just written by `xmin`. -/
def RowVersion.plain {V : Type} (id : RowId) (values : List V) (xmin : Xid) : RowVersion V :=
  ⟨id, values, xmin, 0⟩

@[simp]
theorem RowVersion.id_plain {V : Type} (id : RowId) (values : List V) (xmin : Xid) :
    (RowVersion.plain id values xmin).id = id := rfl

/-- One version of a table. -/
structure Table (V : Type) where
  columns : List String
  rows : List (RowVersion V)
  rowIndex : RowId → Option Nat
  createdXmin : Xid
  droppedXmax : Xid

variable {V : Type}

def RowVisible (v : RowVersion V) (snap : Snapshot) (owns : List Xid) : Prop :=
  StampVisible v.xmin v.xmax snap owns

instance (v : RowVersion V) (snap : Snapshot) (owns : List Xid) :
    Decidable (RowVisible v snap owns) :=
  inferInstanceAs (Decidable (StampVisible ..))

def TableVisible (t : Table V) (snap : Snapshot) (owns : List Xid) : Prop :=
  StampVisible t.createdXmin t.droppedXmax snap owns

instance (t : Table V) (snap : Snapshot) (owns : List Xid) : Decidable (TableVisible t snap owns) :=
  inferInstanceAs (Decidable (StampVisible ..))

namespace Table

variable (t : Table V)

def rowPos (id : RowId) : Option Nat := t.rowIndex id

/-- The version with this id. -/
def row? (id : RowId) : Option (RowVersion V) :=
  (t.rowPos id).bind fun pos => t.rows[pos]?

def pushVersion (rv : RowVersion V) : Table V :=
  { t with
    rows := t.rows ++ [rv]
    rowIndex := Function.update t.rowIndex rv.id (some t.rows.length) }

/-- Write `x` over the `xmax` of the version with this id. -/
def setXmax (id : RowId) (x : Xid) : Table V :=
  match t.rowPos id with
  | some pos => { t with rows := t.rows.modify pos fun v => { v with xmax := x } }
  | none => t

/-- Remove the version at `pos`; the last version takes its place. -/
def swapRemoveVersion (pos : Nat) : Table V :=
  match t.rows[pos]? with
  | none => t
  | some rv =>
    let rows := swapRemove t.rows pos
    let index := Function.update t.rowIndex rv.id none
    { t with
      rows
      rowIndex := match rows[pos]? with
        | some moved => Function.update index moved.id (some pos)
        | none => index }

/-- The index of `rows`, from scratch. -/
def indexOf (rows : List (RowVersion V)) : RowId → Option Nat :=
  rows.zipIdx.foldl (fun index (r, i) => Function.update index r.id (some i)) fun _ => none

def rebuildRowIndex : Table V := { t with rowIndex := indexOf t.rows }

/-! ## A table in step with its index -/

/-- The index gives exactly the positions of the stored versions. -/
def Synced : Prop :=
  ∀ id pos, t.rowIndex id = some pos ↔ ∃ r, t.rows[pos]? = some r ∧ r.id = id

variable {t}

theorem Synced.nodup (h : t.Synced) : (t.rows.map RowVersion.id).Nodup := by
  rw [List.nodup_iff_injective_get]
  intro i j hij
  simp only [List.get_eq_getElem, List.getElem_map] at hij
  have hi : i.1 < t.rows.length := by simpa using i.2
  have hj : j.1 < t.rows.length := by simpa using j.2
  have h1 := (h t.rows[i.1].id i.1).2 ⟨t.rows[i.1], by simp [hi], rfl⟩
  have h2 := (h t.rows[i.1].id j.1).2 ⟨t.rows[j.1], by simp [hj], hij.symm⟩
  exact Fin.ext (Option.some.inj (h1.symm.trans h2))

/-- The table is the map from ids to stored versions. -/
theorem Synced.row?_eq_some (h : t.Synced) {id : RowId} {r : RowVersion V} :
    t.row? id = some r ↔ r ∈ t.rows ∧ r.id = id := by
  simp only [row?, rowPos, Option.bind_eq_some_iff, List.mem_iff_getElem?]
  constructor
  · rintro ⟨pos, hpos, hr⟩
    obtain ⟨r', hr', hid⟩ := (h id pos).1 hpos
    obtain rfl : r' = r := by simpa [hr] using hr'.symm
    exact ⟨⟨pos, hr⟩, hid⟩
  · rintro ⟨⟨pos, hr⟩, hid⟩
    exact ⟨pos, (h id pos).2 ⟨r, hr, hid⟩, hr⟩

theorem Synced.row?_eq_none (h : t.Synced) {id : RowId} :
    t.row? id = none ↔ ∀ r ∈ t.rows, r.id ≠ id := by
  simp only [Option.eq_none_iff_forall_ne_some, ne_eq, h.row?_eq_some, not_and]

theorem Synced.row?_id (h : t.Synced) {r : RowVersion V} (hr : r ∈ t.rows) :
    t.row? r.id = some r :=
  h.row?_eq_some.2 ⟨hr, rfl⟩

theorem Synced.rowPos_isSome (h : t.Synced) {id : RowId} :
    (t.rowPos id).isSome = (t.row? id).isSome := by
  cases hp : t.rowPos id with
  | none => simp [row?, hp]
  | some pos =>
    obtain ⟨r, hr, -⟩ := (h id pos).1 hp
    simp [row?, hp, hr]

theorem Synced.push (h : t.Synced) {rv : RowVersion V} (hfresh : t.row? rv.id = none) :
    (t.pushVersion rv).Synced := by
  rw [h.row?_eq_none] at hfresh
  intro id pos
  simp only [pushVersion]
  by_cases hid : id = rv.id
  · subst hid
    simp only [Function.update_self, Option.some.injEq]
    constructor
    · rintro rfl
      exact ⟨rv, by simp, rfl⟩
    · rintro ⟨r, hr, hrid⟩
      rw [List.getElem?_append] at hr
      split at hr
      · exact absurd hrid (hfresh r (List.mem_of_getElem? hr))
      · have hpos := (List.getElem?_eq_some_iff.1 hr).1
        simp at hpos
        omega
  · simp only [Function.update_of_ne hid, h id pos]
    constructor
    · rintro ⟨r, hr, hrid⟩
      have hlt := (List.getElem?_eq_some_iff.1 hr).1
      exact ⟨r, by rw [List.getElem?_append_left hlt, hr], hrid⟩
    · rintro ⟨r, hr, hrid⟩
      rw [List.getElem?_append] at hr
      split at hr
      · exact ⟨r, hr, hrid⟩
      · obtain ⟨hlt, hget⟩ := List.getElem?_eq_some_iff.1 hr
        simp at hget
        exact absurd (hget ▸ hrid).symm hid

theorem Synced.row?_push (h : t.Synced) {rv : RowVersion V} (hfresh : t.row? rv.id = none)
    (id : RowId) : (t.pushVersion rv).row? id = if id = rv.id then some rv else t.row? id := by
  have h' := h.push hfresh
  apply Option.ext
  intro r
  rw [h'.row?_eq_some]
  split
  · next hid =>
    subst hid
    rw [h.row?_eq_none] at hfresh
    simp only [pushVersion, List.mem_append, List.mem_singleton, Option.some.injEq]
    constructor
    · rintro ⟨hr | rfl, hid⟩
      · exact absurd hid (hfresh r hr)
      · rfl
    · rintro rfl
      exact ⟨.inr rfl, rfl⟩
  · next hid =>
    rw [h.row?_eq_some]
    simp only [pushVersion, List.mem_append, List.mem_singleton]
    constructor
    · rintro ⟨hr | rfl, hrid⟩
      · exact ⟨hr, hrid⟩
      · exact absurd hrid.symm hid
    · rintro ⟨hr, hrid⟩
      exact ⟨.inl hr, hrid⟩

theorem Synced.setXmax (h : t.Synced) (id : RowId) (x : Xid) : (t.setXmax id x).Synced := by
  unfold Table.setXmax
  split
  · next pos hpos =>
    intro id' pos'
    simp only [h id' pos', List.getElem?_modify]
    split
    · next hp =>
      subst hp
      cases hr : t.rows[pos]? with
      | none => simp
      | some r => simp
    · simp
  · exact h

theorem Synced.row?_setXmax (h : t.Synced) (id : RowId) (x : Xid) (id' : RowId) :
    (t.setXmax id x).row? id'
      = if id' = id then (t.row? id).map fun v => { v with xmax := x } else t.row? id' := by
  cases hpos : t.rowPos id with
  | none =>
    have hnone : t.row? id = none := by simp [row?, hpos]
    have hsame : t.setXmax id x = t := by simp [Table.setXmax, hpos]
    rw [hsame]
    split
    · next hid => simp [hid, hnone]
    · rfl
  | some pos =>
    have hset : t.setXmax id x
        = { t with rows := t.rows.modify pos fun v => { v with xmax := x } } := by
      simp [Table.setXmax, hpos]
    have hrow : ∀ i, (t.setXmax id x).row? i
        = (t.rowPos i).bind fun p => (t.rows.modify pos fun v => { v with xmax := x })[p]? := by
      intro i
      rw [hset]
      rfl
    rw [hrow]
    split
    · next hid =>
      subst hid
      simp [row?, hpos, List.getElem?_modify]
    · next hid =>
      have hne : ∀ p, t.rowPos id' = some p → pos ≠ p := by
        rintro p hp rfl
        obtain ⟨r, hr, hrid⟩ := (h id pos).1 hpos
        obtain ⟨r', hr', hrid'⟩ := (h id' pos).1 hp
        rw [hr] at hr'
        cases hr'
        exact hid (hrid'.symm.trans hrid)
      cases hp : t.rowPos id' with
      | none => simp [row?, hp]
      | some p => simp [row?, hp, List.getElem?_modify, hne p hp]

theorem Synced.pos_unique (h : t.Synced) {i j : Nat} {r r' : RowVersion V}
    (hi : t.rows[i]? = some r) (hj : t.rows[j]? = some r') (hid : r.id = r'.id) : i = j := by
  have h1 := (h r.id i).2 ⟨r, hi, rfl⟩
  have h2 := (h r.id j).2 ⟨r', hj, hid.symm⟩
  rw [h1] at h2
  exact Option.some.inj h2

theorem Synced.swapRemoveVersion (h : t.Synced) (pos : Nat) : (t.swapRemoveVersion pos).Synced := by
  unfold Table.swapRemoveVersion
  split
  · exact h
  · next rv hrv =>
    have hpos : pos < t.rows.length := (List.getElem?_eq_some_iff.1 hrv).1
    have huniq : ∀ (i j : Nat) (r r' : RowVersion V), t.rows[i]? = some r → t.rows[j]? = some r' →
        r.id = r'.id → i = j := fun _ _ _ _ => h.pos_unique
    have hget := getElem?_swapRemove hpos
    rw [List.getLast?_eq_getElem?] at hget
    obtain ⟨last, hlast⟩ : ∃ last, t.rows[t.rows.length - 1]? = some last := by
      simp only [List.getElem?_eq_some_iff]
      exact ⟨t.rows[t.rows.length - 1], by omega, rfl⟩
    intro id i
    have hi := h id i
    by_cases hend : pos + 1 < t.rows.length
    · -- the last version moves to `pos`
      have hmoved : (swapRemove t.rows pos)[pos]? = some last := by
        rw [hget, if_pos hend, if_pos rfl, hlast]
      simp only [hmoved, hget, Function.update_apply]
      grind
    · have hnone : (swapRemove t.rows pos)[pos]? = none := by
        rw [hget, if_neg hend]
      simp only [hnone, hget, Function.update_apply]
      grind

theorem Synced.mem_swapRemoveVersion (h : t.Synced) {id : RowId} {pos : Nat}
    (hpos : t.rowPos id = some pos) {r : RowVersion V} :
    r ∈ (t.swapRemoveVersion pos).rows ↔ r ∈ t.rows ∧ r.id ≠ id := by
  obtain ⟨rv, hrv, rfl⟩ := (h id pos).1 hpos
  have hlt : pos < t.rows.length := (List.getElem?_eq_some_iff.1 hrv).1
  have huniq : ∀ (i j : Nat) (r r' : RowVersion V), t.rows[i]? = some r → t.rows[j]? = some r' →
      r.id = r'.id → i = j := fun _ _ _ _ => h.pos_unique
  have hget := getElem?_swapRemove hlt
  rw [List.getLast?_eq_getElem?] at hget
  simp only [Table.swapRemoveVersion, hrv, List.mem_iff_getElem?, hget]
  constructor
  · rintro ⟨i, hi⟩
    grind
  · rintro ⟨⟨i, hi⟩, hne⟩
    have hilt := (List.getElem?_eq_some_iff.1 hi).1
    by_cases hlast : i + 1 < t.rows.length
    · exact ⟨i, by grind⟩
    · exact ⟨pos, by grind⟩

theorem Synced.row?_swapRemoveVersion (h : t.Synced) {id : RowId} {pos : Nat}
    (hpos : t.rowPos id = some pos) (id' : RowId) :
    (t.swapRemoveVersion pos).row? id' = if id' = id then none else t.row? id' := by
  apply Option.ext
  intro r
  rw [(h.swapRemoveVersion pos).row?_eq_some, h.mem_swapRemoveVersion hpos]
  split
  · next hid => simp [hid]
  · next hid =>
    rw [h.row?_eq_some]
    grind

/-! ## Rebuilding the index -/

theorem indexOf_append (rows : List (RowVersion V)) (r : RowVersion V) :
    indexOf (rows ++ [r]) = Function.update (indexOf rows) r.id (some rows.length) := by
  simp [indexOf, List.zipIdx_append]

theorem indexOf_eq_some {rows : List (RowVersion V)} (hnodup : (rows.map RowVersion.id).Nodup)
    (id : RowId) (pos : Nat) :
    indexOf rows id = some pos ↔ ∃ r, rows[pos]? = some r ∧ r.id = id := by
  induction rows using List.reverseRecOn with
  | nil => simp [indexOf]
  | append_singleton rows r ih =>
    simp only [List.map_append, List.map_cons, List.map_nil, List.nodup_append] at hnodup
    obtain ⟨hrows, -, hdisj⟩ := hnodup
    have ih := ih hrows
    have hfresh : ∀ r' ∈ rows, r'.id ≠ r.id := fun r' hr' =>
      hdisj r'.id (List.mem_map_of_mem hr') r.id (by simp)
    rw [indexOf_append, Function.update_apply]
    have hmem : ∀ r', rows[pos]? = some r' → r' ∈ rows := fun _ => List.mem_of_getElem?
    grind

theorem synced_rebuildRowIndex (hnodup : (t.rows.map RowVersion.id).Nodup) :
    t.rebuildRowIndex.Synced :=
  fun id pos => indexOf_eq_some hnodup id pos

/-- Keeping some of the versions and rebuilding the index (VACUUM). -/
theorem Synced.filter (h : t.Synced) (p : RowVersion V → Bool) :
    (rebuildRowIndex { t with rows := t.rows.filter p }).Synced :=
  synced_rebuildRowIndex (h.nodup.sublist (List.filter_sublist.map _))

theorem Synced.row?_filter (h : t.Synced) (p : RowVersion V → Bool) (id : RowId) :
    (rebuildRowIndex { t with rows := t.rows.filter p }).row? id = (t.row? id).filter p := by
  apply Option.ext
  intro r
  simp only [(h.filter p).row?_eq_some, Option.filter_eq_some_iff, h.row?_eq_some]
  simp only [rebuildRowIndex, List.mem_filter]
  tauto

end Table
