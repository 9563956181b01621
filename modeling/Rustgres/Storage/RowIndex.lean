-- SUMMARY: The position index of a table over any run of its maintenance operations.
import Mathlib.Data.Set.Card
import Rustgres.Storage.Table

/-!
# The Row Index over Runs

Versions are pushed, removed by swapping, vacuumed away, and the index is rebuilt, in any order. Row ids come from a
counter of the server, so a version is pushed under an id that no stored version has.
-/

namespace Table

variable {V : Type}

/-! ## Operations -/

/-- Remove the dead versions; the index is rebuilt when there was one. -/
def vacuumVersions (t : Table V) (dead : RowVersion V → Bool) : Table V :=
  let rows := t.rows.filter fun v => !dead v
  let gone := t.rows.length - rows.length
  if gone > 0 then rebuildRowIndex { t with rows } else { t with rows }

inductive VersionOp (V : Type) where
  | push (rv : RowVersion V)
  | swapRemove (pos : Nat)
  | rebuild
  | vacuum (dead : RowVersion V → Bool)

/-- One operation; removing a version that is not there stops the program. -/
def VersionOp.run (t : Table V) : VersionOp V → Option (Table V)
  | .push rv => some (t.pushVersion rv)
  | .swapRemove pos => if pos < t.rows.length then some (t.swapRemoveVersion pos) else none
  | .rebuild => some t.rebuildRowIndex
  | .vacuum dead => some (t.vacuumVersions dead)

def runOps (ops : List (VersionOp V)) (t : Table V) : Option (Table V) := ops.foldlM VersionOp.run t

/-- A new version has a new id. -/
def VersionOp.Fresh (t : Table V) : VersionOp V → Prop
  | .push rv => ∀ r ∈ t.rows, r.id ≠ rv.id
  | _ => True

/-- Every version that is pushed in the run has a new id. -/
def Fresh : List (VersionOp V) → Table V → Prop
  | [], _ => True
  | op :: ops, t => op.Fresh t ∧ ∀ t', op.run t = some t' → Fresh ops t'

/-! ## The invariant -/

/-- Each stored version is found at its position, other ids are not found, and there is one entry a version. -/
structure InStep (t : Table V) : Prop where
  found : ∀ pos r, t.rows[pos]? = some r → t.rowPos r.id = some pos
  absent : ∀ id, (∀ r ∈ t.rows, r.id ≠ id) → t.rowPos id = none
  entries : {id | (t.rowIndex id).isSome}.ncard = t.rows.length

variable {t : Table V}

theorem Synced.ncard_rowIndex (h : t.Synced) : {id | (t.rowIndex id).isSome}.ncard = t.rows.length := by
  have hids : {id | (t.rowIndex id).isSome} = ((t.rows.map RowVersion.id).toFinset : Set RowId) := by
    ext id
    rw [Set.mem_ofPred_eq, List.coe_toFinset, Set.mem_ofPred_eq, List.mem_map, Option.isSome_iff_exists]
    constructor
    · rintro ⟨pos, hpos⟩
      obtain ⟨r, hr, hid⟩ := (h id pos).1 hpos
      exact ⟨r, List.mem_of_getElem? hr, hid⟩
    · rintro ⟨r, hr, hid⟩
      obtain ⟨pos, hpos⟩ := List.mem_iff_getElem?.1 hr
      exact ⟨pos, (h id pos).2 ⟨r, hpos, hid⟩⟩
  rw [hids, Set.ncard_coe_finset, List.toFinset_card_of_nodup h.nodup, List.length_map]

theorem inStep_iff : t.InStep ↔ t.Synced := by
  constructor
  · intro h id pos
    constructor
    · intro hpos
      by_contra hne
      have hstored : ∃ r ∈ t.rows, r.id = id := by
        by_contra hnone
        have habsent := h.absent id fun r hr hid => hnone ⟨r, hr, hid⟩
        rw [rowPos, hpos] at habsent
        cases habsent
      obtain ⟨r, hr, rfl⟩ := hstored
      obtain ⟨pos', hpos'⟩ := List.mem_iff_getElem?.1 hr
      have hfound := h.found pos' r hpos'
      rw [rowPos, hpos] at hfound
      cases hfound
      exact hne ⟨r, hpos', rfl⟩
    · rintro ⟨r, hr, rfl⟩
      exact h.found pos r hr
  · intro h
    refine ⟨fun pos r hr => (h r.id pos).2 ⟨r, hr, rfl⟩, fun id hid => ?_, h.ncard_rowIndex⟩
    by_contra hne
    obtain ⟨pos, hpos⟩ := Option.ne_none_iff_exists'.1 hne
    obtain ⟨r, hr, hrid⟩ := (h id pos).1 hpos
    exact hid r (List.mem_of_getElem? hr) hrid

theorem Synced.rebuild (h : t.Synced) : t.rebuildRowIndex.Synced := synced_rebuildRowIndex h.nodup

theorem Synced.vacuum (h : t.Synced) (dead : RowVersion V → Bool) : (t.vacuumVersions dead).Synced := by
  unfold vacuumVersions
  dsimp only
  split
  · exact h.filter _
  · rename_i hnone
    have hall : t.rows.filter (fun v => !dead v) = t.rows := by
      apply List.filter_sublist.eq_of_length_le
      omega
    rw [hall]
    exact h

/-- One operation keeps the index in step. -/
theorem Synced.run (h : t.Synced) {op : VersionOp V} (hfresh : op.Fresh t) {t' : Table V}
    (hrun : op.run t = some t') : t'.Synced := by
  cases op with
  | push rv =>
    cases hrun
    exact h.push (h.row?_eq_none.2 hfresh)
  | swapRemove pos =>
    rw [VersionOp.run] at hrun
    split at hrun
    · cases hrun
      exact h.swapRemoveVersion pos
    · cases hrun
  | rebuild =>
    cases hrun
    exact h.rebuild
  | vacuum dead =>
    cases hrun
    exact h.vacuum dead

theorem Synced.runOps {ops : List (VersionOp V)} (h : t.Synced) (hfresh : Fresh ops t) {t' : Table V}
    (hrun : Table.runOps ops t = some t') : t'.Synced := by
  induction ops generalizing t with
  | nil =>
    cases hrun
    exact h
  | cons op ops ih =>
    obtain ⟨hop, hops⟩ := hfresh
    rw [Table.runOps, List.foldlM_cons] at hrun
    obtain ⟨t₁, hone, hrest⟩ := Option.bind_eq_some_iff.1 hrun
    exact ih (h.run hop hone) (hops t₁ hone) hrest

/-- A second version under a stored id has no place in the index. -/
theorem not_synced_push {rv r : RowVersion V} (hr : r ∈ t.rows) (hid : r.id = rv.id) : ¬(t.pushVersion rv).Synced := by
  intro h
  obtain ⟨pos, hpos⟩ := List.mem_iff_getElem?.1 hr
  have hlt := (List.getElem?_eq_some_iff.1 hpos).1
  have hlast : (t.pushVersion rv).rows[t.rows.length]? = some rv := by simp [pushVersion]
  have hfirst : (t.pushVersion rv).rows[pos]? = some r := by
    simp only [pushVersion]
    rw [List.getElem?_append_left hlt, hpos]
  have := h.pos_unique hfirst hlast hid
  omega

/-! ## Runs -/

/-- The index is in step in every state that a run on a table in step reaches, and a removal takes the version at its
position. -/
theorem rowIndex_run {ops : List (VersionOp V)} {t t' : Table V} (h : t.InStep) (hfresh : Fresh ops t)
    (hrun : runOps ops t = some t') :
    t'.InStep ∧ ∀ pos r, t'.rows[pos]? = some r →
      (t'.swapRemoveVersion pos).InStep ∧ (t'.swapRemoveVersion pos).rowPos r.id = none := by
  have hsynced := (inStep_iff.1 h).runOps hfresh hrun
  refine ⟨inStep_iff.2 hsynced, fun pos r hr => ?_⟩
  have hremoved := inStep_iff.2 (hsynced.swapRemoveVersion pos)
  refine ⟨hremoved, hremoved.absent r.id fun r' hr' => ?_⟩
  exact ((hsynced.mem_swapRemoveVersion ((hsynced r.id pos).2 ⟨r, hr, rfl⟩)).1 hr').2

/-- Three versions, of which the first is removed. -/
theorem rowIndex_run_three : ∃ t' : Table Nat, runOps [.push ⟨1, [], 3, 0⟩, .push ⟨2, [], 3, 0⟩, .push ⟨5, [], 3, 0⟩,
    .swapRemove 0] ⟨[], [], fun _ => none, 1, 0⟩ = some t' ∧ t'.InStep := by
  have hempty : @InStep Nat ⟨[], [], fun _ => none, 1, 0⟩ := inStep_iff.2 fun id pos => by simp
  refine ⟨_, rfl, (@rowIndex_run Nat [.push ⟨1, [], 3, 0⟩, .push ⟨2, [], 3, 0⟩, .push ⟨5, [], 3, 0⟩, .swapRemove 0]
    _ _ hempty ?_ rfl).1⟩
  simp [Fresh, VersionOp.Fresh, VersionOp.run, pushVersion]

end Table
