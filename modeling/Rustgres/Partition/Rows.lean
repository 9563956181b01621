-- SUMMARY: The rows that INSERT, COPY and UPDATE store: of the types of their table and in all bounds.
import Rustgres.Partition.Schema

/-!
# Stored Rows

Statements on rows leave the catalog alone. An inserted row is checked last of all; an updated one is
in its bounds as long as nothing changes its keys after the check.
-/

open Loops Forest

namespace Partition

variable {V E T L : Type} {sem : KeySem V E T L}

structure Inv (db : Db sem) : Prop where
  schema : Schema db
  typed : ∀ {name row cols}, Stored db name row → colsOf db name = some cols → RowTyped sem cols row
  satisfied : ∀ {name row}, Stored db name row → Satisfied db name row

/-- A row that may be stored in the table. -/
def Fits (db : Db sem) (name : String) (row : Row V) : Prop :=
  (∃ cols, colsOf db name = some cols ∧ RowTyped sem cols row) ∧ Satisfied db name row

theorem Inv.fits {db : Db sem} (h : Inv db) {name : String} {row : Row V} (hrow : Stored db name row) :
    Fits db name row := by
  obtain ⟨t, ht, -⟩ := id hrow
  exact ⟨⟨t.columns, colsOf_of_eq ht, h.typed hrow (colsOf_of_eq ht)⟩, h.satisfied hrow⟩

/-- The catalog is the same. -/
structure SameCatalog (db db' : Db sem) : Prop where
  parts : partitionOf db' = partitionOf db
  cols : colsOf db' = colsOf db

theorem SameCatalog.refl (db : Db sem) : SameCatalog db db := ⟨rfl, rfl⟩

theorem SameCatalog.trans {db db' db'' : Db sem} (h : SameCatalog db db') (h' : SameCatalog db' db'') :
    SameCatalog db db'' := ⟨h'.parts.trans h.parts, h'.cols.trans h.cols⟩

theorem Inv.of_rows {db db' : Db sem} (h : Inv db) (hsame : SameCatalog db db')
    (hrows : ∀ name row, Stored db' name row → Fits db name row) : Inv db' := by
  refine ⟨h.schema.congr hsame.parts hsame.cols, ?_, ?_⟩
  · intro name row cols hrow hcols
    obtain ⟨⟨cols', hcols', htyped⟩, -⟩ := hrows name row hrow
    rw [hsame.cols, hcols'] at hcols
    cases hcols
    exact htyped
  · intro name row hrow
    exact (hrows name row hrow).2.congr hsame.parts hsame.cols

/-! ## Storing -/

theorem SameCatalog.put {db : Db sem} {name : String} {t t' : Table sem} (ht : db name = some t)
    (hpart : t'.partition = t.partition) (hcols : t'.columns = t.columns) :
    SameCatalog db (db.put name t') := by
  constructor
  · funext n
    unfold partitionOf Db.put
    by_cases hn : n = name
    · subst hn
      rw [Function.update_self, ht]
      exact hpart
    · rw [Function.update_of_ne hn]
  · funext n
    unfold colsOf Db.put
    by_cases hn : n = name
    · subst hn
      rw [Function.update_self, ht]
      exact congrArg some hcols
    · rw [Function.update_of_ne hn]

theorem stored_put {db : Db sem} {name n : String} {t : Table sem} {row : Row V}
    (h : Stored (db.put name t) n row) : (n = name ∧ row ∈ t.rows) ∨ Stored db n row := by
  obtain ⟨t', ht', hrow⟩ := h
  unfold Db.put at ht'
  by_cases hn : n = name
  · subst hn
    rw [Function.update_self] at ht'
    cases ht'
    exact .inl ⟨rfl, hrow⟩
  · rw [Function.update_of_ne hn] at ht'
    exact .inr ⟨t', ht', hrow⟩

theorem SameCatalog.storeRow (db : Db sem) (stored : String × Row V) :
    SameCatalog db (storeRow db stored) := by
  unfold Partition.storeRow
  cases ht : db stored.1 with
  | none => exact .refl db
  | some t => exact .put ht rfl rfl

theorem SameCatalog.foldl {α : Type} {step : Db sem → α → Db sem}
    (hstep : ∀ db a, SameCatalog db (step db a)) (db : Db sem) (l : List α) :
    SameCatalog db (l.foldl step db) := by
  induction l generalizing db with
  | nil => exact .refl db
  | cons a l ih => exact (hstep db a).trans (ih (step db a))

theorem stored_storeRow {db : Db sem} {stored : String × Row V} {name : String} {row : Row V}
    (h : Stored (storeRow db stored) name row) : stored = (name, row) ∨ Stored db name row := by
  unfold storeRow at h
  cases ht : db stored.1 with
  | none =>
      rw [ht] at h
      exact .inr h
  | some t =>
      rw [ht] at h
      rcases stored_put h with ⟨hname, hrow⟩ | hrow
      · rw [List.mem_append, List.mem_singleton] at hrow
        rcases hrow with hrow | hrow
        · exact .inr ⟨t, hname ▸ ht, hrow⟩
        · exact .inl (Prod.ext hname.symm hrow.symm)
      · exact .inr hrow

theorem stored_foldl_storeRow {db : Db sem} {l : List (String × Row V)} {name : String} {row : Row V}
    (h : Stored (l.foldl storeRow db) name row) : (name, row) ∈ l ∨ Stored db name row := by
  induction l generalizing db with
  | nil => exact .inr h
  | cons a l ih =>
      rcases ih h with hrow | hrow
      · exact .inl (.tail _ hrow)
      · rcases stored_storeRow hrow with rfl | hrow
        · exact .inl (.head _)
        · exact .inr hrow

/-! ## INSERT -/

theorem coerceRow_typed {cols : Cols T} {row new : Row V} (h : coerceRow sem cols row = .ok new) :
    RowTyped sem cols new := by
  induction cols generalizing row new with
  | nil =>
      cases row with
      | nil =>
          cases h
          exact .nil
      | cons => cases h
  | cons c cols ih =>
      cases row with
      | nil => cases h
      | cons v row =>
          obtain ⟨w, hw, h⟩ := bind_eq_ok h
          obtain ⟨rest, hrest, h⟩ := bind_eq_ok h
          cases h
          refine .cons (fun x hx => ?_) (ih hrest)
          rw [Option.mem_def] at hx
          subst hx
          exact sem.typeOf_coerceValue hw

theorem mem_of_fireRows {fire : Row V → Except ExecError (Option (Row V))} {rows fired : List (Row V)}
    (h : fireRows fire rows = .ok fired) {row : Row V} (hrow : row ∈ fired) :
    ∃ r ∈ rows, fire r = .ok (some row) := by
  obtain ⟨out, hout, h⟩ := bind_eq_ok h
  cases h
  obtain ⟨o, ho, hrow⟩ := List.mem_filterMap.1 hrow
  obtain ⟨r, hr, hfire⟩ := exists_of_mem_mapM hout ho
  cases hrow
  exact ⟨r, hr, hfire⟩

theorem fits_of_checkLeafBound {db : Db sem} {fuel : Nat} {name : String} {t : Table sem}
    {pinfo : PartitionInfo V E} {row : Row V} (ht : db name = some t)
    (hpinfo : t.partition = some pinfo) (htyped : RowTyped sem t.columns row)
    (h : checkLeafBound db fuel name pinfo t.columns row = .ok ()) : Fits db name row :=
  ⟨⟨t.columns, colsOf_of_eq ht, htyped⟩,
    satisfied_of_checkBounds h ((partitionOf_of_eq ht).trans hpinfo) (colsOf_of_eq ht)⟩

theorem fits_of_route {db : Db sem} (hs : Schema db) {fuel : Nat} {table : String} {t : Table sem}
    (ht : db table = some t) {rows : List (Row V)} (htyped : ∀ row ∈ rows, RowTyped sem t.columns row)
    {routed : List (String × Row V)} (h : routePartitionInserts db fuel table t rows = .ok routed) :
    ∀ stored ∈ routed, Fits db stored.1 stored.2 := by
  have hcols := colsOf_of_eq ht
  unfold routePartitionInserts at h
  cases hpart : t.partition with
  | none =>
      simp only [hpart] at h
      cases h
      intro stored hstored
      obtain ⟨row, hrow, rfl⟩ := List.mem_map.1 hstored
      have hroot : parentOf db table = none := by
        simp [parentOf, partitionOf_of_eq ht, hpart]
      exact ⟨⟨t.columns, hcols, htyped row hrow⟩, satisfied_of_root hroot row⟩
  | some pinfo =>
  simp only [hpart] at h
  have hpinfo := (partitionOf_of_eq ht).trans hpart
  split at h
  · cases h
  obtain ⟨_, hcheck, h⟩ := bind_eq_ok h
  have hfits : ∀ row ∈ rows, Fits db table row := by
    intro row hrow
    unfold checkTarget at hcheck
    split at hcheck
    · exact fits_of_checkLeafBound ht hpart (htyped row hrow) (forM_eq_ok.1 hcheck row hrow)
    · rename_i hbound
      have hroot : pinfo.parent = none := by
        have hsome := hs.bound hpinfo
        rw [Bool.not_eq_true] at hbound
        rw [hbound] at hsome
        exact Option.isSome_eq_false_iff.1 hsome.symm |> Option.isNone_iff_eq_none.1
      exact ⟨⟨t.columns, hcols, htyped row hrow⟩,
        satisfied_of_root ((parentOf_of_eq hpinfo).trans hroot) row⟩
  split at h
  · cases h
    intro stored hstored
    obtain ⟨row, hrow, rfl⟩ := List.mem_map.1 hstored
    exact hfits row hrow
  · obtain ⟨found, hfound, h⟩ := bind_eq_ok h
    obtain ⟨fired, hfired, h⟩ := bind_eq_ok h
    cases h
    intro stored hstored
    obtain ⟨o, ho, rfl⟩ := List.mem_filterMap.1 hstored
    obtain ⟨⟨leaf, lrow⟩, hmem, hfire⟩ := exists_of_mem_mapM hfired ho
    obtain ⟨row, hrow, hroute⟩ := exists_of_mem_mapM hfound hmem
    obtain ⟨leaf', hleaf, hroute⟩ := bind_eq_ok hroute
    obtain ⟨-, lcols, hlcols, hsame, -⟩ := satisfied_of_findPartitionLeaf hs hleaf hpinfo hcols
      (htyped row hrow).length_eq (hfits row hrow).2
    cases hlt : db leaf' with
    | none =>
        rw [hlt] at hroute
        cases hroute
    | some lt =>
    simp only [hlt] at hroute
    cases hroute
    rw [colsOf_of_eq hlt] at hlcols
    cases hlcols
    have hltyped := (htyped row hrow).remapRow t.nodup fun c hc => (hsame c).1 hc
    unfold fireLeaf at hfire
    simp only [hlt] at hfire
    cases hlpart : lt.partition with
    | none =>
        simp only [hlpart] at hfire
        cases hfire
    | some linfo =>
    simp only [hlpart] at hfire
    obtain ⟨out, hout, hfire⟩ := bind_eq_ok hfire
    cases out with
    | none => cases hfire
    | some new =>
        obtain ⟨_, hchecked, hfire⟩ := bind_eq_ok hfire
        cases hfire
        exact fits_of_checkLeafBound hlt hlpart
          (lt.hooks.beforeInsert_typed _ _ hltyped hout) hchecked

theorem inv_execInsert {db db' : Db sem} (h : Inv db) {fuel : Nat} {table : String}
    {values : List (Row V)} (hexec : execInsert db fuel table values = .ok db') : Inv db' := by
  unfold execInsert at hexec
  cases ht : db table with
  | none =>
      rw [ht] at hexec
      cases hexec
  | some t =>
  simp only [ht] at hexec
  obtain ⟨built, hbuilt, hexec⟩ := bind_eq_ok hexec
  obtain ⟨rows, hrows, hexec⟩ := bind_eq_ok hexec
  obtain ⟨routed, hrouted, hexec⟩ := bind_eq_ok hexec
  cases hexec
  have htyped : ∀ row ∈ rows, RowTyped sem t.columns row := by
    intro row hrow
    obtain ⟨r, hr, hfire⟩ := mem_of_fireRows hrows hrow
    obtain ⟨v, -, hbuild⟩ := exists_of_mem_mapM hbuilt hr
    obtain ⟨w, hw, hgen⟩ := bind_eq_ok hbuild
    exact t.hooks.beforeInsert_typed _ _
      (t.hooks.generate_typed _ _ (coerceRow_typed hw) hgen) hfire
  have hfits := fits_of_route h.schema ht htyped hrouted
  refine h.of_rows (SameCatalog.foldl SameCatalog.storeRow db routed) fun name row hrow => ?_
  rcases stored_foldl_storeRow hrow with hrow | hrow
  · exact hfits _ hrow
  · exact h.fits hrow

end Partition
