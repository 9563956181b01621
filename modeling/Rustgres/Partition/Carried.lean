-- SUMMARY: Rows carried up a partition tree, the bounds they satisfy there, and what routing and checking establish.
import Rustgres.Lib.Forest
import Rustgres.Lib.Loops
import Rustgres.Partition.Dml

/-!
# Carried Rows

A row satisfies its bounds when every table above it accepts the row as carried there. The check that
walks up proves this, and so does the search for a leaf, when tables and their parents have the same
columns in some order.
-/

open Loops Forest

namespace Partition

variable {V E T L : Type} {sem : KeySem V E T L}

/-! ## Rows by name -/

theorem findIdx?_of_nodup {cols : Cols T} (h : (cols.map Prod.fst).Nodup) {i : Nat} {c : String × T}
    (hc : cols[i]? = some c) : cols.findIdx? (fun d => d.1 = c.1) = some i := by
  obtain ⟨hlt, rfl⟩ := List.getElem?_eq_some_iff.1 hc
  rw [List.findIdx?_eq_some_iff_getElem]
  refine ⟨hlt, by simp, fun j hj hsame => ?_⟩
  have hj' : j < cols.length := Nat.lt_trans hj hlt
  have hnames : (cols.map Prod.fst).get ⟨j, by simpa using hj'⟩
      = (cols.map Prod.fst).get ⟨i, by simpa using hlt⟩ := by
    simpa using hsame
  have hji := List.nodup_iff_injective_get.1 h hnames
  exact absurd (congrArg Fin.val hji) (Nat.ne_of_lt hj)

theorem valueOf_of_getElem? {cols : Cols T} (h : (cols.map Prod.fst).Nodup) {row : Row V} {i : Nat}
    {c : String × T} (hc : cols[i]? = some c) : valueOf cols row c.1 = (row[i]?).join := by
  unfold valueOf
  rw [findIdx?_of_nodup h hc]
  rfl

theorem valueOf_remapRow {src dst : Cols T} (hdst : (dst.map Prod.fst).Nodup) (row : Row V)
    {c : String × T} (hc : c ∈ dst) :
    valueOf dst (remapRow src dst row) c.1 = valueOf src row c.1 := by
  obtain ⟨i, hi⟩ := List.getElem?_of_mem hc
  rw [valueOf_of_getElem? hdst hi]
  simp [remapRow, hi]

/-- Carrying a row through a table that has all columns of the last one changes nothing. -/
theorem remapRow_remapRow {src mid dst : Cols T} (hmid : (mid.map Prod.fst).Nodup)
    (hsub : ∀ c ∈ dst, c ∈ mid) (row : Row V) :
    remapRow mid dst (remapRow src mid row) = remapRow src dst row :=
  List.map_congr_left fun c hc => valueOf_remapRow hmid row (hsub c hc)

theorem remapRow_self {cols : Cols T} (h : (cols.map Prod.fst).Nodup) {row : Row V}
    (hlen : row.length = cols.length) : remapRow cols cols row = row := by
  apply List.ext_getElem? fun i => ?_
  rw [remapRow, List.getElem?_map]
  cases hi : cols[i]? with
  | none =>
      rw [List.getElem?_eq_none_iff] at hi
      rw [List.getElem?_eq_none (hlen ▸ hi)]
      rfl
  | some c =>
      have hlt : i < row.length := hlen ▸ (List.getElem?_eq_some_iff.1 hi).1
      rw [Option.map_some, valueOf_of_getElem? h hi, List.getElem?_eq_getElem hlt]
      rfl

theorem RowTyped.length_eq {cols : Cols T} {row : Row V} (h : RowTyped sem cols row) :
    row.length = cols.length := (List.Forall₂.length_eq h).symm

theorem RowTyped.get {cols : Cols T} {row : Row V} (h : RowTyped sem cols row) {i : Nat}
    {c : String × T} (hc : cols[i]? = some c) {w : V} (hw : (row[i]?).join = some w) :
    sem.typeOf w = c.2 := by
  induction h generalizing i with
  | nil => cases hc
  | cons hcv _ ih =>
      cases i with
      | zero =>
          cases hc
          exact hcv w hw
      | succ i => exact ih hc hw

theorem RowTyped.remapRow {src dst : Cols T} (hsrc : (src.map Prod.fst).Nodup)
    (hsub : ∀ c ∈ dst, c ∈ src) {row : Row V} (h : RowTyped sem src row) :
    RowTyped sem dst (remapRow src dst row) := by
  unfold RowTyped Partition.remapRow
  rw [List.forall₂_map_right_iff]
  refine List.forall₂_same.2 fun c hc w hw => ?_
  obtain ⟨i, hi⟩ := List.getElem?_of_mem (hsub c hc)
  rw [valueOf_of_getElem? hsrc hi] at hw
  exact h.get hi hw

/-! ## The catalog -/

def colsOf (db : Db sem) (name : String) : Option (Cols T) := (db name).map (·.columns)

def parentOf (db : Db sem) (name : String) : Option String := (partitionOf db name).bind (·.parent)

def Stored (db : Db sem) (name : String) (row : Row V) : Prop :=
  ∃ t, db name = some t ∧ row ∈ t.rows

theorem exists_of_partitionOf {db : Db sem} {name : String} {pinfo : PartitionInfo V E}
    (h : partitionOf db name = some pinfo) : ∃ t, db name = some t ∧ t.partition = some pinfo :=
  Option.bind_eq_some_iff.1 h

theorem partitionOf_of_eq {db : Db sem} {name : String} {t : Table sem} (h : db name = some t) :
    partitionOf db name = t.partition := by
  simp [partitionOf, h]

theorem colsOf_of_eq {db : Db sem} {name : String} {t : Table sem} (h : db name = some t) :
    colsOf db name = some t.columns := by
  simp [colsOf, h]

theorem parentOf_of_eq {db : Db sem} {name : String} {pinfo : PartitionInfo V E}
    (h : partitionOf db name = some pinfo) : parentOf db name = pinfo.parent := by
  simp [parentOf, h]

theorem colsOf_isSome {db : Db sem} {name : String} {pinfo : PartitionInfo V E}
    (h : partitionOf db name = some pinfo) : ∃ cols, colsOf db name = some cols := by
  obtain ⟨t, ht, -⟩ := exists_of_partitionOf h
  exact ⟨t.columns, colsOf_of_eq ht⟩

theorem nodup_of_colsOf {db : Db sem} {name : String} {cols : Cols T}
    (h : colsOf db name = some cols) : (cols.map Prod.fst).Nodup := by
  obtain ⟨t, -, rfl⟩ := Option.map_eq_some_iff.1 h
  exact t.nodup

/-! ## Carried rows -/

/-- A row of one table, as the row of a table above it. -/
inductive Carried (db : Db sem) : String → Row V → String → Row V → Prop
  | refl (name : String) (row : Row V) : Carried db name row name row
  | up {name parent anc : String} {row row' : Row V} {cols pcols : Cols T}
      (hcols : colsOf db name = some cols) (hparent : parentOf db name = some parent)
      (hpcols : colsOf db parent = some pcols)
      (carried : Carried db parent (remapRow cols pcols row) anc row') :
      Carried db name row anc row'

/-- The parent of the table accepts the row there. -/
def BoundOk (db : Db sem) (name : String) (row : Row V) : Prop :=
  ∀ pinfo parent ppinfo cols pcols, partitionOf db name = some pinfo → pinfo.parent = some parent →
    partitionOf db parent = some ppinfo → colsOf db name = some cols → colsOf db parent = some pcols →
    ∃ key, evalTablePartKey sem parent ppinfo pcols (remapRow cols pcols row) = .ok key ∧
      accepts db ppinfo key name pinfo = true

/-- The row satisfies the bounds of the table and of all tables above it. -/
def Satisfied (db : Db sem) (name : String) (row : Row V) : Prop :=
  ∀ anc row', Carried db name row anc row' → BoundOk db anc row'

theorem Carried.above {db : Db sem} {name anc : String} {row row' : Row V}
    (h : Carried db name row anc row') : Above (parentOf db) name anc := by
  induction h with
  | refl name row => exact .refl name
  | up _ hparent _ _ ih => exact .up hparent ih

theorem Carried.trans {db : Db sem} {a b c : String} {ra rb rc : Row V}
    (h : Carried db a ra b rb) (h' : Carried db b rb c rc) : Carried db a ra c rc := by
  induction h with
  | refl => exact h'
  | up hcols hparent hpcols _ ih => exact .up hcols hparent hpcols (ih h')

theorem satisfied_of_root {db : Db sem} {name : String} (h : parentOf db name = none)
    (row : Row V) : Satisfied db name row := by
  intro anc row' hcarried
  cases hcarried with
  | refl =>
      intro pinfo parent _ _ _ hpinfo hparent _ _ _
      rw [parentOf_of_eq hpinfo, hparent] at h
      cases h
  | up _ hparent =>
      rw [h] at hparent
      cases hparent

/-- The row is in its bounds when the parent accepts it and it is in them there. -/
theorem Satisfied.child {db : Db sem} {name parent : String} {row : Row V} {cols pcols : Cols T}
    (hcols : colsOf db name = some cols) (hparent : parentOf db name = some parent)
    (hpcols : colsOf db parent = some pcols) (hok : BoundOk db name row)
    (h : Satisfied db parent (remapRow cols pcols row)) : Satisfied db name row := by
  intro anc row' hcarried
  cases hcarried with
  | refl => exact hok
  | up hcols' hparent' hpcols' hcarried =>
      rw [hcols] at hcols'
      rw [hparent] at hparent'
      cases hcols'
      cases hparent'
      rw [hpcols] at hpcols'
      cases hpcols'
      exact h anc row' hcarried

/-! ## The way up -/

theorem satisfied_of_checkBounds {db : Db sem} {leaf cur : String} {fuel : Nat}
    {pinfo : PartitionInfo V E} {cols : Cols T} {row : Row V}
    (h : checkBounds db leaf fuel cur pinfo cols row = .ok ())
    (hpinfo : partitionOf db cur = some pinfo) (hcols : colsOf db cur = some cols) :
    Satisfied db cur row := by
  induction fuel generalizing cur pinfo cols row with
  | zero => cases h
  | succ fuel ih =>
      rw [checkBounds] at h
      cases hparent : pinfo.parent with
      | none =>
          rw [hparent] at h
          cases h
      | some parent =>
      rw [hparent] at h
      cases hpt : db parent with
      | none =>
          simp only [hpt] at h
          cases h
      | some pt =>
      simp only [hpt] at h
      cases hpp : pt.partition with
      | none =>
          rw [hpp] at h
          cases h
      | some ppinfo =>
      rw [hpp] at h
      obtain ⟨key, hkey, h⟩ := bind_eq_ok h
      have hppinfo := (partitionOf_of_eq hpt).trans hpp
      have hpcols := colsOf_of_eq hpt
      split at h
      · rename_i haccepts
        have hok : BoundOk db cur row := by
          intro _ _ _ _ _ h₁ h₂ h₃ h₄ h₅
          rw [hpinfo] at h₁
          cases h₁
          rw [hparent] at h₂
          cases h₂
          rw [hppinfo] at h₃
          cases h₃
          rw [hcols] at h₄
          cases h₄
          rw [hpcols] at h₅
          cases h₅
          exact ⟨key, hkey, haccepts⟩
        refine Satisfied.child hcols ((parentOf_of_eq hpinfo).trans hparent) hpcols hok ?_
        cases hup : ppinfo.parent with
        | none => exact satisfied_of_root ((parentOf_of_eq hppinfo).trans hup) _
        | some grand =>
            rw [hup] at h
            exact ih h hppinfo hpcols
      · cases h

end Partition
