-- SUMMARY: What holds of the catalog of a partition forest, and routing over it: where it leads, whatever the order of children.
import Rustgres.Lib.ListOps
import Rustgres.Partition.Carried

/-!
# The Catalog of Partitions

Parents and children are linked both ways and without circles, have the same columns, and the bounds
of siblings accept no common key. Then a search for a leaf finds the only one there is.
-/

open Loops Forest

namespace Partition

variable {V E T L : Type} {sem : KeySem V E T L}

structure Schema (db : Db sem) : Prop where
  rooted : ∀ name, Rooted (parentOf db) name
  links : ∀ {child parent}, parentOf db child = some parent ↔
    ∃ pinfo, partitionOf db parent = some pinfo ∧ child ∈ pinfo.children
  partitioned : ∀ {name pinfo}, partitionOf db name = some pinfo → pinfo.children ≠ [] →
    pinfo.isPartitioned
  bound : ∀ {name pinfo}, partitionOf db name = some pinfo → pinfo.bound.isSome = pinfo.parent.isSome
  columns : ∀ {child parent cols pcols}, parentOf db child = some parent →
    colsOf db child = some cols → colsOf db parent = some pcols → ∀ c, c ∈ cols ↔ c ∈ pcols
  keys : ∀ {name pinfo cols row key}, partitionOf db name = some pinfo → pinfo.isPartitioned →
    colsOf db name = some cols → RowTyped sem cols row →
    evalTablePartKey sem name pinfo cols row = .ok key → KeyTyped sem (keyTypes sem pinfo cols) key
  bounds : ∀ {child parent pinfo cols bound}, parentOf db child = some parent →
    childBound db child = some bound → partitionOf db parent = some pinfo →
    colsOf db parent = some cols → BoundTyped sem (keyTypes sem pinfo cols) bound
  disjoint : ∀ {parent pinfo cols key a b}, partitionOf db parent = some pinfo →
    colsOf db parent = some cols → a ∈ pinfo.children → b ∈ pinfo.children → a ≠ b →
    KeyTyped sem (keyTypes sem pinfo cols) key → explicitAccepts db pinfo key a →
    ¬ explicitAccepts db pinfo key b
  oneDefault : ∀ {parent pinfo a b ainfo binfo}, partitionOf db parent = some pinfo →
    a ∈ pinfo.children → b ∈ pinfo.children → partitionOf db a = some ainfo →
    partitionOf db b = some binfo → ainfo.isDefault → binfo.isDefault → a = b

/-! ## Catalogs that agree -/

section Congr

variable {db db' : Db sem} (hp : partitionOf db' = partitionOf db)

include hp

theorem parentOf_congr : parentOf db' = parentOf db := by
  funext name
  simp only [parentOf, hp]

theorem childBound_congr : childBound db' = childBound db := by
  funext name
  simp only [childBound, hp]

theorem explicitAccepts_congr : explicitAccepts db' = explicitAccepts db := by
  funext pinfo key child
  simp only [explicitAccepts, hp]

theorem accepts_congr : accepts db' = accepts db := by
  funext pinfo key child cinfo
  simp only [accepts, explicitSiblingAccepts, explicitAccepts_congr hp]

variable (hc : colsOf db' = colsOf db)

include hc

theorem Schema.congr (h : Schema db) : Schema db' := by
  have hparent := parentOf_congr hp
  have haccepts := explicitAccepts_congr hp
  have hbound := childBound_congr hp
  constructor
  · rw [hparent]
    exact h.rooted
  · rw [hparent, hp]
    exact h.links
  · rw [hp]
    exact h.partitioned
  · rw [hp]
    exact h.bound
  · rw [hparent, hc]
    exact h.columns
  · rw [hp, hc]
    exact h.keys
  · rw [hparent, hbound, hp, hc]
    exact h.bounds
  · rw [hp, hc, haccepts]
    exact h.disjoint
  · rw [hp]
    exact h.oneDefault

theorem Carried.congr {name anc : String} {row row' : Row V} (h : Carried db' name row anc row') :
    Carried db name row anc row' := by
  induction h with
  | refl => exact .refl ..
  | up hcols hparent hpcols _ ih =>
      rw [hc] at hcols hpcols
      rw [parentOf_congr hp] at hparent
      exact .up hcols hparent hpcols ih

theorem Satisfied.congr {name : String} {row : Row V} (h : Satisfied db name row) :
    Satisfied db' name row := by
  intro anc row' hcarried
  have hok := h anc row' (hcarried.congr hp hc)
  unfold BoundOk at hok ⊢
  rwa [hp, hc, accepts_congr hp]

end Congr

/-! ## The way down -/

/-- A leaf that the table is, or that is below one of its children. -/
inductive LeafBelow (db : Db sem) : String → String → Prop
  | leaf {name : String} {pinfo : PartitionInfo V E} (hpinfo : partitionOf db name = some pinfo)
      (hchildren : pinfo.children = []) (hleaf : pinfo.isPartitioned = false) :
      LeafBelow db name name
  | child {name child leaf : String} {pinfo : PartitionInfo V E}
      (hpinfo : partitionOf db name = some pinfo) (hchild : child ∈ pinfo.children)
      (below : LeafBelow db child leaf) : LeafBelow db name leaf

theorem of_findChild {db : Db sem} {pinfo : PartitionInfo V E} {key : Row V} {pass : Bool}
    {child : String} (h : findChild db pinfo key pass = some child) :
    child ∈ pinfo.children ∧ ∃ cinfo, partitionOf db child = some cinfo ∧ cinfo.isDefault = pass ∧
      accepts db pinfo key child cinfo := by
  refine ⟨List.mem_of_find?_eq_some h, ?_⟩
  have hfound := List.find?_some h
  obtain ⟨cinfo, hcinfo, haccepts⟩ := (Option.any_eq_true ..).1 hfound
  simp only [Bool.and_eq_true, decide_eq_true_eq] at haccepts
  exact ⟨cinfo, hcinfo, haccepts⟩

/-- The leaf that is found accepts the row, and so do the tables on the way to it. -/
theorem satisfied_of_findPartitionLeaf {db : Db sem} (hs : Schema db) {fuel : Nat}
    {table leaf : String} {pinfo : PartitionInfo V E} {cols : Cols T} {row : Row V}
    (h : findPartitionLeaf db fuel table pinfo cols row = .ok leaf)
    (hpinfo : partitionOf db table = some pinfo) (hcols : colsOf db table = some cols)
    (hlen : row.length = cols.length) (hrow : Satisfied db table row) :
    LeafBelow db table leaf ∧ ∃ lcols, colsOf db leaf = some lcols ∧ (∀ c, c ∈ lcols ↔ c ∈ cols) ∧
      Satisfied db leaf (remapRow cols lcols row) := by
  induction fuel generalizing table pinfo cols row with
  | zero => cases h
  | succ fuel ih =>
      rw [findPartitionLeaf] at h
      obtain ⟨key, hkey, h⟩ := bind_eq_ok h
      split at h
      · cases h
      · rename_i child hfound
        obtain ⟨hchild, cinfo, hcinfo, haccepts⟩ : child ∈ pinfo.children ∧
            ∃ cinfo, partitionOf db child = some cinfo ∧ accepts db pinfo key child cinfo := by
          rcases Option.or_eq_some_iff.1 ((Option.orElse_eq_or ..).symm.trans hfound) with hfound | hfound
          · obtain ⟨hmem, cinfo, hcinfo, -, haccepts⟩ := of_findChild hfound
            exact ⟨hmem, cinfo, hcinfo, haccepts⟩
          · obtain ⟨hmem, cinfo, hcinfo, -, haccepts⟩ := of_findChild hfound.2
            exact ⟨hmem, cinfo, hcinfo, haccepts⟩
        obtain ⟨ct, hct, hctp⟩ := exists_of_partitionOf hcinfo
        simp only [hct, hctp] at h
        have hccols := colsOf_of_eq hct
        have hparent : parentOf db child = some table := hs.links.2 ⟨pinfo, hpinfo, hchild⟩
        have hsame := hs.columns hparent hccols hcols
        -- down to the child and up again the row is the same
        have hback : remapRow ct.columns cols (remapRow cols ct.columns row) = row := by
          rw [remapRow_remapRow ct.nodup fun c hc => (hsame c).2 hc]
          exact remapRow_self (nodup_of_colsOf hcols) hlen
        have hok : BoundOk db child (remapRow cols ct.columns row) := by
          intro _ _ _ _ _ h₁ h₂ h₃ h₄ h₅
          rw [hcinfo] at h₁
          cases h₁
          rw [parentOf_of_eq hcinfo, h₂] at hparent
          cases hparent
          rw [hpinfo] at h₃
          cases h₃
          rw [hccols] at h₄
          cases h₄
          rw [hcols] at h₅
          cases h₅
          exact ⟨key, by rw [hback, hkey], haccepts⟩
        have hcrow : Satisfied db child (remapRow cols ct.columns row) :=
          .child hccols hparent hcols hok (by rwa [hback])
        split at h
        · rename_i hempty
          split at h
          · cases h
          · rename_i hleaf
            cases h
            exact ⟨.child hpinfo hchild (.leaf hcinfo (List.isEmpty_iff.1 hempty) (by simpa using hleaf)),
              ct.columns, hccols, hsame, hcrow⟩
        · obtain ⟨hbelow, lcols, hlcols, hlsame, hleaf⟩ :=
            ih h hcinfo hccols (by simp [remapRow]) hcrow
          rw [remapRow_remapRow ct.nodup fun c hc => (hlsame c).1 hc] at hleaf
          exact ⟨.child hpinfo hchild hbelow, lcols, hlcols,
            fun c => (hlsame c).trans (hsame c), hleaf⟩

/-! ## The order of children -/

/-- The children of every table are listed in another order. -/
structure Relisted (db db' : Db sem) : Prop where
  cols : colsOf db' = colsOf db
  parts : ∀ name pinfo, partitionOf db name = some pinfo →
    ∃ children, pinfo.children.Perm children ∧
      partitionOf db' name = some { pinfo with children := children }
  none : ∀ name, partitionOf db name = none → partitionOf db' name = none

theorem explicitAccepts_relisted {db db' : Db sem} (h : Relisted db db') (pinfo : PartitionInfo V E)
    (children : List String) (key : Row V) :
    explicitAccepts db' { pinfo with children := children } key = explicitAccepts db pinfo key := by
  funext child
  unfold explicitAccepts
  cases hc : partitionOf db child with
  | none => rw [h.none child hc]
  | some cinfo =>
      obtain ⟨list, -, hc'⟩ := h.parts child cinfo hc
      rw [hc']

theorem accepts_relisted {db db' : Db sem} (h : Relisted db db') (pinfo : PartitionInfo V E)
    {children list : List String} (hperm : pinfo.children.Perm children) (key : Row V)
    (child : String) (cinfo : PartitionInfo V E) :
    accepts db' { pinfo with children := children } key child { cinfo with children := list }
      = accepts db pinfo key child cinfo := by
  unfold accepts explicitSiblingAccepts
  rw [explicitAccepts_relisted h, any_eq_of_perm hperm]

/-- The first of at most one element does not depend on the order. -/
theorem findChild_relisted {db db' : Db sem} (hs : Schema db) (h : Relisted db db')
    {table : String} {pinfo : PartitionInfo V E} {cols : Cols T} {key : Row V}
    (hpinfo : partitionOf db table = some pinfo) (hcols : colsOf db table = some cols)
    (hkey : KeyTyped sem (keyTypes sem pinfo cols) key) {children : List String}
    (hperm : pinfo.children.Perm children) (pass : Bool) :
    findChild db' { pinfo with children := children } key pass = findChild db pinfo key pass := by
  have hpred : (fun child => (partitionOf db' child).any fun cinfo =>
      cinfo.isDefault = pass && accepts db' { pinfo with children := children } key child cinfo)
      = fun child => (partitionOf db child).any fun cinfo =>
        cinfo.isDefault = pass && accepts db pinfo key child cinfo := by
    funext child
    cases hc : partitionOf db child with
    | none =>
        rw [h.none child hc]
        rfl
    | some cinfo =>
        obtain ⟨list, -, hc'⟩ := h.parts child cinfo hc
        rw [hc', Option.any_some, Option.any_some, accepts_relisted h pinfo hperm]
  unfold findChild
  rw [hpred]
  refine (find?_eq_of_perm hperm fun a ha b hb hpa hpb => ?_).symm
  obtain ⟨ainfo, hainfo, hpa⟩ := (Option.any_eq_true ..).1 hpa
  obtain ⟨binfo, hbinfo, hpb⟩ := (Option.any_eq_true ..).1 hpb
  simp only [Bool.and_eq_true, decide_eq_true_eq] at hpa hpb
  cases pass with
  | true => exact hs.oneDefault hpinfo ha hb hainfo hbinfo hpa.1 hpb.1
  | false =>
      by_contra hne
      refine hs.disjoint hpinfo hcols ha hb hne hkey ?_ ?_
      · simpa [explicitAccepts, hainfo, hpa.1, accepts] using hpa.2
      · simpa [explicitAccepts, hbinfo, hpb.1, accepts] using hpb.2

/-- The leaf of a row does not depend on the order in which children are listed. -/
theorem findPartitionLeaf_relisted {db db' : Db sem} (hs : Schema db) (h : Relisted db db')
    {fuel : Nat} {table : String} {pinfo pinfo' : PartitionInfo V E} {cols : Cols T} {row : Row V}
    (hpinfo : partitionOf db table = some pinfo) (hpinfo' : partitionOf db' table = some pinfo')
    (hcols : colsOf db table = some cols) (hrow : RowTyped sem cols row) :
    findPartitionLeaf db' fuel table pinfo' cols row = findPartitionLeaf db fuel table pinfo cols row := by
  induction fuel generalizing table pinfo pinfo' cols row with
  | zero => rfl
  | succ fuel ih =>
      obtain ⟨children, hperm, hpart⟩ := h.parts table pinfo hpinfo
      rw [hpinfo'] at hpart
      cases hpart
      rw [findPartitionLeaf, findPartitionLeaf]
      cases hkey : evalTablePartKey sem table pinfo cols row with
      | error e =>
          rw [show evalTablePartKey sem table { pinfo with children := children } cols row = .error e
            from hkey]
          rfl
      | ok key =>
      rw [show evalTablePartKey sem table { pinfo with children := children } cols row = .ok key
        from hkey]
      have hfind : ∀ pass, findChild db' { pinfo with children := children } key pass
          = findChild db pinfo key pass := by
        intro pass
        by_cases hnil : pinfo.children = []
        · have hnil' : children = [] := (hnil ▸ hperm).nil_eq.symm
          simp [findChild, hnil, hnil']
        · have htyped := hs.keys hpinfo (hs.partitioned hpinfo hnil) hcols hrow hkey
          exact findChild_relisted hs h hpinfo hcols htyped hperm pass
      simp only [bind, Except.bind, hfind]
      cases hfound : (findChild db pinfo key false).orElse fun _ => findChild db pinfo key true with
      | none => rfl
      | some child =>
      have hchild : child ∈ pinfo.children := by
        rcases Option.or_eq_some_iff.1 ((Option.orElse_eq_or ..).symm.trans hfound) with h' | h'
        · exact (of_findChild h').1
        · exact (of_findChild h'.2).1
      have hparent := hs.links.2 ⟨pinfo, hpinfo, hchild⟩
      obtain ⟨cinfo, hcinfo, -⟩ := Option.bind_eq_some_iff.1 hparent
      obtain ⟨list, hlist, hcinfo'⟩ := h.parts child cinfo hcinfo
      obtain ⟨ct, hct, hctp⟩ := exists_of_partitionOf hcinfo
      obtain ⟨ct', hct', hctp'⟩ := exists_of_partitionOf hcinfo'
      have hcols' : ct'.columns = ct.columns := by
        have h' := congrFun h.cols child
        rw [colsOf_of_eq hct', colsOf_of_eq hct] at h'
        exact Option.some.inj h'
      have hsame := hs.columns hparent (colsOf_of_eq hct) hcols
      have ih := @ih child cinfo { cinfo with children := list } ct.columns
        (remapRow cols ct.columns row) hcinfo hcinfo' (colsOf_of_eq hct)
        (hrow.remapRow (nodup_of_colsOf hcols) fun c hc => (hsame c).1 hc)
      have hempty : list.isEmpty = cinfo.children.isEmpty := by
        rw [Bool.eq_iff_iff, List.isEmpty_iff, List.isEmpty_iff]
        exact ⟨fun e => (e ▸ hlist).eq_nil, fun e => (e ▸ hlist).nil_eq.symm⟩
      simp only [hct, hct', hctp, hctp', hcols', hempty, ih]

end Partition
