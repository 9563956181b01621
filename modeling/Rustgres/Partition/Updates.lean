-- SUMMARY: UPDATE on partitioned tables: its rows stay in their bounds when nothing changes their keys after the check.
import Rustgres.Partition.Rows

/-!
# Updated Rows

The new image of a row is checked and routed before the generated columns are computed and the
`BEFORE UPDATE` triggers fire. What these leave of the keys decides.
-/

open Loops Forest

namespace Partition

variable {V E T L : Type} {sem : KeySem V E T L}

/-! ## Kept keys -/

/-- No partition key above the table tells the two rows apart. -/
def KeepsKeys (db : Db sem) (name : String) (row new : Row V) : Prop :=
  ∀ anc arow anew parent pinfo cols pcols, Carried db name row anc arow →
    Carried db name new anc anew → parentOf db anc = some parent →
    partitionOf db parent = some pinfo → colsOf db anc = some cols → colsOf db parent = some pcols →
    evalTablePartKey sem parent pinfo pcols (remapRow cols pcols anew)
      = evalTablePartKey sem parent pinfo pcols (remapRow cols pcols arow)

theorem Carried.exists {db : Db sem} {name anc : String} {row row' : Row V}
    (h : Carried db name row anc row') (other : Row V) : ∃ other', Carried db name other anc other' := by
  induction h generalizing other with
  | refl => exact ⟨other, .refl ..⟩
  | up hcols hparent hpcols _ ih =>
      obtain ⟨other', hcarried⟩ := ih (remapRow _ _ other)
      exact ⟨other', .up hcols hparent hpcols hcarried⟩

theorem Satisfied.keeps {db : Db sem} {name : String} {row new : Row V} (h : Satisfied db name row)
    (hkeeps : KeepsKeys db name row new) : Satisfied db name new := by
  intro anc anew hcarried pinfo parent ppinfo cols pcols hpinfo hparent hppinfo hcols hpcols
  obtain ⟨arow, hrow⟩ := hcarried.exists row
  obtain ⟨key, hkey, haccepts⟩ :=
    h anc arow hrow pinfo parent ppinfo cols pcols hpinfo hparent hppinfo hcols hpcols
  refine ⟨key, ?_, haccepts⟩
  rw [hkeeps anc arow anew parent ppinfo cols pcols hrow hcarried
    ((parentOf_of_eq hpinfo).trans hparent) hppinfo hcols hpcols, hkey]

/-- Below the table, generated columns are no part of a partition key, and the triggers that the
update fires leave the keys alone. -/
structure UpdateSafe (db : Db sem) (table : String) : Prop where
  generate : ∀ {name t row image}, db name = some t → Above (parentOf db) name table →
    RowTyped sem t.columns row → t.hooks.generate row = .ok image → KeepsKeys db name row image
  triggers : ∀ {name t old row image},
    ((partitionOf db table).any fun pinfo => pinfo.isPartitioned && !pinfo.children.isEmpty) = false →
    db name = some t → Above (parentOf db) name table → RowTyped sem t.columns row →
    t.hooks.beforeUpdate old row = .ok (some image) → KeepsKeys db name row image

/-! ## The scanned leaves -/

theorem Schema.columns_above {db : Db sem} (hs : Schema db) {name anc : String} {cols acols : Cols T}
    (h : Above (parentOf db) name anc) (hcols : colsOf db name = some cols)
    (hacols : colsOf db anc = some acols) : ∀ c, c ∈ cols ↔ c ∈ acols := by
  induction h generalizing cols with
  | refl =>
      rw [hcols] at hacols
      cases hacols
      exact fun _ => Iff.rfl
  | up hparent _ ih =>
      obtain ⟨pinfo, hpinfo, -⟩ := hs.links.1 hparent
      obtain ⟨pcols, hpcols⟩ := colsOf_isSome hpinfo
      exact fun c => (hs.columns hparent hcols hpcols c).trans (ih hpcols hacols c)

theorem LeafBelow.above {db : Db sem} (hs : Schema db) {name leaf : String}
    (h : LeafBelow db name leaf) : Above (parentOf db) leaf name := by
  induction h with
  | leaf => exact .refl _
  | child hpinfo hchild _ ih => exact ih.trans (.up (hs.links.2 ⟨_, hpinfo, hchild⟩) (.refl _))

theorem above_of_collect {db : Db sem} (hs : Schema db) {fuel : Nat} {stack leaves : List String}
    (h : collectPartitionLeaves db fuel stack = .ok leaves) {leaf : String} (hleaf : leaf ∈ leaves) :
    ∃ name ∈ stack, Above (parentOf db) leaf name := by
  induction fuel generalizing stack leaves with
  | zero => cases h
  | succ fuel ih =>
      cases stack with
      | nil =>
          cases h
          cases hleaf
      | cons name stack =>
      have hrest : ∀ {rest : List String}, collectPartitionLeaves db fuel stack = .ok rest →
          leaf ∈ rest → ∃ n ∈ name :: stack, Above (parentOf db) leaf n := by
        intro rest hrest hmem
        obtain ⟨n, hn, habove⟩ := ih hrest hmem
        exact ⟨n, .tail _ hn, habove⟩
      have hself : ∀ {rest : List String}, collectPartitionLeaves db fuel stack = .ok rest →
          leaf ∈ name :: rest → ∃ n ∈ name :: stack, Above (parentOf db) leaf n := by
        intro rest hr hmem
        rcases List.mem_cons.1 hmem with rfl | hmem
        · exact ⟨leaf, .head _, .refl _⟩
        · exact hrest hr hmem
      rw [collectPartitionLeaves] at h
      cases ht : db name with
      | none =>
          simp only [ht] at h
          exact hrest h hleaf
      | some t =>
      simp only [ht] at h
      cases hp : t.partition with
      | none =>
          simp only [hp] at h
          obtain ⟨rest, hr, h⟩ := bind_eq_ok h
          cases h
          exact hself hr hleaf
      | some pinfo =>
      simp only [hp] at h
      have hpinfo := (partitionOf_of_eq ht).trans hp
      split at h
      · split at h
        · exact hrest h hleaf
        · obtain ⟨rest, hr, h⟩ := bind_eq_ok h
          cases h
          exact hself hr hleaf
      · obtain ⟨n, hn, habove⟩ := ih h hleaf
        rcases List.mem_append.1 hn with hn | hn
        · have hlink := hs.links.2 ⟨pinfo, hpinfo, List.mem_reverse.1 hn⟩
          exact ⟨name, .head _, habove.trans (.up hlink (.refl _))⟩
        · exact ⟨n, .tail _ hn, habove⟩

theorem collect_complete {db : Db sem} {fuel : Nat} {stack leaves : List String}
    (h : collectPartitionLeaves db fuel stack = .ok leaves) {name leaf : String}
    (hname : name ∈ stack) (hbelow : LeafBelow db name leaf) : leaf ∈ leaves := by
  induction fuel generalizing stack leaves name with
  | zero => cases h
  | succ fuel ih =>
      cases stack with
      | nil => cases hname
      | cons n stack =>
      rw [collectPartitionLeaves] at h
      rcases List.mem_cons.1 hname with rfl | hname
      · cases hbelow with
        | leaf hpinfo hchildren hleaf =>
            obtain ⟨t, ht, hp⟩ := exists_of_partitionOf hpinfo
            simp only [ht, hp, hchildren, hleaf, List.isEmpty_nil, if_true, Bool.false_eq_true,
              if_false] at h
            obtain ⟨rest, -, h⟩ := bind_eq_ok h
            cases h
            exact .head _
        | @child _ child _ pinfo hpinfo hchild below =>
            obtain ⟨t, ht, hp⟩ := exists_of_partitionOf hpinfo
            have hne : pinfo.children.isEmpty = false := by
              cases hc : pinfo.children with
              | nil =>
                  rw [hc] at hchild
                  cases hchild
              | cons => rfl
            simp only [ht, hp, hne, Bool.false_eq_true, if_false] at h
            exact ih h (List.mem_append_left _ (List.mem_reverse.2 hchild)) below
      · cases ht : db n with
        | none =>
            simp only [ht] at h
            exact ih h hname hbelow
        | some t =>
        simp only [ht] at h
        cases hp : t.partition with
        | none =>
            simp only [hp] at h
            obtain ⟨rest, hr, h⟩ := bind_eq_ok h
            cases h
            exact .tail _ (ih hr hname hbelow)
        | some pinfo =>
        simp only [hp] at h
        split at h
        · split at h
          · exact ih h hname hbelow
          · obtain ⟨rest, hr, h⟩ := bind_eq_ok h
            cases h
            exact .tail _ (ih hr hname hbelow)
        · exact ih h (List.mem_append_right _ hname) hbelow

theorem of_scannedLeaves {db : Db sem} (hs : Schema db) {fuel : Nat} {table : String} {t : Table sem}
    (ht : db table = some t) {leaves : List (String × Cols T)}
    (h : scannedLeaves db fuel table t = .ok leaves) {leaf : String × Cols T} (hleaf : leaf ∈ leaves) :
    colsOf db leaf.1 = some leaf.2 ∧ Above (parentOf db) leaf.1 table := by
  have hself : leaf ∈ [(table, t.columns)] →
      colsOf db leaf.1 = some leaf.2 ∧ Above (parentOf db) leaf.1 table := by
    intro hmem
    cases List.mem_singleton.1 hmem
    exact ⟨colsOf_of_eq ht, .refl _⟩
  unfold scannedLeaves at h
  split at h
  · cases h
    exact hself hleaf
  · obtain ⟨names, hnames, h⟩ := bind_eq_ok h
    cases h
    split at hleaf
    · exact hself hleaf
    · obtain ⟨name, hname, hmap⟩ := List.mem_filterMap.1 hleaf
      obtain ⟨lt, hlt, rfl⟩ := Option.map_eq_some_iff.1 hmap
      obtain ⟨n, hn, habove⟩ := above_of_collect hs hnames hname
      cases List.mem_singleton.1 hn
      exact ⟨colsOf_of_eq hlt, habove⟩

theorem scannedLeaves_complete {db : Db sem} {fuel : Nat} {table : String} {t : Table sem}
    {pinfo : PartitionInfo V E} (hpart : t.partition = some pinfo) {leaves : List (String × Cols T)}
    (h : scannedLeaves db fuel table t = .ok leaves) {leaf : String} {lcols : Cols T}
    (hbelow : LeafBelow db table leaf) (hlcols : colsOf db leaf = some lcols) :
    (leaf, lcols) ∈ leaves := by
  unfold scannedLeaves at h
  simp only [hpart] at h
  obtain ⟨names, hnames, h⟩ := bind_eq_ok h
  cases h
  have hmem : (leaf, lcols) ∈ names.filterMap fun name => (db name).map fun lt => (name, lt.columns) := by
    obtain ⟨lt, hlt, rfl⟩ := Option.map_eq_some_iff.1 hlcols
    exact List.mem_filterMap.2 ⟨leaf, collect_complete hnames (.head _) hbelow, by rw [hlt]; rfl⟩
  rw [if_neg]
  · exact hmem
  · rw [List.isEmpty_iff]
    exact List.ne_nil_of_mem hmem

/-! ## New images -/

section

variable {db : Db sem} {fuel : Nat} {table : String} {t : Table sem}
  {leaves : List (String × Cols T)}

/-- The destination that routing finds takes the image. -/
theorem fits_of_destination (hs : Schema db) (ht : db table = some t)
    (hleaves : scannedLeaves db fuel table t = .ok leaves) {leaf dst : String × Cols T}
    (hleaf : leaf ∈ leaves) {new : Row V} (htyped : RowTyped sem t.columns new)
    (h : destination db fuel table t leaves leaf new = .ok dst) :
    colsOf db dst.1 = some dst.2 ∧ Above (parentOf db) dst.1 table ∧
      Fits db dst.1 (remapRow t.columns dst.2 new) := by
  have hcols := colsOf_of_eq ht
  have hfits : ∀ {name : String} {ncols : Cols T}, colsOf db name = some ncols →
      Above (parentOf db) name table → Satisfied db name (remapRow t.columns ncols new) →
      Fits db name (remapRow t.columns ncols new) := by
    intro name ncols hncols habove hsat
    have hsame := hs.columns_above habove hncols hcols
    exact ⟨⟨ncols, hncols, htyped.remapRow t.nodup fun c hc => (hsame c).1 hc⟩, hsat⟩
  have hown : remapRow t.columns t.columns new = new := remapRow_self t.nodup htyped.length_eq
  unfold destination at h
  cases hpart : t.partition with
  | none =>
      simp only [hpart] at h
      cases h
      simp only [scannedLeaves, hpart] at hleaves
      cases hleaves
      cases List.mem_singleton.1 hleaf
      have hroot : parentOf db table = none := by
        simp [parentOf, partitionOf_of_eq ht, hpart]
      exact ⟨hcols, .refl _, hfits hcols (.refl _) (satisfied_of_root hroot _)⟩
  | some pinfo =>
  simp only [hpart] at h
  have hpinfo := (partitionOf_of_eq ht).trans hpart
  obtain ⟨name, hroute, h⟩ := bind_eq_ok h
  cases h
  -- the columns that the scan found for a table are its own
  have hfound : ∀ {ncols : Cols T}, colsOf db name = some ncols →
      (name = table ∨ (name, ncols) ∈ leaves) →
      ((leaves.find? (·.1 = name)).map Prod.snd).getD t.columns = ncols := by
    intro ncols hncols hwhere
    cases hf : leaves.find? (·.1 = name) with
    | some e =>
        have he := (of_scannedLeaves hs ht hleaves (List.mem_of_find?_eq_some hf)).1
        have hname := List.find?_some hf
        rw [decide_eq_true_eq] at hname
        rw [hname, hncols] at he
        exact (Option.some.inj he).symm
    | none =>
        rcases hwhere with rfl | hmem
        · rw [hncols] at hcols
          exact (Option.some.inj hcols).symm
        · have hnot := List.find?_eq_none.1 hf _ hmem
          simp at hnot
  have hfind : Satisfied db table new →
      findPartitionLeaf db fuel table pinfo t.columns new = .ok name →
      colsOf db name = some (((leaves.find? (·.1 = name)).map Prod.snd).getD t.columns) ∧
        Above (parentOf db) name table ∧
        Fits db name
          (remapRow t.columns (((leaves.find? (·.1 = name)).map Prod.snd).getD t.columns) new) := by
    intro hsat hname
    obtain ⟨hbelow, ncols, hncols, -, hnsat⟩ :=
      satisfied_of_findPartitionLeaf hs hname hpinfo hcols htyped.length_eq hsat
    rw [hfound hncols (.inr (scannedLeaves_complete hpart hleaves hbelow hncols))]
    exact ⟨hncols, hbelow.above hs, hfits hncols (hbelow.above hs) hnsat⟩
  unfold routeDmlDestination at hroute
  split at hroute
  · obtain ⟨_, hcheck, hroute⟩ := bind_eq_ok hroute
    cases hroute
    rw [hfound hcols (.inl rfl)]
    exact ⟨hcols, .refl _, hfits hcols (.refl _)
      (hown.symm ▸ (fits_of_checkLeafBound ht hpart htyped hcheck).2)⟩
  · split at hroute
    · obtain ⟨_, hcheck, hroute⟩ := bind_eq_ok hroute
      exact hfind (fits_of_checkLeafBound ht hpart htyped hcheck).2 hroute
    · rename_i hbound
      have hroot : parentOf db table = none := by
        have hsome := hs.bound hpinfo
        rw [Bool.not_eq_true] at hbound
        rw [hbound] at hsome
        rw [parentOf_of_eq hpinfo]
        exact Option.isNone_iff_eq_none.1 (Option.isSome_eq_false_iff.1 hsome.symm)
      exact hfind (satisfied_of_root hroot _) hroute

theorem assignColumn_typed {cols : Cols T} {old row new : Row V}
    {set : String × (Row V → Except ExecError (Option V))} (htyped : RowTyped sem cols row)
    (h : assignColumn sem cols old row set = .ok new) : RowTyped sem cols new := by
  unfold assignColumn at h
  cases hi : cols.findIdx? (·.1 = set.1) with
  | none =>
      simp only [hi] at h
      cases h
  | some i =>
  simp only [hi] at h
  cases hc : cols[i]? with
  | none =>
      simp only [hc] at h
      cases h
  | some c =>
  simp only [hc] at h
  obtain ⟨v, -, h⟩ := bind_eq_ok h
  obtain ⟨w, hw, h⟩ := bind_eq_ok h
  cases h
  refine List.forall₂_iff_get.2 ⟨by simp [htyped.length_eq], fun j hj hj' x hx => ?_⟩
  rw [List.get_eq_getElem] at hx ⊢
  have hj₀ : j < row.length := by simpa using hj'
  by_cases hij : i = j
  · subst hij
    rw [List.getElem_set_self, Option.mem_def] at hx
    subst hx
    rw [List.getElem?_eq_getElem hj] at hc
    cases hc
    exact sem.typeOf_coerceValue hw
  · rw [List.getElem_set_ne hij, Option.mem_def] at hx
    exact htyped.get (List.getElem?_eq_getElem hj) (by rw [List.getElem?_eq_getElem hj₀, hx]; rfl)

/-- A planned row may be stored where the plan puts it. -/
def PlanFits (db : Db sem) (leaf : String) : Planned V → Prop
  | .keep => True
  | .inPlace new => Fits db leaf new
  | .move dst new => Fits db dst new

theorem planFits_of_planRow (hs : Schema db) (ht : db table = some t)
    (hsafe : UpdateSafe db table) (hleaves : scannedLeaves db fuel table t = .ok leaves)
    {stmt : UpdateStmt V} {leaf : String × Cols T} (hleaf : leaf ∈ leaves) {old : Row V}
    (hold : RowTyped sem leaf.2 old) {planned : Planned V}
    (h : planRow db fuel table t stmt leaves leaf old = .ok planned) : PlanFits db leaf.1 planned := by
  obtain ⟨hlcols, hlabove⟩ := of_scannedLeaves hs ht hleaves hleaf
  have hvalues : RowTyped sem t.columns (if leaf.1 = table then old else remapRow leaf.2 t.columns old) := by
    split
    · rename_i hself
      rw [hself, colsOf_of_eq ht] at hlcols
      rw [Option.some.inj hlcols]
      exact hold
    · have hsame := hs.columns_above hlabove hlcols (colsOf_of_eq ht)
      exact hold.remapRow (nodup_of_colsOf hlcols) fun c hc => (hsame c).2 hc
  obtain ⟨hit, -, h⟩ := bind_eq_ok h
  cases hit with
  | false =>
      cases h
      trivial
  | true =>
  obtain ⟨new, hnew, h⟩ := bind_eq_ok h
  obtain ⟨⟨dst, image⟩, himage, h⟩ := bind_eq_ok h
  have htyped : RowTyped sem t.columns new :=
    foldlM_invariant hnew (fun _ _ _ _ htyped hset => assignColumn_typed htyped hset) hvalues
  obtain ⟨⟨name, ncols⟩, hdst, himage⟩ := bind_eq_ok himage
  obtain ⟨hncols, habove, ⟨ncols', hncols', hntyped⟩, hsat⟩ :=
    fits_of_destination hs ht hleaves hleaf htyped hdst
  rw [hncols] at hncols'
  cases hncols'
  cases hdt : db name with
  | none =>
      simp only [hdt] at himage
      cases himage
  | some dt =>
  simp only [hdt] at himage
  obtain ⟨gen, hgen, himage⟩ := bind_eq_ok himage
  obtain ⟨rfl, rfl⟩ : name = dst ∧ gen = image := by
    cases himage
    exact ⟨rfl, rfl⟩
  rw [colsOf_of_eq hdt] at hncols
  cases hncols
  have hfits : Fits db name gen :=
    ⟨⟨dt.columns, colsOf_of_eq hdt, dt.hooks.generate_typed _ _ hntyped hgen⟩,
      hsat.keeps (hsafe.generate hdt habove hntyped hgen)⟩
  dsimp only at h
  split at h
  · rename_i hself
    cases h
    exact hself ▸ hfits
  · cases h
    exact hfits

theorem planFits_of_fireUpdate (ht : db table = some t)
    (hsafe : UpdateSafe db table) {leaf : String} {lt : Table sem} (hlt : db leaf = some lt)
    (habove : Above (parentOf db) leaf table) {old : Row V} {planned fired : Planned V}
    (hplanned : PlanFits db leaf planned) (h : fireUpdate t lt old planned = .ok fired) :
    PlanFits db leaf fired := by
  cases planned with
  | keep =>
      cases h
      trivial
  | move dst new =>
      cases h
      exact hplanned
  | inPlace new =>
      rw [fireUpdate] at h
      cases hfires : t.partition.any fun pinfo => pinfo.isPartitioned && !pinfo.children.isEmpty with
      | true =>
          rw [hfires, if_pos rfl] at h
          cases h
          exact hplanned
      | false =>
          rw [hfires, if_neg (by simp)] at h
          obtain ⟨out, hout, h⟩ := bind_eq_ok h
          cases out with
          | none =>
              cases h
              trivial
          | some image =>
              cases h
              obtain ⟨⟨cols, hcols, htyped⟩, hsat⟩ := hplanned
              rw [colsOf_of_eq hlt] at hcols
              cases hcols
              rw [← partitionOf_of_eq ht] at hfires
              exact ⟨⟨lt.columns, colsOf_of_eq hlt, lt.hooks.beforeUpdate_typed _ _ _ htyped hout⟩,
                hsat.keeps (hsafe.triggers hfires hlt habove htyped hout)⟩

end

/-! ## UPDATE -/

theorem SameCatalog.applyLeaf (db : Db sem) (plan : String × List (Row V × Planned V)) :
    SameCatalog db (applyLeaf db plan) := by
  unfold Partition.applyLeaf
  cases ht : db plan.1 with
  | none => exact .refl db
  | some t => exact .put ht rfl rfl

theorem stored_applyLeaf {db : Db sem} {plan : String × List (Row V × Planned V)} {name : String}
    {row : Row V} (h : Stored (applyLeaf db plan) name row) :
    (name = plan.1 ∧ row ∈ plan.2.filterMap stayed) ∨ Stored db name row := by
  unfold applyLeaf at h
  cases ht : db plan.1 with
  | none =>
      rw [ht] at h
      exact .inr h
  | some t =>
      rw [ht] at h
      exact stored_put h

theorem stored_foldl_applyLeaf {db : Db sem} {plans : List (String × List (Row V × Planned V))}
    {name : String} {row : Row V} (h : Stored (plans.foldl applyLeaf db) name row) :
    (∃ plan ∈ plans, name = plan.1 ∧ row ∈ plan.2.filterMap stayed) ∨ Stored db name row := by
  induction plans generalizing db with
  | nil => exact .inr h
  | cons plan plans ih =>
      rcases ih h with ⟨p, hp, hrow⟩ | hrow
      · exact .inl ⟨p, .tail _ hp, hrow⟩
      · rcases stored_applyLeaf hrow with hrow | hrow
        · exact .inl ⟨plan, .head _, hrow⟩
        · exact .inr hrow

theorem inv_execUpdate {db db' : Db sem} (h : Inv db) {fuel : Nat} {table : String}
    {stmt : UpdateStmt V} (hsafe : UpdateSafe db table)
    (hexec : execUpdate db fuel table stmt = .ok db') : Inv db' := by
  unfold execUpdate at hexec
  cases ht : db table with
  | none =>
      rw [ht] at hexec
      cases hexec
  | some t =>
  simp only [ht] at hexec
  obtain ⟨leaves, hleaves, hexec⟩ := bind_eq_ok hexec
  obtain ⟨plans, hplans, hexec⟩ := bind_eq_ok hexec
  cases hexec
  have hplan : ∀ plan ∈ plans, ∀ entry ∈ plan.2,
      Stored db plan.1 entry.1 ∧ PlanFits db plan.1 entry.2 := by
    intro plan hmem entry hentry
    obtain ⟨leaf, hleaf, hpl⟩ := exists_of_mem_mapM hplans hmem
    unfold planLeaf at hpl
    cases hlt : db leaf.1 with
    | none =>
        simp only [hlt] at hpl
        cases hpl
    | some lt =>
    simp only [hlt] at hpl
    obtain ⟨entries, hentries, hpl⟩ := bind_eq_ok hpl
    cases hpl
    obtain ⟨old, hold, hrow⟩ := exists_of_mem_mapM hentries hentry
    obtain ⟨planned, hplanned, hrow⟩ := bind_eq_ok hrow
    obtain ⟨fired, hfired, hrow⟩ := bind_eq_ok hrow
    cases hrow
    obtain ⟨hlcols, hlabove⟩ := of_scannedLeaves h.schema ht hleaves hleaf
    have hstored : Stored db leaf.1 old := ⟨lt, hlt, hold⟩
    refine ⟨hstored, planFits_of_fireUpdate ht hsafe hlt hlabove ?_ hfired⟩
    exact planFits_of_planRow h.schema ht hsafe hleaves hleaf (h.typed hstored hlcols) hplanned
  refine h.of_rows ((SameCatalog.foldl SameCatalog.applyLeaf db plans).trans
    (SameCatalog.foldl SameCatalog.storeRow _ _)) fun name row hrow => ?_
  rcases stored_foldl_storeRow hrow with hrow | hrow
  · obtain ⟨plan, hmem, hrow⟩ := List.mem_flatMap.1 hrow
    obtain ⟨⟨old, planned⟩, hentry, hmoved⟩ := List.mem_filterMap.1 hrow
    have hfits := (hplan plan hmem _ hentry).2
    cases planned with
    | keep | inPlace => cases hmoved
    | move dst new =>
        cases hmoved
        exact hfits
  · rcases stored_foldl_applyLeaf hrow with ⟨plan, hmem, rfl, hkept⟩ | hrow
    · obtain ⟨⟨old, planned⟩, hentry, hstayed⟩ := List.mem_filterMap.1 hkept
      obtain ⟨hold, hfits⟩ := hplan plan hmem _ hentry
      cases planned with
      | keep =>
          cases hstayed
          exact h.fits hold
      | inPlace new =>
          cases hstayed
          exact hfits
      | move => cases hstayed
    · exact h.fits hrow

end Partition
