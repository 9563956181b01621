-- SUMMARY: What the renamings between a view and its base do to the value of an expression.
import Rustgres.Views.Dml

/-!
# Renamings

A reference has the value of the column it names. The renamings keep the value of an expression when
they replace its references by references to the same value.
-/

open Terms
open Encoding (CheckOption)

namespace Views

variable {V F S : Type} {sem : Semantics V F S}

/-! ## Columns of a row -/

/-- The value of the column of that name. -/
def lookup (names : List String) (row : List V) (name : String) : Option V :=
  (names.findIdx? (· = name)).bind (row[·]?)

theorem lookup_cons (n : String) (names : List String) (v : V) (row : List V) (name : String) :
    lookup (n :: names) (v :: row) name = if n = name then some v else lookup names row name := by
  unfold lookup
  rw [List.findIdx?_cons]
  by_cases h : n = name
  · simp [h]
  · simp only [h, decide_false, Bool.false_eq_true, if_false]
    cases List.findIdx? (fun x => decide (x = name)) names <;> rfl

/-- Names that are different pick out a single column. -/
theorem filter_zip {names : List String} {row : List V} {name : String} (hnodup : names.Nodup)
    (hlen : names.length = row.length) (hmem : name ∈ names) :
    ∃ v, lookup names row name = some v
      ∧ (names.zip row).filter (fun c => c.1 = name) = [(name, v)] := by
  induction names generalizing row with
  | nil => cases hmem
  | cons n names ih =>
      cases row with
      | nil => cases hlen
      | cons v row =>
          rw [lookup_cons, List.zip_cons_cons, List.filter_cons]
          rw [List.nodup_cons] at hnodup
          by_cases h : n = name
          · subst h
            refine ⟨v, by simp, ?_⟩
            have hrest : (names.zip row).filter (fun c => c.1 = n) = [] := by
              rw [List.filter_eq_nil_iff]
              intro c hc
              have hc1 := (List.of_mem_zip hc).1
              simp only [decide_eq_true_eq]
              rintro rfl
              exact hnodup.1 hc1
            simp [hrest]
          · simp only [h, decide_false, Bool.false_eq_true, if_false]
            exact ih hnodup.2 (Nat.succ.inj hlen) ((List.mem_cons.1 hmem).resolve_left (Ne.symm h))

theorem lookup_eq_some {names : List String} {row : List V} {name : String} (hnodup : names.Nodup)
    (hlen : names.length = row.length) (hmem : name ∈ names) :
    ∃ v, lookup names row name = some v := by
  obtain ⟨v, hv, -⟩ := filter_zip hnodup hlen hmem
  exact ⟨v, hv⟩

theorem hasQual_scopeOf {qual : String} {names : List String} {row : List V}
    (hlen : names.length = row.length) (hne : names ≠ []) : hasQual (scopeOf qual names row) qual := by
  cases names with
  | nil => exact absurd rfl hne
  | cons n names =>
      cases row with
      | nil => cases hlen
      | cons v row => simp [hasQual, scopeOf]

/-- In the scope of one range a column is found by its name, under the range or alone. -/
theorem resolveCol_scopeOf {qual : String} {names : List String} {row : List V} {table : Option String}
    {name : String} {v : V} (hnodup : names.Nodup) (hlen : names.length = row.length)
    (htable : table = none ∨ table = some qual) (h : lookup names row name = some v)
    (hmem : name ∈ names) : resolveCol (scopeOf qual names row) table name = .ok v := by
  obtain ⟨w, hw, hfilter⟩ := filter_zip hnodup hlen hmem
  rw [h, Option.some.injEq] at hw
  subst hw
  rcases htable with rfl | rfl
  · have hscope : (scopeOf qual names row).filter (fun c => !c.1.hidden ∧ c.1.name = name)
        = [(⟨qual, name, false⟩, v)] := by
      unfold scopeOf
      rw [List.filter_map]
      have hsame : (fun c : QCol × V => decide (!c.1.hidden ∧ c.1.name = name)) ∘
          (fun c : String × V => ((⟨qual, c.1, false⟩ : QCol), c.2)) = fun c => decide (c.1 = name) := by
        funext c
        simp
      rw [hsame, hfilter]
      rfl
    rw [resolveCol, hscope]
    rfl
  · have hscope : (scopeOf qual names row).filter (fun c => c.1.qual = qual ∧ c.1.name = name)
        = [(⟨qual, name, false⟩, v)] := by
      unfold scopeOf
      rw [List.filter_map]
      have hsame : (fun c : QCol × V => decide (c.1.qual = qual ∧ c.1.name = name)) ∘
          (fun c : String × V => ((⟨qual, c.1, false⟩ : QCol), c.2)) = fun c => decide (c.1 = name) := by
        funext c
        simp
      rw [hsame, hfilter]
      rfl
    rw [resolveCol, if_pos (hasQual_scopeOf hlen (List.ne_nil_of_mem hmem)), hscope]
    rfl

theorem evalRef_column {scope : Scope V} {table : Option String} {name : String} {v : V}
    (h : resolveCol scope table name = .ok v) : evalRef sem scope (.column table name) = .ok v := by
  simp only [evalRef, h]

theorem evalWholerow_scopeOf {qual : String} {names : List String} {row : List V}
    (hlen : names.length = row.length) (hne : names ≠ []) :
    evalWholerow sem (scopeOf qual names row) qual = .ok (sem.record (names.zip row)) := by
  unfold evalWholerow
  rw [if_pos (hasQual_scopeOf hlen hne)]
  have hall : (scopeOf qual names row).filter (fun c => c.1.qual = qual) = scopeOf qual names row := by
    rw [List.filter_eq_self]
    intro c hc
    obtain ⟨p, -, rfl⟩ := List.mem_map.1 hc
    simp
  rw [hall]
  unfold scopeOf
  rw [List.map_map]
  exact congrArg (Except.ok ∘ sem.record) (List.map_id _)

/-! ## References of a view query -/

/-- The subquery does not look at its scope. -/
def Semantics.Closed (sem : Semantics V F S) (s : S) : Prop :=
  ∀ scope scope', sem.subquery s scope = sem.subquery s scope'

/-- The reference means a column of the range, or its row; a subquery is uncorrelated. -/
def RefOk (sem : Semantics V F S) (qual : String) (names : List String) : Ref S → Prop
  | .column table name => (table = none ∨ table = some qual) ∧ name ∈ names
  | .wholeRow q => q = qual ∧ names ≠ []
  | .subquery s => sem.Closed s

section

variable {names : List String} {row : List V} {av : AutoView F S}

/-- The renaming of a view condition to the qualifier of the statement keeps its value. -/
theorem eval_renameBaseExpr {qual targetQual : String} {e : Expr F S} (hnodup : names.Nodup)
    (hlen : names.length = row.length) (hqual : av.isBaseQual qual)
    (he : e.All (RefOk sem qual names)) :
    eval sem (scopeOf targetQual names row) (av.renameBaseExpr targetQual none e)
      = eval sem (scopeOf qual names row) e := by
  refine Term.eval_bind_eq (he.mono fun ref href => ?_)
  cases ref with
  | column table name =>
      obtain ⟨htable, hmem⟩ := href
      obtain ⟨v, hv⟩ := lookup_eq_some hnodup hlen hmem
      have hold := resolveCol_scopeOf hnodup hlen htable hv hmem
      rw [evalRef_column hold]
      rcases htable with rfl | rfl
      · exact evalRef_column (resolveCol_scopeOf hnodup hlen (.inl rfl) hv hmem)
      · simp only [AutoView.renameBaseRef, hqual, if_true]
        exact evalRef_column (resolveCol_scopeOf hnodup hlen (.inr rfl) hv hmem)
  | wholeRow q =>
      obtain ⟨rfl, hne⟩ := href
      simp only [AutoView.renameBaseRef, hqual, if_true, Term.eval_leaf, evalRef]
      rw [evalWholerow_scopeOf hlen hne, evalWholerow_scopeOf hlen hne]
  | subquery s => exact href _ _

/-- The row of the view shows in each of its columns what the base row has. -/
def Shows (av : AutoView F S) (names : List String) (row viewRow : List V) : Prop :=
  av.viewCols.Nodup ∧ av.viewCols.length = viewRow.length ∧ av.cols.length = viewRow.length ∧
    ∀ (pos : Nat) (b : String), av.cols[pos]?.any (VCol.shows b) →
      viewRow[pos]? = lookup names row b

theorem outputOf_eq_some {name out : String} (h : av.outputOf name = some out) :
    ∃ pos : Nat, av.cols[pos]?.any (VCol.shows name)
      ∧ av.viewCols[pos]? = some out := by
  unfold AutoView.outputOf at h
  obtain ⟨pos, hpos, hout⟩ := Option.bind_eq_some_iff.1 h
  obtain ⟨hlt, hbase, -⟩ := List.findIdx?_eq_some_iff_getElem.1 hpos
  refine ⟨pos, ?_, hout⟩
  rw [List.getElem?_eq_getElem hlt]
  exact hbase

theorem findIdx?_of_getElem? {names : List String} {pos : Nat} {name : String} (hnodup : names.Nodup)
    (h : names[pos]? = some name) : names.findIdx? (· = name) = some pos := by
  obtain ⟨hlt, hget⟩ := List.getElem?_eq_some_iff.1 h
  rw [List.findIdx?_eq_some_iff_getElem]
  refine ⟨hlt, by simp [hget], fun j hj => ?_⟩
  simp only [decide_eq_true_eq]
  intro heq
  exact Nat.ne_of_lt hj ((List.Nodup.getElem_inj_iff hnodup).1 (heq.trans hget.symm))

/-- An expression that is lifted to the columns of a view has the same value on the view's row. -/
theorem eval_invertRename {qual qual' : String} {e e' : Expr F S} {viewRow : List V}
    (hnodup : names.Nodup) (hlen : names.length = row.length) (hshows : Shows av names row viewRow)
    (he : e.All (RefOk sem qual names)) (h : av.invertRename e = .ok e') :
    eval sem (scopeOf qual' av.viewCols viewRow) e' = eval sem (scopeOf qual names row) e := by
  obtain ⟨hvnodup, hvlen, -, hcols⟩ := hshows
  refine Term.eval_bindE h (he.mono fun ref href m hm => ?_)
  cases ref with
  | column table name =>
      obtain ⟨htable, hmem⟩ := href
      obtain ⟨v, hv⟩ := lookup_eq_some hnodup hlen hmem
      rw [evalRef_column (resolveCol_scopeOf hnodup hlen htable hv hmem)]
      cases hout : av.outputOf name with
      | none => simp [hout] at hm
      | some out =>
          simp only [hout, Except.ok.injEq] at hm
          subst hm
          obtain ⟨pos, hbase, hpos⟩ := outputOf_eq_some hout
          have hval : lookup av.viewCols viewRow out = some v := by
            unfold lookup
            rw [findIdx?_of_getElem? hvnodup hpos, Option.bind_some, hcols pos name hbase, hv]
          exact evalRef_column (resolveCol_scopeOf hvnodup hvlen (.inl rfl) hval
            (List.mem_of_getElem? hpos))
  | wholeRow q => cases hm
  | subquery s =>
      cases hm
      exact href _ _

/-- What was lifted only names columns of the view. -/
theorem refOk_invertRename {qual qual' : String} {e e' : Expr F S} (he : e.All (RefOk sem qual names))
    (h : av.invertRename e = .ok e') : e'.All (RefOk sem qual' av.viewCols) := by
  refine Term.all_bindE h (he.mono fun ref href m hm => ?_)
  cases ref with
  | column table name =>
      cases hout : av.outputOf name with
      | none => simp [hout] at hm
      | some out =>
          simp only [hout, Except.ok.injEq] at hm
          subst hm
          obtain ⟨pos, -, hpos⟩ := outputOf_eq_some hout
          exact ⟨.inl rfl, List.mem_of_getElem? hpos⟩
  | wholeRow q => cases hm
  | subquery s =>
      cases hm
      exact href

end

end Views
