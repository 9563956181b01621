-- SUMMARY: What a stack of views means: the row it shows for a row of its table, and its conditions on it.
import Rustgres.Lib.Loops
import Rustgres.Views.Renaming

/-!
# The Meaning of a View

A view query is read as any query: over its base relation, under the alias and with the column names
that it gives to it. This is what the rewriting of statements is held against.
-/

open Terms Loops
open Encoding (CheckOption)

namespace Views

variable {V F S : Type} (sem : Semantics V F S)

/-- The name of the base relation in the view query. -/
def ViewDef.rangeName (v : ViewDef F S) (base : Rel V F S) : String := v.alias_.getD base.name

/-- The columns that the view query sees. -/
def ViewDef.names (v : ViewDef F S) (base : Rel V F S) : List String :=
  applyAliases v.colAliases base.columns

def ViewDef.scope (v : ViewDef F S) (base : Rel V F S) (row : List V) : Scope V :=
  scopeOf (v.rangeName base) (v.names base) row

def itemValues (v : ViewDef F S) (base : Rel V F S) (row : List V) :
    SelectItem F S → Except ExecError (List V)
  | .all => .ok row
  | .allOf qual =>
    if qual = v.rangeName base then .ok row
    else .error (execError "42P01" ("missing FROM-clause entry for table \"" ++ qual ++ "\""))
  | .expr e => do
    let val ← eval sem (v.scope base row) e
    return [val]

/-- The row that the view shows for a row of its base. -/
def viewRow (v : ViewDef F S) (base : Rel V F S) (row : List V) : Except ExecError (List V) := do
  let values ← v.items.mapM (itemValues sem v base row)
  return values.flatten

/-- The row that the relation shows for a row of the table, by its conditions or not. -/
def rowAt : Rel V F S → List V → Except ExecError (List V)
  | .table _, row => .ok row
  | .view v base, row => do
    let row ← rowAt base row
    viewRow sem v base row

/-- The condition of the view is true of the row. -/
def Passes (v : ViewDef F S) (base : Rel V F S) (row : List V) : Prop :=
  ∃ baseRow, rowAt sem base row = .ok baseRow ∧
    ∀ q ∈ v.where_, Holds sem (v.scope base baseRow) q

/-- The conditions of all views of the stack are true of the row: it is a row of the top view. -/
def AllPass : Rel V F S → List V → Prop
  | .table _, _ => True
  | .view v base, row => Passes sem v base row ∧ AllPass base row

/-! ## Views of columns -/

/-- A column of the base relation, or all of them. -/
def PlainItem (qual : String) (names : List String) : SelectItem F S → Prop
  | .all => True
  | .allOf q => q = qual
  | .expr (.leaf (.column table name)) =>
    (table = none ∨ table = some qual) ∧ name ∈ names ∧ isSystemCol name = false
  | .expr _ => False

/-- A reference that means the same over the names of the query and over those of the base. -/
def SameRef (names columns : List String) : Ref S → Prop
  | .column _ name => names.findIdx? (· = name) = columns.findIdx? (· = name)
  | .wholeRow _ => names = columns
  | .subquery _ => True

/-- The view selects columns of its base. Its condition reads columns that have the same name in the
base, whole rows, and subqueries that stand alone. Over another view no column gets a new name. -/
structure ViewDef.Plain (v : ViewDef F S) (base : Rel V F S) : Prop where
  names : (v.names base).Nodup
  visible : visibleCols v base = v.names base
  items : ∀ item ∈ v.items, PlainItem (v.rangeName base) (v.names base) item
  refs : ∀ q ∈ v.where_, q.All (RefOk sem (v.rangeName base) (v.names base))
  same : ∀ q ∈ v.where_, q.All (SameRef (v.names base) base.columns)
  nodup : v.viewCols.Nodup

def Rel.Plain : Rel V F S → Prop
  | .table t => t.columns.Nodup
  | .view v base => v.Plain sem base ∧ base.Plain

/-- The base columns that an item shows. -/
def itemCols (names columns : List String) : SelectItem F S → List String
  | .all | .allOf _ => columns
  | .expr (.leaf (.column _ name)) =>
    [((names.findIdx? (· = name)).bind (columns[·]?)).getD name]
  | .expr _ => []

def ViewDef.shown (v : ViewDef F S) (base : Rel V F S) : List String :=
  v.items.flatMap (itemCols (v.names base) base.columns)

variable {sem} {v : ViewDef F S} {base : Rel V F S}

theorem Rel.Plain.nodup {rel : Rel V F S} (h : rel.Plain sem) : rel.columns.Nodup := by
  cases rel with
  | table t => exact h
  | view v base => exact h.1.nodup

theorem isBaseQual_rangeName : isBaseQual base.name v.alias_ (v.rangeName base) := by
  unfold isBaseQual ViewDef.rangeName
  cases v.alias_ <;> simp

@[simp]
theorem length_applyAliases (aliases names : List String) :
    (applyAliases aliases names).length = names.length := by
  fun_induction applyAliases aliases names with
  | case1 a aliases n names ih => rw [List.length_cons, List.length_cons, ih]
  | case2 => rfl

@[simp]
theorem ViewDef.length_names (v : ViewDef F S) (base : Rel V F S) :
    (v.names base).length = base.columns.length := length_applyAliases _ _

/-- A name of the query stands for the base column at its place. -/
theorem exists_column {names columns : List String} {name : String} (hnames : names.Nodup)
    (hlen : names.length = columns.length) (hmem : name ∈ names) :
    ∃ (pos : Nat) (real : String), names[pos]? = some name ∧ columns[pos]? = some real
      ∧ names.findIdx? (· = name) = some pos := by
  obtain ⟨pos, hpos⟩ := List.getElem?_of_mem hmem
  have hlt : pos < columns.length := hlen ▸ (List.getElem?_eq_some_iff.1 hpos).1
  exact ⟨pos, columns[pos], hpos, List.getElem?_eq_getElem hlt, findIdx?_of_getElem? hnames hpos⟩

theorem mem_shown (h : v.Plain sem base) {name : String} (hmem : name ∈ v.shown base) :
    name ∈ base.columns := by
  obtain ⟨item, hitem, hname⟩ := List.mem_flatMap.1 hmem
  have hplain := h.items item hitem
  match item with
  | .all => exact hname
  | .allOf _ => exact hname
  | .expr (.leaf (.column _ n)) =>
      obtain ⟨pos, real, -, hreal, hidx⟩ := exists_column h.names (v.length_names base) hplain.2.1
      simp only [itemCols, hidx, Option.bind_some, hreal, Option.getD_some, List.mem_singleton] at hname
      subst hname
      exact List.mem_of_getElem? hreal
  | .expr (.leaf (.wholeRow _)) => cases hname
  | .expr (.leaf (.subquery _)) => cases hname
  | .expr (.node _ _) => cases hname

/-- The condition of a plain view has the same value over the names of the base. -/
theorem eval_where {row : List V} {q : Expr F S} (h : v.Plain sem base) (hbase : base.columns.Nodup)
    (hlen : base.columns.length = row.length) (hq : q ∈ v.where_) :
    eval sem (v.scope base row) q = eval sem (scopeOf (v.rangeName base) base.columns row) q ∧
      q.All (RefOk sem (v.rangeName base) base.columns) := by
  have hboth := (h.refs q hq).and (h.same q hq)
  have hvlen : (v.names base).length = row.length := (v.length_names base).trans hlen
  have hmem : ∀ name, name ∈ v.names base →
      (v.names base).findIdx? (· = name) = base.columns.findIdx? (· = name) → name ∈ base.columns := by
    intro name hname hsame
    obtain ⟨pos, real, -, -, hidx⟩ := exists_column h.names (v.length_names base) hname
    rw [hidx] at hsame
    obtain ⟨hlt, heq, -⟩ := List.findIdx?_eq_some_iff_getElem.1 hsame.symm
    simp only [decide_eq_true_eq] at heq
    exact heq ▸ List.getElem_mem hlt
  constructor
  · refine Term.eval_congr (hboth.mono fun ref href => ?_)
    obtain ⟨hok, hsame⟩ := href
    unfold ViewDef.scope
    cases ref with
    | column table name =>
        obtain ⟨htable, hname⟩ := hok
        obtain ⟨val, hval⟩ := lookup_eq_some h.names hvlen hname
        have hval' : lookup base.columns row name = some val := by
          rw [← hval, lookup, lookup, hsame]
        rw [evalRef_column (resolveCol_scopeOf h.names hvlen htable hval hname),
          evalRef_column (resolveCol_scopeOf hbase hlen htable hval' (hmem name hname hsame))]
    | wholeRow qual =>
        rw [show v.names base = base.columns from hsame]
    | subquery s => exact hok _ _
  · refine hboth.mono fun ref href => ?_
    obtain ⟨hok, hsame⟩ := href
    cases ref with
    | column table name => exact ⟨hok.1, hmem name hok.2 hsame⟩
    | wholeRow qual => exact ⟨hok.1, fun hnil => hok.2 (by rw [show v.names base = _ from hsame, hnil])⟩
    | subquery s => exact hok

/-! ## The row of a view -/

theorem map_lookup {names : List String} {row : List V} (d : V) (hnodup : names.Nodup)
    (hlen : names.length = row.length) : names.map (fun n => (lookup names row n).getD d) = row := by
  refine List.ext_getElem? fun i => ?_
  rw [List.getElem?_map]
  cases hn : names[i]? with
  | none =>
      rw [List.getElem?_eq_none_iff] at hn
      simp [List.getElem?_eq_none (hlen ▸ hn)]
  | some n =>
      have hlt : i < row.length := hlen ▸ (List.getElem?_eq_some_iff.1 hn).1
      simp [lookup, findIdx?_of_getElem? hnodup hn, List.getElem?_eq_getElem hlt]

theorem itemValues_plain {row : List V} {item : SelectItem F S} (hnodup : base.columns.Nodup)
    (hlen : base.columns.length = row.length) (hnames : (v.names base).Nodup)
    (hitem : PlainItem (v.rangeName base) (v.names base) item) :
    itemValues sem v base row item
      = .ok ((itemCols (v.names base) base.columns item).map fun n =>
          (lookup base.columns row n).getD (null sem)) := by
  match item with
  | .all => rw [itemValues, itemCols, map_lookup _ hnodup hlen]
  | .allOf q =>
      obtain rfl : q = v.rangeName base := hitem
      rw [itemValues, itemCols, map_lookup _ hnodup hlen, if_pos rfl]
  | .expr (.leaf (.column table name)) =>
      obtain ⟨htable, hmem, -⟩ := hitem
      have hvlen : (v.names base).length = row.length := (v.length_names base).trans hlen
      obtain ⟨val, hval⟩ := lookup_eq_some hnames hvlen hmem
      obtain ⟨pos, real, -, hreal, hidx⟩ := exists_column hnames (v.length_names base) hmem
      have hval' : lookup base.columns row real = some val := by
        rw [← hval, lookup, lookup, findIdx?_of_getElem? hnodup hreal, hidx]
      have heval : eval sem (v.scope base row) (.leaf (.column table name)) = .ok val :=
        evalRef_column (resolveCol_scopeOf hnames hvlen htable hval hmem)
      rw [itemValues, heval]
      simp [itemCols, hidx, hreal, hval', Bind.bind, Except.bind, Pure.pure, Except.pure]
  | .expr (.leaf (.wholeRow _)) => cases hitem
  | .expr (.leaf (.subquery _)) => cases hitem
  | .expr (.node _ _) => cases hitem

theorem viewRow_plain {row : List V} (h : v.Plain sem base) (hnodup : base.columns.Nodup)
    (hlen : base.columns.length = row.length) :
    viewRow sem v base row
      = .ok ((v.shown base).map fun n => (lookup base.columns row n).getD (null sem)) := by
  unfold viewRow
  rw [mapM_eq_ok fun item hitem => itemValues_plain hnodup hlen h.names (h.items item hitem)]
  simp [Bind.bind, Except.bind, Pure.pure, Except.pure, ViewDef.shown, List.flatMap_def,
    Function.comp_def]

/-! ## The analysis of a view -/

theorem mapInner_base {inner : Option (List (VCol F S))} (h : ∀ kinds ∈ inner, ∀ c ∈ kinds, c.isBase)
    (pos : Nat) (real : String) (e : Expr F S) : mapInner inner pos real e = .base real := by
  unfold mapInner
  cases inner with
  | none => rfl
  | some kinds =>
      dsimp only
      cases hpos : kinds[pos]? with
      | none => rfl
      | some c =>
          have hc := h kinds rfl c (List.mem_of_getElem? hpos)
          cases c with
          | base _ => rfl
          | subst _ => cases hc
          | blocked _ _ => cases hc

theorem allColumns_base {inner : Option (List (VCol F S))}
    (h : ∀ kinds ∈ inner, ∀ c ∈ kinds, c.isBase) (real : List String) :
    allColumns inner real = real.map .base := by
  unfold allColumns
  simp only [mapInner_base h]
  refine List.ext_getElem? fun i => ?_
  rw [List.getElem?_mapIdx, List.getElem?_map]

theorem classifyItem_plain {inner : Option (List (VCol F S))} {item : SelectItem F S}
    (h : ∀ kinds ∈ inner, ∀ c ∈ kinds, c.isBase) (hnames : (v.names base).Nodup)
    (hitem : PlainItem (v.rangeName base) (v.names base) item) :
    classifyItem v base.name inner (v.names base) base.columns item
      = .ok ((itemCols (v.names base) base.columns item).map .base) := by
  match item with
  | .all => rw [classifyItem, itemCols, allColumns_base h]
  | .allOf q =>
      obtain rfl : q = v.rangeName base := hitem
      rw [classifyItem, itemCols, allColumns_base h, if_pos isBaseQual_rangeName]
  | .expr (.leaf (.column table name)) =>
      obtain ⟨htable, hmem, hsys⟩ := hitem
      have hqual : (table.any fun qual => !isBaseQual base.name v.alias_ qual) = false := by
        rcases htable with rfl | rfl
        · rfl
        · simp [isBaseQual_rangeName]
      obtain ⟨pos, real, -, hreal, hidx⟩ := exists_column hnames (v.length_names base) hmem
      rw [classifyItem, hqual, hsys, hidx]
      simp [hidx, hreal, mapInner_base h, itemCols]
  | .expr (.leaf (.wholeRow _)) => cases hitem
  | .expr (.leaf (.subquery _)) => cases hitem
  | .expr (.node _ _) => cases hitem

/-- The analysis finds the columns that the view shows. -/
structure Analysis (v : ViewDef F S) (base : Rel V F S) (av : AutoView F S) : Prop where
  name : av.base = base.name
  alias_ : av.baseAlias = v.alias_
  qual : av.qual = v.where_
  cols : av.cols = (v.shown base).map .base
  viewCols : av.viewCols = v.viewCols
  checkOption : av.checkOption = v.checkOption
  length : (v.shown base).length = v.viewCols.length

theorem classifyOver_plain {inner : Option (List (VCol F S))} {av : AutoView F S}
    (h : v.Plain sem base) (hinner : ∀ kinds ∈ inner, ∀ c ∈ kinds, c.isBase) (hav : classifyOver v base inner = .ok av) :
    Analysis v base av := by
  unfold classifyOver at hav
  rw [h.visible, mapM_eq_ok fun item hitem =>
    classifyItem_plain hinner h.names (h.items item hitem)] at hav
  have hflat : (v.items.map fun item =>
      ((itemCols (v.names base) base.columns item).map VCol.base : List (VCol F S))).flatten
      = (v.shown base).map .base := by
    simp [ViewDef.shown, List.flatMap_def, Function.comp_def]
  simp only [Bind.bind, Except.bind, hflat] at hav
  split at hav
  · cases hav
  · rename_i hlen
    cases hav
    exact ⟨rfl, rfl, rfl, rfl, rfl, rfl, by simpa using hlen⟩

theorem classify_plain {depth : Nat} {av : AutoView F S} (h : v.Plain sem base) (hbase : base.Plain sem)
    (hav : classify depth v base = .ok av) : Analysis v base av := by
  induction base generalizing depth v av with
  | table t =>
      unfold classify at hav
      split at hav
      · cases hav
      · exact classifyOver_plain h (by simp) hav
  | view w base ih =>
      unfold classify at hav
      split at hav
      · cases hav
      · cases hinner : classify (depth + 1) w base with
        | error reason => simp [hinner, Bind.bind, Except.bind] at hav
        | ok inner =>
            rw [hinner] at hav
            refine classifyOver_plain h ?_ hav
            rintro kinds hkinds c hc
            cases hkinds
            rw [(ih hbase.1 hbase.2 hinner).cols] at hc
            obtain ⟨n, -, rfl⟩ := List.mem_map.1 hc
            rfl

/-- A view whose analysis goes through at some depth can be analysed on its own. -/
theorem classify_mono {depth depth' : Nat} {av : AutoView F S} (hle : depth' ≤ depth)
    (h : classify depth v base = .ok av) : classify depth' v base = .ok av := by
  induction base generalizing depth depth' v av with
  | table t =>
      unfold classify at h ⊢
      split at h
      · cases h
      · rwa [if_neg (by omega)]
  | view w base ih =>
      unfold classify at h ⊢
      split at h
      · cases h
      · rw [if_neg (by omega)]
        cases hinner : classify (depth + 1) w base with
        | error reason => simp [hinner, Bind.bind, Except.bind] at h
        | ok inner =>
            rw [hinner] at h
            rw [ih (by omega) hinner]
            exact h

theorem classify_inner {depth : Nat} {w : ViewDef F S} {av : AutoView F S}
    (h : classify depth v (.view w base) = .ok av) : ∃ inner, classify 0 w base = .ok inner := by
  unfold classify at h
  split at h
  · cases h
  · cases hinner : classify (depth + 1) w base with
    | error reason => simp [hinner, Bind.bind, Except.bind] at h
    | ok inner => exact ⟨inner, classify_mono (Nat.zero_le _) hinner⟩

/-- Every view of the stack can be analysed. -/
def Rel.Analysed : Rel V F S → Prop
  | .table _ => True
  | .view v base => (∃ av, classify 0 v base = .ok av) ∧ base.Analysed

theorem analysed_of_classify {av : AutoView F S} (h : classify 0 v base = .ok av) :
    (Rel.view v base).Analysed := by
  refine ⟨⟨av, h⟩, ?_⟩
  induction base generalizing v av with
  | table t => trivial
  | view w base ih =>
      obtain ⟨inner, hinner⟩ := classify_inner h
      exact ⟨⟨inner, hinner⟩, ih hinner⟩

/-! ## Rows along the stack -/

section

variable {av : AutoView F S} {row : List V}

theorem viewRowFromBase_plain (h : Analysis v base av) :
    viewRowFromBase sem av base.columns row
      = .ok ((v.shown base).map fun n => (lookup base.columns row n).getD (null sem)) := by
  unfold viewRowFromBase
  rw [h.cols]
  have hcols : ∀ c ∈ ((v.shown base).map VCol.base : List (VCol F S)), ∃ n, c = .base n := by
    intro c hc
    obtain ⟨n, -, rfl⟩ := List.mem_map.1 hc
    exact ⟨n, rfl⟩
  rw [List.mapM_map]
  exact mapM_eq_ok fun n _ => rfl

/-- The rows that a view returns for captured base rows are the rows it shows. -/
theorem viewRowFromBase_eq (hplain : v.Plain sem base) (hbase : base.Plain sem)
    (hav : Analysis v base av) (hlen : base.columns.length = row.length) :
    viewRowFromBase sem av base.columns row = viewRow sem v base row := by
  rw [viewRowFromBase_plain hav, viewRow_plain hplain hbase.nodup hlen]

theorem shows_viewRow {shown : List V} (hplain : v.Plain sem base) (hbase : base.Plain sem)
    (hav : Analysis v base av) (hlen : base.columns.length = row.length)
    (h : viewRow sem v base row = .ok shown) : Shows av base.columns row shown := by
  rw [viewRow_plain hplain hbase.nodup hlen] at h
  cases h
  refine ⟨hav.viewCols ▸ hplain.nodup, ?_, ?_, fun pos b hpos => ?_⟩
  · rw [hav.viewCols, List.length_map, hav.length]
  · rw [hav.cols, List.length_map, List.length_map]
  · rw [hav.cols, List.getElem?_map] at hpos
    rw [List.getElem?_map]
    cases hn : (v.shown base)[pos]? with
    | none => simp [hn] at hpos
    | some n =>
        obtain rfl : n = b := by simpa [hn, VCol.shows] using hpos
        obtain ⟨val, hval⟩ := lookup_eq_some hbase.nodup hlen
          (mem_shown hplain (List.mem_of_getElem? hn))
        simp [hval]

end

/-- Every stack of plain views shows a row of its width for each row of its table. -/
theorem rowAt_plain {rel : Rel V F S} {row : List V} (hplain : rel.Plain sem) (hrel : rel.Analysed)
    (hlen : rel.bottom.columns.length = row.length) :
    ∃ r, rowAt sem rel row = .ok r ∧ rel.columns.length = r.length := by
  induction rel with
  | table t => exact ⟨row, rfl, hlen⟩
  | view v base ih =>
      obtain ⟨⟨av, hav⟩, hbase⟩ := hrel
      obtain ⟨r, hr, hrlen⟩ := ih hplain.2 hbase hlen
      refine ⟨(v.shown base).map fun n => (lookup base.columns r n).getD (null sem), ?_, ?_⟩
      · rw [rowAt, hr]
        exact viewRow_plain hplain.1 hplain.2.nodup hrlen
      · rw [List.length_map, (classify_plain hplain.1 hplain.2 hav).length]
        rfl

end Views
