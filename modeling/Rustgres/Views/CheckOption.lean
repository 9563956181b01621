-- SUMMARY: WITH CHECK OPTION through a stack of views, where every condition can be lifted to its check.
import Rustgres.Views.Meaning

/-!
# The Check Option

The conditions that a view must check are lifted column by column to the base of the view. Where every
column in them is shown all the way up, the rows that a statement returns satisfy them in the stack's
own reading.
-/

open Terms Loops
open Encoding (CheckOption)

namespace Views

variable {V F S : Type} {sem : Semantics V F S}

/-- What the check options of the stack demand of a row. -/
def Required (sem : Semantics V F S) : Rel V F S → List V → Prop
  | .table _, _ => True
  | .view v base, row =>
    match v.checkOption with
    | .none => Required sem base row
    | .local => Passes sem v base row ∧ Required sem base row
    | .cascaded => Passes sem v base row ∧ AllPass sem base row

/-- Below every view with a cascaded check option no condition is left out: the columns that it reads
are shown by each view on the way up. -/
def Rel.Lifts : Rel V F S → Prop
  | .table _ => True
  | .view v base =>
    (v.checkOption = .cascaded → ∀ check ∈ cascade base, check.2.isSome) ∧ base.Lifts

/-! ## Lifted conditions -/

section

variable {v : ViewDef F S} {base : Rel V F S} {av : AutoView F S} {row : List V}

theorem invertRename_of_mem {check : String × Option (Expr F S)} {e : Expr F S}
    (h : (check.2.bind fun q => (av.invertRename q).toOption) = some e) :
    ∃ q, check.2 = some q ∧ av.invertRename q = .ok e := by
  obtain ⟨q, hq, he⟩ := Option.bind_eq_some_iff.1 h
  refine ⟨q, hq, ?_⟩
  cases hinv : av.invertRename q with
  | error e => simp [hinv, Except.toOption] at he
  | ok e' =>
      rw [hinv] at he
      cases he
      rfl

/-- The conditions of a stack name its columns and nothing else. -/
theorem refOk_cascade {rel : Rel V F S} (hplain : rel.Plain sem) (qual : String)
    {check : String × Option (Expr F S)} (hmem : check ∈ cascade rel) {e : Expr F S}
    (he : check.2 = some e) : e.All (RefOk sem qual rel.columns) := by
  induction rel generalizing qual check e with
  | table t => cases hmem
  | view w base ih =>
      rw [cascade] at hmem
      cases hav : classify 0 w base with
      | error reason =>
          rw [hav] at hmem
          cases hmem
      | ok av =>
          have hanalysis := classify_plain hplain.1 hplain.2 hav
          simp only [hav, List.mem_map, List.mem_append, Option.mem_toList] at hmem
          obtain ⟨inner, hinner, rfl⟩ := hmem
          obtain ⟨q, hq, hinv⟩ := invertRename_of_mem he
          rw [Rel.columns, ← hanalysis.viewCols]
          rcases hinner with hown | hbelow
          · obtain ⟨q', hq', rfl⟩ := Option.map_eq_some_iff.1 hown
            cases hq
            exact refOk_invertRename (hplain.1.refs q (hanalysis.qual ▸ hq')) hinv
          · exact refOk_invertRename (ih hplain.2 w.name hbelow hq) hinv

/-- A row on which all lifted conditions are true passes every view of the stack. -/
theorem allPass_of_cascade {rel : Rel V F S} (hplain : rel.Plain sem) (hrel : rel.Analysed)
    (hlen : rel.bottom.columns.length = row.length) {shown : List V} {qual : String}
    (hshown : rowAt sem rel row = .ok shown)
    (h : ∀ check ∈ cascade rel, ∃ e, check.2 = some e ∧ Holds sem (scopeOf qual rel.columns shown) e) :
    AllPass sem rel row := by
  induction rel generalizing shown with
  | table t => trivial
  | view w base ih =>
      obtain ⟨⟨av, hav⟩, hbase⟩ := hrel
      have hanalysis := classify_plain hplain.1 hplain.2 hav
      obtain ⟨baseRow, hbaseRow, hbaselen⟩ := rowAt_plain hplain.2 hbase hlen
      rw [rowAt, hbaseRow] at hshown
      have hshows := shows_viewRow hplain.1 hplain.2 hanalysis hbaselen hshown
      rw [cascade, hav] at h
      -- each condition under the lifting is true of the row below
      have hlower : ∀ check : String × Option (Expr F S),
          check ∈ (av.qual.map fun q => (unqualified w.name, some q)).toList ++ cascade base →
          ∃ q e, check.2 = some q ∧ av.invertRename q = .ok e
            ∧ Holds sem (scopeOf qual av.viewCols shown) e := by
        intro check hcheck
        obtain ⟨e, he, hholds⟩ := h _ (List.mem_map.2 ⟨check, hcheck, rfl⟩)
        obtain ⟨q, hq, hinv⟩ := invertRename_of_mem he
        rw [Rel.columns, ← hanalysis.viewCols] at hholds
        exact ⟨q, e, hq, hinv, hholds⟩
      refine ⟨⟨baseRow, hbaseRow, fun q hq => ?_⟩, ih hplain.2 hbase hlen hbaseRow ?_⟩
      · rw [← hanalysis.qual] at hq
        obtain ⟨q', e, hq', hinv, hholds⟩ := hlower (unqualified w.name, some q) (by
          rw [Option.mem_def.1 hq]
          simp)
        cases hq'
        rw [hanalysis.qual] at hq
        obtain ⟨hsame, hrefs⟩ := eval_where hplain.1 hplain.2.nodup hbaselen hq
        unfold Holds at hholds ⊢
        rwa [hsame, ← eval_invertRename hplain.2.nodup hbaselen hshows hrefs hinv]
      · intro check hcheck
        obtain ⟨q, e, hq, hinv, hholds⟩ := hlower check (List.mem_append_right _ hcheck)
        have hrefs := refOk_cascade hplain.2 qual hcheck hq
        unfold Holds at hholds
        rw [eval_invertRename hplain.2.nodup hbaselen hshows hrefs hinv] at hholds
        exact ⟨q, hq, hholds⟩

/-! ## The checks of one view -/

theorem holds_of_enforceChecks {cols : List String} {checks : List (PendingCheck F S)}
    {rows : List (List V)} (h : enforceChecks sem av cols checks rows = .ok ()) :
    ∀ row ∈ rows, ∀ check ∈ checks, Holds sem (scopeOf av.base cols row) check.qual := by
  intro row hrow check hcheck
  have hstep := forM_eq_ok.1 (forM_eq_ok.1 h row hrow) check hcheck
  obtain ⟨val, hval, hstep⟩ := bind_eq_ok hstep
  split at hstep
  · rename_i htrue
    rw [Holds, hval, (sem.asBool3_eq_some val _).1 htrue]
  · cases hstep

/-- When the checks of a view are true of the base row, its own check option is met. -/
theorem passes_of_checks (hplain : v.Plain sem base) (hbase : base.Plain sem)
    (hav : Analysis v base av) {baseRow : List V} (hbaseRow : rowAt sem base row = .ok baseRow)
    (hlen : base.columns.length = baseRow.length) (hoption : v.checkOption ≠ .none)
    (h : ∀ check ∈ collectChecks v.name av base,
      Holds sem (scopeOf av.base base.columns baseRow) check.qual) : Passes sem v base row := by
  refine ⟨baseRow, hbaseRow, fun q hq => ?_⟩
  have hmem : ⟨unqualified v.name, av.renameBaseExpr av.base none q⟩
      ∈ collectChecks v.name av base := by
    unfold collectChecks
    rw [hav.checkOption, hav.qual, Option.mem_def.1 hq]
    split
    · rename_i hnone
      exact absurd hnone hoption
    · simp
  have hholds := h _ hmem
  have hqual : av.isBaseQual (v.rangeName base) := by
    unfold AutoView.isBaseQual
    rw [hav.name, hav.alias_]
    exact isBaseQual_rangeName
  obtain ⟨hsame, hrefs⟩ := eval_where hplain hbase.nodup hlen hq
  unfold Holds at hholds ⊢
  rwa [hsame, ← eval_renameBaseExpr hbase.nodup hlen hqual hrefs]

theorem cascade_of_checks (hav : Analysis v base av) {scope : Scope V}
    (hoption : v.checkOption = .cascaded) (hlifts : ∀ check ∈ cascade base, check.2.isSome)
    (h : ∀ check ∈ collectChecks v.name av base, Holds sem scope check.qual) :
    ∀ check ∈ cascade base, ∃ e, check.2 = some e ∧ Holds sem scope e := by
  intro check hcheck
  obtain ⟨e, he⟩ := Option.isSome_iff_exists.1 (hlifts check hcheck)
  refine ⟨e, he, h ⟨check.1, e⟩ ?_⟩
  unfold collectChecks
  rw [hav.checkOption, hoption]
  refine List.mem_append_right _ ?_
  rw [if_pos rfl]
  exact List.mem_filterMap.2 ⟨check, hcheck, by simp [he]⟩

end

/-! ## The way of the rows up the stack -/

/-- The rows that the table returned, on their way up through the views with their checks. -/
inductive Flows (sem : Semantics V F S) : Rel V F S → Bool → Written V → Written V → Prop where
  | table (t : Table V F S) (returning : Bool) (out : Written V) : Flows sem (.table t) returning out out
  | view {v : ViewDef F S} {base : Rel V F S} {av : AutoView F S} {returning : Bool}
      {bottom mid out : Written V} (hav : classify 0 v base = .ok av)
      (below : Flows sem base (!(collectChecks v.name av base).isEmpty || returning) bottom mid)
      (hout : finish sem av base (collectChecks v.name av base) returning mid = .ok out) :
      Flows sem (.view v base) returning bottom out

theorem finish_eq_ok {av : AutoView F S} {base : Rel V F S} {checks : List (PendingCheck F S)}
    {returning : Bool} {mid out : Written V} (h : finish sem av base checks returning mid = .ok out) :
    enforceChecks sem av base.columns checks mid.captured = .ok () ∧ out.stored = mid.stored ∧
      out.rows = mid.rows ∧
      (returning = true →
        mid.captured.mapM (viewRowFromBase sem av base.columns) = .ok out.captured) := by
  obtain ⟨_, hchecks, h⟩ := bind_eq_ok h
  refine ⟨hchecks, ?_⟩
  cases returning with
  | false =>
      cases h
      exact ⟨rfl, rfl, by simp⟩
  | true =>
      obtain ⟨captured, hcaptured, h⟩ := bind_eq_ok h
      cases h
      exact ⟨rfl, rfl, fun _ => hcaptured⟩

theorem Flows.stored {rel : Rel V F S} {returning : Bool} {bottom out : Written V}
    (h : Flows sem rel returning bottom out) : out.stored = bottom.stored := by
  induction h with
  | table => rfl
  | view _ _ hout ih => rw [(finish_eq_ok hout).2.1, ih]

/-- The rows that came from the table satisfy what the stack demands, and the rows that are returned
are the ones it shows for them. -/
theorem Flows.required {rel : Rel V F S} {returning : Bool} {bottom out : Written V}
    (h : Flows sem rel returning bottom out) (hplain : rel.Plain sem) (hlifts : rel.Lifts)
    (hlen : ∀ row ∈ bottom.captured, row.length = rel.bottom.columns.length) :
    (returning = true → bottom.captured.mapM (rowAt sem rel) = .ok out.captured) ∧
      ∀ row ∈ bottom.captured, Required sem rel row := by
  induction h with
  | table t returning out =>
      refine ⟨fun _ => ?_, fun _ _ => trivial⟩
      exact (mapM_eq_ok (g := id) fun row _ => rfl).trans (by rw [List.map_id])
  | @view v base av returning bottom mid out hav below hout ih =>
      obtain ⟨hmid, hbelow⟩ := ih hplain.2 hlifts.2 hlen
      obtain ⟨hchecks, -, -, hcaptured⟩ := finish_eq_ok hout
      have hanalysis := classify_plain hplain.1 hplain.2 hav
      have hrow : ∀ row ∈ bottom.captured,
          ∃ r, rowAt sem base row = .ok r ∧ base.columns.length = r.length := fun row hmem =>
        rowAt_plain hplain.2 (analysed_of_classify hav).2 (hlen row hmem).symm
      constructor
      · intro hret
        have hflag := hmid (by simp [hret])
        have hup := hcaptured hret
        have hsame : mid.captured.mapM (viewRowFromBase sem av base.columns)
            = mid.captured.mapM (viewRow sem v base) := by
          refine mapM_congr fun r hr => ?_
          obtain ⟨row, hmem, hrow'⟩ := exists_of_mem_mapM hflag hr
          obtain ⟨r', hr', hrlen⟩ := hrow row hmem
          rw [hrow'] at hr'
          cases hr'
          exact viewRowFromBase_eq hplain.1 hplain.2 hanalysis hrlen
        exact mapM_bind hflag (hsame ▸ hup)
      · intro row hmem
        obtain ⟨r, hr, hrlen⟩ := hrow row hmem
        have hholds : ∀ check ∈ collectChecks v.name av base,
            Holds sem (scopeOf av.base base.columns r) check.qual := by
          intro check hcheck
          have hflag := hmid (by simp [List.ne_nil_of_mem hcheck])
          exact holds_of_enforceChecks hchecks r (mem_of_mapM hflag hmem hr) check hcheck
        unfold Required
        cases hoption : v.checkOption with
        | none => exact hbelow row hmem
        | «local» =>
            exact ⟨passes_of_checks hplain.1 hplain.2 hanalysis hr hrlen (by simp [hoption]) hholds,
              hbelow row hmem⟩
        | cascaded =>
            refine ⟨passes_of_checks hplain.1 hplain.2 hanalysis hr hrlen (by simp [hoption]) hholds,
              allPass_of_cascade hplain.2 (analysed_of_classify hav).2 (hlen row hmem).symm hr
                (cascade_of_checks hanalysis hoption (hlifts.1 hoption) hholds)⟩

theorem analyseUpdatable_eq_ok {event : String} {v : ViewDef F S} {base : Rel V F S}
    {av : AutoView F S} (h : analyseUpdatable event v base = .ok av) : classify 0 v base = .ok av := by
  obtain ⟨av', hav, h⟩ := bind_eq_ok h
  unfold analyse at hav
  split at hav
  · cases hav
  · rename_i hclassify
    cases hav
    split at h
    · cases h
      exact hclassify
    · cases h

theorem flows_insert {rel : Rel V F S} {rows : List (List V)} {stmt : InsertStmt F S}
    {returning : Bool} {out : Written V} (h : execInsert sem rows rel stmt returning = .ok out) :
    ∃ stmt' bottom, rel.bottom.execInsert sem stmt' rows = .ok bottom
      ∧ (stmt.onConflict = none → stmt'.onConflict = none) ∧ Flows sem rel returning bottom out := by
  induction rel generalizing stmt returning out with
  | table t => exact ⟨stmt, out, h, id, .table t returning out⟩
  | view v base ih =>
      rw [execInsert] at h
      obtain ⟨av, hav, h⟩ := bind_eq_ok h
      obtain ⟨columns, -, h⟩ := bind_eq_ok h
      obtain ⟨onConflict, hoc, h⟩ := bind_eq_ok h
      obtain ⟨mid, hmid, hout⟩ := bind_eq_ok h
      obtain ⟨stmt', bottom, hbottom, hnone, hflows⟩ := ih hmid
      refine ⟨stmt', bottom, hbottom, fun hstmt => hnone ?_,
        .view (analyseUpdatable_eq_ok hav) hflows hout⟩
      rw [hstmt] at hoc
      cases hoc
      rfl

theorem flows_update {rel : Rel V F S} {rows : List (List V)} {stmt : UpdateStmt V F S}
    {returning : Bool} {out : Written V} (h : execUpdate sem rows rel stmt returning = .ok out) :
    ∃ stmt' bottom, rel.bottom.execUpdate sem stmt' rows = .ok bottom
      ∧ Flows sem rel returning bottom out := by
  induction rel generalizing stmt returning out with
  | table t => exact ⟨stmt, out, h, .table t returning out⟩
  | view v base ih =>
      rw [execUpdate] at h
      obtain ⟨av, hav, h⟩ := bind_eq_ok h
      obtain ⟨sets, -, h⟩ := bind_eq_ok h
      obtain ⟨where_, -, h⟩ := bind_eq_ok h
      obtain ⟨mid, hmid, hout⟩ := bind_eq_ok h
      obtain ⟨stmt', bottom, hbottom, hflows⟩ := ih hmid
      exact ⟨stmt', bottom, hbottom, .view (analyseUpdatable_eq_ok hav) hflows hout⟩

/-! ## The guarantee -/

/-- Truth values and integers. -/
inductive Val where
  | null
  | bool (b : Bool)
  | int (i : Int)
deriving DecidableEq

inductive Fn where
  | int (i : Int)
  | positive
  | neg
deriving DecidableEq

/-- Strict functions of integers. -/
def Fn.apply : Fn → List (Except ExecError Val) → Except ExecError Val
  | .int i, _ => .ok (.int i)
  | .positive, [.ok (.int i)] => .ok (.bool (0 < i))
  | .neg, [.ok (.int i)] => .ok (.int (-i))
  | _, .error e :: _ => .error e
  | _, _ => .ok .null

def intSem : Semantics Val Fn Empty where
  bool3
    | some b => .bool b
    | none => .null
  asBool3
    | .bool b => some (some b)
    | .null => some none
    | .int _ => none
  asBool3_eq_some v b := by
    cases v <;> cases b <;> simp
  record _ := .null
  apply := Fn.apply
  subquery s := s.elim

def lit (i : Int) : Expr Fn Empty := .node (.other (.int i)) []
def col (name : String) : Expr Fn Empty := column none name
def positive (e : Expr Fn Empty) : Expr Fn Empty := .node (.other .positive) [e]

/-- A table without defaults, checks and triggers. -/
def plainTable (name : String) (columns : List String)
    (generated : List (Option (Expr Fn Empty))) : Table Val Fn Empty where
  name := name
  columns := columns
  coerce _ v := .ok v
  defaults := []
  generated := generated
  checkRow _ := .ok ()
  checkRows _ := .ok ()
  beforeInsert row := .ok (if row.length = columns.length then some row else none)
  beforeUpdate _ image := .ok (some image)
  beforeDelete _ := .ok true
  conflict _ _ _ := none
  beforeInsert_length row new h := by
    split at h
    · cases h
      assumption
    · cases h
  conflict_lt _ _ _ _ h := by cases h

def ab : Rel Val Fn Empty := .table (plainTable "t" ["a", "b"] [])

/-- `SELECT b AS x, a AS y FROM t AS s WHERE s.b > 0`, and above it `SELECT x AS z FROM v` with a
cascaded check option. -/
def lifted : Rel Val Fn Empty :=
  .view ⟨"w", none, [], [.expr (col "x")], none, ["z"], .cascaded⟩
    (.view ⟨"v", some "s", [], [.expr (col "b"), .expr (col "a")],
      some (positive (column (some "s") "b")), ["x", "y"], .none⟩ ab)

theorem lifted_plain : lifted.Plain intSem := by
  have hab : ["a", "b"].Nodup := by decide
  refine ⟨⟨by decide, rfl, ?_, by simp, by simp, by decide⟩,
    ⟨by decide, rfl, ?_, ?_, ?_, by decide⟩, hab⟩
  · intro item hitem
    cases List.mem_singleton.1 hitem
    exact ⟨.inl rfl, by decide, by decide⟩
  · intro item hitem
    simp only [List.mem_cons, List.not_mem_nil, or_false] at hitem
    rcases hitem with rfl | rfl
    · exact ⟨.inl rfl, by decide, by decide⟩
    · exact ⟨.inl rfl, by decide, by decide⟩
  · rintro q ⟨⟩
    exact ⟨⟨.inr rfl, by decide⟩, trivial⟩
  · rintro q ⟨⟩
    exact ⟨rfl, trivial⟩

/-- `SELECT a FROM t WHERE b > 0`, and above it `SELECT a FROM v` with a cascaded check option. -/
def hidden : Rel Val Fn Empty :=
  .view ⟨"w", none, [], [.all], none, ["a"], .cascaded⟩
    (.view ⟨"v", none, [], [.expr (col "a")], some (positive (col "b")), ["a"], .none⟩ ab)

/-- `SELECT * FROM t WHERE g > 0` with a check option, where `g` is generated as `- a`. -/
def generated : Rel Val Fn Empty :=
  .view ⟨"v", none, [], [.all], some (positive (col "g")), ["a", "g"], .cascaded⟩
    (.table (plainTable "t" ["a", "g"] [none, some (.node (.other .neg) [col "a"])]))

end Views
