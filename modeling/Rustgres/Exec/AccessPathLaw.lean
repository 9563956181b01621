-- SUMMARY: An index scan finds every row that the condition is true on.
import Rustgres.Exec.AccessPath
import Rustgres.Exec.IndexEntries
import Rustgres.Lib.Loops

/-!
# Index Scans Lose No Row

The bounds that the planner reads in a condition hold on every row that the condition is true on, and the keys of such
rows lie in the range that the index scan looks through.
-/

namespace Access

open Orderings RangeScan

variable {V K E : Type} [KeyOrder V K]

/-! ## What bounds say -/

def CmpOp.Holds : CmpOp → Ordering → Prop
  | .eq, o => o = .eq
  | .ne, o => o ≠ .eq
  | .lt, o => o = .lt
  | .le, o => o ≠ .gt
  | .gt, o => o = .gt
  | .ge, o => o ≠ .lt
  | .imageEq, o => o = .eq

instance : ∀ (op : CmpOp) (o : Ordering), Decidable (op.Holds o)
  | .eq, o => inferInstanceAs (Decidable (o = .eq))
  | .ne, o => inferInstanceAs (Decidable (o ≠ .eq))
  | .lt, o => inferInstanceAs (Decidable (o = .lt))
  | .le, o => inferInstanceAs (Decidable (o ≠ .gt))
  | .gt, o => inferInstanceAs (Decidable (o = .gt))
  | .ge, o => inferInstanceAs (Decidable (o ≠ .lt))
  | .imageEq, o => inferInstanceAs (Decidable (o = .eq))

def BoundKind.Holds : BoundKind → Ordering → Prop
  | .eq, o => o = .eq
  | .gt inclusive, o => o = .gt ∨ inclusive = true ∧ o = .eq
  | .lt inclusive, o => o = .lt ∨ inclusive = true ∧ o = .eq

def keyOrd (v w : V) : Ordering := KeyOrder.keyCmp V (SqlValue.key v) (SqlValue.key w)

/-- The row has a value at the position of the bound, on the right side of it. -/
def ColBound.Holds (b : ColBound V) (values : List V) : Prop :=
  ∃ v, values[b.pos]? = some v ∧ b.kind.Holds (keyOrd v b.value)

/-- The references that may be to the table are to it, and comparisons with literals follow the order of the keys, also
after the cast of the literal. -/
structure Evaluator.Agrees (ev : Evaluator V E) (qual tableName : String) (columns : List String) : Prop where
  column : ∀ table name pos, Refers qual tableName table → columns.findIdx? (· = name) = some pos →
    ∀ values v, ev.column table name values = .ok v → values[pos]? = some v
  left : ∀ op v lit name w, ev.coerceLiteral lit name = .ok w → ev.cmpVals op v lit = .ok (some true) →
    op.Holds (keyOrd v w)
  right : ∀ op v lit name w, ev.coerceLiteral lit name = .ok w → ev.cmpVals op lit v = .ok (some true) →
    op.Holds (keyOrd w v)

section

variable {ev : Evaluator V E} {qual tableName : String} {columns : List String} {values : List V}

theorem boundKind_left {op : CmpOp} {kind : BoundKind} (h : boundKind op false = some kind) {o : Ordering}
    (ho : op.Holds o) : kind.Holds o := by
  cases op with
  | eq =>
      cases h
      exact ho
  | gt =>
      cases h
      exact .inl ho
  | lt =>
      cases h
      exact .inl ho
  | ge =>
      cases h
      cases o with
      | lt => exact absurd rfl ho
      | eq => exact .inr ⟨rfl, rfl⟩
      | gt => exact .inl rfl
  | le =>
      cases h
      cases o with
      | lt => exact .inl rfl
      | eq => exact .inr ⟨rfl, rfl⟩
      | gt => exact absurd rfl ho
  | ne => cases h
  | imageEq => cases h

theorem boundKind_right {op : CmpOp} {kind : BoundKind} (h : boundKind op true = some kind) {o : Ordering}
    (ho : op.Holds o.swap) : kind.Holds o := by
  cases op with
  | eq =>
      cases h
      cases o with
      | eq => rfl
      | lt => cases ho
      | gt => cases ho
  | gt =>
      cases h
      cases o with
      | lt => exact .inl rfl
      | eq => cases ho
      | gt => cases ho
  | lt =>
      cases h
      cases o with
      | gt => exact .inl rfl
      | eq => cases ho
      | lt => cases ho
  | ge =>
      cases h
      cases o with
      | lt => exact .inl rfl
      | eq => exact .inr ⟨rfl, rfl⟩
      | gt => exact absurd rfl ho
  | le =>
      cases h
      cases o with
      | lt => exact absurd rfl ho
      | eq => exact .inr ⟨rfl, rfl⟩
      | gt => exact .inl rfl
  | ne => cases h
  | imageEq => cases h

theorem columnBound_eq_some {table : Option String} {name : String} {lit : V} {pos : Nat} {w : V} :
    columnBound ev qual tableName columns table name lit = some (pos, w) ↔
      Refers qual tableName table ∧ columns.findIdx? (· = name) = some pos ∧ ev.coerceLiteral lit name = .ok w := by
  unfold columnBound
  split
  · rename_i href
    simp only [href, true_and, Option.bind_eq_bind, Option.bind_eq_some_iff, Option.some.injEq, Prod.mk.injEq]
    constructor
    · rintro ⟨p, hp, x, hx, rfl, rfl⟩
      cases hc : ev.coerceLiteral lit name with
      | error e =>
          rw [hc] at hx
          cases hx
      | ok v =>
          rw [hc] at hx
          cases hx
          exact ⟨hp, rfl⟩
    · rintro ⟨hp, hc⟩
      exact ⟨pos, hp, w, by rw [hc]; rfl, rfl, rfl⟩
  · rename_i href
    simp [href]

section

variable (hl : LawfulOn (fun _ => True) (KeyOrder.keyCmp V)) (hev : ev.Agrees qual tableName columns)
include hl hev

theorem fromCmp_holds {op : CmpOp} {left right : Operand V E} {bounds : List (ColBound V)}
    (h : fromCmp ev qual tableName columns op left right = some bounds)
    (htrue : evalCond ev values (.cmp op left right) = .ok (some true)) : ∀ b ∈ bounds, b.Holds values := by
  obtain ⟨va, hva, htrue⟩ := Loops.bind_eq_ok htrue
  obtain ⟨vb, hvb, hcmp⟩ := Loops.bind_eq_ok htrue
  unfold fromCmp at h
  split at h
  · rename_i table name lit
    obtain ⟨⟨pos, w⟩, hcol, h⟩ := Option.bind_eq_some_iff.1 h
    obtain ⟨kind, hkind, h⟩ := Option.bind_eq_some_iff.1 h
    cases h
    obtain ⟨href, hpos, hlit⟩ := columnBound_eq_some.1 hcol
    cases hvb
    rintro b hb
    obtain rfl := List.mem_singleton.1 hb
    exact ⟨va, hev.column _ _ _ href hpos _ _ hva, boundKind_left hkind (hev.left _ _ _ _ _ hlit hcmp)⟩
  · rename_i lit table name
    obtain ⟨⟨pos, w⟩, hcol, h⟩ := Option.bind_eq_some_iff.1 h
    obtain ⟨kind, hkind, h⟩ := Option.bind_eq_some_iff.1 h
    cases h
    obtain ⟨href, hpos, hlit⟩ := columnBound_eq_some.1 hcol
    cases hva
    rintro b hb
    obtain rfl := List.mem_singleton.1 hb
    refine ⟨vb, hev.column _ _ _ href hpos _ _ hvb, boundKind_right hkind ?_⟩
    have hright := hev.right _ _ _ _ _ hlit hcmp
    unfold keyOrd at hright ⊢
    rwa [hl.swap trivial trivial] at hright
  · cases h

omit hl in
theorem between_holds {expr low high : Operand V E} {neg : Bool} {bounds : List (ColBound V)}
    (h : conjunctBounds ev qual tableName columns (.between expr low high neg) = some bounds)
    (htrue : evalCond ev values (.between expr low high neg) = .ok (some true)) : ∀ b ∈ bounds, b.Holds values := by
  obtain ⟨v, hv, htrue⟩ := Loops.bind_eq_ok htrue
  obtain ⟨lo, hlo, htrue⟩ := Loops.bind_eq_ok htrue
  obtain ⟨hi, hhi, hbetween⟩ := Loops.bind_eq_ok htrue
  unfold conjunctBounds at h
  cases neg with
  | true => cases h
  | false =>
      simp only [Bool.false_eq_true, if_false] at h
      split at h
      · rename_i table name lo' hi'
        obtain ⟨⟨pos, wlo⟩, hcol, h⟩ := Option.bind_eq_some_iff.1 h
        obtain ⟨⟨pos', whi⟩, hcol', h⟩ := Option.bind_eq_some_iff.1 h
        cases h
        obtain ⟨href, hpos, hlit⟩ := columnBound_eq_some.1 hcol
        obtain ⟨-, -, hlit'⟩ := columnBound_eq_some.1 hcol'
        cases hlo
        cases hhi
        unfold evalBetween at hbetween
        split at hbetween
        · cases hbetween
        · obtain ⟨ge, hge, hbetween⟩ := Loops.bind_eq_ok hbetween
          obtain ⟨le, hle, hboth⟩ := Loops.bind_eq_ok hbetween
          obtain ⟨rfl, rfl⟩ : ge = some true ∧ le = some true := by
            rcases ge with _ | _ | _ <;> rcases le with _ | _ | _ <;> simp_all
          have hvalue := hev.column _ _ _ href hpos _ _ hv
          refine List.forall_mem_cons.2 ⟨⟨v, hvalue, ?_⟩, List.forall_mem_singleton.2 ⟨v, hvalue, ?_⟩⟩
          · exact @boundKind_left .ge _ rfl _ (hev.left _ _ _ _ _ hlit hge)
          · exact @boundKind_left .le _ rfl _ (hev.left _ _ _ _ _ hlit' hle)
      · cases h

theorem conjunctBounds_hold {w : Cond V E} {bounds : List (ColBound V)}
    (h : conjunctBounds ev qual tableName columns w = some bounds) (htrue : evalCond ev values w = .ok (some true)) :
    ∀ b ∈ bounds, b.Holds values := by
  cases w with
  | cmp op left right => exact fromCmp_holds hl hev h htrue
  | between expr low high neg => exact between_holds hev h htrue
  | and a b => cases h
  | other e => cases h

end

theorem evalAndVals_eq_true {a b : Option Bool} : evalAndVals a b = some true ↔ a = some true ∧ b = some true := by
  rcases a with _ | _ | _ <;> rcases b with _ | _ | _ <;> simp [evalAndVals]

/-- A true conjunction has true conjuncts. -/
theorem splitConjuncts_true {w : Cond V E} (htrue : evalCond ev values w = .ok (some true)) :
    ∀ c ∈ splitConjuncts w, evalCond ev values c = .ok (some true) := by
  induction w with
  | and a b iha ihb =>
      obtain ⟨va, hva, htrue⟩ := Loops.bind_eq_ok htrue
      obtain ⟨vb, hvb, hand⟩ := Loops.bind_eq_ok htrue
      obtain ⟨rfl, rfl⟩ := evalAndVals_eq_true.1 (Except.ok.inj hand)
      intro c hc
      rcases List.mem_append.1 hc with hc | hc
      · exact ihb hvb c hc
      · exact iha hva c hc
  | _ =>
      intro c hc
      rw [List.mem_singleton.1 hc]
      exact htrue

/-- The bounds of a condition hold where it is true. -/
theorem colBounds_hold (hl : LawfulOn (fun _ => True) (KeyOrder.keyCmp V)) (hev : ev.Agrees qual tableName columns)
    {w : Cond V E} (htrue : evalCond ev values w = .ok (some true)) :
    ∀ b ∈ colBounds ev qual tableName columns w, b.Holds values := by
  intro b hb
  obtain ⟨c, hc, hb⟩ := List.mem_flatMap.1 hb
  cases hbounds : conjunctBounds ev qual tableName columns c with
  | none =>
      rw [hbounds] at hb
      cases hb
  | some bounds =>
      rw [hbounds] at hb
      exact conjunctBounds_hold hl hev hbounds (splitConjuncts_true htrue c hc) b hb

end

/-! ## The keys of the rows -/

section

variable {bounds : List (ColBound V)} {values : List V}

theorem startsWith_eqPrefix (h : ∀ b ∈ bounds, b.Holds values) (cols : List Nat) :
    startsWith (partCmp (V := V)) ((eqPrefix bounds cols).map fun v => some (SqlValue.key v)) (rowKey cols values) = true := by
  induction cols with
  | nil => rfl
  | cons c cols ih =>
      unfold eqPrefix
      cases hfind : bounds.find? fun b => b.pos = c ∧ b.kind = .eq with
      | none => rfl
      | some b =>
          obtain ⟨hpos, hkind⟩ : b.pos = c ∧ b.kind = .eq := by simpa using List.find?_some hfind
          obtain ⟨v, hv, hholds⟩ := h b (List.mem_of_find?_eq_some hfind)
          rw [hpos] at hv
          rw [hkind] at hholds
          have hpart : partCmp (V := V) (values[c]?.map SqlValue.key) (some (SqlValue.key b.value)) = .eq := by
            rw [hv]
            exact hholds
          show (decide (partCmp (V := V) (values[c]?.map SqlValue.key) (some (SqlValue.key b.value)) = .eq) &&
            startsWith (partCmp (V := V)) ((eqPrefix bounds cols).map fun v => some (SqlValue.key v)) (rowKey cols values)) = true
          rw [hpart, ih]
          rfl

theorem aboveLo_loBound (h : ∀ b ∈ bounds, b.Holds values) {c : Nat} {v : V} (hv : values[c]? = some v) :
    aboveLo (partCmp (V := V)) ((loBound bounds c).map fun side => (some (SqlValue.key side.1), side.2))
      (some (SqlValue.key v)) = true := by
  cases hlo : loBound bounds c with
  | none => rfl
  | some side =>
      obtain ⟨b, hb, hside⟩ := List.exists_of_findSome?_eq_some hlo
      obtain ⟨w, hw, hholds⟩ := h b hb
      split at hside
      · rename_i inclusive hkind
        split at hside
        · rename_i hpos
          cases hside
          rw [hpos, hv] at hw
          cases hw
          rw [hkind] at hholds
          exact aboveLo_some.2 hholds
        · cases hside
      · cases hside

theorem belowHi_hiBound (h : ∀ b ∈ bounds, b.Holds values) {c : Nat} {v : V} (hv : values[c]? = some v) :
    belowHi (partCmp (V := V)) ((hiBound bounds c).map fun side => (some (SqlValue.key side.1), side.2))
      (some (SqlValue.key v)) = true := by
  cases hhi : hiBound bounds c with
  | none => rfl
  | some side =>
      obtain ⟨b, hb, hside⟩ := List.exists_of_findSome?_eq_some hhi
      obtain ⟨w, hw, hholds⟩ := h b hb
      split at hside
      · rename_i inclusive hkind
        split at hside
        · rename_i hpos
          cases hside
          rw [hpos, hv] at hw
          cases hw
          rw [hkind] at hholds
          exact belowHi_some.2 hholds
        · cases hside
      · cases hside

theorem holds_of_loBound {c : Nat} {side : V × Bool} (h : ∀ b ∈ bounds, b.Holds values)
    (hside : loBound bounds c = some side ∨ hiBound bounds c = some side) : ∃ v, values[c]? = some v := by
  rcases hside with hside | hside
  all_goals
    obtain ⟨b, hb, hside⟩ := List.exists_of_findSome?_eq_some hside
    obtain ⟨v, hv, -⟩ := h b hb
    split at hside
    · split at hside
      · rename_i hpos
        exact ⟨v, hpos ▸ hv⟩
      · cases hside
    · cases hside

theorem hasRange_keyBounds (b : Bounds V) : (keyBounds b).hasRange = b.hasRange := by
  unfold Bounds.hasRange keyBounds
  rw [Option.isSome_map, Option.isSome_map]

theorem length_eqPrefix_lt {cols : List Nat} (h : (indexBounds bounds cols).hasRange = true) :
    ∃ c, cols[(eqPrefix bounds cols).length]? = some c ∧
      ((indexBounds bounds cols).lo = loBound bounds c ∧ (indexBounds bounds cols).hi = hiBound bounds c) := by
  cases hc : cols[(eqPrefix bounds cols).length]? with
  | none => simp [Bounds.hasRange, indexBounds, hc] at h
  | some c => exact ⟨c, rfl, by simp [indexBounds, hc]⟩

/-- The keys of the rows on which all bounds hold are in the range of the scan. -/
theorem step_indexBounds (h : ∀ b ∈ bounds, b.Holds values) (cols : List Nat) :
    (keyBounds (indexBounds bounds cols)).step (partCmp (V := V)) (rowKey cols values) = .take := by
  refine Bounds.step_eq_take.2 ⟨startsWith_eqPrefix h cols, fun hrange => ?_⟩
  rw [hasRange_keyBounds] at hrange
  obtain ⟨c, hc, hlo, hhi⟩ := length_eqPrefix_lt hrange
  obtain ⟨v, hv⟩ : ∃ v, values[c]? = some v := by
    unfold Bounds.hasRange at hrange
    rw [hlo, hhi, Bool.or_eq_true] at hrange
    rcases hrange with hsome | hsome
    · obtain ⟨side, hside⟩ := Option.isSome_iff_exists.1 hsome
      exact holds_of_loBound h (.inl hside)
    · obtain ⟨side, hside⟩ := Option.isSome_iff_exists.1 hsome
      exact holds_of_loBound h (.inr hside)
  refine ⟨some (SqlValue.key v), ?_, ?_, ?_⟩
  · have hlen : (keyBounds (indexBounds bounds cols)).parts.length = (eqPrefix bounds cols).length := List.length_map _
    rw [hlen, rowKey, List.getElem?_map, hc, Option.map_some, hv, Option.map_some]
  · unfold keyBounds
    rw [hlo]
    exact aboveLo_loBound h hv
  · unfold keyBounds
    rw [hhi]
    exact belowHi_hiBound h hv

end

/-! ## The planner -/

section

variable {bounds : List (ColBound V)}

omit [KeyOrder V K] in
/-- A chosen index is one of those offered, with the bounds for its columns. -/
theorem bestPath_spec {indexes : List (Index K)} {path : AccessPath V} (h : bestPath bounds indexes = some path) :
    ∃ ix ∈ indexes, ix.defn.plannerUsable = true ∧
      path = .indexScan ix.defn.name (indexBounds bounds ix.defn.cols) := by
  have hfold : ∀ (indexes : List (Index K)) (best : Option (AccessPath V) × Nat × Nat × Bool) (path : AccessPath V),
      (indexes.foldl (betterPath bounds) best).1 = some path → best.1 = some path ∨
        ∃ ix ∈ indexes, ix.defn.plannerUsable = true ∧
          path = .indexScan ix.defn.name (indexBounds bounds ix.defn.cols) := by
    intro indexes
    induction indexes with
    | nil => exact fun best path h => .inl h
    | cons ix indexes ih =>
        intro best path h
        rcases ih (betterPath bounds best ix) path h with hbest | ⟨ix', hix', hpath⟩
        · unfold betterPath at hbest
          dsimp only at hbest
          split at hbest
          · exact .inl hbest
          · rename_i huse
            split at hbest
            · cases hbest
              have husable : ix.defn.plannerUsable = true := by
                cases hu : ix.defn.plannerUsable with
                | true => rfl
                | false => simp [hu] at huse
              exact .inr ⟨ix, List.mem_cons_self, husable, rfl⟩
            · exact .inl hbest
        · exact .inr ⟨ix', List.mem_cons_of_mem ix hix', hpath⟩
  rcases hfold indexes _ path h with hnone | hix
  · cases hnone
  · exact hix

omit [KeyOrder V K] in
theorem planAccessPath_spec {ev : Evaluator V E} {db : Database V K} {t : Table V} {pages : Nat}
    {tableName qual index : String} {w : Cond V E} {snap : Snapshot} {own : Xid} {b : Bounds V}
    (h : planAccessPath ev db t pages tableName qual (some w) snap own = .indexScan index b) :
    ∃ ix ∈ db.visibleIndexesFor tableName snap [own], ix.defn.plannerUsable = true ∧ ix.defn.name = index ∧
      b = indexBounds (colBounds ev qual tableName t.columns w) ix.defn.cols := by
  unfold planAccessPath at h
  dsimp only at h
  split at h
  · cases h
  · split at h
    · rename_i path hbest
      split at h
      · cases h
      · obtain ⟨ix, hix, husable, rfl⟩ := bestPath_spec hbest
        cases h
        exact ⟨ix, hix, husable, rfl, rfl⟩
    · cases h

end

/-! ## The rows that stay -/

/-- The condition is true on the row. -/
def isTrue (ev : Evaluator V E) (w : Cond V E) (r : RowVersion V) : Bool :=
  (evalCond ev r.values w).toOption = some (some true)

section

variable {ev : Evaluator V E} {w : Cond V E}

theorem isTrue_iff {r : RowVersion V} : isTrue ev w r = true ↔ evalCond ev r.values w = .ok (some true) := by
  unfold isTrue
  cases evalCond ev r.values w with
  | error e => simp [Except.toOption]
  | ok o => simp [Except.toOption]

/-- Where no row raises an error, the rows stay on which the condition is true. -/
theorem applyWhere_of_ok {rows : List (RowVersion V)} (h : ∀ r ∈ rows, ∃ o, evalCond ev r.values w = .ok o) :
    applyWhere ev w rows = .ok (rows.filter (isTrue ev w)) := by
  induction rows with
  | nil => rfl
  | cons row rows ih =>
      obtain ⟨keep, hkeep⟩ := h row List.mem_cons_self
      have hrest := ih fun r hr => h r (List.mem_cons_of_mem row hr)
      have hiff : isTrue ev w row = decide (keep = some true) := by
        unfold isTrue
        rw [hkeep]
        simp [Except.toOption]
      unfold applyWhere
      rw [hkeep, hrest, List.filter_cons, hiff]
      simp only [decide_eq_true_eq]
      rfl

theorem ok_of_applyWhere {rows out : List (RowVersion V)} (h : applyWhere ev w rows = .ok out) :
    ∀ r ∈ rows, ∃ o, evalCond ev r.values w = .ok o := by
  induction rows generalizing out with
  | nil => exact fun r hr => absurd hr List.not_mem_nil
  | cons row rows ih =>
      obtain ⟨keep, hkeep, h⟩ := Loops.bind_eq_ok h
      obtain ⟨rest, hrest, -⟩ := Loops.bind_eq_ok h
      exact List.forall_mem_cons.2 ⟨⟨keep, hkeep⟩, ih hrest⟩

end

/-! ## The entries of an index -/

/-- The entries of a tree, in the order of their keys. -/
structure Lists (entries : List (IndexKey K × List RowId)) (tree : IndexKey K → List RowId) : Prop where
  ascending : Ascending (partCmp (V := V)) entries
  mem : ∀ key ids, (key, ids) ∈ entries ↔ tree key = ids ∧ ids ≠ []

section

variable [DecidableEq K] {db : Database V K} {table : String} {pos : Nat} {t : Table V} {ix : Index K}
variable {entries : List (IndexKey K × List RowId)} {bounds : List (ColBound V)}
variable (hl : LawfulOn (fun _ => True) (KeyOrder.keyCmp V))
variable (hexact : Postings.Exact ix.keyFor (db.Stores table) ix.tree) (hlists : Lists (V := V) entries ix.tree)

omit [DecidableEq K] in
include hl in
theorem lawful_partCmp : LawfulOn (fun _ => True) (partCmp (V := V)) :=
  ⟨fun _ => hl.noneFirst.refl fun _ _ => trivial,
    fun _ _ => hl.noneFirst.swap (fun _ _ => trivial) fun _ _ => trivial,
    fun _ _ _ => hl.noneFirst.consistent (fun _ _ => trivial) (fun _ _ => trivial) fun _ _ => trivial⟩

omit [DecidableEq K] in
include hexact hlists in
/-- Each id stands under the key of its version. -/
theorem mem_ids {key : IndexKey K} {ids : List RowId} {id : RowId} (hmem : (key, ids) ∈ entries) :
    id ∈ ids ↔ ∃ values, db.Stores table id values ∧ ix.keyFor values = key := by
  obtain ⟨rfl, -⟩ := (hlists.mem key ids).1 hmem
  exact hexact.mem key id

omit [DecidableEq K] in
include hl hexact hlists in
/-- An index scan reads the entries with a key in the range. -/
theorem indexScanIds_perm : (indexScanIds entries (indexBounds bounds ix.defn.cols)).Perm
    ((entries.filter fun e => (keyBounds (indexBounds bounds ix.defn.cols)).step (partCmp (V := V)) e.1 = .take).flatMap
      Prod.snd) := by
  have hlen : ∀ e ∈ entries, (keyBounds (indexBounds bounds ix.defn.cols)).hasRange = true →
      (keyBounds (indexBounds bounds ix.defn.cols)).parts.length < e.1.length := by
    intro e he hrange
    rw [hasRange_keyBounds] at hrange
    obtain ⟨c, hc, -⟩ := length_eqPrefix_lt hrange
    obtain ⟨id, hid⟩ := List.exists_mem_of_ne_nil _ ((hlists.mem e.1 e.2).1 he).2
    obtain ⟨values, -, hkey⟩ := (mem_ids hexact hlists he).1 hid
    rw [← hkey]
    have hlt := (List.getElem?_eq_some_iff.1 hc).1
    simpa [keyBounds, indexBounds, Index.keyFor, rowKey] using hlt
  rw [← Bounds.find_eq_filter (lawful_partCmp hl) hlists.ascending hlen]
  unfold indexScanIds
  dsimp only
  split
  · exact List.mergeSort_perm _ _
  · exact .refl _

omit [DecidableEq K] in
include hl hexact hlists in
/-- It gives the ids of the stored versions with such a key. -/
theorem mem_indexScanIds {id : RowId} :
    id ∈ indexScanIds entries (indexBounds bounds ix.defn.cols) ↔ ∃ values, db.Stores table id values ∧
      (keyBounds (indexBounds bounds ix.defn.cols)).step (partCmp (V := V)) (ix.keyFor values) = .take := by
  rw [(indexScanIds_perm hl hexact hlists).mem_iff, List.mem_flatMap]
  constructor
  · rintro ⟨e, he, hid⟩
    obtain ⟨he, htake⟩ := List.mem_filter.1 he
    obtain ⟨values, hstored, hkey⟩ := (mem_ids hexact hlists he).1 hid
    exact ⟨values, hstored, hkey ▸ of_decide_eq_true htake⟩
  · rintro ⟨values, hstored, htake⟩
    have hid : id ∈ ix.tree (ix.keyFor values) := (hexact.mem _ id).2 ⟨values, hstored, rfl⟩
    have he : (ix.keyFor values, ix.tree (ix.keyFor values)) ∈ entries :=
      (hlists.mem _ _).2 ⟨rfl, List.ne_nil_of_mem hid⟩
    exact ⟨_, List.mem_filter.2 ⟨he, decide_eq_true htake⟩, hid⟩

omit [DecidableEq K] in
include hl hexact hlists in
/-- It gives no id twice. -/
theorem nodup_indexScanIds (hok : db.RowsOk) : (indexScanIds entries (indexBounds bounds ix.defn.cols)).Nodup := by
  refine (indexScanIds_perm hl hexact hlists).nodup_iff.2 (List.nodup_flatMap.2 ⟨fun e he => ?_, ?_⟩)
  · obtain ⟨hids, -⟩ := (hlists.mem e.1 e.2).1 (List.mem_filter.1 he).1
    rw [← hids]
    exact hexact.nodup _
  · refine (hlists.ascending.filter _).imp_of_mem fun {e e'} he he' hlt id hid hid' => ?_
    obtain ⟨values, hstored, hkey⟩ := (mem_ids hexact hlists (List.mem_filter.1 he).1).1 hid
    obtain ⟨values', hstored', hkey'⟩ := (mem_ids hexact hlists (List.mem_filter.1 he').1).1 hid'
    obtain rfl := hok.stores_unique hstored hstored'
    have hself : lexCmp (partCmp (V := V)) e.1 e.1 = .eq :=
      (LawfulOn.lex fun _ => lawful_partCmp hl).refl (placed_const fun _ _ => trivial)
    rw [← hkey', hkey, hself] at hlt
    cases hlt

variable {ev : Evaluator V E} {qual : String} {w : Cond V E} {snap : Snapshot} {owns : List Xid}

omit [DecidableEq K] in
include hl hexact hlists in
/-- The rows that stay are those of the table that stay. -/
theorem indexScan_perm (hok : db.RowsOk) (ht : db.tableAt (table, pos) = some t)
    (hev : ev.Agrees qual table t.columns) :
    (((indexScanIds entries (indexBounds (colBounds ev qual table t.columns w) ix.defn.cols)).filterMap fun id =>
        (t.row? id).filter fun r => RowVisible r snap owns).filter (isTrue ev w)).Perm
      ((t.rows.filter fun r => RowVisible r snap owns).filter (isTrue ev w)) := by
  have hsynced := hok.synced _ t ht
  have hsome : ∀ {id : RowId} {r : RowVersion V}, ((t.row? id).filter fun r => RowVisible r snap owns) = some r ↔
      (r ∈ t.rows ∧ r.id = id) ∧ RowVisible r snap owns := fun {id r} => by
    rw [Option.filter_eq_some_iff, hsynced.row?_eq_some, decide_eq_true_eq]
  refine (List.perm_ext_iff_of_nodup ?_ ?_).2 fun r => ?_
  · refine (List.Nodup.filterMap (fun id id' r hr hr' => ?_) (nodup_indexScanIds hl hexact hlists hok)).filter _
    rw [← (hsome.1 hr).1.2, (hsome.1 hr').1.2]
  · exact (hsynced.nodup.of_map _).filter _ |>.filter _
  · simp only [List.mem_filter, List.mem_filterMap, decide_eq_true_eq]
    constructor
    · rintro ⟨⟨id, -, hr⟩, htrue⟩
      exact ⟨⟨(hsome.1 hr).1.1, (hsome.1 hr).2⟩, htrue⟩
    · rintro ⟨⟨hr, hvisible⟩, htrue⟩
      refine ⟨⟨r.id, (mem_indexScanIds hl hexact hlists).2 ⟨r.values, ⟨pos, r, hok.rowAt_of_mem ht hr, rfl⟩, ?_⟩,
        hsome.2 ⟨⟨hr, rfl⟩, hvisible⟩⟩, htrue⟩
      exact step_indexBounds (colBounds_hold hl hev (isTrue_iff.1 htrue)) ix.defn.cols

omit [DecidableEq K] in
include hl in
theorem lexCmp_partCmp_eq (hcanonical : ∀ a b, KeyOrder.keyCmp V a b = .eq → a = b) {key key' : IndexKey K} :
    lexCmp (partCmp (V := V)) key key' = .eq ↔ key = key' := by
  have hpart : ∀ {a b : Option K}, partCmp (V := V) a b = .eq ↔ a = b := by
    intro a b
    constructor
    · intro h
      cases a with
      | none =>
          cases b with
          | none => rfl
          | some b => cases h
      | some a =>
          cases b with
          | none => cases h
          | some b => rw [hcanonical a b h]
    · rintro rfl
      exact (lawful_partCmp hl).refl trivial
  have hall : ∀ key : IndexKey K, Placed (fun _ _ => True) key := fun key => placed_const fun _ _ => trivial
  rw [lexCmp_eq_iff (R := fun a b => a = b) (fun _ _ _ _ _ => hpart) (hall key) (hall key'), List.forall₂_eq_eq_eq]

variable (V db table ix) in
/-- The keys of the stored versions, each once, in their order. -/
def sortedKeys : List (IndexKey K) :=
  (((db.tables.lookup table).getD []).flatMap fun t => t.rows.map fun r => ix.keyFor r.values).dedup.mergeSort
    fun a b => lexCmp (partCmp (V := V)) a b ≠ .gt

include hl in
theorem pairwise_sortedKeys (hcanonical : ∀ a b, KeyOrder.keyCmp V a b = .eq → a = b) :
    (sortedKeys V db table ix).Pairwise fun a b => lexCmp (partCmp (V := V)) a b = .lt := by
  have hlex : LawfulOn (Placed fun _ _ => True) (lexCmp (partCmp (V := V))) := LawfulOn.lex fun _ => lawful_partCmp hl
  have hall : ∀ key : IndexKey K, Placed (fun _ _ => True) key := fun key => placed_const fun _ _ => trivial
  have hnodup : (sortedKeys V db table ix).Nodup := (List.mergeSort_perm _ _).nodup_iff.2 (List.nodup_dedup _)
  have hle : (sortedKeys V db table ix).Pairwise fun a b => decide (lexCmp (partCmp (V := V)) a b ≠ .gt) = true := by
    refine List.pairwise_mergeSort (fun a b c hab hbc => ?_) (fun a b => ?_) _
    · exact decide_eq_true ((hlex.consistent (hall a) (hall b) (hall c)).le_trans (of_decide_eq_true hab)
        (of_decide_eq_true hbc))
    · rw [Bool.or_eq_true, decide_eq_true_eq, decide_eq_true_eq, hlex.swap (hall a) (hall b)]
      cases lexCmp (partCmp (V := V)) a b <;> simp
  -- no key comes twice, so none is equal to a later one
  refine (hnodup.and hle).imp fun {a b} hab => ?_
  cases hcmp : lexCmp (partCmp (V := V)) a b with
  | lt => rfl
  | eq => exact absurd ((lexCmp_partCmp_eq hl hcanonical).1 hcmp) hab.1
  | gt => exact absurd hcmp (of_decide_eq_true hab.2)

include hexact in
/-- The tree has entries under these keys, and under no others. -/
theorem mem_sortedKeys (hok : db.RowsOk) {key : IndexKey K} : key ∈ sortedKeys V db table ix ↔ ix.tree key ≠ [] := by
  unfold sortedKeys
  rw [List.mem_mergeSort, List.mem_dedup, List.mem_flatMap]
  constructor
  · rintro ⟨t, ht, hkey⟩
    obtain ⟨r, hr, rfl⟩ := List.mem_map.1 hkey
    obtain ⟨pos, hpos⟩ := List.mem_iff_getElem?.1 ht
    have htable : db.tableAt (table, pos) = some t := by
      cases hlook : db.tables.lookup table with
      | none => simp [hlook] at hpos
      | some ts => simpa [Database.tableAt, hlook] using hpos
    exact List.ne_nil_of_mem ((hexact.mem _ r.id).2 ⟨r.values, ⟨pos, r, hok.rowAt_of_mem htable hr, rfl⟩, rfl⟩)
  · intro hne
    obtain ⟨id, hid⟩ := List.exists_mem_of_ne_nil _ hne
    obtain ⟨_, ⟨pos, r, hr, rfl⟩, rfl⟩ := (hexact.mem key id).1 hid
    obtain ⟨t, ht, hrow⟩ := Database.rowAt_eq_some.1 hr
    refine ⟨t, ?_, List.mem_map_of_mem ((hok.synced _ t ht).row?_eq_some.1 hrow).1⟩
    obtain ⟨ts, hlook, hget⟩ := Option.bind_eq_some_iff.1 ht
    rw [show db.tables.lookup table = some ts from hlook]
    exact List.mem_of_getElem? hget

include hl hexact in
/-- A tree of finitely many versions has such a list. -/
theorem exists_lists (hok : db.RowsOk) (hcanonical : ∀ a b, KeyOrder.keyCmp V a b = .eq → a = b) :
    ∃ entries, Lists (V := V) entries ix.tree := by
  refine ⟨(sortedKeys V db table ix).map fun key => (key, ix.tree key), ?_, fun key ids => ?_⟩
  · exact List.pairwise_map.2 (pairwise_sortedKeys hl hcanonical)
  · rw [List.mem_map]
    constructor
    · rintro ⟨key', hkey', heq⟩
      cases heq
      exact ⟨rfl, (mem_sortedKeys hexact hok).1 hkey'⟩
    · rintro ⟨rfl, hne⟩
      exact ⟨key, (mem_sortedKeys hexact hok).2 hne, rfl⟩

end

end Access
