-- SUMMARY: The range operators agree with the set operations, in any order or where elements tell bounds apart.
import Rustgres.Lib.Loops
import Rustgres.Ranges.Sets

/-!
# Range Operators Are Set Operations

A canonical range is its bounds, and the operators ask about bounds only: `(0,1)` of microseconds is no empty
range though it has no points. So what is asked of ranges is asked of their points where an element lies between
any two different bounds, as in a dense order without ends, or between integers.
-/

namespace Ranges

open Cuts
open Encoding (RangeElem RangeVal MultiVal)

variable {α : Type} [LinearOrder α]
variable {elem : RangeElem} {name : Option String} {a b : RangeVal α}

/-! ## Bounds told apart -/

/-- Between any two different bounds of the two ranges lies an element. -/
def ToldApart (a b : RangeVal α) : Prop := Separated (ends (spans a ++ spans b) : Set (Cut α))

theorem ToldApart.pair (h : ToldApart a b) (hae : a.empty = false) (hbe : b.empty = false) :
    SeparatedPair (span a) (span b) := by
  unfold ToldApart at h
  rw [spans_nonempty hae, spans_nonempty hbe] at h
  apply Separated.mono h
  rintro c (rfl | rfl | rfl | rfl)
  · exact fst_mem_ends (List.mem_append_left _ (List.mem_singleton_self _))
  · exact snd_mem_ends (List.mem_append_left _ (List.mem_singleton_self _))
  · exact fst_mem_ends (List.mem_append_right _ (List.mem_singleton_self _))
  · exact snd_mem_ends (List.mem_append_right _ (List.mem_singleton_self _))

theorem ToldApart.symm (h : ToldApart a b) : ToldApart b a := by
  unfold ToldApart at h ⊢
  rw [ends_append, Finset.union_comm, ← ends_append]
  exact h

theorem toldApart_of_dense [Nonempty α] [DenselyOrdered α] [NoMinOrder α] [NoMaxOrder α]
    (a b : RangeVal α) : ToldApart a b := separated_of_dense _

/-- Of a discrete range, each bound is infinite or just below an element. -/
theorem ends_discrete {r : RangeVal α} (hr : Canonical elem name r) (hdisc : discrete elem = true) :
    ∀ c ∈ ends (spans r), c = ⊥ ∨ c = ⊤ ∨ ∃ x, c = below x := by
  intro c hc
  cases hre : r.empty with
  | true =>
      rw [spans_empty hre] at hc
      cases List.mem_toFinset.1 hc
  | false =>
      have hfits := hr.fits' hre
      rw [spans_nonempty hre] at hc
      have hmem : c = (span r).1 ∨ c = (span r).2 := by simpa [ends] using hc
      rcases hmem with rfl | rfl
      · unfold span loCut
        cases hlo : r.lo with
        | none => exact .inl rfl
        | some l =>
            right; right
            rw [hfits.discreteLo hdisc (by rw [hlo]; exact Option.some_ne_none l)]
            exact ⟨l, rfl⟩
      · unfold span hiCut
        cases hhi : r.hi with
        | none => exact .inr (.inl rfl)
        | some u =>
            right; right
            rw [hfits.discreteHi hdisc]
            exact ⟨u, rfl⟩

/-- Bounds of discrete ranges are told apart if there is no first element. -/
theorem toldApart_of_discrete [Nonempty α] [NoMinOrder α] (ha : Canonical elem name a)
    (hb : Canonical elem name b) (hdisc : discrete elem = true) : ToldApart a b := by
  apply separated_of_below
  intro c hc
  rw [Finset.mem_coe, ends_append, Finset.mem_union] at hc
  rcases hc with hc | hc
  · exact ends_discrete ha hdisc c hc
  · exact ends_discrete hb hdisc c hc

/-! ## What bounds say, and what points say -/

theorem contains_iff_cover (hb : Canonical elem name b) :
    rangeContainsRange a b = true ↔ Spans.cover (spans b) ⊆ Spans.cover (spans a) := by
  cases hbe : b.empty with
  | true =>
      unfold rangeContainsRange
      rw [if_pos hbe, spans_empty hbe, Spans.cover_nil]
      exact ⟨fun _ => Set.empty_subset _, fun _ => rfl⟩
  | false =>
      have hblt := hb.lt hbe
      cases hae : a.empty with
      | true =>
          unfold rangeContainsRange
          rw [hbe, if_neg Bool.false_ne_true, if_pos hae, spans_empty hae, spans_nonempty hbe,
            Spans.cover_nil, Spans.cover_singleton, Set.subset_empty_iff, Set.Ico_eq_empty_iff]
          exact ⟨nofun, fun h => absurd hblt h⟩
      | false =>
          rw [rangeContainsRange_iff hae hbe, spans_nonempty hae, spans_nonempty hbe, Spans.cover_singleton,
            Spans.cover_singleton, Set.Ico_subset_Ico_iff hblt]

theorem spaced_spans (ha : Canonical elem name a) : Spans.Spaced (spans a) := by
  cases hae : a.empty with
  | true =>
      rw [spans_empty hae]
      exact Spans.Spaced.nil
  | false =>
      rw [spans_nonempty hae]
      exact Spans.Spaced.nil.snoc (ha.lt hae) nofun

theorem loCut_inj {lo lo' : Option α} {loInc loInc' : Bool} (h : loCut lo loInc = loCut lo' loInc')
    (hlo : lo = none → loInc = false) (hlo' : lo' = none → loInc' = false) : lo = lo' ∧ loInc = loInc' := by
  unfold loCut at h
  cases lo with
  | none =>
      cases lo' with
      | none => exact ⟨rfl, (hlo rfl).trans (hlo' rfl).symm⟩
      | some l' => exact absurd h (bot_lt_beside l' _).ne
  | some l =>
      cases lo' with
      | none => exact absurd h (bot_lt_beside l _).ne'
      | some l' =>
          obtain ⟨rfl, hinc⟩ := beside_inj.1 h
          exact ⟨rfl, Bool.not_inj hinc⟩

theorem hiCut_inj {hi hi' : Option α} {hiInc hiInc' : Bool} (h : hiCut hi hiInc = hiCut hi' hiInc')
    (hhi : hi = none → hiInc = false) (hhi' : hi' = none → hiInc' = false) : hi = hi' ∧ hiInc = hiInc' := by
  unfold hiCut at h
  cases hi with
  | none =>
      cases hi' with
      | none => exact ⟨rfl, (hhi rfl).trans (hhi' rfl).symm⟩
      | some u' => exact absurd h (beside_lt_top u' _).ne'
  | some u =>
      cases hi' with
      | none => exact absurd h (beside_lt_top u _).ne
      | some u' =>
          obtain ⟨rfl, hinc⟩ := beside_inj.1 h
          exact ⟨rfl, hinc⟩

/-- Canonical ranges of a type with the same span are equal. -/
theorem eq_of_spans (ha : Canonical elem name a) (hb : Canonical elem name b) (h : spans a = spans b) :
    a = b := by
  cases hae : a.empty with
  | true =>
      cases hbe : b.empty with
      | true => rw [ha.empty hae, hb.empty hbe]
      | false =>
          rw [spans_empty hae, spans_nonempty hbe] at h
          cases h
  | false =>
      cases hbe : b.empty with
      | true =>
          rw [spans_nonempty hae, spans_empty hbe] at h
          cases h
      | false =>
          rw [spans_nonempty hae, spans_nonempty hbe] at h
          have hspan : span a = span b := List.singleton_inj.1 h
          have hafits := ha.fits' hae
          have hbfits := hb.fits' hbe
          obtain ⟨hlo, hloInc⟩ := loCut_inj (congrArg Prod.fst hspan) hafits.infiniteLo hbfits.infiniteLo
          obtain ⟨hhi, hhiInc⟩ := hiCut_inj (congrArg Prod.snd hspan) hafits.infiniteHi hbfits.infiniteHi
          have helem := ha.elem_eq.trans hb.elem_eq.symm
          have hname := ha.name_eq.trans hb.name_eq.symm
          have hempty := hae.trans hbe.symm
          obtain ⟨ae, an, aem, al, ali, ah, ahi⟩ := a
          obtain ⟨be, bn, bem, bl, bli, bh, bhi⟩ := b
          cases helem; cases hname; cases hempty; cases hlo; cases hloInc; cases hhi; cases hhiInc
          rfl

/-- Elements tell what is covered. -/
theorem points_subset_iff (h : ToldApart a b) :
    points a ⊆ points b ↔ Spans.cover (spans a) ⊆ Spans.cover (spans b) := by
  rw [points_eq, points_eq]
  exact elements_subset_iff h

theorem points_meet_iff (h : ToldApart a b) :
    (points a ∩ points b).Nonempty ↔ (Spans.cover (spans a) ∩ Spans.cover (spans b)).Nonempty := by
  rw [points_eq, points_eq]
  exact elements_meet_iff h

theorem points_nonempty_iff (ha : Canonical elem name a) (h : ToldApart a b) :
    (points a).Nonempty ↔ a.empty = false := by
  cases hae : a.empty with
  | true =>
      rw [points_empty hae]
      exact ⟨fun hne => absurd hne Set.not_nonempty_empty, nofun⟩
  | false =>
      refine ⟨fun _ => rfl, fun _ => ?_⟩
      have hends : Separated (ends (spans a) : Set (Cut α)) := by
        apply Separated.mono h
        rw [ends_append, Finset.coe_union]
        exact Set.subset_union_left
      rw [spans_nonempty hae] at hends
      rw [points_nonempty hae]
      obtain ⟨x, hx⟩ := hends (span a).1 (fst_mem_ends (List.mem_singleton_self _)) (span a).2
        (snd_mem_ends (List.mem_singleton_self _)) (ha.lt hae)
      exact ⟨x, hx⟩

/-! ## Positions -/

omit [LinearOrder α] in
theorem components_empty (h : a.empty = true) : components (.range a) = [] := if_pos h

omit [LinearOrder α] in
theorem components_nonempty (h : a.empty = false) : components (.range a) = [a] := by
  show (if a.empty = true then [] else [a]) = [a]
  rw [h, if_neg Bool.false_ne_true]

theorem positionPred_empty (st : Steps α) (kind : PositionKind) (h : a.empty = true ∨ b.empty = true) :
    positionPred st kind (.range a) (.range b) = false := by
  unfold positionPred
  rcases h with hae | hbe
  · rw [components_empty hae]
  · rw [components_empty hbe]
    cases components (.range a) <;> rfl

theorem positionPred_nonempty (st : Steps α) (kind : PositionKind) (hae : a.empty = false)
    (hbe : b.empty = false) :
    positionPred st kind (.range a) (.range b) =
      match kind with
      | .before => decide (cmpBounds (hiBnd a) (loBnd b) = .lt)
      | .after => decide (cmpBounds (loBnd a) (hiBnd b) = .gt)
      | .overleft => decide (cmpBounds (hiBnd a) (hiBnd b) ≠ .gt)
      | .overright => decide (cmpBounds (loBnd a) (loBnd b) ≠ .lt)
      | .adjacent => rangeAdjacent st a b := by
  unfold positionPred
  rw [components_nonempty hae, components_nonempty hbe]
  cases kind <;> rfl

/-- Two ranges are adjacent if one ends where the other begins. -/
theorem rangeAdjacent_iff (st : Steps α) (ha : Canonical elem name a) (hb : Canonical elem name b)
    (hae : a.empty = false) (hbe : b.empty = false) :
    rangeAdjacent st a b = true ↔ (span a).2 = (span b).1 ∨ (span b).2 = (span a).1 := by
  have hover := rangeOverlaps_nonempty st ha hb hae hbe
  unfold rangeAdjacent
  rw [hae, hbe, if_neg (by exact Bool.false_ne_true)]
  split
  · rename_i h
    obtain ⟨hab, hba⟩ := hover.1 h
    refine ⟨nofun, fun hor => ?_⟩
    rcases hor with heq | heq
    · exact absurd hba heq.not_gt
    · exact absurd hab heq.not_gt
  · rw [Bool.or_eq_true, boundsMeet_iff, boundsMeet_iff]

/-! ## Agreement -/

/-- What holds in any order. -/
structure PointsAgree (st : Steps α) (elem : RangeElem) (name : Option String) (a b : RangeVal α) :
    Prop where
  containsElem : ∀ x, rangeContainsElem a x = true ↔ x ∈ points a
  intersection : Canonical elem name (rangeIntersect st a b) ∧
    points (rangeIntersect st a b) = points a ∩ points b
  union : ∀ r, rangeUnion st a b = .ok r → Canonical elem name r ∧ points r = points a ∪ points b
  difference : ∀ r, rangeMinus st a b = .ok r → Canonical elem name r ∧ points r = points a \ points b
  merge : Canonical elem name (rangeMerge st a b) ∧ points a ∪ points b ⊆ points (rangeMerge st a b)

/-- What holds where elements tell the bounds apart. -/
structure SetsAgree (st : Steps α) (elem : RangeElem) (name : Option String) (a b : RangeVal α) : Prop where
  contains : rangeContainsRange a b = true ↔ points b ⊆ points a
  overlaps : rangeOverlaps st a b = true ↔ (points a ∩ points b).Nonempty
  adjacent : positionPred st .adjacent (.range a) (.range b) = true ↔
    (points a).Nonempty ∧ (points b).Nonempty ∧
      (Follows (points a) (points b) ∨ Follows (points b) (points a))
  before : positionPred st .before (.range a) (.range b) = true ↔
    (points a).Nonempty ∧ (points b).Nonempty ∧ ∀ x ∈ points a, ∀ y ∈ points b, x < y
  after : positionPred st .after (.range a) (.range b) = true ↔
    (points a).Nonempty ∧ (points b).Nonempty ∧ ∀ x ∈ points a, ∀ y ∈ points b, y < x
  overleft : positionPred st .overleft (.range a) (.range b) = true ↔
    (points a).Nonempty ∧ (points b).Nonempty ∧ ∀ x ∈ points a, ∃ y ∈ points b, x ≤ y
  overright : positionPred st .overright (.range a) (.range b) = true ↔
    (points a).Nonempty ∧ (points b).Nonempty ∧ ∀ x ∈ points a, ∃ y ∈ points b, y ≤ x
  unionFails : (∃ e, rangeUnion st a b = .error e) ↔
    ∀ r, Canonical elem name r → points r ≠ points a ∪ points b
  differenceFails : (∃ e, rangeMinus st a b = .error e) ↔
    ∀ r, Canonical elem name r → points r ≠ points a \ points b
  mergeLeast : ∀ r, Canonical elem name r → points a ∪ points b ⊆ points r →
    points (rangeMerge st a b) ⊆ points r
  equal : points a = points b → a = b

theorem pointsAgree (st : Steps α) (ha : Canonical elem name a) (hb : Canonical elem name b) :
    PointsAgree st elem name a b := by
  refine ⟨rangeContainsElem_iff a, ⟨canonical_rangeIntersect st ha hb, ?_⟩,
    fun r => rangeUnion_spec st ha hb, fun r => rangeMinus_spec st ha hb, rangeMerge_points st ha hb⟩
  rw [points_eq, cover_rangeIntersect st ha hb, points_eq, points_eq]
  rfl

/-- A position of ranges that are not empty is a position of points. -/
theorem position_iff (st : Steps α) (kind : PositionKind) (ha : Canonical elem name a)
    (hb : Canonical elem name b) (h : ToldApart a b) {P : Prop}
    (hboth : a.empty = false → b.empty = false →
      (positionPred st kind (.range a) (.range b) = true ↔ P)) :
    positionPred st kind (.range a) (.range b) = true ↔ (points a).Nonempty ∧ (points b).Nonempty ∧ P := by
  rw [points_nonempty_iff ha h, points_nonempty_iff hb h.symm]
  cases hae : a.empty with
  | true =>
      rw [positionPred_empty st kind (.inl hae)]
      exact ⟨nofun, fun h => (nomatch h.1)⟩
  | false =>
      cases hbe : b.empty with
      | true =>
          rw [positionPred_empty st kind (.inr hbe)]
          exact ⟨nofun, fun h => (nomatch h.2.1)⟩
      | false =>
          rw [hboth hae hbe]
          exact ⟨fun hP => ⟨rfl, rfl, hP⟩, fun h => h.2.2⟩

/-- Points of ranges have no gap. -/
theorem points_between (r : RangeVal α) {x y z : α} (hx : x ∈ points r) (hz : z ∈ points r) (hxy : x ≤ y)
    (hyz : y ≤ z) : y ∈ points r := by
  have hre := hx.1
  rw [points_nonempty hre] at hx hz ⊢
  exact elements_ordConnected _ hx hz hxy hyz

/-- A point before a gap, one in it and one behind it. -/
theorem exists_gap {p q : Cut α × Cut α} (h : SeparatedPair p q) (hp : p.1 < p.2) (hq : q.1 < q.2)
    (hgap : p.2 < q.1) :
    ∃ x y z, x ∈ elements (Set.Ico p.1 p.2) ∧ z ∈ elements (Set.Ico q.1 q.2) ∧ x < y ∧ y < z ∧
      y ∉ elements (Set.Ico p.1 p.2) ∧ y ∉ elements (Set.Ico q.1 q.2) := by
  obtain ⟨x, hx⟩ := h.first hp
  obtain ⟨z, hz⟩ := h.symm.first hq
  obtain ⟨y, hpy, hyq⟩ := h p.2 (by simp) q.1 (by simp) hgap
  exact ⟨x, y, z, hx, hz, below_lt_below.1 (hx.2.trans_le hpy), below_lt_below.1 (hyq.trans_le hz.1),
    fun hy => absurd hy.2 hpy.not_gt, fun hy => absurd hyq hy.1.not_gt⟩

theorem unionFails_iff (st : Steps α) (ha : Canonical elem name a) (hb : Canonical elem name b)
    (h : ToldApart a b) : (∃ e, rangeUnion st a b = .error e) ↔
      ∀ r, Canonical elem name r → points r ≠ points a ∪ points b := by
  constructor
  · rintro ⟨e, he⟩ r - heq
    have hae : a.empty = false := by
      by_contra hne
      unfold rangeUnion at he
      rw [if_pos (Bool.not_eq_false _ ▸ hne)] at he
      cases he
    have hbe : b.empty = false := by
      by_contra hne
      unfold rangeUnion at he
      rw [hae, if_neg Bool.false_ne_true, if_pos (Bool.not_eq_false _ ▸ hne)] at he
      cases he
    have hpair := h.pair hae hbe
    rw [rangeUnion_of_nonempty st hae hbe ha hb] at he
    rw [points_nonempty hae, points_nonempty hbe] at heq
    have hmem : ∀ x, x ∈ points r ↔ _ := fun x => by rw [heq]
    split at he
    · rename_i hgap
      rcases hgap with hgap | hgap
      · obtain ⟨x, y, z, hx, hz, hxy, hyz, hya, hyb⟩ := exists_gap hpair (ha.lt hae) (hb.lt hbe) hgap
        rcases (hmem y).1 (points_between r ((hmem x).2 (.inl hx)) ((hmem z).2 (.inr hz)) hxy.le hyz.le)
          with hy | hy
        · exact hya hy
        · exact hyb hy
      · obtain ⟨x, y, z, hx, hz, hxy, hyz, hyb, hya⟩ := exists_gap hpair.symm (hb.lt hbe) (ha.lt hae) hgap
        rcases (hmem y).1 (points_between r ((hmem x).2 (.inr hx)) ((hmem z).2 (.inl hz)) hxy.le hyz.le)
          with hy | hy
        · exact hya hy
        · exact hyb hy
    · obtain ⟨r', hr', -⟩ := outerRange_spec st ha hb hae hbe
      rw [hr'] at he
      cases he
  · intro hnone
    cases hres : rangeUnion st a b with
    | error e => exact ⟨e, rfl⟩
    | ok r =>
        obtain ⟨hcanon, hpoints⟩ := rangeUnion_spec st ha hb hres
        exact absurd hpoints (hnone r hcanon)

theorem differenceFails_iff (st : Steps α) (ha : Canonical elem name a) (hb : Canonical elem name b)
    (h : ToldApart a b) : (∃ e, rangeMinus st a b = .error e) ↔
      ∀ r, Canonical elem name r → points r ≠ points a \ points b := by
  constructor
  · rintro ⟨e, he⟩ r - heq
    have htwo : 2 ≤ (rangeMinusMultiInner st a b).length := by
      unfold rangeMinus at he
      split at he
      · cases he
      · cases he
      · rename_i hnil hone
        cases hparts : rangeMinusMultiInner st a b with
        | nil => exact absurd hparts hnil
        | cons r' rest =>
            cases rest with
            | nil => exact absurd hparts (hone r')
            | cons r'' rest => simp
    have hae : a.empty = false := by
      by_contra hne
      unfold rangeMinusMultiInner at htwo
      rw [if_pos (Bool.not_eq_false _ ▸ hne)] at htwo
      simp at htwo
    have hboth : b.empty = false ∧ rangeOverlaps st a b = true := by
      by_contra hnot
      unfold rangeMinusMultiInner at htwo
      rw [hae, if_neg Bool.false_ne_true, if_pos] at htwo
      · simp at htwo
      · rw [Bool.or_eq_true, Bool.not_eq_true']
        by_contra hor
        rw [not_or, Bool.not_eq_true, Bool.not_eq_false] at hor
        exact hnot hor
    obtain ⟨hbe, hover⟩ := hboth
    rw [minusInner_overlapping st ha hb hae hbe hover] at htwo
    have hends : (span a).1 < (span b).1 ∧ (span b).2 < (span a).2 := by
      by_contra hnot
      rw [not_and_or] at hnot
      rcases hnot with hnot | hnot
      · rw [if_neg hnot] at htwo
        split at htwo <;> simp at htwo
      · rw [if_neg hnot] at htwo
        split at htwo <;> simp at htwo
    obtain ⟨hlo, hhi⟩ := hends
    have hpair := h.pair hae hbe
    have hblt := hb.lt hbe
    obtain ⟨x, hx, hxb⟩ := hpair (span a).1 (by simp) (span b).1 (by simp) hlo
    obtain ⟨y, hy⟩ := hpair.symm.first hblt
    obtain ⟨z, hzb, hz⟩ := hpair (span b).2 (by simp) (span a).2 (by simp) hhi
    have hxy : x < y := below_lt_below.1 (hxb.trans_le hy.1)
    have hyz : y < z := below_lt_below.1 (hy.2.trans_le hzb)
    rw [points_nonempty hae, points_nonempty hbe] at heq
    have hmem : ∀ w, w ∈ points r ↔ _ := fun w => by rw [heq]
    have hxr := (hmem x).2 ⟨⟨hx, hxb.trans (hblt.trans hhi)⟩, fun hc => absurd hc.1 hxb.not_ge⟩
    have hzr := (hmem z).2 ⟨⟨(hlo.trans hblt).le.trans hzb, hz⟩, fun hc => absurd hc.2 hzb.not_gt⟩
    exact ((hmem y).1 (points_between r hxr hzr hxy.le hyz.le)).2 hy
  · intro hnone
    cases hres : rangeMinus st a b with
    | error e => exact ⟨e, rfl⟩
    | ok r =>
        obtain ⟨hcanon, hpoints⟩ := rangeMinus_spec st ha hb hres
        exact absurd hpoints (hnone r hcanon)

theorem mergeLeast (st : Steps α) (ha : Canonical elem name a) (hb : Canonical elem name b)
    (h : ToldApart a b) {r : RangeVal α} (hsub : points a ∪ points b ⊆ points r) :
    points (rangeMerge st a b) ⊆ points r := by
  rw [Set.union_subset_iff] at hsub
  obtain ⟨hasub, hbsub⟩ := hsub
  cases hae : a.empty with
  | true =>
      rw [rangeMerge_of_left st hae]
      exact hbsub
  | false =>
      cases hbe : b.empty with
      | true =>
          rw [rangeMerge_of_right st hae hbe]
          exact hasub
      | false =>
          obtain ⟨-, hre, hspan⟩ := rangeMerge_spec st ha hb hae hbe
          obtain ⟨x, hx⟩ := (points_nonempty_iff ha h).2 hae
          obtain ⟨y, hy⟩ := (points_nonempty_iff hb h.symm).2 hbe
          have hxr := hasub hx
          have hyr := hbsub hy
          rw [points_nonempty hae] at hasub hx
          rw [points_nonempty hbe] at hbsub hy
          rw [points_nonempty hre, hspan]
          rintro z ⟨hlo, hhi⟩
          rw [min_le_iff] at hlo
          rw [lt_max_iff] at hhi
          -- It is in one of the two, or between a point of the one and a point of the other.
          rcases hlo with hlo | hlo
          · rcases hhi with hhi | hhi
            · exact hasub ⟨hlo, hhi⟩
            · by_cases hza : below z < (span a).2
              · exact hasub ⟨hlo, hza⟩
              · by_cases hbz : (span b).1 ≤ below z
                · exact hbsub ⟨hbz, hhi⟩
                · rw [not_lt] at hza
                  rw [not_le] at hbz
                  exact points_between r hxr hyr (below_lt_below.1 (hx.2.trans_le hza)).le
                    (below_lt_below.1 (hbz.trans_le hy.1)).le
          · rcases hhi with hhi | hhi
            · by_cases hzb : below z < (span b).2
              · exact hbsub ⟨hlo, hzb⟩
              · by_cases haz : (span a).1 ≤ below z
                · exact hasub ⟨haz, hhi⟩
                · rw [not_lt] at hzb
                  rw [not_le] at haz
                  exact points_between r hyr hxr (below_lt_below.1 (hy.2.trans_le hzb)).le
                    (below_lt_below.1 (haz.trans_le hx.1)).le
            · exact hbsub ⟨hlo, hhi⟩

theorem setsAgree (st : Steps α) (ha : Canonical elem name a) (hb : Canonical elem name b)
    (h : ToldApart a b) : SetsAgree st elem name a b where
  contains := by
    rw [contains_iff_cover hb, points_subset_iff h.symm]
  overlaps := by
    rw [rangeOverlaps_iff st ha hb, points_meet_iff h]
  adjacent := by
    apply position_iff st .adjacent ha hb h
    intro hae hbe
    have hpair := h.pair hae hbe
    rw [positionPred_nonempty st .adjacent hae hbe, points_nonempty hae, points_nonempty hbe,
      elements_follows_iff hpair (ha.lt hae) (hb.lt hbe),
      elements_follows_iff hpair.symm (hb.lt hbe) (ha.lt hae)]
    exact rangeAdjacent_iff st ha hb hae hbe
  before := by
    apply position_iff st .before ha hb h
    intro hae hbe
    rw [positionPred_nonempty st .before hae hbe, points_nonempty hae, points_nonempty hbe,
      elements_lt_iff (h.pair hae hbe) (ha.lt hae) (hb.lt hbe), ← cmpBounds_lt_iff]
    exact decide_eq_true_iff
  after := by
    apply position_iff st .after ha hb h
    intro hae hbe
    have hlt := elements_lt_iff (h.pair hae hbe).symm (hb.lt hbe) (ha.lt hae)
    rw [← cmpBounds_lt_iff] at hlt
    rw [positionPred_nonempty st .after hae hbe, points_nonempty hae, points_nonempty hbe]
    dsimp only
    rw [decide_eq_true_iff, cmpBounds_swap, Ordering.swap_eq_gt, ← hlt]
    exact ⟨fun hall x hx y hy => hall y hy x hx, fun hall y hy x hx => hall x hx y hy⟩
  overleft := by
    apply position_iff st .overleft ha hb h
    intro hae hbe
    rw [positionPred_nonempty st .overleft hae hbe, points_nonempty hae, points_nonempty hbe,
      elements_overleft_iff (h.pair hae hbe) (ha.lt hae) (hb.lt hbe)]
    dsimp only
    rw [decide_eq_true_iff, cmpBounds_upper, hiCmp_eq, ne_eq, compare_gt_iff_gt, not_lt]
  overright := by
    apply position_iff st .overright ha hb h
    intro hae hbe
    rw [positionPred_nonempty st .overright hae hbe, points_nonempty hae, points_nonempty hbe,
      elements_overright_iff (h.pair hae hbe) (ha.lt hae) (hb.lt hbe)]
    dsimp only
    rw [decide_eq_true_iff, cmpBounds_lower, loCmp_eq, ne_eq, compare_lt_iff_lt, not_lt]
  unionFails := unionFails_iff st ha hb h
  differenceFails := differenceFails_iff st ha hb h
  mergeLeast := fun _ _ hsub => mergeLeast st ha hb h hsub
  equal := by
    intro heq
    apply eq_of_spans ha hb
    apply (spaced_spans ha).ext (spaced_spans hb)
    exact Set.Subset.antisymm ((points_subset_iff h).1 heq.subset) ((points_subset_iff h.symm).1 heq.superset)

/-- The operators on canonical ranges are set operations: in any order for what they build, and for what they
ask where elements tell the bounds apart. -/
theorem range_operators (st : Steps α) (ha : Canonical elem name a) (hb : Canonical elem name b) :
    PointsAgree st elem name a b ∧ (ToldApart a b → SetsAgree st elem name a b) :=
  ⟨pointsAgree st ha hb, setsAgree st ha hb⟩

section examples

/-- `[x,y)` of integers. -/
def intRange (x y : Int) : RangeVal Int := ⟨.int4, none, false, some x, true, some y, false⟩

theorem canonical_intRange {x y : Int} (h : x < y) : Canonical .int4 none (intRange x y) := by
  refine ⟨rfl, rfl, nofun, fun _ => ⟨nofun, nofun, fun _ _ => rfl, fun _ => rfl⟩, fun _ => ?_⟩
  rintro l u ⟨rfl⟩ ⟨rfl⟩
  exact .inl h

theorem range_operators_ints :
    PointsAgree intSteps .int4 none (intRange 1 5) (intRange 3 8) ∧
      SetsAgree intSteps .int4 none (intRange 1 5) (intRange 3 8) := by
  have ha := canonical_intRange (show (1 : Int) < 5 by decide)
  have hb := canonical_intRange (show (3 : Int) < 8 by decide)
  obtain ⟨hpoints, hsets⟩ := range_operators intSteps ha hb
  exact ⟨hpoints, hsets (toldApart_of_discrete ha hb rfl)⟩

/-- Between two microseconds: a range that is not empty, and has no points. -/
def noInstant : RangeVal Int := ⟨.ts, none, false, some 0, false, some 1, false⟩

theorem canonical_noInstant : Canonical .ts none noInstant := by
  refine ⟨rfl, rfl, nofun, fun _ => ⟨nofun, nofun, nofun, nofun⟩, fun _ => ?_⟩
  rintro l u ⟨rfl⟩ ⟨rfl⟩
  exact .inl (by decide)

theorem points_noInstant : points noInstant = ∅ := by
  rw [Set.eq_empty_iff_forall_notMem]
  rintro x ⟨-, hlo, hhi⟩
  have hx := (hlo 0 rfl).resolve_right fun h => (nomatch h.2)
  have hx' := (hhi 1 rfl).resolve_right fun h => (nomatch h.2)
  omega

/-- Equal sets of points do not make ranges equal. -/
theorem equal_points_unequal :
    Canonical .ts none noInstant ∧ Canonical .ts none (emptyRange .ts none : RangeVal Int) ∧
      points noInstant = points (emptyRange .ts none) ∧ noInstant ≠ emptyRange .ts none ∧
      rangeContainsRange (emptyRange .ts none) noInstant = false := by
  refine ⟨canonical_noInstant, canonical_emptyRange .ts none, ?_, nofun, rfl⟩
  rw [@points_empty _ _ (emptyRange .ts none) rfl, points_noInstant]

end examples

/-! ## Ranges of integers as they are made -/

/-- What is stepped up is the next integer. -/
theorem intStepUp_eq {l l' : Int} (hdisc : discrete elem = true) (hfinite : intNotFinite elem l = false)
    (h : intStepUp elem l = .ok l') : l' = l + 1 := by
  unfold intStepUp at h
  cases elem with
  | int4 | int8 | int2 =>
      dsimp only at h
      split at h
      · cases h
      · exact (Except.ok.inj h).symm
  | date =>
      dsimp only at h
      split at h
      · rename_i hinf
        unfold intNotFinite at hfinite
        simp at hfinite
        rcases hinf with hinf | hinf
        · exact absurd hinf hfinite.1
        · exact absurd hinf hfinite.2
      · split at h
        · cases h
        · exact (Except.ok.inj h).symm
  | num | ts | tstz | text | float8 => cases hdisc

theorem canonicalLo_int {lo lo' : Option Int} {loInc loInc' : Bool} (hdisc : discrete elem = true)
    (hfinite : ∀ l, lo = some l → intNotFinite elem l = false) (hnone : lo = none → loInc = false)
    (h : canonicalLo intSteps elem lo loInc = .ok (lo', loInc')) :
    (lo' = none → loInc' = false) ∧ (lo' ≠ none → loInc' = true) ∧
      ∀ x, loCut lo' loInc' ≤ below x ↔ loCut lo loInc ≤ below x := by
  unfold canonicalLo at h
  cases lo with
  | none =>
      cases h
      exact ⟨hnone, fun hne => absurd rfl hne, fun _ => Iff.rfl⟩
  | some l =>
      have hnotFinite : intSteps.notFinite elem l = false := hfinite l rfl
      dsimp only at h
      rw [hnotFinite] at h
      cases loInc with
      | true =>
          cases h
          exact ⟨nofun, fun _ => rfl, fun _ => Iff.rfl⟩
      | false =>
          obtain ⟨l', hl', heq⟩ := Loops.map_eq_ok h
          cases heq
          rw [intStepUp_eq hdisc (hfinite l rfl) hl']
          refine ⟨nofun, fun _ => rfl, fun x => ?_⟩
          show below (l + 1) ≤ below x ↔ above l ≤ below x
          rw [below_le_below, above_le, below_lt_below]
          exact Int.add_one_le_iff

theorem canonicalHi_int {hi hi' : Option Int} {hiInc hiInc' : Bool} (hdisc : discrete elem = true)
    (hfinite : ∀ u, hi = some u → intNotFinite elem u = false) (hnone : hi = none → hiInc = false)
    (h : canonicalHi intSteps elem hi hiInc = .ok (hi', hiInc')) :
    hiInc' = false ∧ ∀ x, below x < hiCut hi' hiInc' ↔ below x < hiCut hi hiInc := by
  unfold canonicalHi at h
  cases hi with
  | none =>
      cases h
      exact ⟨hnone rfl, fun _ => Iff.rfl⟩
  | some u =>
      have hnotFinite : intSteps.notFinite elem u = false := hfinite u rfl
      dsimp only at h
      rw [hnotFinite] at h
      cases hiInc with
      | false =>
          cases h
          exact ⟨rfl, fun _ => Iff.rfl⟩
      | true =>
          obtain ⟨u', hu', heq⟩ := Loops.map_eq_ok h
          cases heq
          rw [intStepUp_eq hdisc (hfinite u rfl) hu']
          refine ⟨rfl, fun x => ?_⟩
          show below x < below (u + 1) ↔ below x < above u
          rw [below_lt_below, lt_above, below_le_below]
          exact Int.lt_add_one_iff

/-- In a discrete type, bounds in their form hold a range if the one is below the other. -/
theorem boundsCmp_discrete {lo hi : Option Int} {loInc hiInc : Bool} (hhiInc : hiInc = false) :
    (boundsCmp lo hi = some .gt ∨ boundsCmp lo hi = some .eq) ↔ ¬loCut lo loInc < hiCut hi hiInc := by
  constructor
  · rintro hor hlt
    obtain ⟨hgt, heq⟩ := boundsCmp_of_lt hlt
    rcases hor with h | h
    · exact hgt h
    · rw [hhiInc] at heq
      exact absurd (heq h).2 Bool.false_ne_true
  · intro hnot
    rcases boundsCmp_of_not_lt hnot with h | h
    · exact .inl h
    · exact .inr h.1

/-- A range of integers that is made from bounds, none of them an infinite date, is canonical and has the
integers between the bounds. -/
theorem makeRange_int {lo hi : Option Int} {loInc hiInc : Bool} {r : RangeVal Int}
    (hlo : ∀ l, lo = some l → intNotFinite elem l = false)
    (hhi : ∀ u, hi = some u → intNotFinite elem u = false)
    (h : makeRange intSteps elem name lo loInc hi hiInc = .ok r) :
    Canonical elem name r ∧ points r = elements (Set.Ico (loCut lo loInc) (hiCut hi hiInc)) := by
  by_cases hlt : loCut lo loInc < hiCut hi hiInc
  · obtain ⟨hgt, heq⟩ := boundsCmp_of_lt hlt
    unfold makeRange at h
    rw [if_neg hgt, if_neg fun h => h.2 (heq h.1)] at h
    have hloCut : loCut lo (if lo.isNone then false else loInc) = loCut lo loInc := by cases lo <;> rfl
    have hhiCut : hiCut hi (if hi.isNone then false else hiInc) = hiCut hi hiInc := by cases hi <;> rfl
    have hloNone : lo = none → (if lo.isNone then false else loInc) = false := by
      rintro rfl
      rfl
    have hhiNone : hi = none → (if hi.isNone then false else hiInc) = false := by
      rintro rfl
      rfl
    rw [← hloCut, ← hhiCut] at hlt ⊢
    revert h hlt hloNone hhiNone
    generalize (if lo.isNone then false else loInc) = loInc₁
    generalize (if hi.isNone then false else hiInc) = hiInc₁
    intro h hlt hloNone hhiNone
    dsimp only at h
    split at h
    · rename_i hdisc
      split at h
      · cases h
      · rename_i lo' loInc' hcanonLo
        split at h
        · cases h
        · rename_i hi' hiInc' hcanonHi
          obtain ⟨hloNone', hloInc', hloElem⟩ := canonicalLo_int hdisc hlo hloNone hcanonLo
          obtain ⟨hhiInc', hhiElem⟩ := canonicalHi_int hdisc hhi hhiNone hcanonHi
          have hsame : elements (Set.Ico (loCut lo loInc₁) (hiCut hi hiInc₁))
              = elements (Set.Ico (loCut lo' loInc') (hiCut hi' hiInc')) := by
            ext x
            exact (and_congr (hloElem x) (hhiElem x)).symm
          rw [hsame]
          split at h
          · rename_i hor
            rw [@boundsCmp_discrete lo' hi' loInc' hiInc' hhiInc'] at hor
            cases h
            refine ⟨canonical_emptyRange elem name, ?_⟩
            rw [points_empty rfl, Set.Ico_eq_empty hor]
            rfl
          · rename_i hor
            rw [@boundsCmp_discrete lo' hi' loInc' hiInc' hhiInc', not_not] at hor
            cases h
            have hfits : Fits elem lo' loInc' hi' hiInc' :=
              ⟨hloNone', fun _ => hhiInc', fun _ => hloInc', fun _ => hhiInc'⟩
            exact ⟨canonical_of_lt hfits hor, points_nonempty rfl⟩
    · rename_i hdisc
      cases h
      have hfits : Fits elem lo loInc₁ hi hiInc₁ :=
        ⟨hloNone, hhiNone, fun h => absurd h hdisc, fun h => absurd h hdisc⟩
      exact ⟨canonical_of_lt hfits hlt, points_nonempty rfl⟩
  · rcases makeRange_of_not_lt intSteps elem name hlt with heq | heq
    · cases heq.symm.trans h
      refine ⟨canonical_emptyRange elem name, ?_⟩
      rw [points_empty rfl, Set.Ico_eq_empty hlt]
      rfl
    · cases heq.symm.trans h

end Ranges
