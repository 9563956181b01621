-- SUMMARY: The operators on canonical ranges against the sets of their points.
import Rustgres.Ranges.Canonical

/-!
# Ranges as Sets

What the operators build has the points it should in any order. What they ask of two ranges is about their
bounds; it is about their points as well if elements tell the bounds apart.
-/

namespace Ranges

open Cuts
open Encoding (RangeElem RangeVal MultiVal)

variable {α : Type} [LinearOrder α]
variable {elem : RangeElem} {name : Option String} {a b : RangeVal α}

/-! ## Bounds of two ranges -/

theorem loCut_laterLo : loCut (laterLo a b).1 (laterLo a b).2 = max (span a).1 (span b).1 := by
  unfold laterLo
  rw [loCmp_eq]
  rcases lt_trichotomy (span a).1 (span b).1 with h | h | h
  · rw [compare_lt_iff_lt.2 h, max_eq_right h.le]
    rfl
  · rw [compare_eq_iff_eq.2 h, h, max_self]
    rfl
  · rw [compare_gt_iff_gt.2 h, max_eq_left h.le]
    rfl

theorem hiCut_earlierHi : hiCut (earlierHi a b).1 (earlierHi a b).2 = min (span a).2 (span b).2 := by
  unfold earlierHi
  rw [hiCmp_eq]
  rcases lt_trichotomy (span a).2 (span b).2 with h | h | h
  · rw [compare_lt_iff_lt.2 h, min_eq_left h.le]
    rfl
  · rw [compare_eq_iff_eq.2 h, ← h, min_self]
    rfl
  · rw [compare_gt_iff_gt.2 h, min_eq_right h.le]
    rfl

theorem loCut_earlierLo : loCut (earlierLo a b).1 (earlierLo a b).2 = min (span a).1 (span b).1 := by
  unfold earlierLo
  rw [loCmp_eq]
  rcases lt_trichotomy (span a).1 (span b).1 with h | h | h
  · rw [compare_lt_iff_lt.2 h, min_eq_left h.le]
    rfl
  · rw [compare_eq_iff_eq.2 h, ← h, min_self]
    rfl
  · rw [compare_gt_iff_gt.2 h, min_eq_right h.le]
    rfl

theorem hiCut_laterHi : hiCut (laterHi a b).1 (laterHi a b).2 = max (span a).2 (span b).2 := by
  unfold laterHi
  rw [hiCmp_eq]
  rcases lt_trichotomy (span a).2 (span b).2 with h | h | h
  · rw [compare_lt_iff_lt.2 h, max_eq_right h.le]
    rfl
  · rw [compare_eq_iff_eq.2 h, ← h, max_self]
    rfl
  · rw [compare_gt_iff_gt.2 h, max_eq_left h.le]
    rfl

omit [LinearOrder α] in
/-- Bounds that fit go together. -/
theorem Fits.mix {lo lo' hi hi' : Option α} {loInc loInc' hiInc hiInc' : Bool}
    (h : Fits elem lo loInc hi hiInc) (h' : Fits elem lo' loInc' hi' hiInc') :
    Fits elem lo loInc hi' hiInc' :=
  ⟨h.infiniteLo, h'.infiniteHi, h.discreteLo, h'.discreteHi⟩

theorem fits_inner (ha : Fits elem a.lo a.loInc a.hi a.hiInc) (hb : Fits elem b.lo b.loInc b.hi b.hiInc) :
    Fits elem (laterLo a b).1 (laterLo a b).2 (earlierHi a b).1 (earlierHi a b).2 := by
  unfold laterLo earlierHi
  cases loCmp a b <;> cases hiCmp a b
  · exact hb.mix ha
  · exact hb.mix ha
  · exact hb
  · exact hb.mix ha
  · exact hb.mix ha
  · exact hb
  · exact ha
  · exact ha
  · exact ha.mix hb

theorem fits_outer (ha : Fits elem a.lo a.loInc a.hi a.hiInc) (hb : Fits elem b.lo b.loInc b.hi b.hiInc) :
    Fits elem (earlierLo a b).1 (earlierLo a b).2 (laterHi a b).1 (laterHi a b).2 := by
  unfold earlierLo laterHi
  cases loCmp a b <;> cases hiCmp a b
  · exact ha.mix hb
  · exact ha
  · exact ha
  · exact ha.mix hb
  · exact ha
  · exact ha
  · exact hb
  · exact hb.mix ha
  · exact hb.mix ha

theorem Canonical.fits' {r : RangeVal α} (h : Canonical elem name r) (hr : r.empty = false) :
    Fits elem r.lo r.loInc r.hi r.hiInc := h.elem_eq ▸ h.fits hr

theorem canonical_of_lt {lo hi : Option α} {loInc hiInc : Bool} (hfits : Fits elem lo loInc hi hiInc)
    (h : loCut lo loInc < hiCut hi hiInc) :
    Canonical elem name ⟨elem, name, false, lo, loInc, hi, hiInc⟩ :=
  ⟨rfl, rfl, nofun, fun _ => hfits, fun _ => lt_iff_bounds.1 h⟩

/-! ## What is built -/

theorem rangeIntersect_empty (st : Steps α) (ha : Canonical elem name a)
    (h : a.empty = true ∨ b.empty = true) : rangeIntersect st a b = emptyRange elem name := by
  unfold rangeIntersect
  rw [if_pos ((Bool.or_eq_true _ _).mpr h), ha.elem_eq, ha.name_eq]

/-- The intersection of two ranges is what lies between the inner bounds, if anything does. -/
theorem rangeIntersect_spec (st : Steps α) (ha : Canonical elem name a) (hb : Canonical elem name b)
    (hae : a.empty = false) (hbe : b.empty = false) :
    Canonical elem name (rangeIntersect st a b) ∧
      spans (rangeIntersect st a b) =
        if max (span a).1 (span b).1 < min (span a).2 (span b).2 then
          [(max (span a).1 (span b).1, min (span a).2 (span b).2)]
        else [] := by
  have hor : ¬(a.empty || b.empty) = true := by rw [hae, hbe]; exact Bool.false_ne_true
  unfold rangeIntersect
  rw [if_neg hor, ha.elem_eq, ha.name_eq]
  by_cases hlt : max (span a).1 (span b).1 < min (span a).2 (span b).2
  · have hcut := hlt
    rw [← loCut_laterLo, ← hiCut_earlierHi] at hcut
    have hfits := fits_inner (ha.fits' hae) (hb.fits' hbe)
    rw [if_pos hlt, makeRange_of_lt st hfits hcut]
    refine ⟨canonical_of_lt hfits hcut, ?_⟩
    rw [← loCut_laterLo, ← hiCut_earlierHi]
    rfl
  · have hcut := hlt
    rw [← loCut_laterLo, ← hiCut_earlierHi] at hcut
    rw [if_neg hlt]
    rcases makeRange_of_not_lt st elem name hcut with heq | heq <;> rw [heq]
    · exact ⟨canonical_emptyRange elem name, rfl⟩
    · exact ⟨canonical_emptyRange elem name, rfl⟩

theorem canonical_rangeIntersect (st : Steps α) (ha : Canonical elem name a)
    (hb : Canonical elem name b) : Canonical elem name (rangeIntersect st a b) := by
  cases hae : a.empty with
  | true =>
      rw [rangeIntersect_empty st ha (.inl hae)]
      exact canonical_emptyRange elem name
  | false =>
      cases hbe : b.empty with
      | true =>
          rw [rangeIntersect_empty st ha (.inr hbe)]
          exact canonical_emptyRange elem name
      | false => exact (rangeIntersect_spec st ha hb hae hbe).1

/-- What the intersection covers, among cuts. -/
theorem cover_rangeIntersect (st : Steps α) (ha : Canonical elem name a) (hb : Canonical elem name b) :
    Spans.cover (spans (rangeIntersect st a b)) = Spans.cover (spans a) ∩ Spans.cover (spans b) := by
  cases hae : a.empty with
  | true =>
      rw [rangeIntersect_empty st ha (.inl hae), spans_empty hae, Spans.cover_nil, Set.empty_inter]
      exact Spans.cover_nil
  | false =>
      cases hbe : b.empty with
      | true =>
          rw [rangeIntersect_empty st ha (.inr hbe), spans_empty hbe, Spans.cover_nil, Set.inter_empty]
          exact Spans.cover_nil
      | false =>
          rw [(rangeIntersect_spec st ha hb hae hbe).2, spans_nonempty hae, spans_nonempty hbe,
            Spans.cover_singleton, Spans.cover_singleton, Set.Ico_inter_Ico]
          split
          · exact Spans.cover_singleton _
          · rename_i hnot
            rw [Spans.cover_nil]
            exact (Set.Ico_eq_empty hnot).symm

/-- The outer range of two ranges is what lies between the outer bounds. -/
theorem outerRange_spec (st : Steps α) (ha : Canonical elem name a) (hb : Canonical elem name b)
    (hae : a.empty = false) (hbe : b.empty = false) :
    ∃ r, outerRange st a b = .ok r ∧ Canonical elem name r ∧
      r.empty = false ∧ span r = (min (span a).1 (span b).1, max (span a).2 (span b).2) := by
  have hfits := fits_outer (ha.fits' hae) (hb.fits' hbe)
  have hcut : loCut (earlierLo a b).1 (earlierLo a b).2 < hiCut (laterHi a b).1 (laterHi a b).2 := by
    rw [loCut_earlierLo, hiCut_laterHi]
    exact (min_le_left _ _).trans_lt ((ha.lt hae).trans_le (le_max_left _ _))
  refine ⟨⟨elem, name, false, (earlierLo a b).1, (earlierLo a b).2, (laterHi a b).1, (laterHi a b).2⟩, ?_,
    canonical_of_lt hfits hcut, rfl, Prod.ext loCut_earlierLo hiCut_laterHi⟩
  unfold outerRange
  rw [ha.elem_eq, ha.name_eq]
  exact makeRange_of_lt st hfits hcut

/-! ## Union -/

/-- The ranges that are joined: neither ends before the other begins. -/
theorem gap_iff (hae : a.empty = false) (hbe : b.empty = false)
    (ha : Canonical elem name a) (hb : Canonical elem name b) :
    (if loCmp a b = .gt then gapBetween b a else gapBetween a b) = true ↔
      (span a).2 < (span b).1 ∨ (span b).2 < (span a).1 := by
  have halt := ha.lt hae
  have hblt := hb.lt hbe
  rw [loCmp_eq]
  split
  · rename_i h
    rw [compare_gt_iff_gt] at h
    rw [gapBetween_iff]
    refine ⟨.inr, fun hor => hor.resolve_left fun hlt => ?_⟩
    exact lt_asymm h (halt.trans hlt)
  · rename_i h
    rw [compare_gt_iff_gt] at h
    rw [gapBetween_iff]
    refine ⟨.inl, fun hor => hor.resolve_right fun hlt => ?_⟩
    exact h (hblt.trans hlt)

theorem rangeUnion_of_nonempty (st : Steps α) (hae : a.empty = false) (hbe : b.empty = false)
    (ha : Canonical elem name a) (hb : Canonical elem name b) :
    rangeUnion st a b = if (span a).2 < (span b).1 ∨ (span b).2 < (span a).1 then .error unionError
      else outerRange st a b := by
  have hgap := gap_iff hae hbe ha hb
  unfold rangeUnion
  rw [hae, hbe, if_neg Bool.false_ne_true, if_neg Bool.false_ne_true]
  by_cases hlo : loCmp a b = .gt
  · rw [if_pos hlo] at hgap ⊢
    dsimp only
    rw [if_congr hgap rfl rfl]
  · rw [if_neg hlo] at hgap ⊢
    dsimp only
    rw [if_congr hgap rfl rfl]

/-- A union that succeeds has the points of both. -/
theorem rangeUnion_spec (st : Steps α) (ha : Canonical elem name a) (hb : Canonical elem name b)
    {r : RangeVal α} (h : rangeUnion st a b = .ok r) :
    Canonical elem name r ∧ points r = points a ∪ points b := by
  cases hae : a.empty with
  | true =>
      unfold rangeUnion at h
      rw [if_pos hae] at h
      cases h
      rw [points_empty hae, Set.empty_union]
      exact ⟨hb, rfl⟩
  | false =>
      cases hbe : b.empty with
      | true =>
          unfold rangeUnion at h
          rw [hae, if_neg Bool.false_ne_true, if_pos hbe] at h
          cases h
          rw [points_empty hbe, Set.union_empty]
          exact ⟨ha, rfl⟩
      | false =>
          rw [rangeUnion_of_nonempty st hae hbe ha hb] at h
          split at h
          · cases h
          · rename_i hnot
            rw [not_or, not_lt, not_lt] at hnot
            obtain ⟨r', hr', hcanon, hre, hspan⟩ := outerRange_spec st ha hb hae hbe
            cases hr'.symm.trans h
            refine ⟨hcanon, ?_⟩
            rw [points_nonempty hre, points_nonempty hae, points_nonempty hbe, hspan]
            dsimp only
            rw [← Set.Ico_union_Ico' hnot.1 hnot.2]
            rfl

/-! ## Merge -/

theorem rangeMerge_spec (st : Steps α) (ha : Canonical elem name a) (hb : Canonical elem name b)
    (hae : a.empty = false) (hbe : b.empty = false) :
    Canonical elem name (rangeMerge st a b) ∧ (rangeMerge st a b).empty = false ∧
      span (rangeMerge st a b) = (min (span a).1 (span b).1, max (span a).2 (span b).2) := by
  obtain ⟨r, hr, hspec⟩ := outerRange_spec st ha hb hae hbe
  unfold rangeMerge
  rw [hae, hbe, if_neg Bool.false_ne_true, if_neg Bool.false_ne_true, hr]
  exact hspec

theorem rangeMerge_of_left (st : Steps α) (hae : a.empty = true) : rangeMerge st a b = b := by
  unfold rangeMerge
  rw [if_pos hae]

theorem rangeMerge_of_right (st : Steps α) (hae : a.empty = false) (hbe : b.empty = true) :
    rangeMerge st a b = a := by
  unfold rangeMerge
  rw [hae, if_neg Bool.false_ne_true, if_pos hbe]

/-- A merge has the points of both. -/
theorem rangeMerge_points (st : Steps α) (ha : Canonical elem name a) (hb : Canonical elem name b) :
    Canonical elem name (rangeMerge st a b) ∧ points a ∪ points b ⊆ points (rangeMerge st a b) := by
  cases hae : a.empty with
  | true =>
      rw [rangeMerge_of_left st hae, points_empty hae, Set.empty_union]
      exact ⟨hb, Set.Subset.refl _⟩
  | false =>
      cases hbe : b.empty with
      | true =>
          rw [rangeMerge_of_right st hae hbe, points_empty hbe, Set.union_empty]
          exact ⟨ha, Set.Subset.refl _⟩
      | false =>
          obtain ⟨hcanon, hre, hspan⟩ := rangeMerge_spec st ha hb hae hbe
          refine ⟨hcanon, ?_⟩
          rw [points_nonempty hre, points_nonempty hae, points_nonempty hbe, hspan]
          rintro x (hx | hx)
          · exact ⟨(min_le_left _ _).trans hx.1, hx.2.trans_le (le_max_left _ _)⟩
          · exact ⟨(min_le_right _ _).trans hx.1, hx.2.trans_le (le_max_right _ _)⟩

/-! ## Difference -/

theorem rangeOverlaps_iff (st : Steps α) (ha : Canonical elem name a) (hb : Canonical elem name b) :
    rangeOverlaps st a b = true ↔ (Spans.cover (spans a) ∩ Spans.cover (spans b)).Nonempty := by
  rw [← cover_rangeIntersect st ha hb]
  unfold rangeOverlaps
  split
  · rename_i hor
    rw [Bool.or_eq_true] at hor
    rw [rangeIntersect_empty st ha hor]
    refine ⟨nofun, fun h => ?_⟩
    obtain ⟨c, hc⟩ := h
    have hnil : spans (emptyRange elem name : RangeVal α) = [] := rfl
    rw [hnil, Spans.cover_nil] at hc
    exact hc.elim
  · have hcanon := canonical_rangeIntersect st ha hb
    cases he : (rangeIntersect st a b).empty with
    | true =>
        rw [spans_empty he, Spans.cover_nil]
        exact ⟨nofun, fun h => (Set.not_nonempty_empty h).elim⟩
    | false =>
        rw [spans_nonempty he, Spans.cover_singleton]
        exact ⟨fun _ => ⟨_, le_rfl, hcanon.lt he⟩, fun _ => rfl⟩

theorem rangeOverlaps_nonempty (st : Steps α) (ha : Canonical elem name a) (hb : Canonical elem name b)
    (hae : a.empty = false) (hbe : b.empty = false) :
    rangeOverlaps st a b = true ↔ (span a).1 < (span b).2 ∧ (span b).1 < (span a).2 := by
  rw [rangeOverlaps_iff st ha hb, spans_nonempty hae, spans_nonempty hbe, Spans.cover_singleton,
    Spans.cover_singleton, Set.Ico_inter_Ico, Set.nonempty_Ico, max_lt_iff, lt_min_iff, lt_min_iff]
  constructor
  · rintro ⟨⟨-, h⟩, h', -⟩
    exact ⟨h, h'⟩
  · rintro ⟨h, h'⟩
    exact ⟨⟨ha.lt hae, h⟩, h', hb.lt hbe⟩

/-- What is left below a range: from the lower bound of `a` to the lower bound of `b`. -/
def leftPiece (elem : RangeElem) (name : Option String) (a b : RangeVal α) : RangeVal α :=
  ⟨elem, name, false, a.lo, a.loInc, b.lo, !b.loInc⟩

/-- What is left above it. -/
def rightPiece (elem : RangeElem) (name : Option String) (a b : RangeVal α) : RangeVal α :=
  ⟨elem, name, false, b.hi, !b.hiInc, a.hi, a.hiInc⟩

omit [LinearOrder α] in
theorem hiCut_of_lo {lo : Option α} {loInc : Bool} (h : lo ≠ none) : hiCut lo (!loInc) = loCut lo loInc := by
  cases lo with
  | none => exact absurd rfl h
  | some l => rfl

omit [LinearOrder α] in
theorem loCut_of_hi {hi : Option α} {hiInc : Bool} (h : hi ≠ none) : loCut hi (!hiInc) = hiCut hi hiInc := by
  cases hi with
  | none => exact absurd rfl h
  | some u =>
      unfold loCut hiCut
      rw [Bool.not_not]

/-- The piece below is built if `a` begins before `b`. -/
theorem leftPiece_spec (st : Steps α) (ha : Canonical elem name a) (hb : Canonical elem name b)
    (hae : a.empty = false) (hbe : b.empty = false) (h : (span a).1 < (span b).1) :
    remnant (makeRange st elem name a.lo a.loInc b.lo (!b.loInc)) = [leftPiece elem name a b] ∧
      Canonical elem name (leftPiece elem name a b) ∧
      span (leftPiece elem name a b) = ((span a).1, (span b).1) := by
  have hne : b.lo ≠ none := by
    intro hnone
    unfold span loCut at h
    rw [hnone] at h
    exact not_lt_bot h
  have hafits := ha.fits' hae
  have hbfits := hb.fits' hbe
  have hfits : Fits elem a.lo a.loInc b.lo (!b.loInc) := by
    refine ⟨hafits.infiniteLo, fun hnone => absurd hnone hne, hafits.discreteLo, fun hdisc => ?_⟩
    rw [hbfits.discreteLo hdisc hne]
    rfl
  have hcut : loCut a.lo a.loInc < hiCut b.lo (!b.loInc) := by
    rw [hiCut_of_lo hne]
    exact h
  refine ⟨?_, canonical_of_lt hfits hcut, Prod.ext rfl (hiCut_of_lo hne)⟩
  rw [makeRange_of_lt st hfits hcut]
  rfl

/-- The piece above is built if `a` ends after `b`. -/
theorem rightPiece_spec (st : Steps α) (ha : Canonical elem name a) (hb : Canonical elem name b)
    (hae : a.empty = false) (hbe : b.empty = false) (h : (span b).2 < (span a).2) :
    remnant (makeRange st elem name b.hi (!b.hiInc) a.hi a.hiInc) = [rightPiece elem name a b] ∧
      Canonical elem name (rightPiece elem name a b) ∧
      span (rightPiece elem name a b) = ((span b).2, (span a).2) := by
  have hne : b.hi ≠ none := by
    intro hnone
    unfold span hiCut at h
    rw [hnone] at h
    exact not_top_lt h
  have hafits := ha.fits' hae
  have hbfits := hb.fits' hbe
  have hfits : Fits elem b.hi (!b.hiInc) a.hi a.hiInc := by
    refine ⟨fun hnone => absurd hnone hne, hafits.infiniteHi, fun hdisc _ => ?_, hafits.discreteHi⟩
    rw [hbfits.discreteHi hdisc]
    rfl
  have hcut : loCut b.hi (!b.hiInc) < hiCut a.hi a.hiInc := by
    rw [loCut_of_hi hne]
    exact h
  refine ⟨?_, canonical_of_lt hfits hcut, Prod.ext (loCut_of_hi hne) rfl⟩
  rw [makeRange_of_lt st hfits hcut]
  rfl

/-- The pieces of a difference of ranges that overlap. -/
theorem minusInner_overlapping (st : Steps α) (ha : Canonical elem name a) (hb : Canonical elem name b)
    (hae : a.empty = false) (hbe : b.empty = false) (hover : rangeOverlaps st a b = true) :
    rangeMinusMultiInner st a b
      = (if (span a).1 < (span b).1 then [leftPiece elem name a b] else []) ++
        if (span b).2 < (span a).2 then [rightPiece elem name a b] else [] := by
  have hor : ¬(b.empty || !rangeOverlaps st a b) = true := by
    rw [hbe, hover]
    exact Bool.false_ne_true
  unfold rangeMinusMultiInner
  rw [hae, if_neg Bool.false_ne_true, if_neg hor, loCmp_eq, hiCmp_eq, ha.elem_eq, ha.name_eq,
    if_congr compare_lt_iff_lt rfl rfl, if_congr compare_gt_iff_gt rfl rfl]
  congr 1
  · split
    · rename_i h
      exact (leftPiece_spec st ha hb hae hbe h).1
    · rfl
  · split
    · rename_i h
      exact (rightPiece_spec st ha hb hae hbe h).1
    · rfl

/-- The spans of a list of ranges. -/
def allSpans (rs : List (RangeVal α)) : List (Cut α × Cut α) := rs.flatMap spans

/-- The pieces of a difference are canonical and not empty, and cover what is left. -/
theorem minusInner_spec (st : Steps α) (ha : Canonical elem name a) (hb : Canonical elem name b) :
    (∀ r ∈ rangeMinusMultiInner st a b, Canonical elem name r ∧ r.empty = false) ∧
      Spans.cover (allSpans (rangeMinusMultiInner st a b))
        = Spans.cover (spans a) \ Spans.cover (spans b) := by
  cases hae : a.empty with
  | true =>
      unfold rangeMinusMultiInner
      rw [if_pos hae, spans_empty hae]
      refine ⟨List.forall_mem_nil _, ?_⟩
      rw [Spans.cover_nil, Set.empty_sdiff]
      exact Spans.cover_nil
  | false =>
      have hone : Spans.cover (allSpans [a]) = Spans.cover (spans a) := by
        unfold allSpans
        rw [List.flatMap_singleton]
      by_cases hapart : b.empty = true ∨ rangeOverlaps st a b = false
      · have hmin : rangeMinusMultiInner st a b = [a] := by
          unfold rangeMinusMultiInner
          rw [hae, if_neg Bool.false_ne_true, if_pos]
          rw [Bool.or_eq_true, Bool.not_eq_true']
          exact hapart
        rw [hmin, hone]
        refine ⟨fun r hr => ?_, ?_⟩
        · rw [List.mem_singleton.1 hr]
          exact ⟨ha, hae⟩
        · symm
          rw [sdiff_eq_left, Set.disjoint_iff_inter_eq_empty, ← Set.not_nonempty_iff_eq_empty]
          intro hmeet
          rcases hapart with hbe | hno
          · rw [spans_empty hbe, Spans.cover_nil, Set.inter_empty] at hmeet
            exact Set.not_nonempty_empty hmeet
          · rw [(rangeOverlaps_iff st ha hb).2 hmeet] at hno
            cases hno
      · rw [not_or, Bool.not_eq_true, Bool.not_eq_false] at hapart
        obtain ⟨hbe, hover⟩ := hapart
        obtain ⟨hab, hba⟩ := (rangeOverlaps_nonempty st ha hb hae hbe).1 hover
        rw [minusInner_overlapping st ha hb hae hbe hover, spans_nonempty hae, spans_nonempty hbe,
          Spans.cover_singleton, Spans.cover_singleton, Spans.Ico_diff_Ico]
        refine ⟨fun r hr => ?_, ?_⟩
        · rcases List.mem_append.1 hr with hr | hr
          · split at hr
            · rename_i h
              rw [List.mem_singleton.1 hr]
              exact ⟨(leftPiece_spec st ha hb hae hbe h).2.1, rfl⟩
            · cases hr
          · split at hr
            · rename_i h
              rw [List.mem_singleton.1 hr]
              exact ⟨(rightPiece_spec st ha hb hae hbe h).2.1, rfl⟩
            · cases hr
        · unfold allSpans
          rw [List.flatMap_append, Spans.cover_append, min_eq_right hba.le, max_eq_right hab.le]
          congr 1
          · split
            · rename_i h
              rw [List.flatMap_singleton]
              show Spans.cover [span (leftPiece elem name a b)] = _
              rw [Spans.cover_singleton, (leftPiece_spec st ha hb hae hbe h).2.2]
            · rename_i h
              rw [List.flatMap_nil, Spans.cover_nil, Set.Ico_eq_empty h]
          · split
            · rename_i h
              rw [List.flatMap_singleton]
              show Spans.cover [span (rightPiece elem name a b)] = _
              rw [Spans.cover_singleton, (rightPiece_spec st ha hb hae hbe h).2.2]
            · rename_i h
              rw [List.flatMap_nil, Spans.cover_nil, Set.Ico_eq_empty h]

/-- A difference that succeeds has the points of the one without those of the other. -/
theorem rangeMinus_spec (st : Steps α) (ha : Canonical elem name a) (hb : Canonical elem name b)
    {r : RangeVal α} (h : rangeMinus st a b = .ok r) :
    Canonical elem name r ∧ points r = points a \ points b := by
  obtain ⟨hall, hcover⟩ := minusInner_spec st ha hb
  have hpoints : points a \ points b = elements (Spans.cover (allSpans (rangeMinusMultiInner st a b))) := by
    rw [hcover, points_eq, points_eq]
    rfl
  rw [hpoints]
  unfold rangeMinus at h
  split at h
  · rename_i hnil
    cases h
    rw [ha.elem_eq, ha.name_eq, hnil, points_empty rfl]
    refine ⟨canonical_emptyRange elem name, ?_⟩
    have : allSpans ([] : List (RangeVal α)) = [] := rfl
    rw [this, Spans.cover_nil]
    rfl
  · rename_i r' hone
    cases h
    rw [hone] at hall ⊢
    refine ⟨(hall r (List.mem_singleton_self r)).1, ?_⟩
    unfold allSpans
    rw [List.flatMap_singleton, points_eq]
  · cases h

end Ranges
