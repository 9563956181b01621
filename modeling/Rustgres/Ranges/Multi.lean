-- SUMMARY: The canonical form of multiranges, and their operators against the sets of their points.
import Rustgres.Ranges.Agreement

/-!
# Multiranges

Normalizing sorts ranges by where they start and joins those without a gap. What comes out is determined by what
it covers, and the operators on what comes out are set operations.
-/

namespace Ranges

open Cuts
open Encoding (RangeElem RangeVal MultiVal)

variable {α : Type} [LinearOrder α]
variable {elem : RangeElem} {name : Option String}

/-! ## The canonical form -/

/-- Canonical ranges that are not empty, sorted, with a gap between each and a later one. -/
structure MultiCanonical (elem : RangeElem) (name : Option String) (m : MultiVal α) : Prop where
  elem_eq : m.elem = elem
  name_eq : m.name = name
  ranges : ∀ r ∈ m.ranges, Canonical elem name r ∧ r.empty = false
  gaps : m.ranges.Pairwise fun a b => gapBetween a b = true

/-- The elements in some range of the list. -/
def listPoints (rs : List (RangeVal α)) : Set α := {x | ∃ r ∈ rs, x ∈ points r}

def multiPoints (m : MultiVal α) : Set α := listPoints m.ranges

omit [LinearOrder α] in
theorem allSpans_cons (r : RangeVal α) (rs : List (RangeVal α)) :
    allSpans (r :: rs) = spans r ++ allSpans rs := List.flatMap_cons

theorem listPoints_eq (rs : List (RangeVal α)) : listPoints rs = elements (Spans.cover (allSpans rs)) := by
  induction rs with
  | nil =>
      have hnil : allSpans ([] : List (RangeVal α)) = [] := rfl
      rw [hnil, Spans.cover_nil]
      ext x
      exact ⟨fun ⟨_, hr, _⟩ => (nomatch hr), nofun⟩
  | cons r rs ih =>
      rw [allSpans_cons, Spans.cover_append]
      have hcons : listPoints (r :: rs) = points r ∪ listPoints rs := by
        ext x
        simp [listPoints]
      rw [hcons, ih, points_eq]
      rfl

omit [LinearOrder α] in
theorem allSpans_nonempty {rs : List (RangeVal α)} (h : ∀ r ∈ rs, r.empty = false) :
    allSpans rs = rs.map span := by
  induction rs with
  | nil => rfl
  | cons r rs ih =>
      rw [allSpans_cons, spans_nonempty (h r List.mem_cons_self), List.map_cons,
        ih fun r' hr' => h r' (List.mem_cons_of_mem r hr')]
      rfl

theorem MultiCanonical.spaced {m : MultiVal α} (h : MultiCanonical elem name m) :
    Spans.Spaced (allSpans m.ranges) := by
  rw [allSpans_nonempty fun r hr => (h.ranges r hr).2]
  refine ⟨fun p hp => ?_, ?_⟩
  · obtain ⟨r, hr, rfl⟩ := List.mem_map.1 hp
    exact (h.ranges r hr).1.lt (h.ranges r hr).2
  · rw [List.pairwise_map]
    exact h.gaps.imp fun hgap => (gapBetween_iff _ _).1 hgap

/-! ## The merge pass -/

theorem beforeOrSame_iff (a b : RangeVal α) :
    beforeOrSame a b = true ↔ (span a).1 < (span b).1 ∨ (span a).1 = (span b).1 ∧ (span a).2 ≤ (span b).2 := by
  unfold beforeOrSame
  rw [loCmp_eq, hiCmp_eq, decide_eq_true_eq]
  rcases lt_trichotomy (span a).1 (span b).1 with h | h | h
  · rw [compare_lt_iff_lt.2 h]
    exact ⟨fun _ => .inl h, fun _ => nofun⟩
  · rw [compare_eq_iff_eq.2 h]
    show compare (span a).2 (span b).2 ≠ .gt ↔ _
    rw [ne_eq, compare_gt_iff_gt, not_lt]
    exact ⟨fun hle => .inr ⟨h, hle⟩, fun hor => (hor.resolve_left h.not_lt).2⟩
  · rw [compare_gt_iff_gt.2 h]
    refine ⟨fun hne => absurd rfl hne, fun hor => ?_⟩
    rcases hor with hlt | heq
    · exact absurd hlt h.not_gt
    · exact absurd heq.1 h.ne'

theorem beforeOrSame_trans (a b c : RangeVal α) (hab : beforeOrSame a b = true)
    (hbc : beforeOrSame b c = true) : beforeOrSame a c = true := by
  rw [beforeOrSame_iff] at hab hbc ⊢
  rcases hab with hab | ⟨hab, hab'⟩
  · rcases hbc with hbc | ⟨hbc, -⟩
    · exact .inl (hab.trans hbc)
    · exact .inl (hbc ▸ hab)
  · rcases hbc with hbc | ⟨hbc, hbc'⟩
    · exact .inl (hab ▸ hbc)
    · exact .inr ⟨hab.trans hbc, hab'.trans hbc'⟩

theorem beforeOrSame_total (a b : RangeVal α) : (beforeOrSame a b || beforeOrSame b a) = true := by
  rw [Bool.or_eq_true, beforeOrSame_iff, beforeOrSame_iff]
  rcases lt_trichotomy (span a).1 (span b).1 with h | h | h
  · exact .inl (.inl h)
  · rcases le_total (span a).2 (span b).2 with h' | h'
    · exact .inl (.inr ⟨h, h'⟩)
    · exact .inr (.inr ⟨h.symm, h'⟩)
  · exact .inr (.inl h)

/-- Taking in a range is joining its span. -/
theorem span_mergeNext (out : List (RangeVal α)) (r : RangeVal α) :
    (mergeNext out r).map span = Spans.join (out.map span) (span r) := by
  rcases List.eq_nil_or_concat out with rfl | ⟨init, last, rfl⟩
  · rfl
  · rw [List.concat_eq_append]
    unfold mergeNext Spans.join
    rw [List.getLast?_concat, List.map_append, List.map_singleton, List.getLast?_concat]
    dsimp only
    by_cases hgap : (span last).2 < (span r).1
    · rw [if_pos ((gapBetween_iff last r).2 hgap), if_pos hgap, List.map_append, List.map_append]
      rfl
    · rw [if_neg fun h => hgap ((gapBetween_iff last r).1 h), if_neg hgap, hiCmp_eq,
        List.dropLast_concat, List.dropLast_concat]
      split
      · rename_i hgt
        rw [compare_gt_iff_gt] at hgt
        rw [max_eq_right hgt.le, List.map_append]
        rfl
      · rename_i hle
        rw [compare_gt_iff_gt, not_lt] at hle
        rw [max_eq_left hle, List.map_append]
        rfl

/-- Ranges as they are between the steps of the pass. -/
def Merged (elem : RangeElem) (name : Option String) (rs : List (RangeVal α)) : Prop :=
  ∀ r ∈ rs, Canonical elem name r ∧ r.empty = false

theorem mergeNext_merged {out : List (RangeVal α)} {r : RangeVal α} (hout : Merged elem name out)
    (hr : Canonical elem name r) (hre : r.empty = false) : Merged elem name (mergeNext out r) := by
  have hsnoc : Merged elem name (out ++ [r]) := by
    intro r' hr'
    rcases List.mem_append.1 hr' with hr' | hr'
    · exact hout r' hr'
    · rw [List.mem_singleton.1 hr']
      exact ⟨hr, hre⟩
  unfold mergeNext
  split
  · rename_i last hlast
    have hmem : last ∈ out := List.mem_of_getLast? hlast
    obtain ⟨hcanon, hle⟩ := hout last hmem
    split
    · exact hsnoc
    · split
      · rename_i hgt
        rw [hiCmp_eq, compare_gt_iff_gt] at hgt
        intro r' hr'
        rcases List.mem_append.1 hr' with hr' | hr'
        · exact hout r' (List.dropLast_subset _ hr')
        · rw [List.mem_singleton.1 hr']
          refine ⟨⟨hcanon.elem_eq, hcanon.name_eq, fun h => ?_, fun _ => ?_, fun _ => ?_⟩, hle⟩
          · exact absurd (h.symm.trans hle) nofun
          · exact (hcanon.fits hle).mix (hcanon.elem_eq ▸ hr.fits' hre)
          · exact lt_iff_bounds.1 ((hcanon.lt hle).trans hgt)
      · exact hout
  · exact hsnoc

theorem foldl_mergeNext {rs out : List (RangeVal α)} (hout : Merged elem name out)
    (hrs : Merged elem name rs) : Merged elem name (rs.foldl mergeNext out) ∧
      (rs.foldl mergeNext out).map span = (rs.map span).foldl Spans.join (out.map span) := by
  induction rs generalizing out with
  | nil => exact ⟨hout, rfl⟩
  | cons r rs ih =>
      obtain ⟨hr, hre⟩ := hrs r List.mem_cons_self
      rw [List.foldl_cons, List.map_cons, List.foldl_cons, ← span_mergeNext]
      exact ih (mergeNext_merged hout hr hre) fun r' hr' => hrs r' (List.mem_cons_of_mem r hr')

/-- The ranges in the order in which the pass takes them in. -/
def sortedRanges (rs : List (RangeVal α)) : List (RangeVal α) :=
  (rs.filter fun r => !r.empty).mergeSort beforeOrSame

theorem sortedRanges_merged {rs : List (RangeVal α)} (hrs : ∀ r ∈ rs, Canonical elem name r) :
    Merged elem name (sortedRanges rs) := by
  intro r hr
  obtain ⟨hmem, hre⟩ := List.mem_filter.1 (List.mem_mergeSort.1 hr)
  exact ⟨hrs r hmem, Bool.not_eq_true' _ ▸ hre⟩

theorem cover_sortedRanges (rs : List (RangeVal α)) :
    Spans.cover ((sortedRanges rs).map span) = Spans.cover (allSpans rs) := by
  apply Spans.cover_congr
  intro p
  rw [List.mem_map, allSpans, List.mem_flatMap]
  constructor
  · rintro ⟨r, hr, rfl⟩
    obtain ⟨hmem, hre⟩ := List.mem_filter.1 (List.mem_mergeSort.1 hr)
    refine ⟨r, hmem, ?_⟩
    rw [spans_nonempty (Bool.not_eq_true' _ ▸ hre)]
    exact List.mem_singleton_self _
  · rintro ⟨r, hr, hp⟩
    cases hre : r.empty with
    | true =>
        rw [spans_empty hre] at hp
        cases hp
    | false =>
        rw [spans_nonempty hre] at hp
        refine ⟨r, ?_, (List.mem_singleton.1 hp).symm⟩
        apply List.mem_mergeSort.2
        apply List.mem_filter.2
        rw [hre]
        exact ⟨hr, rfl⟩

/-- Normalizing yields the canonical form, and covers what was there. -/
theorem normalizeMulti_spec {rs : List (RangeVal α)} (hrs : ∀ r ∈ rs, Canonical elem name r) :
    MultiCanonical elem name (normalizeMulti elem name rs) ∧
      Spans.cover (allSpans (normalizeMulti elem name rs).ranges) = Spans.cover (allSpans rs) := by
  have hsorted := sortedRanges_merged hrs
  obtain ⟨hmerged, hspans⟩ := @foldl_mergeNext _ _ elem name _ [] (List.forall_mem_nil _) hsorted
  have hproper : ∀ p ∈ (sortedRanges rs).map span, p.1 < p.2 := by
    intro p hp
    obtain ⟨r, hr, rfl⟩ := List.mem_map.1 hp
    exact (hsorted r hr).1.lt (hsorted r hr).2
  have hstarts : ((sortedRanges rs).map span).Pairwise fun p q => p.1 ≤ q.1 := by
    rw [List.pairwise_map]
    refine (List.pairwise_mergeSort beforeOrSame_trans beforeOrSame_total _).imp fun h => ?_
    rcases (beforeOrSame_iff _ _).1 h with h | h
    · exact h.le
    · exact h.1.le
  obtain ⟨hspaced, hcover⟩ := Spans.foldl_join Spans.Spaced.nil hproper hstarts (List.forall_mem_nil _)
  have hspans' : ((normalizeMulti elem name rs).ranges).map span
      = ((sortedRanges rs).map span).foldl Spans.join [] := hspans
  refine ⟨⟨rfl, rfl, hmerged, ?_⟩, ?_⟩
  · have hgaps := hspaced.gaps
    rw [← hspans', List.pairwise_map] at hgaps
    exact hgaps.imp fun h => (gapBetween_iff _ _).2 h
  · have hmerged' : Merged elem name (normalizeMulti elem name rs).ranges := hmerged
    rw [allSpans_nonempty fun r hr => (hmerged' r hr).2, hspans', hcover, Spans.cover_nil, Set.empty_union,
      cover_sortedRanges]

/-! ## Operators -/

omit [LinearOrder α] in
theorem allSpans_append (rs rs' : List (RangeVal α)) : allSpans (rs ++ rs') = allSpans rs ++ allSpans rs' :=
  List.flatMap_append

theorem multiUnion_spec {a b : MultiVal α} (ha : MultiCanonical elem name a)
    (hb : MultiCanonical elem name b) :
    MultiCanonical elem name (multiUnion a b) ∧
      Spans.cover (allSpans (multiUnion a b).ranges)
        = Spans.cover (allSpans a.ranges) ∪ Spans.cover (allSpans b.ranges) := by
  unfold multiUnion
  rw [ha.elem_eq, ha.name_eq, ← Spans.cover_append, ← allSpans_append]
  apply normalizeMulti_spec
  intro r hr
  rcases List.mem_append.1 hr with hr | hr
  · exact (ha.ranges r hr).1
  · exact (hb.ranges r hr).1

/-- The cover of pieces that are made from each range. -/
theorem cover_flatMap {f : RangeVal α → List (RangeVal α)} {s : Set (Cut α)} {rs : List (RangeVal α)}
    (h : ∀ r ∈ rs, Spans.cover (allSpans (f r)) = Spans.cover (spans r) ∩ s) :
    Spans.cover (allSpans (rs.flatMap f)) = Spans.cover (allSpans rs) ∩ s := by
  induction rs with
  | nil =>
      have hnil : allSpans ([] : List (RangeVal α)) = [] := rfl
      rw [List.flatMap_nil, hnil, Spans.cover_nil, Set.empty_inter]
  | cons r rs ih =>
      rw [List.flatMap_cons, allSpans_append, Spans.cover_append, h r List.mem_cons_self,
        ih fun r' hr' => h r' (List.mem_cons_of_mem r hr'), allSpans_cons, Spans.cover_append,
        Set.union_inter_distrib_right]

/-- Leaving out empty ranges changes nothing. -/
theorem cover_filter (rs : List (RangeVal α)) :
    Spans.cover (allSpans (rs.filter fun r => !r.empty)) = Spans.cover (allSpans rs) := by
  induction rs with
  | nil => rfl
  | cons r rs ih =>
      rw [List.filter_cons, allSpans_cons, Spans.cover_append]
      cases hre : r.empty with
      | true =>
          rw [Bool.not_true, if_neg Bool.false_ne_true, ih, spans_empty hre, Spans.cover_nil, Set.empty_union]
      | false =>
          rw [Bool.not_false, if_pos rfl, allSpans_cons, Spans.cover_append, ih]

theorem cover_intersections (st : Steps α) {x : RangeVal α} (hx : Canonical elem name x)
    {rs : List (RangeVal α)} (hrs : ∀ r ∈ rs, Canonical elem name r) :
    Spans.cover (allSpans (rs.map fun y => rangeIntersect st x y))
      = Spans.cover (spans x) ∩ Spans.cover (allSpans rs) := by
  induction rs with
  | nil =>
      have hnil : allSpans ([] : List (RangeVal α)) = [] := rfl
      rw [List.map_nil, hnil, Spans.cover_nil, Set.inter_empty]
  | cons r rs ih =>
      rw [List.map_cons, allSpans_cons, Spans.cover_append,
        cover_rangeIntersect st hx (hrs r List.mem_cons_self),
        ih fun r' hr' => hrs r' (List.mem_cons_of_mem r hr'), allSpans_cons, Spans.cover_append,
        Set.inter_union_distrib_left]

theorem multiIntersect_spec (st : Steps α) {a b : MultiVal α} (ha : MultiCanonical elem name a)
    (hb : MultiCanonical elem name b) :
    MultiCanonical elem name (multiIntersect st a b) ∧
      Spans.cover (allSpans (multiIntersect st a b).ranges)
        = Spans.cover (allSpans a.ranges) ∩ Spans.cover (allSpans b.ranges) := by
  have hb' : ∀ r ∈ b.ranges, Canonical elem name r := fun r hr => (hb.ranges r hr).1
  have hpieces : ∀ r ∈ a.ranges.flatMap fun x =>
      (b.ranges.map fun y => rangeIntersect st x y).filter fun i => !i.empty, Canonical elem name r := by
    intro r hr
    obtain ⟨x, hx, hr⟩ := List.mem_flatMap.1 hr
    obtain ⟨y, hy, rfl⟩ := List.mem_map.1 (List.mem_filter.1 hr).1
    exact canonical_rangeIntersect st (ha.ranges x hx).1 (hb' y hy)
  unfold multiIntersect
  rw [ha.elem_eq, ha.name_eq]
  obtain ⟨hcanon, hcover⟩ := normalizeMulti_spec hpieces
  refine ⟨hcanon, hcover.trans ?_⟩
  apply cover_flatMap
  intro x hx
  rw [cover_filter, cover_intersections st (ha.ranges x hx).1 hb']

/-- Taking ranges away one after the other. -/
theorem minusAll_spec (st : Steps α) {rs pieces : List (RangeVal α)} (hrs : ∀ r ∈ rs, Canonical elem name r)
    (hpieces : Merged elem name pieces) :
    Merged elem name (rs.foldl (fun pieces br => pieces.flatMap fun p => rangeMinusMultiInner st p br) pieces) ∧
      Spans.cover (allSpans
        (rs.foldl (fun pieces br => pieces.flatMap fun p => rangeMinusMultiInner st p br) pieces))
        = Spans.cover (allSpans pieces) \ Spans.cover (allSpans rs) := by
  induction rs generalizing pieces with
  | nil =>
      have hnil : allSpans ([] : List (RangeVal α)) = [] := rfl
      rw [hnil, Spans.cover_nil, Set.sdiff_empty]
      exact ⟨hpieces, rfl⟩
  | cons br rs ih =>
      have hbr := hrs br List.mem_cons_self
      have hnext : Merged elem name (pieces.flatMap fun p => rangeMinusMultiInner st p br) := by
        intro r hr
        obtain ⟨p, hp, hr⟩ := List.mem_flatMap.1 hr
        exact (minusInner_spec st (hpieces p hp).1 hbr).1 r hr
      obtain ⟨hmerged, hcover⟩ := ih (fun r hr => hrs r (List.mem_cons_of_mem br hr)) hnext
      refine ⟨hmerged, ?_⟩
      have hfirst : Spans.cover (allSpans (pieces.flatMap fun p => rangeMinusMultiInner st p br))
          = Spans.cover (allSpans pieces) ∩ (Spans.cover (spans br))ᶜ := by
        apply cover_flatMap
        intro p hp
        rw [(minusInner_spec st (hpieces p hp).1 hbr).2]
        rfl
      rw [List.foldl_cons, hcover, hfirst, allSpans_cons, Spans.cover_append, ← Set.sdiff_sdiff]
      rfl

theorem multiMinus_spec (st : Steps α) {a b : MultiVal α} (ha : MultiCanonical elem name a)
    (hb : MultiCanonical elem name b) :
    MultiCanonical elem name (multiMinus st a b) ∧
      Spans.cover (allSpans (multiMinus st a b).ranges)
        = Spans.cover (allSpans a.ranges) \ Spans.cover (allSpans b.ranges) := by
  obtain ⟨hmerged, hcover⟩ := minusAll_spec st (fun r hr => (hb.ranges r hr).1) ha.ranges
  unfold multiMinus
  rw [ha.elem_eq, ha.name_eq, ← hcover]
  exact normalizeMulti_spec fun r hr => (hmerged r hr).1

/-! ## Containment -/

theorem multiContainsElem_iff (m : MultiVal α) (x : α) :
    multiContainsElem m x = true ↔ x ∈ multiPoints m := by
  unfold multiContainsElem multiPoints listPoints
  rw [List.any_eq_true]
  exact exists_congr fun r => and_congr_right fun _ => rangeContainsElem_iff r x

/-- A range lies in a multirange if it lies in one of its ranges. -/
theorem multiContainsRange_iff {m : MultiVal α} {r : RangeVal α} (hm : MultiCanonical elem name m)
    (hr : Canonical elem name r) :
    multiContainsRange m r = true ↔ Spans.cover (spans r) ⊆ Spans.cover (allSpans m.ranges) := by
  unfold multiContainsRange
  cases hre : r.empty with
  | true =>
      rw [if_pos rfl, spans_empty hre, Spans.cover_nil]
      exact ⟨fun _ => Set.empty_subset _, fun _ => rfl⟩
  | false =>
      rw [if_neg Bool.false_ne_true, List.any_eq_true, spans_nonempty hre, Spans.cover_singleton,
        hm.spaced.subset_iff (hr.lt hre), allSpans_nonempty fun r hr => (hm.ranges r hr).2]
      constructor
      · rintro ⟨x, hx, hcontains⟩
        exact ⟨span x, List.mem_map_of_mem hx,
          (rangeContainsRange_iff (hm.ranges x hx).2 hre).1 hcontains⟩
      · rintro ⟨p, hp, hle⟩
        obtain ⟨x, hx, rfl⟩ := List.mem_map.1 hp
        exact ⟨x, hx, (rangeContainsRange_iff (hm.ranges x hx).2 hre).2 hle⟩

theorem cover_subset_iff {rs : List (RangeVal α)} {s : Set (Cut α)} :
    Spans.cover (allSpans rs) ⊆ s ↔ ∀ r ∈ rs, Spans.cover (spans r) ⊆ s := by
  induction rs with
  | nil =>
      have hnil : allSpans ([] : List (RangeVal α)) = [] := rfl
      rw [hnil, Spans.cover_nil]
      exact ⟨fun _ => List.forall_mem_nil _, fun _ => Set.empty_subset _⟩
  | cons r rs ih => rw [allSpans_cons, Spans.cover_append, Set.union_subset_iff, ih, List.forall_mem_cons]

theorem multiContainsMulti_iff {a b : MultiVal α} (ha : MultiCanonical elem name a)
    (hb : MultiCanonical elem name b) :
    multiContainsMulti a b = true ↔
      Spans.cover (allSpans b.ranges) ⊆ Spans.cover (allSpans a.ranges) := by
  unfold multiContainsMulti
  rw [List.all_eq_true, cover_subset_iff]
  exact forall₂_congr fun r hr => multiContainsRange_iff ha (hb.ranges r hr).1

theorem multiOverlaps_iff (st : Steps α) {a b : MultiVal α} (ha : MultiCanonical elem name a)
    (hb : MultiCanonical elem name b) :
    multiOverlaps st a b = true ↔
      (Spans.cover (allSpans a.ranges) ∩ Spans.cover (allSpans b.ranges)).Nonempty := by
  unfold multiOverlaps
  rw [List.any_eq_true]
  constructor
  · rintro ⟨x, hx, hany⟩
    obtain ⟨y, hy, hover⟩ := List.any_eq_true.1 hany
    obtain ⟨c, hcx, hcy⟩ := (rangeOverlaps_iff st (ha.ranges x hx).1 (hb.ranges y hy).1).1 hover
    exact ⟨c, cover_subset_iff.1 (Set.Subset.refl _) x hx hcx, cover_subset_iff.1 (Set.Subset.refl _) y hy hcy⟩
  · rintro ⟨c, ⟨p, hp, hcp⟩, ⟨q, hq, hcq⟩⟩
    obtain ⟨x, hx, hp⟩ := List.mem_flatMap.1 hp
    obtain ⟨y, hy, hq⟩ := List.mem_flatMap.1 hq
    refine ⟨x, hx, List.any_eq_true.2 ⟨y, hy, ?_⟩⟩
    rw [rangeOverlaps_iff st (ha.ranges x hx).1 (hb.ranges y hy).1]
    exact ⟨c, ⟨p, hp, hcp⟩, ⟨q, hq, hcq⟩⟩

/-! ## Agreement -/

/-- What holds of multiranges in any order. -/
structure MultiPointsAgree (st : Steps α) (elem : RangeElem) (name : Option String) (a b : MultiVal α) :
    Prop where
  containsElem : ∀ x, multiContainsElem a x = true ↔ x ∈ multiPoints a
  union : MultiCanonical elem name (multiUnion a b) ∧
    multiPoints (multiUnion a b) = multiPoints a ∪ multiPoints b
  intersection : MultiCanonical elem name (multiIntersect st a b) ∧
    multiPoints (multiIntersect st a b) = multiPoints a ∩ multiPoints b
  difference : MultiCanonical elem name (multiMinus st a b) ∧
    multiPoints (multiMinus st a b) = multiPoints a \ multiPoints b

/-- Between any two different bounds of the multiranges lies an element. -/
def MultiToldApart (a b : MultiVal α) : Prop :=
  Separated (ends (allSpans a.ranges ++ allSpans b.ranges) : Set (Cut α))

/-- What holds of multiranges where elements tell the bounds apart. -/
structure MultiSetsAgree (st : Steps α) (a b : MultiVal α) : Prop where
  contains : multiContainsMulti a b = true ↔ multiPoints b ⊆ multiPoints a
  containsRange : ∀ r ∈ b.ranges, multiContainsRange a r = true ↔ points r ⊆ multiPoints a
  overlaps : multiOverlaps st a b = true ↔ (multiPoints a ∩ multiPoints b).Nonempty
  equal : multiPoints a = multiPoints b ↔ a = b

theorem multiPoints_eq (m : MultiVal α) : multiPoints m = elements (Spans.cover (allSpans m.ranges)) :=
  listPoints_eq m.ranges

theorem MultiToldApart.symm {a b : MultiVal α} (h : MultiToldApart a b) : MultiToldApart b a := by
  unfold MultiToldApart at h ⊢
  rw [ends_append, Finset.union_comm, ← ends_append]
  exact h

theorem multiPointsAgree (st : Steps α) {a b : MultiVal α} (ha : MultiCanonical elem name a)
    (hb : MultiCanonical elem name b) : MultiPointsAgree st elem name a b := by
  obtain ⟨hucanon, hucover⟩ := multiUnion_spec ha hb
  obtain ⟨hicanon, hicover⟩ := multiIntersect_spec st ha hb
  obtain ⟨hmcanon, hmcover⟩ := multiMinus_spec st ha hb
  refine ⟨multiContainsElem_iff a, ⟨hucanon, ?_⟩, ⟨hicanon, ?_⟩, ⟨hmcanon, ?_⟩⟩
  · rw [multiPoints_eq, multiPoints_eq, multiPoints_eq, hucover]
    rfl
  · rw [multiPoints_eq, multiPoints_eq, multiPoints_eq, hicover]
    rfl
  · rw [multiPoints_eq, multiPoints_eq, multiPoints_eq, hmcover]
    rfl

/-- Canonical multiranges of a type that cover the same are equal. -/
theorem multi_ext {a b : MultiVal α} (ha : MultiCanonical elem name a) (hb : MultiCanonical elem name b)
    (h : Spans.cover (allSpans a.ranges) = Spans.cover (allSpans b.ranges)) : a = b := by
  have hspans := ha.spaced.ext hb.spaced h
  have hranges : a.ranges = b.ranges := by
    obtain ⟨ae, an, as⟩ := a
    obtain ⟨be, bn, bs⟩ := b
    have has : Merged elem name as := ha.ranges
    have hbs : Merged elem name bs := hb.ranges
    rw [allSpans_nonempty fun r hr => (has r hr).2, allSpans_nonempty fun r hr => (hbs r hr).2] at hspans
    dsimp only at hspans ⊢
    clear ha hb h
    induction as generalizing bs with
    | nil =>
        cases bs with
        | nil => rfl
        | cons b bs => cases hspans
    | cons a as ih =>
        cases bs with
        | nil => cases hspans
        | cons b bs =>
            obtain ⟨hhead, htail⟩ := List.cons.inj hspans
            obtain ⟨hacanon, hae⟩ := has a List.mem_cons_self
            obtain ⟨hbcanon, hbe⟩ := hbs b List.mem_cons_self
            have hab : a = b := by
              apply eq_of_spans hacanon hbcanon
              rw [spans_nonempty hae, spans_nonempty hbe, hhead]
            rw [hab, ih bs htail (fun r hr => has r (List.mem_cons_of_mem a hr))
              (fun r hr => hbs r (List.mem_cons_of_mem b hr))]
  have helem := ha.elem_eq.trans hb.elem_eq.symm
  have hname := ha.name_eq.trans hb.name_eq.symm
  obtain ⟨ae, an, as⟩ := a
  obtain ⟨be, bn, bs⟩ := b
  cases helem; cases hname; cases hranges
  rfl

theorem multiSetsAgree (st : Steps α) {a b : MultiVal α} (ha : MultiCanonical elem name a)
    (hb : MultiCanonical elem name b) (h : MultiToldApart a b) : MultiSetsAgree st a b where
  contains := by
    rw [multiContainsMulti_iff ha hb, multiPoints_eq, multiPoints_eq, elements_subset_iff h.symm]
  containsRange := by
    intro r hr
    have hends : Separated (ends (spans r ++ allSpans a.ranges) : Set (Cut α)) := by
      apply Separated.mono h
      intro c hc
      rw [Finset.mem_coe, ends_append, Finset.mem_union] at hc ⊢
      rcases hc with hc | hc
      · right
        have hsub : ∀ p ∈ spans r, p ∈ allSpans b.ranges := fun p hp => List.mem_flatMap.2 ⟨r, hr, hp⟩
        unfold ends at hc ⊢
        rw [List.mem_toFinset, List.mem_append, List.mem_map, List.mem_map] at hc ⊢
        rcases hc with ⟨p, hp, rfl⟩ | ⟨p, hp, rfl⟩
        · exact .inl ⟨p, hsub p hp, rfl⟩
        · exact .inr ⟨p, hsub p hp, rfl⟩
      · exact .inl hc
    rw [multiContainsRange_iff ha (hb.ranges r hr).1, multiPoints_eq, points_eq, elements_subset_iff hends]
  overlaps := by
    rw [multiOverlaps_iff st ha hb, multiPoints_eq, multiPoints_eq, elements_meet_iff h]
  equal := by
    refine ⟨fun heq => ?_, fun heq => by rw [heq]⟩
    apply multi_ext ha hb
    rw [multiPoints_eq, multiPoints_eq] at heq
    exact Set.Subset.antisymm ((elements_subset_iff h).1 heq.subset)
      ((elements_subset_iff h.symm).1 heq.superset)

/-- Normalizing yields the canonical form of the same points; on canonical multiranges what is built has the
points it should in any order, and what is asked agrees with the points where elements tell the bounds apart. -/
theorem multirange_operators (st : Steps α) (elem : RangeElem) (name : Option String) :
    (∀ rs : List (RangeVal α), (∀ r ∈ rs, Canonical elem name r) →
      MultiCanonical elem name (normalizeMulti elem name rs) ∧
        multiPoints (normalizeMulti elem name rs) = listPoints rs) ∧
    ∀ a b : MultiVal α, MultiCanonical elem name a → MultiCanonical elem name b →
      MultiPointsAgree st elem name a b ∧ (MultiToldApart a b → MultiSetsAgree st a b) := by
  refine ⟨fun rs hrs => ?_, fun a b ha hb => ⟨multiPointsAgree st ha hb, multiSetsAgree st ha hb⟩⟩
  obtain ⟨hcanon, hcover⟩ := normalizeMulti_spec hrs
  refine ⟨hcanon, ?_⟩
  rw [multiPoints_eq, hcover, listPoints_eq]

/-- Bounds of discrete multiranges are told apart if there is no first element. -/
theorem multiToldApart_of_discrete [Nonempty α] [NoMinOrder α] {a b : MultiVal α}
    (ha : MultiCanonical elem name a) (hb : MultiCanonical elem name b) (hdisc : discrete elem = true) :
    MultiToldApart a b := by
  apply separated_of_below
  intro c hc
  have hall : ∀ rs : List (RangeVal α), Merged elem name rs → ∀ c ∈ ends (allSpans rs),
      c = ⊥ ∨ c = ⊤ ∨ ∃ x, c = below x := by
    intro rs hrs
    induction rs with
    | nil => exact fun c hc => absurd (List.mem_toFinset.1 hc) List.not_mem_nil
    | cons r rs ih =>
        intro c hc
        rw [allSpans_cons, ends_append, Finset.mem_union] at hc
        rcases hc with hc | hc
        · exact ends_discrete (hrs r List.mem_cons_self).1 hdisc c hc
        · exact ih (fun r' hr' => hrs r' (List.mem_cons_of_mem r hr')) c hc
  rw [Finset.mem_coe, ends_append, Finset.mem_union] at hc
  rcases hc with hc | hc
  · exact hall a.ranges ha.ranges c hc
  · exact hall b.ranges hb.ranges c hc

theorem multirange_operators_ints :
    MultiSetsAgree intSteps (⟨.int4, none, [intRange 1 5, intRange 7 9]⟩ : MultiVal Int)
      ⟨.int4, none, [intRange 3 8]⟩ := by
  have ha : MultiCanonical .int4 none (⟨.int4, none, [intRange 1 5, intRange 7 9]⟩ : MultiVal Int) := by
    refine ⟨rfl, rfl, fun r hr => ?_, ?_⟩
    · simp only [List.mem_cons, List.not_mem_nil, or_false] at hr
      rcases hr with rfl | rfl
      · exact ⟨canonical_intRange (by decide), rfl⟩
      · exact ⟨canonical_intRange (by decide), rfl⟩
    · refine List.pairwise_pair.2 ?_
      rw [gapBetween_iff]
      exact beside_lt.2 (.inl (by decide))
  have hb : MultiCanonical .int4 none (⟨.int4, none, [intRange 3 8]⟩ : MultiVal Int) := by
    refine ⟨rfl, rfl, fun r hr => ?_, List.pairwise_singleton _ _⟩
    rw [List.mem_singleton.1 hr]
    exact ⟨canonical_intRange (by decide), rfl⟩
  exact ((multirange_operators intSteps .int4 none).2 _ _ ha hb).2 (multiToldApart_of_discrete ha hb rfl)

/-- A multirange of one range without points has the points of none. -/
theorem multi_equal_points_unequal :
    MultiCanonical .ts none (⟨.ts, none, [noInstant]⟩ : MultiVal Int) ∧
      MultiCanonical .ts none (⟨.ts, none, []⟩ : MultiVal Int) ∧
      multiPoints (⟨.ts, none, [noInstant]⟩ : MultiVal Int) = multiPoints ⟨.ts, none, []⟩ ∧
      (⟨.ts, none, [noInstant]⟩ : MultiVal Int) ≠ ⟨.ts, none, []⟩ := by
  refine ⟨⟨rfl, rfl, fun r hr => ?_, List.pairwise_singleton _ _⟩, ⟨rfl, rfl, List.forall_mem_nil _, List.Pairwise.nil⟩, ?_,
    fun h => List.cons_ne_nil _ _ (congrArg MultiVal.ranges h)⟩
  · rw [List.mem_singleton.1 hr]
    exact ⟨canonical_noInstant, rfl⟩
  · have hright : multiPoints (⟨.ts, none, []⟩ : MultiVal Int) = ∅ :=
      Set.eq_empty_iff_forall_notMem.2 fun x ⟨_, hr, _⟩ => (nomatch hr)
    rw [hright, Set.eq_empty_iff_forall_notMem]
    rintro x ⟨r, hr, hx⟩
    rw [List.mem_singleton.1 hr, points_noInstant] at hx
    exact hx

end Ranges
