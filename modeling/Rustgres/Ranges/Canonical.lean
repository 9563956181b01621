-- SUMMARY: Ranges as spans of cuts: what each comparison of bounds says, and what is built from canonical bounds.
import Rustgres.Lib.Cuts
import Rustgres.Ranges.Operators

/-!
# Canonical Ranges

A lower and an upper bound are a cut each, and all comparisons of bounds are comparisons of cuts. A canonical
range is empty or a span that is not.
-/

namespace Ranges

open Cuts
open Encoding (RangeElem RangeVal MultiVal)

variable {α : Type} [LinearOrder α]

/-! ## Points -/

/-- The elements in the range. -/
def points (r : RangeVal α) : Set α :=
  {x | r.empty = false ∧ (∀ l, r.lo = some l → l < x ∨ l = x ∧ r.loInc = true) ∧
    ∀ u, r.hi = some u → x < u ∨ x = u ∧ r.hiInc = true}

/-- Bounds in the form that the type has: what is infinite is excluded, and of a discrete type the lower
bounds are included and the upper ones are not. -/
structure Fits (elem : RangeElem) (lo : Option α) (loInc : Bool) (hi : Option α) (hiInc : Bool) : Prop where
  infiniteLo : lo = none → loInc = false
  infiniteHi : hi = none → hiInc = false
  discreteLo : discrete elem = true → lo ≠ none → loInc = true
  discreteHi : discrete elem = true → hiInc = false

/-- The canonical ranges of a type. -/
structure Canonical (elem : RangeElem) (name : Option String) (r : RangeVal α) : Prop where
  elem_eq : r.elem = elem
  name_eq : r.name = name
  empty : r.empty = true → r = emptyRange elem name
  fits : r.empty = false → Fits r.elem r.lo r.loInc r.hi r.hiInc
  proper : r.empty = false → ∀ l u, r.lo = some l → r.hi = some u →
    l < u ∨ l = u ∧ r.loInc = true ∧ r.hiInc = true

/-! ## Bounds as cuts -/

def loCut (lo : Option α) (loInc : Bool) : Cut α :=
  match lo with
  | some l => beside l (!loInc)
  | none => ⊥

def hiCut (hi : Option α) (hiInc : Bool) : Cut α :=
  match hi with
  | some u => beside u hiInc
  | none => ⊤

def span (r : RangeVal α) : Cut α × Cut α := (loCut r.lo r.loInc, hiCut r.hi r.hiInc)

/-- The span of a range, if it is not empty. -/
def spans (r : RangeVal α) : List (Cut α × Cut α) := if r.empty then [] else [span r]

omit [LinearOrder α] in
theorem spans_nonempty {r : RangeVal α} (h : r.empty = false) : spans r = [span r] := by
  unfold spans
  rw [h, if_neg Bool.false_ne_true]

omit [LinearOrder α] in
theorem spans_empty {r : RangeVal α} (h : r.empty = true) : spans r = [] := by
  unfold spans
  rw [if_pos h]

theorem loCut_le {lo : Option α} {loInc : Bool} {x : α} :
    loCut lo loInc ≤ below x ↔ ∀ l, lo = some l → l < x ∨ l = x ∧ loInc = true := by
  unfold loCut below
  cases lo with
  | none => simp
  | some l => cases loInc <;> simp [beside_le]

theorem lt_hiCut {hi : Option α} {hiInc : Bool} {x : α} :
    below x < hiCut hi hiInc ↔ ∀ u, hi = some u → x < u ∨ x = u ∧ hiInc = true := by
  unfold hiCut below
  cases hi with
  | none => simpa using beside_lt_top x false
  | some u => cases hiInc <;> simp [beside_lt]

/-- The points of a range are the elements of its span. -/
theorem points_eq (r : RangeVal α) : points r = elements (Spans.cover (spans r)) := by
  ext x
  cases hempty : r.empty with
  | true =>
      rw [spans_empty hempty, Spans.cover_nil]
      refine ⟨fun h => ?_, fun h => h.elim⟩
      rw [h.1] at hempty
      cases hempty
  | false =>
      rw [spans_nonempty hempty, Spans.cover_singleton]
      constructor
      · rintro ⟨-, hlo, hhi⟩
        exact ⟨loCut_le.2 hlo, lt_hiCut.2 hhi⟩
      · rintro ⟨hlo, hhi⟩
        exact ⟨hempty, loCut_le.1 hlo, lt_hiCut.1 hhi⟩

theorem points_nonempty {r : RangeVal α} (h : r.empty = false) :
    points r = elements (Set.Ico (span r).1 (span r).2) := by
  rw [points_eq, spans_nonempty h, Spans.cover_singleton]

theorem points_empty {r : RangeVal α} (h : r.empty = true) : points r = ∅ := by
  rw [points_eq, spans_empty h, Spans.cover_nil]
  rfl

theorem lt_iff_bounds {lo hi : Option α} {loInc hiInc : Bool} :
    loCut lo loInc < hiCut hi hiInc ↔
      ∀ l u, lo = some l → hi = some u → l < u ∨ l = u ∧ loInc = true ∧ hiInc = true := by
  cases lo with
  | none =>
      cases hi with
      | none => simp [loCut, hiCut]
      | some u => simpa [loCut, hiCut] using bot_lt_beside u hiInc
  | some l =>
      cases hi with
      | none => simpa [loCut, hiCut] using beside_lt_top l (!loInc)
      | some u => cases loInc <;> cases hiInc <;> simp [loCut, hiCut, beside_lt]

theorem Canonical.lt {elem : RangeElem} {name : Option String} {r : RangeVal α} (h : Canonical elem name r)
    (hr : r.empty = false) : (span r).1 < (span r).2 :=
  lt_iff_bounds.2 (h.proper hr)

/-! ## Comparisons of bounds -/

theorem boundCmp_of_lt {x y : α} (h : x < y) : boundCmp x y = .lt := compare_lt_iff_lt.2 h

theorem boundCmp_self (x : α) : boundCmp x x = .eq := compare_eq_iff_eq.2 rfl

theorem boundCmp_of_gt {x y : α} (h : y < x) : boundCmp x y = .gt := compare_gt_iff_gt.2 h

theorem loCmp_eq (a b : RangeVal α) : loCmp a b = compare (span a).1 (span b).1 := by
  unfold loCmp span loCut
  dsimp only
  cases a.lo with
  | none =>
      cases b.lo with
      | none => exact (compare_eq_iff_eq.2 rfl).symm
      | some y => exact (compare_lt_iff_lt.2 (bot_lt_beside y _)).symm
  | some x =>
      cases b.lo with
      | none => exact (compare_gt_iff_gt.2 (bot_lt_beside x _)).symm
      | some y =>
          dsimp only
          rcases lt_trichotomy x y with h | rfl | h
          · rw [boundCmp_of_lt h]
            exact (compare_lt_iff_lt.2 (beside_lt.2 (.inl h))).symm
          · rw [boundCmp_self]
            cases a.loInc <;> cases b.loInc
            · exact (compare_eq_iff_eq.2 rfl).symm
            · exact (compare_gt_iff_gt.2 (beside_lt.2 (.inr ⟨rfl, by decide⟩))).symm
            · exact (compare_lt_iff_lt.2 (beside_lt.2 (.inr ⟨rfl, by decide⟩))).symm
            · exact (compare_eq_iff_eq.2 rfl).symm
          · rw [boundCmp_of_gt h]
            exact (compare_gt_iff_gt.2 (beside_lt.2 (.inl h))).symm

theorem hiCmp_eq (a b : RangeVal α) : hiCmp a b = compare (span a).2 (span b).2 := by
  unfold hiCmp span hiCut
  dsimp only
  cases a.hi with
  | none =>
      cases b.hi with
      | none => exact (compare_eq_iff_eq.2 rfl).symm
      | some y => exact (compare_gt_iff_gt.2 (beside_lt_top y _)).symm
  | some x =>
      cases b.hi with
      | none => exact (compare_lt_iff_lt.2 (beside_lt_top x _)).symm
      | some y =>
          dsimp only
          rcases lt_trichotomy x y with h | rfl | h
          · rw [boundCmp_of_lt h]
            exact (compare_lt_iff_lt.2 (beside_lt.2 (.inl h))).symm
          · rw [boundCmp_self]
            cases a.hiInc <;> cases b.hiInc
            · exact (compare_eq_iff_eq.2 rfl).symm
            · exact (compare_lt_iff_lt.2 (beside_lt.2 (.inr ⟨rfl, by decide⟩))).symm
            · exact (compare_gt_iff_gt.2 (beside_lt.2 (.inr ⟨rfl, by decide⟩))).symm
            · exact (compare_eq_iff_eq.2 rfl).symm
          · rw [boundCmp_of_gt h]
            exact (compare_gt_iff_gt.2 (beside_lt.2 (.inl h))).symm

/-- How the cuts of an upper and a lower bound compare. -/
theorem hiCut_lt_loCut {hi lo : Option α} {hiInc loInc : Bool} :
    hiCut hi hiInc < loCut lo loInc ↔
      ∃ u l, hi = some u ∧ lo = some l ∧ (u < l ∨ u = l ∧ hiInc = false ∧ loInc = false) := by
  cases hi with
  | none => simp [hiCut]
  | some u =>
      cases lo with
      | none => simp [hiCut, loCut]
      | some l => cases loInc <;> cases hiInc <;> simp [hiCut, loCut, beside_lt]

theorem gapBetween_iff (a b : RangeVal α) : gapBetween a b = true ↔ (span a).2 < (span b).1 := by
  unfold gapBetween span
  rw [hiCut_lt_loCut]
  cases a.hi with
  | none => simp
  | some u =>
      cases b.lo with
      | none => simp
      | some l =>
          dsimp only
          rcases lt_trichotomy u l with h | rfl | h
          · rw [boundCmp_of_lt h]
            simp [h]
          · rw [boundCmp_self]
            simp
          · rw [boundCmp_of_gt h]
            simp [h.not_gt, h.ne']

theorem boundsMeet_iff (a b : RangeVal α) : boundsMeet a b = true ↔ (span a).2 = (span b).1 := by
  unfold boundsMeet span hiCut loCut
  cases a.hi with
  | none =>
      cases b.lo with
      | none => simp
      | some l => simpa using (beside_lt_top l _).ne'
  | some u =>
      cases b.lo with
      | none => simpa using (bot_lt_beside u _).ne'
      | some l =>
          rw [Bool.and_eq_true, decide_eq_true_eq, bne_iff_ne, beside_inj]
          exact and_congr compare_eq_iff_eq (by cases a.hiInc <;> cases b.loInc <;> decide)

/-! ## The other comparison of bounds -/

theorem cmpBounds_lower (a b : RangeVal α) : cmpBounds (loBnd a) (loBnd b) = loCmp a b := by
  unfold cmpBounds loCmp loBnd
  dsimp only
  cases a.lo with
  | none => cases b.lo <;> rfl
  | some x =>
      cases b.lo with
      | none => rfl
      | some y =>
          dsimp only
          cases boundCmp x y with
          | lt => rfl
          | gt => rfl
          | eq => cases a.loInc <;> cases b.loInc <;> rfl

theorem cmpBounds_upper (a b : RangeVal α) : cmpBounds (hiBnd a) (hiBnd b) = hiCmp a b := by
  unfold cmpBounds hiCmp hiBnd
  dsimp only
  cases a.hi with
  | none => cases b.hi <;> rfl
  | some x =>
      cases b.hi with
      | none => rfl
      | some y =>
          dsimp only
          cases boundCmp x y with
          | lt => rfl
          | gt => rfl
          | eq => cases a.hiInc <;> cases b.hiInc <;> rfl

theorem cmpBounds_swap (a b : RangeVal α) :
    cmpBounds (loBnd a) (hiBnd b) = (cmpBounds (hiBnd b) (loBnd a)).swap := by
  unfold cmpBounds hiBnd loBnd
  dsimp only
  cases a.lo with
  | none => cases b.hi <;> rfl
  | some x =>
      cases b.hi with
      | none => rfl
      | some y =>
          dsimp only
          rcases lt_trichotomy x y with h | rfl | h
          · rw [boundCmp_of_lt h, boundCmp_of_gt h]
            rfl
          · rw [boundCmp_self]
            cases a.loInc <;> cases b.hiInc <;> rfl
          · rw [boundCmp_of_gt h, boundCmp_of_lt h]
            rfl

theorem cmpBounds_lt_iff (a b : RangeVal α) :
    cmpBounds (hiBnd a) (loBnd b) = .lt ↔ (span a).2 ≤ (span b).1 := by
  unfold cmpBounds hiBnd loBnd span hiCut loCut
  dsimp only
  cases a.hi with
  | none =>
      cases b.lo with
      | none => simp
      | some l => simpa using (beside_lt_top l _).ne
  | some u =>
      cases b.lo with
      | none => simpa using (bot_lt_beside u _).ne'
      | some l =>
          dsimp only
          rw [beside_le]
          rcases lt_trichotomy u l with h | rfl | h
          · rw [boundCmp_of_lt h]
            simp [h]
          · rw [boundCmp_self]
            cases a.hiInc <;> cases b.loInc <;> simp
          · rw [boundCmp_of_gt h]
            simp [h.not_gt, h.ne']

/-! ## Containment of bounds -/

theorem rangeContainsElem_iff (r : RangeVal α) (x : α) : rangeContainsElem r x = true ↔ x ∈ points r := by
  unfold rangeContainsElem
  rw [Bool.and_eq_true, Bool.and_eq_true, Bool.not_eq_true', and_assoc]
  refine and_congr_right fun _ => and_congr ?_ ?_
  · cases r.lo with
    | none => simp
    | some l =>
        dsimp only
        rcases lt_trichotomy x l with h | rfl | h
        · rw [boundCmp_of_lt h]
          simp [h.not_gt, h.ne']
        · rw [boundCmp_self]
          simp
        · rw [boundCmp_of_gt h]
          simp [h]
  · cases r.hi with
    | none => simp
    | some u =>
        dsimp only
        rcases lt_trichotomy x u with h | rfl | h
        · rw [boundCmp_of_lt h]
          simp [h]
        · rw [boundCmp_self]
          simp
        · rw [boundCmp_of_gt h]
          simp [h.not_gt, h.ne']

theorem rangeContainsRange_iff {a b : RangeVal α} (ha : a.empty = false) (hb : b.empty = false) :
    rangeContainsRange a b = true ↔ (span a).1 ≤ (span b).1 ∧ (span b).2 ≤ (span a).2 := by
  unfold rangeContainsRange span loCut hiCut
  rw [ha, hb, if_neg Bool.false_ne_true, if_neg Bool.false_ne_true, Bool.and_eq_true]
  refine and_congr ?_ ?_
  · cases a.lo with
    | none => simp
    | some x =>
        cases b.lo with
        | none => simpa using (bot_lt_beside x _).ne'
        | some y =>
            dsimp only
            rw [beside_le]
            rcases lt_trichotomy x y with h | rfl | h
            · rw [boundCmp_of_lt h]
              simp [h]
            · rw [boundCmp_self]
              cases a.loInc <;> cases b.loInc <;> simp
            · rw [boundCmp_of_gt h]
              simp [h.not_gt, h.ne']
  · cases a.hi with
    | none => simp
    | some x =>
        cases b.hi with
        | none => simpa using (beside_lt_top x _).ne
        | some y =>
            dsimp only
            rw [beside_le]
            rcases lt_trichotomy x y with h | rfl | h
            · rw [boundCmp_of_lt h]
              simp [h.not_gt, h.ne']
            · rw [boundCmp_self]
              cases a.hiInc <;> cases b.hiInc <;> simp
            · rw [boundCmp_of_gt h]
              simp [h]

/-! ## What is built -/

theorem canonical_emptyRange (elem : RangeElem) (name : Option String) :
    Canonical elem name (emptyRange elem name : RangeVal α) :=
  ⟨rfl, rfl, fun _ => rfl, nofun, nofun⟩

theorem boundsCmp_of_lt {lo hi : Option α} {loInc hiInc : Bool} (h : loCut lo loInc < hiCut hi hiInc) :
    boundsCmp lo hi ≠ some .gt ∧ (boundsCmp lo hi = some .eq → loInc = true ∧ hiInc = true) := by
  rw [lt_iff_bounds] at h
  unfold boundsCmp
  cases lo with
  | none => simp
  | some l =>
      cases hi with
      | none => simp
      | some u =>
          dsimp only
          rcases h l u rfl rfl with h | ⟨rfl, h⟩
          · rw [boundCmp_of_lt h]
            simp
          · rw [boundCmp_self]
            simpa using h

theorem boundsCmp_of_not_lt {lo hi : Option α} {loInc hiInc : Bool}
    (h : ¬loCut lo loInc < hiCut hi hiInc) :
    boundsCmp lo hi = some .gt ∨ boundsCmp lo hi = some .eq ∧ ¬(loInc = true ∧ hiInc = true) := by
  rw [lt_iff_bounds] at h
  unfold boundsCmp
  push Not at h
  obtain ⟨l, u, rfl, rfl, hnot, hinc⟩ := h
  dsimp only
  rcases lt_or_eq_of_le hnot with h | rfl
  · rw [boundCmp_of_gt h]
    exact .inl rfl
  · rw [boundCmp_self]
    exact .inr ⟨rfl, fun h => hinc rfl h.1 h.2⟩

/-- Of bounds that fit, what is built is the range with these bounds. -/
theorem makeRange_of_lt (st : Steps α) {elem : RangeElem} {name : Option String} {lo hi : Option α}
    {loInc hiInc : Bool} (hfits : Fits elem lo loInc hi hiInc) (h : loCut lo loInc < hiCut hi hiInc) :
    makeRange st elem name lo loInc hi hiInc = .ok ⟨elem, name, false, lo, loInc, hi, hiInc⟩ := by
  obtain ⟨hgt, heq⟩ := boundsCmp_of_lt h
  have hlo : (if lo.isNone then false else loInc) = loInc := by
    cases lo with
    | none => exact (hfits.infiniteLo rfl).symm
    | some l => rfl
  have hhi : (if hi.isNone then false else hiInc) = hiInc := by
    cases hi with
    | none => exact (hfits.infiniteHi rfl).symm
    | some u => rfl
  unfold makeRange
  rw [if_neg hgt, if_neg fun h => h.2 (heq h.1), hlo, hhi]
  dsimp only
  split
  · rename_i hdisc
    have hcanonLo : canonicalLo st elem lo loInc = .ok (lo, loInc) := by
      unfold canonicalLo
      cases lo with
      | none => rfl
      | some l =>
          rw [hfits.discreteLo hdisc (Option.some_ne_none l)]
          rfl
    have hcanonHi : canonicalHi st elem hi hiInc = .ok (hi, hiInc) := by
      unfold canonicalHi
      rw [hfits.discreteHi hdisc]
      cases hi <;> rfl
    rw [hcanonLo]
    dsimp only
    rw [hcanonHi]
    dsimp only
    apply if_neg
    rintro (hc | hc)
    · exact hgt hc
    · have := (heq hc).2
      rw [hfits.discreteHi hdisc] at this
      cases this
  · rfl

/-- Of bounds with nothing between them, an empty range is built or none. -/
theorem makeRange_of_not_lt (st : Steps α) (elem : RangeElem) (name : Option String) {lo hi : Option α}
    {loInc hiInc : Bool} (h : ¬loCut lo loInc < hiCut hi hiInc) :
    makeRange st elem name lo loInc hi hiInc = .ok (emptyRange elem name) ∨
      makeRange st elem name lo loInc hi hiInc = .error lowerBoundError := by
  unfold makeRange
  rcases boundsCmp_of_not_lt h with hgt | heq
  · rw [if_pos hgt]
    exact .inr rfl
  · have hgt : boundsCmp lo hi ≠ some .gt := by
      rw [heq.1]
      nofun
    rw [if_neg hgt, if_pos heq]
    exact .inl rfl

end Ranges
