-- SUMMARY: Counts and sums carried along the rows of a partition, against the aggregates of every frame.
import Rustgres.Windows.Aggregates
import Rustgres.Windows.Ordered

/-!
# Carried Aggregates

The frames of a carried aggregate start at the first row and grow. A frame without rows is where the two ways of
computing one differ, and so are the sums that one of them cannot hold.
-/

namespace Windows

open Encoding (Value)
open Running

variable {E : Type} {K : KeyOps} {A : AggOps}

/-! ## Frames that grow -/

/-- The frame up to a last row; none is the frame without rows. -/
def frameTo : Option Nat → Nat × Nat
  | none => (1, 0)
  | some e => (0, e)

/-- The count of rows that the accumulator has to reach. -/
def reachOf : Option Nat → Nat
  | none => 1
  | some e => e + 1

/-- The frames from the first row on whose first one is without rows: those of groups that end before the first. -/
def EmptyAtFirst (spec : ExecWindow E) : Prop :=
  ∃ stop, spec.frame = .groups .unboundedPreceding stop ∧
    (stop = .unboundedPreceding ∨ ∃ k, stop = .preceding (k + 1))

/-- Frames that end in `n` rows and only grow. -/
structure Grows (n : Nat) (last : Nat → Option Nat) : Prop where
  inside : ∀ j < n, ∀ e, last j = some e → e < n
  mono : ∀ q < n, ∀ p ≤ q, reachOf (last p) ≤ reachOf (last q)

theorem grows_some {n : Nat} {last : Nat → Nat} (inside : ∀ j < n, last j < n)
    (mono : ∀ q < n, ∀ p ≤ q, last p ≤ last q) : Grows n fun j => some (last j) where
  inside := fun j hj e he => by
    cases he
    exact inside j hj
  mono := fun q hq p hp => Nat.succ_le_succ (mono q hq p hp)

theorem span_zero (e : Nat) : span 0 e = (0, e) := by simp [span]

theorem grows_rows (n : Nat) (stop : FrameBound) : Grows n fun j => some (rowsBound stop j n) := by
  refine grows_some (fun j hj => ?_) fun q hq p hp => ?_
  · cases stop <;> simp only [rowsBound] <;> omega
  · cases stop <;> simp only [rowsBound] <;> omega

/-- The last peer of a row on the first term goes up with the row. -/
theorem grows_peers {o : OrderTerm E} {more : List (OrderTerm E)} {input : WindowInput} {idxs : List Nat}
    (P : OrderedPartition K (o :: more) input idxs) (stop : FrameBound) (hstop : hasOffsetBound stop = false) :
    Grows idxs.length fun j =>
      some (peerBound (fun p => isPeer K o (firstKey input idxs j) (firstKey input idxs p)) j idxs.length stop false) := by
  cases stop with
  | unboundedPreceding => exact grows_some (fun j hj => by simp only [peerBound]; omega) fun _ _ _ _ => Nat.le_refl _
  | unboundedFollowing => exact grows_some (fun j hj => by simp only [peerBound]; omega) fun _ _ _ _ => Nat.le_refl _
  | preceding k => simp [hasOffsetBound] at hstop
  | following k => simp [hasOffsetBound] at hstop
  | currentRow =>
    refine grows_some (fun j hj => (runEnd_rank P hj).2.1) fun q hq p hp => ?_
    obtain ⟨-, hplt, hpall, -⟩ := runEnd_rank P (Nat.lt_of_le_of_lt hp hq)
    obtain ⟨hqle, -, -, hqstop⟩ := runEnd_rank P hq
    by_contra hback
    simp only [peerBound, Bool.false_eq_true, if_false] at hback
    -- The run of `q` would stop inside the run of `p`, where all ranks are the same.
    refine hqstop (by omega) ?_
    rw [hpall _ (by omega) (by omega), hpall q hp (by omega)]

/-- The last row of the groups that a bound reaches goes up with the row. -/
theorem grows_groups {peerId : List Nat} (h : Numbered peerId) (stop : FrameBound) :
    Grows peerId.length fun j => groupsEnd peerId (peerId.getD j 0) (peerId.max?.getD 0) stop := by
  have hlast : ∀ {q g : Nat}, peerId[q]? = some g → lastOf peerId g < peerId.length := fun hq =>
    (List.getElem?_eq_some_iff.1 (lastOf_spec hq).1).1
  -- Every group up to one in use is in use.
  have hback : ∀ {j : Nat}, j < peerId.length → ∀ g ≤ peerId.getD j 0, ∃ p : Nat, peerId[p]? = some g := by
    intro j hj g hg
    obtain ⟨p, -, hp⟩ := h.exists_row (getElem?_number hj) g hg
    exact ⟨p, hp⟩
  cases stop with
  | unboundedPreceding => exact ⟨fun j _ e he => by simp [groupsEnd] at he, fun _ _ _ _ => Nat.le_refl _⟩
  | unboundedFollowing => exact grows_some (fun j hj => by omega) fun _ _ _ _ => Nat.le_refl _
  | currentRow =>
    refine grows_some (fun j hj => hlast (getElem?_number hj)) fun q hq p hp => ?_
    exact h.lastOf_le (getElem?_number (Nat.lt_of_le_of_lt hp hq)) (getElem?_number hq) (h.number_le hp hq)
  | following k =>
    refine grows_some (fun j hj => ?_) fun q hq p hp => ?_
    · obtain ⟨⟨m, hm⟩, -⟩ := max_number hj
      obtain ⟨r, -, hr⟩ := h.exists_row hm _ (Nat.min_le_right (peerId.getD j 0 + k) _)
      exact hlast hr
    · obtain ⟨⟨m, hm⟩, -⟩ := max_number hq
      obtain ⟨r, -, hr⟩ := h.exists_row hm _ (Nat.min_le_right (peerId.getD p 0 + k) _)
      obtain ⟨r', -, hr'⟩ := h.exists_row hm _ (Nat.min_le_right (peerId.getD q 0 + k) _)
      have hnum := h.number_le hp hq
      exact h.lastOf_le hr hr' (by omega)
  | preceding k =>
    refine ⟨fun j hj e he => ?_, fun q hq p hp => ?_⟩
    · simp only [groupsEnd] at he
      split at he
      · cases he
      · cases he
        obtain ⟨r, hr⟩ := hback hj (peerId.getD j 0 - k) (Nat.sub_le _ _)
        exact hlast hr
    · have hnum := h.number_le hp hq
      simp only [groupsEnd]
      by_cases hpk : peerId.getD p 0 < k
      · rw [if_pos hpk]
        split
        · exact Nat.le_refl _
        · exact Nat.succ_le_succ (Nat.zero_le _)
      · rw [if_neg hpk, if_neg (by omega)]
        obtain ⟨r, hr⟩ := hback (Nat.lt_of_le_of_lt hp hq) (peerId.getD p 0 - k) (Nat.sub_le _ _)
        obtain ⟨r', hr'⟩ := hback hq (peerId.getD q 0 - k) (Nat.sub_le _ _)
        exact Nat.succ_le_succ (h.lastOf_le hr hr' (by omega))

theorem rangeFrame_peers {o : OrderTerm E} {more : List (OrderTerm E)} {input : WindowInput} {idxs : List Nat}
    {stop : FrameBound} (hstop : hasOffsetBound stop = false) (j : Nat) :
    rangeFrame K (o :: more) input idxs j .unboundedPreceding stop =
      .ok (frameTo (some (peerBound (fun p => isPeer K o (firstKey input idxs j) (firstKey input idxs p)) j
        idxs.length stop false))) := by
  have hoffset : (hasOffsetBound .unboundedPreceding || hasOffsetBound stop) = false := by rw [hstop]; rfl
  rw [rangeFrame, hoffset]
  simp only [Bool.and_false, Bool.false_eq_true, if_false, Bool.not_false, if_true, frameTo]
  exact congrArg Except.ok (span_zero _)

theorem rangeFrame_unordered {input : WindowInput} {idxs : List Nat} (stop : FrameBound) (j : Nat) :
    rangeFrame K ([] : List (OrderTerm E)) input idxs j .unboundedPreceding stop =
      .ok (frameTo (some (rowsBound stop j idxs.length))) := by
  simp [rangeFrame, rowsBound, span, frameTo]

/-- A frame of rows or of a range ends at some row. -/
theorem emptyAtFirst_iff_of_some {spec : ExecWindow E} {n : Nat} {last : Nat → Nat}
    (h : ∀ start stop, spec.frame ≠ .groups start stop) :
    (∃ j < n, (some (last j) : Option Nat) = none) ↔ 0 < n ∧ EmptyAtFirst spec := by
  constructor
  · rintro ⟨j, -, hj⟩
    cases hj
  · rintro ⟨-, stop, hframe, -⟩
    exact absurd hframe (h _ _)

/-- The first frame of groups is without rows where its end is before the first group. -/
theorem emptyAtFirst_iff_groups {spec : ExecWindow E} {stop : FrameBound} {peerId : List Nat} (h : Numbered peerId)
    (hframe : spec.frame = .groups .unboundedPreceding stop) :
    (∃ j < peerId.length, groupsEnd peerId (peerId.getD j 0) (peerId.max?.getD 0) stop = none) ↔
      0 < peerId.length ∧ EmptyAtFirst spec := by
  constructor
  · rintro ⟨j, hj, hnone⟩
    refine ⟨Nat.lt_of_le_of_lt (Nat.zero_le j) hj, stop, hframe, ?_⟩
    cases stop with
    | unboundedPreceding => exact .inl rfl
    | preceding k =>
      cases k with
      | zero => simp [groupsEnd] at hnone
      | succ k => exact .inr ⟨k, rfl⟩
    | currentRow => cases hnone
    | following k => cases hnone
    | unboundedFollowing => cases hnone
  · rintro ⟨hn, stop', hframe', hstop⟩
    rw [hframe] at hframe'
    cases hframe'
    have hfirst : peerId.getD 0 0 = 0 := by
      simpa [List.head?_eq_getElem?, List.getD_eq_getElem?_getD] using h.first
    refine ⟨0, hn, ?_⟩
    rcases hstop with rfl | ⟨k, rfl⟩
    · rfl
    · simp only [groupsEnd]
      rw [if_pos (by omega)]

/-- The frames of a carried aggregate. -/
theorem resolveFrame_cumulative {spec : ExecWindow E} {input : WindowInput} {idxs : List Nat}
    (P : OrderedPartition K spec.orderBy input idxs) (hspec : frameStartIsUnboundedPreceding spec = true) :
    ∃ last, Grows idxs.length last ∧
      (∀ j < idxs.length, resolveFrame K spec input idxs j (peerIds K spec input idxs) = .ok (frameTo (last j))) ∧
      ((∃ j < idxs.length, last j = none) ↔ 0 < idxs.length ∧ EmptyAtFirst spec) := by
  have hnum := numbered_peerIds K spec input idxs
  have hlen := length_peerIds K spec input idxs
  have hne : ∀ j < idxs.length, idxs.length ≠ 0 := fun j hj => by omega
  cases hframe : spec.frame with
  | default =>
    have hkind : ∀ start stop, spec.frame ≠ .groups start stop := by simp [hframe]
    cases horder : spec.orderBy with
    | nil =>
      refine ⟨_, grows_rows idxs.length .unboundedFollowing, fun j hj => ?_, emptyAtFirst_iff_of_some hkind⟩
      simp [resolveFrame, hframe, horder, hne j hj, rowsBound, span, frameTo]
    | cons o more =>
      rw [horder] at P
      refine ⟨_, grows_peers P .currentRow rfl, fun j hj => ?_, emptyAtFirst_iff_of_some hkind⟩
      rw [resolveFrame, if_neg (hne j hj), hframe, horder]
      exact rangeFrame_peers rfl j
  | rows start stop =>
    have hkind : ∀ start stop, spec.frame ≠ .groups start stop := by simp [hframe]
    have hstart : start = .unboundedPreceding := by simpa [frameStartIsUnboundedPreceding, hframe] using hspec
    refine ⟨_, grows_rows idxs.length stop, fun j hj => ?_, emptyAtFirst_iff_of_some hkind⟩
    simp [resolveFrame, hframe, hstart, hne j hj, rowsBound, span, frameTo]
  | groups start stop =>
    have hstart : start = .unboundedPreceding := by simpa [frameStartIsUnboundedPreceding, hframe] using hspec
    subst hstart
    rw [← hlen]
    refine ⟨_, grows_groups hnum stop, fun j hj => ?_, emptyAtFirst_iff_groups hnum hframe⟩
    rw [resolveFrame, if_neg (hne j (hlen ▸ hj)), hframe]
    simp only [groupsFrame, groupsStart]
    cases groupsEnd (peerIds K spec input idxs) ((peerIds K spec input idxs).getD j 0)
      ((peerIds K spec input idxs).max?.getD 0) stop with
    | none => rfl
    | some e => simp [span, frameTo]
  | range start stop =>
    have hkind : ∀ start stop, spec.frame ≠ .groups start stop := by simp [hframe]
    simp only [frameStartIsUnboundedPreceding, hframe, Bool.and_eq_true, decide_eq_true_eq, Bool.or_eq_true,
      Bool.not_eq_true'] at hspec
    obtain ⟨rfl, hbounds⟩ := hspec
    cases horder : spec.orderBy with
    | nil =>
      refine ⟨_, grows_rows idxs.length stop, fun j hj => ?_, emptyAtFirst_iff_of_some hkind⟩
      rw [resolveFrame, if_neg (hne j hj), hframe, horder]
      exact rangeFrame_unordered stop j
    | cons o more =>
      rw [horder] at P
      have hstop : hasOffsetBound stop = false := by simpa [horder] using hbounds
      refine ⟨_, grows_peers P stop hstop, fun j hj => ?_, emptyAtFirst_iff_of_some hkind⟩
      rw [resolveFrame, if_neg (hne j hj), hframe, horder]
      exact rangeFrame_peers hstop j

end Windows
