-- SUMMARY: Frames of rows, of groups, and of peers, against the frames of SQL.
import Mathlib.Tactic.Tauto
import Rustgres.Windows.Standard

/-!
# Kinds of Frames

A frame of groups is always the one of SQL. The bounds of rows are clamped to the partition, and peers are told apart by
the first term only.
-/

namespace Windows

open Encoding (Value)

variable {E : Type} {K : KeyOps}

/-- The frame is there and its positions are the rows of `Q`. -/
def Covers (out : Except ExecError (Nat × Nat)) (n : Nat) (Q : Nat → Prop) : Prop :=
  ∃ s e, out = .ok (s, e) ∧ ∀ p < n, (s ≤ p ∧ p ≤ e ↔ Q p)

theorem covers_ok {frame : Nat × Nat} {n : Nat} {Q : Nat → Prop} :
    Covers (.ok frame) n Q ↔ ∀ p < n, (frame.1 ≤ p ∧ p ≤ frame.2 ↔ Q p) := by
  constructor
  · rintro ⟨s, e, h, hall⟩
    cases h
    exact hall
  · intro hall
    exact ⟨frame.1, frame.2, rfl, hall⟩

theorem not_covers_error {e : ExecError} {n : Nat} {Q : Nat → Prop} : ¬Covers (.error e) n Q := by
  rintro ⟨s, e', h, -⟩
  cases h

theorem mem_span {s e p : Nat} : ((span s e).1 ≤ p ∧ p ≤ (span s e).2) ↔ s ≤ p ∧ p ≤ e := by
  unfold span
  split
  · constructor
    · rintro ⟨h, h'⟩
      omega
    · rintro ⟨h, h'⟩
      omega
  · exact Iff.rfl

theorem covers_span {s e n : Nat} {Q : Nat → Prop} :
    Covers (.ok (span s e)) n Q ↔ ∀ p < n, (s ≤ p ∧ p ≤ e ↔ Q p) := by
  rw [covers_ok]
  simp only [mem_span]

/-! ## Rows -/

theorem rowsBound_lt {b : FrameBound} {pos n : Nat} (hpos : pos < n) : rowsBound b pos n < n := by
  cases b <;> simp only [rowsBound] <;> omega

theorem rowsBound_start {start : FrameBound} {pos n p : Nat} (hp : p < n) (h : ¬StartBeyond start pos n) :
    rowsBound start pos n ≤ p ↔ NotBefore start pos p := by
  cases start with
  | unboundedPreceding => simp [rowsBound, NotBefore]
  | preceding k => simp only [rowsBound, NotBefore]; omega
  | currentRow => exact Iff.rfl
  | following k => simp only [rowsBound, StartBeyond, NotBefore] at h ⊢; omega
  | unboundedFollowing => exact absurd trivial h

theorem rowsBound_stop {stop : FrameBound} {pos n p : Nat} (hp : p < n) (h : ¬StopBefore stop pos) :
    p ≤ rowsBound stop pos n ↔ NotBehind stop pos p := by
  cases stop with
  | unboundedPreceding => exact absurd trivial h
  | preceding k => simp only [rowsBound, StopBefore, NotBehind] at h ⊢; omega
  | currentRow => exact Iff.rfl
  | following k => simp only [rowsBound, NotBehind]; omega
  | unboundedFollowing => simp only [rowsBound, NotBehind, iff_true]; omega

theorem not_notBefore {start : FrameBound} {pos n p : Nat} (hp : p < n) (h : StartBeyond start pos n) :
    ¬NotBefore start pos p := by
  cases start with
  | following k => simp only [StartBeyond, NotBefore] at h ⊢; omega
  | unboundedFollowing => exact id
  | _ => exact absurd h id

theorem not_notBehind {stop : FrameBound} {pos p : Nat} (h : StopBefore stop pos) : ¬NotBehind stop pos p := by
  cases stop with
  | preceding k => simp only [StopBefore, NotBehind] at h ⊢; omega
  | unboundedPreceding => exact id
  | _ => exact absurd h id

/-- A frame of rows is right unless a bound was brought into the partition and left a row between the two. -/
theorem rows_iff {start stop : FrameBound} {pos n : Nat} (hpos : pos < n) :
    Covers (.ok (span (rowsBound start pos n) (rowsBound stop pos n))) n
        (fun p => NotBefore start pos p ∧ NotBehind stop pos p) ↔ RowsRight start stop pos n := by
  rw [covers_span]
  constructor
  · rintro hall houtside
    by_contra hle
    have hrow := (hall _ (rowsBound_lt hpos)).1 ⟨Nat.le_refl _, Nat.le_of_not_lt hle⟩
    rcases houtside with hbeyond | hbefore
    · exact not_notBefore (rowsBound_lt hpos) hbeyond hrow.1
    · exact not_notBehind hbefore hrow.2
  · intro hright p hp
    by_cases houtside : StartBeyond start pos n ∨ StopBefore stop pos
    · have hlt := hright houtside
      refine ⟨fun h => by omega, fun h => ?_⟩
      rcases houtside with hbeyond | hbefore
      · exact absurd h.1 (not_notBefore hp hbeyond)
      · exact absurd h.2 (not_notBehind hbefore)
    · rw [not_or] at houtside
      rw [rowsBound_start hp houtside.1, rowsBound_stop hp houtside.2]

/-! ## Groups -/

section

variable {peerId : List Nat} (h : Numbered peerId)

include h in
theorem firstOf_le {g p q : Nat} (hq : peerId[q]? = some g) (hp : p < peerId.length) :
    firstOf peerId g ≤ p ↔ g ≤ peerId.getD p 0 := by
  obtain ⟨hfirst, hmin⟩ := firstOf_spec hq
  constructor
  · intro hle
    exact h.le hle hfirst (getElem?_number hp)
  · intro hle
    by_contra hlt
    have hback := h.le (Nat.le_of_lt (Nat.lt_of_not_le hlt)) (getElem?_number hp) hfirst
    have heq : peerId.getD p 0 = g := Nat.le_antisymm hback hle
    exact hlt (hmin p (heq ▸ getElem?_number hp))

include h in
theorem le_lastOf {g p q : Nat} (hq : peerId[q]? = some g) (hp : p < peerId.length) :
    p ≤ lastOf peerId g ↔ peerId.getD p 0 ≤ g := by
  obtain ⟨hlast, hmax⟩ := lastOf_spec hq
  constructor
  · intro hle
    exact h.le hle (getElem?_number hp) hlast
  · intro hle
    by_contra hlt
    have hback := h.le (Nat.le_of_lt (Nat.lt_of_not_le hlt)) hlast (getElem?_number hp)
    have heq : peerId.getD p 0 = g := Nat.le_antisymm hle hback
    exact hlt (hmax p (heq ▸ getElem?_number hp))

include h in
theorem groupsStart_spec {start : FrameBound} {pos p : Nat} (hpos : pos < peerId.length) (hp : p < peerId.length) :
    (∃ s, groupsStart peerId (peerId.getD pos 0) (peerId.max?.getD 0) start = some s ∧ s ≤ p) ↔
      NotBefore start (peerId.getD pos 0) (peerId.getD p 0) := by
  obtain ⟨⟨m, hm⟩, -⟩ := max_number hpos
  have hmax := (max_number hp).2
  cases start with
  | unboundedPreceding => simp [groupsStart, NotBefore]
  | unboundedFollowing => simp [groupsStart, NotBefore]
  | currentRow =>
    simp only [groupsStart, NotBefore, Option.some.injEq, exists_eq_left', firstOf_le h (getElem?_number hpos) hp]
  | preceding k =>
    obtain ⟨r, -, hr⟩ := h.exists_row (getElem?_number hpos) (peerId.getD pos 0 - k) (Nat.sub_le _ _)
    simp only [groupsStart, NotBefore, Option.some.injEq, exists_eq_left', firstOf_le h hr hp]
    omega
  | following k =>
    simp only [groupsStart, NotBefore]
    by_cases hbeyond : peerId.getD pos 0 + k > peerId.max?.getD 0
    · rw [if_pos hbeyond]
      exact ⟨fun hsome => by simp at hsome, fun hle => by omega⟩
    · obtain ⟨r, -, hr⟩ := h.exists_row hm _ (Nat.le_of_not_lt hbeyond)
      simp only [if_neg hbeyond, Option.some.injEq, exists_eq_left', firstOf_le h hr hp]

include h in
theorem groupsEnd_spec {stop : FrameBound} {pos p : Nat} (hpos : pos < peerId.length) (hp : p < peerId.length) :
    (∃ e, groupsEnd peerId (peerId.getD pos 0) (peerId.max?.getD 0) stop = some e ∧ p ≤ e) ↔
      NotBehind stop (peerId.getD pos 0) (peerId.getD p 0) := by
  obtain ⟨⟨m, hm⟩, -⟩ := max_number hpos
  have hmax := (max_number hp).2
  cases stop with
  | unboundedPreceding => simp [groupsEnd, NotBehind]
  | unboundedFollowing =>
    simp only [groupsEnd, NotBehind, Option.some.injEq, exists_eq_left', iff_true]
    omega
  | currentRow =>
    simp only [groupsEnd, NotBehind, Option.some.injEq, exists_eq_left', le_lastOf h (getElem?_number hpos) hp]
  | preceding k =>
    simp only [groupsEnd, NotBehind]
    by_cases hbefore : peerId.getD pos 0 < k
    · rw [if_pos hbefore]
      exact ⟨fun hsome => by simp at hsome, fun hle => by omega⟩
    · obtain ⟨r, -, hr⟩ := h.exists_row (getElem?_number hpos) (peerId.getD pos 0 - k) (Nat.sub_le _ _)
      simp only [if_neg hbefore, Option.some.injEq, exists_eq_left', le_lastOf h hr hp]
      omega
  | following k =>
    obtain ⟨r, -, hr⟩ := h.exists_row hm _ (Nat.min_le_right (peerId.getD pos 0 + k) _)
    simp only [groupsEnd, NotBehind, Option.some.injEq, exists_eq_left', le_lastOf h hr hp]
    omega

include h in
theorem groups_covers {start stop : FrameBound} {pos : Nat} (hpos : pos < peerId.length) :
    Covers (.ok (groupsFrame peerId pos start stop)) peerId.length fun p =>
      NotBefore start (peerId.getD pos 0) (peerId.getD p 0) ∧ NotBehind stop (peerId.getD pos 0) (peerId.getD p 0) := by
  rw [covers_ok]
  intro p hp
  rw [← groupsStart_spec h hpos hp, ← groupsEnd_spec h hpos hp, groupsFrame]
  cases groupsStart peerId (peerId.getD pos 0) (peerId.max?.getD 0) start with
  | none => simp; omega
  | some s =>
    cases groupsEnd peerId (peerId.getD pos 0) (peerId.max?.getD 0) stop with
    | none => simp; omega
    | some e => simp [mem_span]

end

/-! ## Ranges without an order -/

/-- Without an order all rows are peers, and the code takes the current row alone. -/
theorem unordered_iff {input : WindowInput} {idxs : List Nat} (P : OrderedPartition K ([] : List (OrderTerm E)) input idxs)
    (S : Shifts) {start stop : FrameBound} {pos : Nat} (hpos : pos < idxs.length) (hparsed : start.rank ≤ stop.rank)
    (hstart : hasOffsetBound start = false) (hstop : hasOffsetBound stop = false) :
    Covers (.ok (span (rowsBound start pos idxs.length) (rowsBound stop pos idxs.length))) idxs.length
        (fun p => RangeNotBefore K P S start pos p ∧ RangeNotBehind K P S stop pos p) ↔
      start ≠ .unboundedFollowing ∧ stop ≠ .unboundedPreceding ∧
        (start = .currentRow → pos = 0) ∧ (stop = .currentRow → pos + 1 = idxs.length) := by
  have hfirst : 0 < idxs.length := by omega
  rw [covers_span]
  cases start with
  | preceding k => cases hstart
  | following k => cases hstart
  | unboundedFollowing =>
    cases stop with
    | unboundedFollowing =>
      simp only [rowsBound, RangeNotBefore, ne_eq, not_true_eq_false, false_and, iff_false]
      intro hall
      exact hall (idxs.length - 1) (by omega) ⟨Nat.le_refl _, Nat.le_refl _⟩
    | _ => simp [FrameBound.rank] at hparsed
  | unboundedPreceding =>
    cases stop with
    | preceding k => cases hstop
    | following k => cases hstop
    | unboundedPreceding =>
      simp only [rowsBound, RangeNotBehind, ne_eq, not_true_eq_false, and_false, false_and, iff_false]
      intro hall
      exact hall 0 hfirst ⟨Nat.le_refl _, Nat.le_refl _⟩
    | currentRow =>
      simp only [rowsBound, RangeNotBefore, RangeNotBehind, Before, List.length_nil]
      refine ⟨fun hall => ?_, fun h p hp => ?_⟩
      · have hlast := (hall (idxs.length - 1) (by omega)).2 ⟨trivial, by simp⟩
        refine ⟨by simp, by simp, by simp, fun _ => by omega⟩
      · have hlast := h.2.2.2 trivial
        refine ⟨fun _ => ⟨trivial, by simp⟩, fun _ => by omega⟩
    | unboundedFollowing =>
      simp only [rowsBound, RangeNotBefore, RangeNotBehind]
      exact ⟨fun _ => by simp, fun _ p hp => ⟨fun _ => ⟨trivial, trivial⟩, fun _ => by omega⟩⟩
  | currentRow =>
    cases stop with
    | preceding k => cases hstop
    | following k => cases hstop
    | unboundedPreceding => simp [FrameBound.rank] at hparsed
    | currentRow =>
      simp only [rowsBound, RangeNotBefore, RangeNotBehind, Before, List.length_nil]
      refine ⟨fun hall => ?_, fun h p hp => ?_⟩
      · have hlast := (hall (idxs.length - 1) (by omega)).2 ⟨by simp, by simp⟩
        have hone := (hall 0 hfirst).2 ⟨by simp, by simp⟩
        exact ⟨by simp, by simp, fun _ => by omega, fun _ => by omega⟩
      · have hone := h.2.2.1 trivial
        have hlast := h.2.2.2 trivial
        exact ⟨fun _ => ⟨by simp, by simp⟩, fun _ => by omega⟩
    | unboundedFollowing =>
      simp only [rowsBound, RangeNotBefore, RangeNotBehind, Before, List.length_nil]
      refine ⟨fun hall => ?_, fun h p hp => ?_⟩
      · have hone := (hall 0 hfirst).2 ⟨by simp, trivial⟩
        exact ⟨by simp, by simp, fun _ => by omega, by simp⟩
      · have hone := h.2.2.1 trivial
        exact ⟨fun _ => ⟨by simp, trivial⟩, fun _ => by omega⟩

/-! ## Ranges of peers -/

section

variable {o : OrderTerm E} {more : List (OrderTerm E)} {input : WindowInput} {idxs : List Nat}
  (P : OrderedPartition K (o :: more) input idxs)

theorem not_before_iff {p q : Nat} (hp : p < idxs.length) (hq : q < idxs.length) :
    ¬Before (o :: more).length (P.rank p) (P.rank q) ↔ q ≤ p ∨ P.Peers p q := by
  have hpeers : ∀ {a b : Nat}, P.Peers a b → ¬Before (o :: more).length (P.rank a) (P.rank b) := by
    rintro a b h ⟨i, hi, hlt, -⟩
    have heq := h i hi
    omega
  constructor
  · intro hnot
    by_cases hle : q ≤ p
    · exact .inl hle
    · exact .inr ((P.sorted_rank (Nat.le_of_not_le hle) hq).resolve_right hnot)
  · rintro (hle | h)
    · rcases P.sorted_rank hle hp with h | ⟨i, hi, hlt, heq⟩
      · exact hpeers fun i hi => (h i hi).symm
      · rintro ⟨j, hj, hlt', heq'⟩
        rcases Nat.lt_trichotomy i j with hij | hij | hij
        · have hi' := heq' i hij
          omega
        · subst hij
          omega
        · have hj' := heq j hij
          omega
    · exact hpeers h

/-- The start of the run of a row on the first term. -/
theorem runStart_le {pos p : Nat} (hpos : pos < idxs.length) (hp : p < idxs.length) :
    runStart (fun p => isPeer K o (firstKey input idxs pos) (firstKey input idxs p)) pos ≤ p ↔
      P.rank pos 0 ≤ P.rank p 0 := by
  obtain ⟨hle, hall, hstop⟩ := runStart_spec (fun p => isPeer K o (firstKey input idxs pos) (firstKey input idxs p)) pos
  generalize runStart (fun p => isPeer K o (firstKey input idxs pos) (firstKey input idxs p)) pos = s at hle hall hstop ⊢
  constructor
  · intro hsp
    by_cases hlt : p < pos
    · have hpeer := hall p hsp hlt
      rw [isPeer_firstKey P hp hpos] at hpeer
      exact Nat.le_of_eq (of_decide_eq_true hpeer).symm
    · exact P.rank_first_le (Nat.le_of_not_lt hlt) hp (by simp)
  · intro hrank
    by_contra hlt
    have hpeer := hstop (by omega)
    rw [isPeer_firstKey P (by omega) hpos] at hpeer
    have hlow := P.rank_first_le (show p ≤ s - 1 by omega) (by omega) (by simp)
    have hhigh := P.rank_first_le (show s - 1 ≤ pos by omega) hpos (by simp)
    exact of_decide_eq_false hpeer (by omega)

/-- The end of the run of a row on the first term. -/
theorem le_runEnd {pos p : Nat} (hpos : pos < idxs.length) (hp : p < idxs.length) :
    p ≤ runEnd (fun p => isPeer K o (firstKey input idxs pos) (firstKey input idxs p)) (idxs.length - 1 - pos) pos ↔
      P.rank p 0 ≤ P.rank pos 0 := by
  obtain ⟨hle, hlast, hall, hstop⟩ := runEnd_rank P hpos
  generalize runEnd (fun p => isPeer K o (firstKey input idxs pos) (firstKey input idxs p)) (idxs.length - 1 - pos) pos =
    e at hle hlast hall hstop ⊢
  constructor
  · intro hpe
    by_cases hlt : pos ≤ p
    · exact Nat.le_of_eq (hall p hlt hpe)
    · exact P.rank_first_le (by omega) hpos (by simp)
  · intro hrank
    by_contra hlt
    have hlow := P.rank_first_le (show e + 1 ≤ p by omega) hp (by simp)
    have hhigh := P.rank_first_le (show pos ≤ e + 1 by omega) (by omega) (by simp)
    exact hstop (by omega) (by omega)

theorem peers_iff (S : Shifts) {start stop : FrameBound} {pos : Nat} (hpos : pos < idxs.length)
    (hparsed : start.rank ≤ stop.rank) (hstart : hasOffsetBound start = false) (hstop : hasOffsetBound stop = false) :
    Covers
        (.ok (span
          (peerBound (fun p => isPeer K o (firstKey input idxs pos) (firstKey input idxs p)) pos idxs.length start true)
          (peerBound (fun p => isPeer K o (firstKey input idxs pos) (firstKey input idxs p)) pos idxs.length stop false)))
        idxs.length (fun p => RangeNotBefore K P S start pos p ∧ RangeNotBehind K P S stop pos p) ↔
      start ≠ .unboundedFollowing ∧ stop ≠ .unboundedPreceding ∧ PeersRight K P start stop pos := by
  rw [covers_span]
  by_cases hedge : start = .unboundedFollowing ∨ stop = .unboundedPreceding
  · -- The code keeps the last row, or the first.
    have hnot : ¬(start ≠ .unboundedFollowing ∧ stop ≠ .unboundedPreceding ∧ PeersRight K P start stop pos) := by
      rintro ⟨h, h', -⟩
      exact hedge.elim h h'
    rw [iff_false_right hnot]
    intro hall
    rcases hedge with rfl | rfl
    · cases stop with
      | unboundedFollowing => exact (hall (idxs.length - 1) (by omega)).1 ⟨Nat.le_refl _, Nat.le_refl _⟩ |>.1
      | _ => simp [FrameBound.rank] at hparsed
    · cases start with
      | unboundedPreceding => exact (hall 0 (by omega)).1 ⟨Nat.le_refl _, Nat.le_refl _⟩ |>.2
      | _ => simp [FrameBound.rank] at hparsed
  · rw [not_or] at hedge
    have hs : ∀ p < idxs.length,
        (peerBound (fun p => isPeer K o (firstKey input idxs pos) (firstKey input idxs p)) pos idxs.length start true ≤
            p ↔ (start = .currentRow → P.rank pos 0 ≤ P.rank p 0)) ∧
        (RangeNotBefore K P S start pos p ↔ (start = .currentRow → pos ≤ p ∨ P.Peers p pos)) := by
      intro p hp
      cases start with
      | preceding k => cases hstart
      | following k => cases hstart
      | unboundedFollowing => exact absurd rfl hedge.1
      | unboundedPreceding => simp [peerBound, RangeNotBefore]
      | currentRow =>
        exact ⟨by simpa [peerBound] using runStart_le P hpos hp, by simpa [RangeNotBefore] using not_before_iff P hp hpos⟩
    have he : ∀ p < idxs.length,
        (p ≤ peerBound (fun p => isPeer K o (firstKey input idxs pos) (firstKey input idxs p)) pos idxs.length stop
            false ↔ (stop = .currentRow → P.rank p 0 ≤ P.rank pos 0)) ∧
        (RangeNotBehind K P S stop pos p ↔ (stop = .currentRow → p ≤ pos ∨ P.Peers pos p)) := by
      intro p hp
      cases stop with
      | preceding k => cases hstop
      | following k => cases hstop
      | unboundedPreceding => exact absurd rfl hedge.2
      | unboundedFollowing =>
        simp only [peerBound, RangeNotBehind, reduceCtorEq, false_implies, iff_true, and_true]
        omega
      | currentRow =>
        exact ⟨by simpa [peerBound] using le_runEnd P hpos hp, by simpa [RangeNotBehind] using not_before_iff P hpos hp⟩
    constructor
    · intro hall
      refine ⟨hedge.1, hedge.2, fun hcur p hp heq => ?_, fun hcur p hp hlt heq => ?_⟩
      · have hin := (hall p (by omega)).1 ⟨(hs p (by omega)).1.2 fun _ => Nat.le_of_eq heq.symm,
          (he p (by omega)).1.2 fun _ => Nat.le_of_eq heq⟩
        exact ((hs p (by omega)).2.1 hin.1 hcur).resolve_left (by omega)
      · have hin := (hall p hp).1 ⟨(hs p hp).1.2 fun _ => Nat.le_of_eq heq.symm,
          (he p hp).1.2 fun _ => Nat.le_of_eq heq⟩
        have hpeers := ((he p hp).2.1 hin.2 hcur).resolve_left (by omega)
        exact fun i hi => (hpeers i hi).symm
    · rintro ⟨-, -, hbefore, hbehind⟩ p hp
      have hrank0 : ∀ {a b : Nat}, P.Peers a b → P.rank a 0 = P.rank b 0 := fun h => h 0 (by simp)
      rw [(hs p hp).1, (hs p hp).2, (he p hp).1, (he p hp).2]
      refine and_congr (imp_congr_right fun hcur => ⟨fun hle => ?_, ?_⟩) (imp_congr_right fun hcur => ⟨fun hle => ?_, ?_⟩)
      · by_cases hlt : p < pos
        · have hup := P.rank_first_le (Nat.le_of_lt hlt) hpos (by simp)
          exact .inr (hbefore hcur p hlt (Nat.le_antisymm hup hle))
        · exact .inl (Nat.le_of_not_lt hlt)
      · rintro (hle | hpeers)
        · exact P.rank_first_le hle hp (by simp)
        · exact Nat.le_of_eq (hrank0 hpeers).symm
      · by_cases hlt : pos < p
        · have hup := P.rank_first_le (Nat.le_of_lt hlt) hp (by simp)
          exact .inr fun i hi => (hbehind hcur p hp hlt (Nat.le_antisymm hle hup) i hi).symm
        · exact .inl (Nat.le_of_not_lt hlt)
      · rintro (hle | hpeers)
        · exact P.rank_first_le hle hpos (by simp)
        · exact Nat.le_of_eq (hrank0 hpeers).symm

end

end Windows
