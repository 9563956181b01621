-- SUMMARY: The frame the code gives a row is the frame of SQL exactly where its bounds are.
import Mathlib
import Rustgres.Windows.Offsets

/-!
# The Law of Frames

A frame of groups is always the one of SQL. The bounds of the other frames are clamped to the partition, compared on
the first term only, or computed in doubles and without regard to the direction of the order.
-/

namespace Windows

open Encoding (Value)

variable {E : Type} {K : KeyOps}

/-! ## Null keys -/

section

variable {o : OrderTerm E} {input : WindowInput} {idxs : List Nat} (P : OrderedPartition K [o] input idxs) (S : Shifts)

theorem shifted_ne {cur : Value} (h : cur ≠ .null) (b : FrameBound) : shifted S o cur b ≠ .null := by
  unfold shifted
  split
  · exact absurd rfl h
  · split
    · exact S.up_ne _ _
    · exact S.down_ne _ _
  · split
    · exact S.down_ne _ _
    · exact S.up_ne _ _
  · exact h

theorem keyNot_null {ord : Ordering} {pos p : Nat} {b : FrameBound} (hcur : firstKey input idxs pos ≠ .null)
    (hnull : firstKey input idxs p = .null) :
    @KeyNot E K [o] input idxs S ord pos p b ↔ (if o.nullsFirst.getD o.desc then Ordering.lt else .gt) ≠ ord := by
  constructor
  · rintro ⟨o', more, h, c, hc, hne⟩
    cases h
    rw [hnull, compareValues_null_left (shifted_ne S hcur b)] at hc
    cases hc
    exact hne
  · intro h
    exact ⟨o, [], rfl, _, by rw [hnull, compareValues_null_left (shifted_ne S hcur b)], h⟩

variable {pos p : Nat} (hpos : pos < idxs.length) (hp : p < idxs.length) (hcur : firstKey input idxs pos ≠ .null)
  (hnull : firstKey input idxs p = .null)

include P hpos hp hcur hnull in
/-- A null key is behind the row at `pos` where nulls come last. -/
theorem null_behind_iff : pos < p ↔ o.nullsFirst.getD o.desc = false := by
  have hne : pos ≠ p := by
    rintro rfl
    exact hcur hnull
  constructor
  · intro hlt
    exact (null_side P (Nat.le_of_lt hlt) hp).1 hcur hnull
  · intro hside
    by_contra hle
    have hfirst := (null_side P (by omega) hpos).2 hnull hcur
    rw [hside] at hfirst
    cases hfirst

include P hpos hp hcur hnull in
theorem not_peers_null : ¬P.Peers p pos ∧ ¬P.Peers pos p := by
  have hne : P.rank p 0 ≠ P.rank pos 0 := by
    intro heq
    have hrank := ranked_first P hp hpos
    rw [hnull, compareValues_null_left hcur, heq, compare_eq_iff_eq.2 rfl] at hrank
    cases hside : o.nullsFirst.getD o.desc <;> rw [hside] at hrank <;> cases hrank
  exact ⟨fun h => hne (h 0 (by simp)), fun h => hne (h 0 (by simp)).symm⟩

include hpos hp hcur hnull in
theorem rangeNotBefore_null {start : FrameBound} (hstart : start ≠ .unboundedFollowing) :
    RangeNotBefore K P S start pos p ↔ start = .unboundedPreceding ∨ pos < p := by
  have hside := null_behind_iff P hpos hp hcur hnull
  have hkey : ∀ b, @KeyNot E K [o] input idxs S .lt pos p b ↔ pos < p := by
    intro b
    rw [keyNot_null S hcur hnull, hside]
    cases o.nullsFirst.getD o.desc <;> simp
  cases start with
  | unboundedPreceding => simp [RangeNotBefore]
  | unboundedFollowing => exact absurd rfl hstart
  | preceding k => simp [RangeNotBefore, hkey]
  | following k => simp [RangeNotBefore, hkey]
  | currentRow =>
    have hne : pos ≠ p := by
      rintro rfl
      exact hcur hnull
    have hnot := (not_peers_null P hpos hp hcur hnull).1
    rw [RangeNotBefore, not_before_iff P hp hpos, or_iff_left hnot]
    simp only [reduceCtorEq, false_or]
    omega

include hpos hp hcur hnull in
theorem rangeNotBehind_null {stop : FrameBound} (hstop : stop ≠ .unboundedPreceding) :
    RangeNotBehind K P S stop pos p ↔ stop = .unboundedFollowing ∨ p < pos := by
  have hside := null_behind_iff P hpos hp hcur hnull
  have hne : pos ≠ p := by
    rintro rfl
    exact hcur hnull
  have hkey : ∀ b, @KeyNot E K [o] input idxs S .gt pos p b ↔ p < pos := by
    intro b
    rw [keyNot_null S hcur hnull]
    have hlt : p < pos ↔ ¬pos < p := by omega
    rw [hlt, hside]
    cases o.nullsFirst.getD o.desc <;> simp
  cases stop with
  | unboundedPreceding => exact absurd rfl hstop
  | unboundedFollowing => simp [RangeNotBehind]
  | preceding k => simp [RangeNotBehind, hkey]
  | following k => simp [RangeNotBehind, hkey]
  | currentRow =>
    have hnot := (not_peers_null P hpos hp hcur hnull).2
    rw [RangeNotBehind, not_before_iff P hpos hp, or_iff_left hnot]
    simp only [reduceCtorEq, false_or]
    omega

/-! ## Offsets -/

theorem rangeFrame_null {start stop : FrameBound} (hoffset : (hasOffsetBound start || hasOffsetBound stop) = true)
    (h : firstKey input idxs pos = .null) : rangeFrame K [o] input idxs pos start stop = .error errRangeNumeric := by
  simp [rangeFrame, hoffset, h]

theorem rangeFrame_key {start stop : FrameBound} (hoffset : (hasOffsetBound start || hasOffsetBound stop) = true)
    (h : firstKey input idxs pos ≠ .null) :
    rangeFrame K [o] input idxs pos start stop = (toF K (firstKey input idxs pos)).bind fun cur =>
      offsetScan K input idxs (boundVal K cur start) (boundVal K cur stop) idxs.length := by
  rw [rangeFrame, hoffset]
  simp only [List.isEmpty_nil, Bool.not_true, Bool.false_and, Bool.false_eq_true, if_false]
  rfl

include hpos in
theorem offsets_iff (hR : RoundsInOrder K) {start stop : FrameBound} (hparsed : start.rank ≤ stop.rank)
    (hoffset : (hasOffsetBound start || hasOffsetBound stop) = true) :
    Covers (rangeFrame K [o] input idxs pos start stop) idxs.length
        (fun p => RangeNotBefore K P S start pos p ∧ RangeNotBehind K P S stop pos p) ↔
      OffsetsRight K P S start stop pos := by
  have hstart : start ≠ .unboundedFollowing := by
    rintro rfl
    cases stop <;> simp [FrameBound.rank, hasOffsetBound] at hparsed hoffset
  have hstop : stop ≠ .unboundedPreceding := by
    rintro rfl
    cases start <;> simp [FrameBound.rank, hasOffsetBound] at hparsed hoffset
  have hinside : ∀ {cur p}, toF K (firstKey input idxs pos) = .ok cur →
      (@DoubleInside K input idxs start stop pos p ↔
        Inside K input idxs (boundVal K cur start) (boundVal K cur stop) p) := by
    intro cur p hcur
    constructor
    · rintro ⟨cur', f, hcur', hf, hlo, hhi⟩
      rw [hcur] at hcur'
      cases hcur'
      exact ⟨f, hf, hlo, hhi⟩
    · rintro ⟨f, hf, hlo, hhi⟩
      exact ⟨cur, f, hcur, hf, hlo, hhi⟩
  by_cases hnull : firstKey input idxs pos = .null
  · rw [rangeFrame_null hoffset hnull]
    exact ⟨fun h => absurd h not_covers_error, fun h => absurd hnull h.current⟩
  · rw [rangeFrame_key hoffset hnull]
    cases hcur : toF K (firstKey input idxs pos) with
    | error e =>
      simp only [Except.bind]
      refine ⟨fun h => absurd h not_covers_error, fun h => ?_⟩
      obtain ⟨f, hf⟩ := (h.numeric pos hpos).resolve_left hnull
      rw [hcur] at hf
      cases hf
    | ok cur =>
      simp only [Except.bind]
      have hnulls : ∀ p < idxs.length, firstKey input idxs p = .null →
          ((Inside K input idxs (boundVal K cur start) (boundVal K cur stop) p ↔
              RangeNotBefore K P S start pos p ∧ RangeNotBehind K P S stop pos p) ↔
            (start = .unboundedPreceding → pos < p) ∧ (stop = .unboundedFollowing → p < pos)) := by
        intro p hp hkey
        have hne : pos ≠ p := by
          rintro rfl
          exact hnull hkey
        have hout : ¬Inside K input idxs (boundVal K cur start) (boundVal K cur stop) p := by
          rintro ⟨f, hf, -⟩
          rw [hkey] at hf
          exact toF_null ⟨f, hf⟩
        rw [iff_false_left hout, rangeNotBefore_null P S hpos hp hnull hkey hstart,
          rangeNotBehind_null P S hpos hp hnull hkey hstop]
        constructor
        · intro h
          refine ⟨fun hs => ?_, fun he => ?_⟩
          · by_contra hlt
            exact h ⟨.inl hs, .inr (by omega)⟩
          · by_contra hlt
            exact h ⟨.inr (by omega), .inl he⟩
        · rintro ⟨hs, he⟩ ⟨h1, h2⟩
          rcases h1 with h1 | h1 <;> rcases h2 with h2 | h2
          · have := hs h1
            have := he h2
            omega
          · have := hs h1
            omega
          · have := he h2
            omega
          · omega
      by_cases hkeys : ∀ p < idxs.length, firstKey input idxs p = .null ∨ ∃ f, toF K (firstKey input idxs p) = .ok f
      · rw [covers_offsetScan fun p q m hq hpin hqin hpm hmq => inside_convex P hR hkeys hq hpin hqin hpm hmq,
          and_iff_right hkeys]
        constructor
        · intro hall
          exact ⟨hnull, hkeys, fun p hp hkey => (hnulls p hp hkey).1 (hall p hp), fun p hp _ =>
            (hinside hcur).trans (hall p hp)⟩
        · intro hright p hp
          by_cases hkey : firstKey input idxs p = .null
          · exact (hnulls p hp hkey).2 (hright.nulls p hp hkey)
          · exact (hinside hcur).symm.trans (hright.doubles p hp hkey)
      · refine ⟨fun h => ?_, fun h => absurd h.numeric hkeys⟩
        simp only [not_forall, not_or] at hkeys
        obtain ⟨p, hp, hne, hbad⟩ := hkeys
        obtain ⟨e, he⟩ := @offsetScan_error K input idxs (boundVal K cur start) (boundVal K cur stop) idxs.length p hp hne hbad
        rw [he] at h
        exact absurd h not_covers_error

end

/-! ## All frames -/

theorem checkWindowFrame_range {start stop : FrameBound} {n : Nat}
    (h : checkWindowFrame (.range start stop) n = .ok ()) (hoffset : (hasOffsetBound start || hasOffsetBound stop) = true) :
    n = 1 := by
  by_contra hne
  simp [checkWindowFrame, hoffset, hne] at h

theorem range_iff {orderBy : List (OrderTerm E)} {input : WindowInput} {idxs : List Nat} {pos : Nat}
    (P : OrderedPartition K orderBy input idxs) (S : Shifts) (hR : RoundsInOrder K) (hpos : pos < idxs.length)
    {start stop : FrameBound} (hparsed : start.rank ≤ stop.rank)
    (hcheck : checkWindowFrame (.range start stop) orderBy.length = .ok ()) :
    Covers (rangeFrame K orderBy input idxs pos start stop) idxs.length
        (fun p => RangeNotBefore K P S start pos p ∧ RangeNotBehind K P S stop pos p) ↔
      RangeRight K P S start stop pos := by
  cases hoffset : hasOffsetBound start || hasOffsetBound stop with
  | true =>
    obtain ⟨o, rfl⟩ := List.length_eq_one_iff.1 (checkWindowFrame_range hcheck hoffset)
    have hedges : start ≠ .unboundedFollowing ∧ stop ≠ .unboundedPreceding := by
      constructor
      · rintro rfl
        cases stop <;> simp [FrameBound.rank, hasOffsetBound] at hparsed hoffset
      · rintro rfl
        cases start <;> simp [FrameBound.rank, hasOffsetBound] at hparsed hoffset
    rw [offsets_iff P S hpos hR hparsed hoffset]
    simp [RangeRight, hedges, hoffset]
  | false =>
    have hoff := Bool.or_eq_false_iff.1 hoffset
    cases orderBy with
    | nil =>
      rw [show rangeFrame K [] input idxs pos start stop = .ok (span _ _) from rfl,
        unordered_iff P S hpos hparsed hoff.1 hoff.2]
      simp [RangeRight]
    | cons o more =>
      have hframe : rangeFrame K (o :: more) input idxs pos start stop = .ok (span
          (peerBound (fun p => isPeer K o (firstKey input idxs pos) (firstKey input idxs p)) pos idxs.length start true)
          (peerBound (fun p => isPeer K o (firstKey input idxs pos) (firstKey input idxs p)) pos idxs.length stop
            false)) := by
        rw [rangeFrame, hoffset]
        simp only [Bool.and_false, Bool.false_eq_true, if_false, Bool.not_false, if_true]
      rw [hframe, peers_iff P S hpos hparsed hoff.1 hoff.2]
      simp [RangeRight, hoffset]

/-- The frame of a row is that of SQL exactly where the bounds of its kind of frame are right. -/
theorem resolveFrame_standard (spec : ExecWindow E) (input : WindowInput) (idxs : List Nat) (pos : Nat)
    (peerId : List Nat) (P : OrderedPartition K spec.orderBy input idxs) (S : Shifts) (hR : RoundsInOrder K)
    (hgroups : GroupsByPeers K P peerId) (hparsed : Parsed spec.frame)
    (hcheck : checkWindowFrame spec.frame spec.orderBy.length = .ok ()) (hpos : pos < idxs.length) :
    Covers (resolveFrame K spec input idxs pos peerId) idxs.length (InFrame K P S spec.frame peerId pos) ↔
      FrameRight K P S spec.frame pos := by
  have hne : idxs.length ≠ 0 := by omega
  rw [resolveFrame, if_neg hne]
  cases hframe : spec.frame with
  | default =>
    have hin : InFrame K P S .default peerId pos = fun p =>
        RangeNotBefore K P S .unboundedPreceding pos p ∧ RangeNotBehind K P S .currentRow pos p := rfl
    rw [hin]
    simp only [FrameRight]
    cases horder : spec.orderBy.isEmpty with
    | true =>
      have hnil : spec.orderBy = [] := by simpa using horder
      have hlast : ∀ p, RangeNotBehind K P S .currentRow pos p := by
        rintro p ⟨i, hi, -⟩
        rw [hnil] at hi
        exact absurd hi (Nat.not_lt_zero i)
      simp only [if_true, hnil, true_or, iff_true]
      rw [covers_span]
      intro p hp
      refine ⟨fun _ => ⟨trivial, hlast p⟩, fun _ => ?_⟩
      simp only [rowsBound]
      omega
    | false =>
      have hcons : spec.orderBy ≠ [] := by simpa using horder
      have hright := range_iff P S hR hpos (show FrameBound.unboundedPreceding.rank ≤ FrameBound.currentRow.rank by decide)
        (show checkWindowFrame (.range .unboundedPreceding .currentRow) spec.orderBy.length = .ok () from rfl)
      simp only [Bool.false_eq_true, if_false, or_iff_right hcons]
      rw [hright]
      simp [RangeRight, hcons, hasOffsetBound]
  | rows start stop => exact rows_iff hpos
  | range start stop =>
    rw [hframe] at hparsed hcheck
    exact range_iff P S hR hpos hparsed hcheck
  | groups start stop =>
    have hcover := @groups_covers peerId hgroups.numbered start stop pos (hgroups.length ▸ hpos)
    rw [hgroups.length] at hcover
    exact iff_of_true hcover trivial

/-- Keys that are small integers, and doubles for them that are these integers. -/
def smallInts : KeyOps where
  compare := fun a b =>
    match a, b with
    | .int i, .int j => .ok (compare i.toInt.toNat j.toInt.toNat)
    | _, _ => .error errRangeNumeric
  valueKey := fun v =>
    match v with
    | .int i => [i.toUInt64.toUInt8]
    | _ => []
  intToF64 := fun i => UInt64.ofNat i.toNat
  numericToF64 := fun _ => 0
  addF64 := fun a b => a + b
  subF64 := fun a b => a - b
  leF64 := fun a b => a ≤ b

theorem roundsInOrder_smallInts : RoundsInOrder smallInts where
  trans := fun a b c hab hbc => by
    simp only [smallInts, decide_eq_true_eq] at *
    exact UInt64.le_trans hab hbc
  numbers := fun a b _ => by simp [smallInts]
  mono := fun v w a b ord hcmp hord ha hb _ => by
    cases v with
    | int i =>
      cases w with
      | int j =>
        cases hcmp
        cases ha
        cases hb
        have hi := i.toInt_lt
        have hj := j.toInt_lt
        rw [Ne, compare_gt_iff_gt] at hord
        simp only [smallInts, decide_eq_true_eq, UInt64.le_iff_toNat_le, UInt64.toNat_ofNat']
        omega
      | _ => cases hcmp
    | _ => cases hcmp

def smallShifts : Shifts where
  up := fun v k => match v with | .int i => .int (i + Int64.ofNat k) | _ => .bool true
  down := fun v k => match v with | .int i => .int (i - Int64.ofNat k) | _ => .bool true
  up_ne := fun v k => by cases v <;> simp
  down_ne := fun v k => by cases v <;> simp

/-- Two rows with the keys `(1, 1)` and `(1, 2)`. -/
def twoKeys : WindowInput := ⟨[[.int 1, .int 1], [.int 1, .int 2]], [], []⟩

/-- A frame over the order of both keys. -/
def byBoth (frame : WindowFrame) : ExecWindow Unit :=
  ⟨.rowNumber, [], false, [], [⟨(), false, none⟩, ⟨(), false, none⟩], frame, none, .noOthers⟩

theorem twoKeys_ranked (frame : WindowFrame) : ∀ p < [0, 1].length, ∀ q < [0, 1].length, ∀ i o,
    (byBoth frame).orderBy[i]? = some o →
    compareValues smallInts (termValue (keyAt twoKeys [0, 1] p) i) (termValue (keyAt twoKeys [0, 1] q) i) o.desc
      o.nullsFirst = .ok (compare (p * i) (q * i)) := by
  intro p hp q hq i o ho
  have hi : i = 0 ∨ i = 1 := by
    have := (List.getElem?_eq_some_iff.1 ho).1
    simp [byBoth] at this
    omega
  have hp' : p = 0 ∨ p = 1 := by simp at hp; omega
  have hq' : q = 0 ∨ q = 1 := by simp at hq; omega
  rcases hi with rfl | rfl <;> cases ho <;> rcases hp' with rfl | rfl <;> rcases hq' with rfl | rfl <;> rfl

theorem twoKeys_sorted (frame : WindowFrame) : ∀ q < [0, 1].length, ∀ p < q,
    compareWindowKeys smallInts (keyAt twoKeys [0, 1] p) (keyAt twoKeys [0, 1] q) (byBoth frame).orderBy ≠ .ok .gt := by
  intro q hq p hp
  have hq' : q = 1 := by simp at hq; omega
  have hp' : p = 0 := by omega
  subst hq' hp'
  intro h
  cases h

def twoKeysOrdered (frame : WindowFrame) : OrderedPartition smallInts (byBoth frame).orderBy twoKeys [0, 1] :=
  ⟨fun p i => p * i, twoKeys_ranked frame, twoKeys_sorted frame⟩

theorem twoKeys_groups (frame : WindowFrame) : GroupsByPeers smallInts (twoKeysOrdered frame) [0, 1] where
  numbered := ⟨rfl, by simp⟩
  length := rfl
  peers := by
    intro q hq p hp
    have hp' : p = 0 ∨ p = 1 := by simp at hp; omega
    have hq' : q = 0 ∨ q = 1 := by simp at hq; omega
    rcases hp' with rfl | rfl <;> rcases hq' with rfl | rfl
    · exact iff_of_true rfl fun i _ => rfl
    · exact iff_of_false (by decide) fun h => by cases h 1 Nat.one_lt_two
    · exact iff_of_false (by decide) fun h => by cases h 1 Nat.one_lt_two
    · exact iff_of_true rfl fun i _ => rfl

theorem resolveFrame_standard_two :
    Parsed (.range .currentRow .currentRow) ∧
      (Covers (resolveFrame smallInts (byBoth (.range .currentRow .currentRow)) twoKeys [0, 1] 0 [0, 1]) [0, 1].length
          (InFrame smallInts (twoKeysOrdered (.range .currentRow .currentRow)) smallShifts
            (.range .currentRow .currentRow) [0, 1] 0) ↔
        FrameRight smallInts (twoKeysOrdered (.range .currentRow .currentRow)) smallShifts
          (.range .currentRow .currentRow) 0) :=
  ⟨Nat.le_refl _, resolveFrame_standard (byBoth (.range .currentRow .currentRow)) twoKeys [0, 1] 0 [0, 1]
    (twoKeysOrdered _) smallShifts roundsInOrder_smallInts (twoKeys_groups _) (Nat.le_refl _) rfl (by decide)⟩

/-- Two rows behind the last row the code still has the last row in the frame; and with two terms to order by, a row is
in the frame of another that only shares the first. -/
theorem frames_differ :
    resolveFrame smallInts (byBoth (.rows (.following 2) (.following 3))) twoKeys [0, 1] 1 [0, 1] = .ok (1, 1) ∧
      ¬Covers (resolveFrame smallInts (byBoth (.rows (.following 2) (.following 3))) twoKeys [0, 1] 1 [0, 1]) 2
        (InFrame smallInts (twoKeysOrdered (.rows (.following 2) (.following 3))) smallShifts
          (.rows (.following 2) (.following 3)) [0, 1] 1) ∧
      resolveFrame smallInts (byBoth .default) twoKeys [0, 1] 0 [0, 1] = .ok (0, 1) ∧
      ¬Covers (resolveFrame smallInts (byBoth .default) twoKeys [0, 1] 0 [0, 1]) 2
        (InFrame smallInts (twoKeysOrdered .default) smallShifts .default [0, 1] 0) := by
  refine ⟨rfl, ?_, rfl, ?_⟩
  · rintro ⟨s, e, h, hall⟩
    cases h
    have hrow := (hall 1 (by decide)).1 ⟨Nat.le_refl _, Nat.le_refl _⟩
    have hstart : 1 + 2 ≤ 1 := hrow.1
    omega
  · rintro ⟨s, e, h, hall⟩
    cases h
    have hrow := (hall 1 (by decide)).1 ⟨Nat.zero_le _, Nat.le_refl _⟩
    exact hrow.2 ⟨1, by decide, by decide, fun j hj => by
      obtain rfl : j = 0 := by omega
      rfl⟩

/-! ## The numbers of the code -/

theorem getD_numberFrom (prev : List Value) (g : Nat) (keys : List (List Value)) {i : Nat} (hi : i < keys.length) :
    (g :: numberFrom K prev g keys).getD (i + 1) 0 =
      if windowKeysEqual K ((prev :: keys).getD (i + 1) []) ((prev :: keys).getD i []) then
        (g :: numberFrom K prev g keys).getD i 0
      else (g :: numberFrom K prev g keys).getD i 0 + 1 := by
  induction keys generalizing prev g i with
  | nil => exact absurd hi (Nat.not_lt_zero i)
  | cons key keys ih =>
    cases i with
    | zero => rfl
    | succ i => exact ih key _ (Nat.lt_of_succ_lt_succ hi)

section

variable {spec : ExecWindow E} {input : WindowInput} {idxs : List Nat}

theorem getD_peerIds (horder : spec.orderBy.isEmpty = false) {p : Nat} (hp : p + 1 < idxs.length) :
    (peerIds K spec input idxs).getD (p + 1) 0 =
      if windowKeysEqual K (keyAt input idxs (p + 1)) (keyAt input idxs p) then (peerIds K spec input idxs).getD p 0
      else (peerIds K spec input idxs).getD p 0 + 1 := by
  have hkey : ∀ q < idxs.length, ((List.range idxs.length).map (keyAt input idxs)).getD q [] = keyAt input idxs q := by
    intro q hq
    simp [List.getD_eq_getElem?_getD, hq]
  rw [peerIds, horder, ← hkey _ hp, ← hkey p (by omega)]
  cases hkeys : (List.range idxs.length).map (keyAt input idxs) with
  | nil =>
    have hlen := congrArg List.length hkeys
    rw [List.length_map, List.length_range, List.length_nil] at hlen
    omega
  | cons key keys =>
    have hlen := congrArg List.length hkeys
    rw [List.length_map, List.length_range, List.length_cons] at hlen
    exact getD_numberFrom key 0 keys (by omega)

variable (P : OrderedPartition K spec.orderBy input idxs)

theorem peers_between {p m q : Nat} (hpm : p ≤ m) (hmq : m ≤ q) (hq : q < idxs.length) (h : P.Peers p q) :
    P.Peers p m := by
  refine (P.sorted_rank hpm (by omega)).resolve_right ?_
  rintro ⟨i, hi, hlt, heq⟩
  rcases P.sorted_rank hmq hq with hpeers | ⟨j, hj, hlt', heq'⟩
  · have := h i hi
    have := hpeers i hi
    omega
  · rcases Nat.lt_trichotomy i j with hij | rfl | hij
    · have := h i hi
      have := heq' i hij
      omega
    · have := h i hi
      omega
    · have := h j hj
      have := heq j hij
      omega

/-- The code's numbers are those of the peer groups where the bytes of neighbouring keys agree as the keys do. -/
theorem groupsByPeers_peerIds (hkeys : ∀ p, p + 1 < idxs.length →
      (windowKeysEqual K (keyAt input idxs (p + 1)) (keyAt input idxs p) = true ↔ P.Peers p (p + 1))) :
    GroupsByPeers K P (peerIds K spec input idxs) := by
  have hnum := numbered_peerIds K spec input idxs
  have hlen := length_peerIds K spec input idxs
  have hle : ∀ q < idxs.length, ∀ p ≤ q,
      ((peerIds K spec input idxs).getD p 0 = (peerIds K spec input idxs).getD q 0 ↔ P.Peers p q) := by
    cases horder : spec.orderBy.isEmpty with
    | true =>
      have hnil : spec.orderBy = [] := by simpa using horder
      intro q hq p hp
      refine iff_of_true ?_ fun i hi => ?_
      · simp [peerIds, hnil, List.getD_eq_getElem?_getD, hq, Nat.lt_of_le_of_lt hp hq]
      · rw [hnil] at hi
        exact absurd hi (Nat.not_lt_zero i)
    | false =>
      intro q hq p hp
      induction q with
      | zero =>
        obtain rfl : p = 0 := by omega
        exact iff_of_true rfl fun i _ => rfl
      | succ q ih =>
        rcases Nat.eq_or_lt_of_le hp with rfl | hlt
        · exact iff_of_true rfl fun i _ => rfl
        · have hprev := ih (by omega) (by omega)
          have hmono := hnum.number_le (show p ≤ q by omega) (by omega)
          rw [getD_peerIds horder hq]
          by_cases hstep : P.Peers q (q + 1)
          · rw [if_pos ((hkeys q hq).2 hstep), hprev]
            constructor
            · exact fun h i hi => (h i hi).trans (hstep i hi)
            · exact fun h => peers_between P (by omega) (Nat.le_succ q) hq h
          · rw [if_neg fun h => hstep ((hkeys q hq).1 h)]
            refine iff_of_false (by omega) fun h => hstep fun i hi => ?_
            exact (peers_between P (by omega) (Nat.le_succ q) hq h i hi).symm.trans (h i hi)
  refine ⟨hnum, hlen, fun q hq p hp => ?_⟩
  rcases Nat.le_total p q with h | h
  · exact hle q hq p h
  · rw [eq_comm, hle p hp q h]
    exact ⟨fun h i hi => (h i hi).symm, fun h i hi => (h i hi).symm⟩

end

end Windows
