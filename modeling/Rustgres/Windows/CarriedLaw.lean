-- SUMMARY: When the carried counts and sums of a partition are those of the frames of its rows.
import Rustgres.Windows.CarriedSums

/-!
# The Law of Carried Aggregates

A carried aggregate is compared, row by row, with the aggregate folded over the rows of the row's own frame.
-/

namespace Windows

open Encoding (Value)
open Running
open Loops (Outcome)

variable {E : Type} {K : KeyOps} {A : AggOps} {spec : ExecWindow E} {input : WindowInput} {idxs : List Nat}

/-- The arguments of the frame of the row at `j` that are not null. -/
def ownArgs (K : KeyOps) (spec : ExecWindow E) (input : WindowInput) (idxs : List Nat) (j : Nat) : List Value :=
  match resolveFrame K spec input idxs j (peerIds K spec input idxs) with
  | .ok frame =>
    ((frameRows spec input idxs (peerIds K spec input idxs) j frame).map fun p => argAt input idxs p 0).filter
      fun v => !isNull v
  | .error _ => []

/-- The first row has a frame without rows and an argument that counts. -/
def FirstRowCounted (spec : ExecWindow E) (input : WindowInput) (idxs : List Nat) : Prop :=
  EmptyAtFirst spec ∧ 0 < idxs.length ∧ isNull (argAt input idxs 0 0) = false

/-- The sum of every frame is in the range of the type of the arguments. -/
def SumsFit (K : KeyOps) (spec : ExecWindow E) (input : WindowInput) (idxs : List Nat) (cat : NumCat) : Prop :=
  ∀ j < idxs.length, Narrow cat (intSum (ownArgs K spec input idxs j))

/-- The sum of some frame does not fit the type of its result. -/
def SumFails (K : KeyOps) (spec : ExecWindow E) (input : WindowInput) (idxs : List Nat) : Prop :=
  ∃ j < idxs.length, (ownArgs K spec input idxs j).any isBig = false ∧
    ¬(-2 ^ 63 ≤ intSum (ownArgs K spec input idxs j) ∧ intSum (ownArgs K spec input idxs j) < 2 ^ 63)

/-- The sum of every frame has the type that it is carried in. -/
def SameTypes (K : KeyOps) (spec : ExecWindow E) (input : WindowInput) (idxs : List Nat) (cat : NumCat) : Prop :=
  ∀ j < idxs.length, ownArgs K spec input idxs j = [] ∨
    cat = .big ∧ (ownArgs K spec input idxs j).any isBig = false

/-! ## Rows -/

theorem ownArgs_eq {last : Option Nat} {j : Nat} (hspec : cumulative spec = true)
    (h : resolveFrame K spec input idxs j (peerIds K spec input idxs) = .ok (frameTo last)) :
    ownArgs K spec input idxs j = frameValues input idxs last := by
  rw [ownArgs, h]
  simp only [frameRows_cumulative hspec]
  cases last <;> rfl

/-- A sweep over the frames of a partition answers the longest prefix of each row. -/
theorem sweep_frames {α : Type} {step : α → Nat → Except ExecError α} {emit : α → Except ExecError Value} {init : α}
    {last : Nat → Option Nat} (hgrow : Grows idxs.length last)
    (hframe : ∀ j < idxs.length, resolveFrame K spec input idxs j (peerIds K spec input idxs) = .ok (frameTo (last j))) :
    sweep step emit
        (fun j => (resolveFrame K spec input idxs j (peerIds K spec input idxs)).map fun frame => frame.2 + 1)
        (List.range idxs.length) 0 init =
      (List.range idxs.length).mapM fun j => upTo step init (reachOf (last j)) >>= emit := by
  have hreach : ∀ j ∈ List.range idxs.length,
      ((resolveFrame K spec input idxs j (peerIds K spec input idxs)).map fun frame => frame.2 + 1) =
        .ok (reachOf (last j)) := by
    intro j hj
    rw [hframe j (List.mem_range.1 hj)]
    cases last j <;> rfl
  have hsorted : ((List.range idxs.length).map fun j => reachOf (last j)).Pairwise (· ≤ ·) := by
    rw [List.pairwise_map]
    refine List.pairwise_lt_range.imp_of_mem fun hp hq hpq => ?_
    exact hgrow.mono _ (List.mem_range.1 hq) _ (Nat.le_of_lt hpq)
  rw [sweep_eq step emit hreach (upTo_zero step init), peaks_of_pairwise (by simp) hsorted, List.mapM_map]
  rfl

theorem foldAfresh_eq {f : AggFunc} {last : Nat → Option Nat} (hspec : cumulative spec = true)
    (hf : f = .count ∨ f = .sum) (hstar : (f = .count && spec.args.isEmpty) = false)
    (hframe : ∀ j < idxs.length, resolveFrame K spec input idxs j (peerIds K spec input idxs) = .ok (frameTo (last j))) :
    foldAfresh K A spec f input idxs =
      (List.range idxs.length).mapM fun j => evalWindowAgg A f (frameValues input idxs (last j)) := by
  refine Loops.mapM_congr fun j hj => ?_
  rw [hframe j (List.mem_range.1 hj), hstar]
  simp only [bind, Except.bind, frameRows_cumulative hspec, Bool.false_eq_true, if_false]
  exact frameAgg_eq hf input idxs (last j)

theorem nonNulls_one (input : WindowInput) (idxs : List Nat) :
    nonNulls input idxs 1 = if isNull (argAt input idxs 0 0) then [] else [argAt input idxs 0 0] :=
  nonNulls_succ input idxs 0

/-- The accumulator holds the arguments of the frame at every row, unless the first row is counted without one. -/
theorem nonNulls_reach {last : Option Nat} (h : last = none → isNull (argAt input idxs 0 0) = true) :
    nonNulls input idxs (reachOf last) = frameValues input idxs last := by
  cases last with
  | some e => rfl
  | none =>
    rw [reachOf, nonNulls_one, h rfl]
    rfl

/-! ## Counts -/

theorem computeAgg_countStar (hargs : spec.args = []) :
    computeAgg K A spec .count input idxs = foldAfresh K A spec .count input idxs := by
  simp [computeAgg, foldAfresh, hargs]

theorem computeAgg_count (hspec : cumulative spec = true) (hargs : spec.args ≠ []) :
    computeAgg K A spec .count input idxs =
      sweep (countStep input idxs) (fun count => .ok (.bigInt (Int64.ofNat count)))
        (fun j => (resolveFrame K spec input idxs j (peerIds K spec input idxs)).map fun frame => frame.2 + 1)
        (List.range idxs.length) 0 0 := by
  have hstar : spec.args.isEmpty = false := by simpa using hargs
  simp [computeAgg, hstar, hspec]

theorem cumulative_start (hspec : cumulative spec = true) : frameStartIsUnboundedPreceding spec = true := by
  simp only [cumulative, Bool.and_eq_true] at hspec
  exact hspec.1.1

theorem carried_count (P : OrderedPartition K spec.orderBy input idxs) (hspec : cumulative spec = true)
    (hargs : spec.args ≠ []) :
    computeAgg K A spec .count input idxs = foldAfresh K A spec .count input idxs ↔
      ¬FirstRowCounted spec input idxs := by
  obtain ⟨last, hgrow, hframe, hempty⟩ := resolveFrame_cumulative P (cumulative_start hspec)
  rw [foldAfresh_eq hspec (.inl rfl) (by simpa using hargs) hframe, computeAgg_count hspec hargs,
    sweep_frames hgrow hframe]
  simp only [upTo_countStep, bind, Except.bind, evalWindowAgg]
  rw [@Loops.mapM_eq_ok _ _ _ _ (fun j => Value.bigInt (Int64.ofNat (nonNulls input idxs (reachOf (last j))).length))
      (List.range idxs.length) fun j _ => rfl,
    @Loops.mapM_eq_ok _ _ _ _ (fun j => Value.bigInt (Int64.ofNat (frameValues input idxs (last j)).length))
      (List.range idxs.length) fun j _ => rfl,
    Except.ok.injEq, List.map_inj_left]
  constructor
  · rintro hall ⟨hfirst, hn, hnull⟩
    obtain ⟨j, hj, hnone⟩ := hempty.2 ⟨hn, hfirst⟩
    have hrow := hall j (List.mem_range.2 hj)
    rw [hnone, reachOf, nonNulls_one, hnull] at hrow
    simp [frameValues] at hrow
  · intro hnot j hj
    rw [nonNulls_reach fun hnone => ?_]
    by_contra hnull
    obtain ⟨hn, hfirst⟩ := hempty.1 ⟨j, List.mem_range.1 hj, hnone⟩
    exact hnot ⟨hfirst, hn, by simpa using hnull⟩

/-! ## Sums -/

/-- The sum of integers as it is folded afresh. -/
def plainSum (vals : List Value) : Value :=
  if vals.any isBig then .numeric (numericOut (Num.Numeric.new (intSum vals) 0)) else .bigInt (Int64.ofInt (intSum vals))

theorem computeAgg_sum {cat : NumCat} (hspec : cumulative spec = true) (hargs : spec.args.length = 1)
    (hcat : partitionSumIntCat input idxs = some cat) :
    computeAgg K A spec .sum input idxs =
      sweep (sumStep input idxs)
        (fun acc => if acc.2 then fitIntResult (if cat = .small then .int else cat) acc.1 else .ok .null)
        (fun j => (resolveFrame K spec input idxs j (peerIds K spec input idxs)).map fun frame => frame.2 + 1)
        (List.range idxs.length) 0 (0, false) := by
  simp [computeAgg, hspec, hargs, hcat]

/-- The row of a carried sum whose accumulator holds `vals`. -/
def carriedRow (cat : NumCat) (vals : List Value) : Except ExecError Value :=
  if vals.isEmpty then .ok .null else fitIntResult (if cat = .small then .int else cat) (intSum vals)

theorem upTo_carriedRow {cat : NumCat} {k : Nat} (hk : k < 2 ^ 64) :
    (upTo (sumStep input idxs) (0, false) k >>= fun acc =>
        if acc.2 then fitIntResult (if cat = .small then .int else cat) acc.1 else .ok .null) =
      carriedRow cat (nonNulls input idxs k) := by
  rw [upTo_sumStep input idxs hk, carriedRow]
  simp only [bind, Except.bind]
  cases (nonNulls input idxs k).isEmpty <;> rfl

/-- Sums folded afresh fail where they are not wide and no wide integer is among them. -/
theorem sumVals_ok {vals : List Value} (hlen : vals.length < 2 ^ 64) (hint : ∀ v ∈ vals, isInt v = true)
    (hne : vals ≠ []) :
    ((vals.any isBig = true ∨ -2 ^ 63 ≤ intSum vals ∧ intSum vals < 2 ^ 63) → sumVals A vals = .ok (plainSum vals)) ∧
      (vals.any isBig = false ∧ ¬(-2 ^ 63 ≤ intSum vals ∧ intSum vals < 2 ^ 63) → ∃ e, sumVals A vals = .error e) := by
  rw [sumVals_int hne hlen hint, plainSum]
  cases hbig : vals.any isBig with
  | true => exact ⟨fun _ => rfl, fun h => absurd h.1 (by simp)⟩
  | false =>
    refine ⟨fun h => ?_, fun h => ⟨_, if_neg h.2⟩⟩
    exact if_pos (h.resolve_left (by simp))

/-- A relation of results, and what it needs of the arguments of two sums that are both there. -/
structure Relates (cat : NumCat) (R : Value → Value → Prop) (T : List Value → Prop) : Prop where
  nulls : R .null .null
  not_null : ∀ s, ¬R (carriedSum cat s) .null
  sums : ∀ vals, (cat ≠ .big → vals.any isBig = false) → Narrow cat (intSum vals) →
    (R (carriedSum cat (intSum vals)) (plainSum vals) ↔ T vals)

/-- A row whose accumulator holds the arguments of its frame. -/
theorem row_iff {cat : NumCat} {R : Value → Value → Prop} {T : List Value → Prop} (hR : Relates cat R T)
    (hcat : cat.rank ≤ 2) {vals : List Value} (hlen : vals.length < 2 ^ 64) (hint : ∀ v ∈ vals, isInt v = true)
    (hbig : cat ≠ .big → vals.any isBig = false) :
    (∃ b c, carriedRow cat vals = .ok b ∧ sumVals A vals = .ok c ∧ R b c) ↔
      Narrow cat (intSum vals) ∧ (vals = [] ∨ T vals) := by
  by_cases hne : vals = []
  · subst hne
    have hzero : Narrow cat 0 := by
      unfold Narrow
      split <;> omega
    exact ⟨fun _ => ⟨hzero, .inl rfl⟩, fun _ => ⟨.null, .null, rfl, rfl, hR.nulls⟩⟩
  · have hempty : vals.isEmpty = false := by simpa using hne
    obtain ⟨hfit, hover⟩ := fitIntResult_narrow hcat (intSum vals)
    rw [carriedRow, hempty, or_iff_right hne]
    simp only [Bool.false_eq_true, if_false]
    constructor
    · rintro ⟨b, c, hb, hc, hbc⟩
      have hnarrow : Narrow cat (intSum vals) := by
        by_contra hnot
        obtain ⟨e, he⟩ := hover hnot
        rw [he] at hb
        cases hb
      rw [hfit hnarrow] at hb
      rw [(sumVals_ok hlen hint hne).1 (.inr hnarrow.wide)] at hc
      cases hb
      cases hc
      exact ⟨hnarrow, (hR.sums vals hbig hnarrow).1 hbc⟩
    · rintro ⟨hnarrow, hT⟩
      exact ⟨_, _, hfit hnarrow, (sumVals_ok hlen hint hne).1 (.inr hnarrow.wide), (hR.sums vals hbig hnarrow).2 hT⟩

/-- The first row without a frame and with an argument: the accumulator already has a sum. -/
theorem not_row_first {cat : NumCat} {R : Value → Value → Prop} {T : List Value → Prop} (hR : Relates cat R T)
    (hcat : cat.rank ≤ 2) (v : Value) :
    ¬∃ b c, carriedRow cat [v] = .ok b ∧ sumVals A [] = .ok c ∧ R b c := by
  rintro ⟨b, c, hb, hc, hbc⟩
  cases hc
  obtain ⟨hfit, hover⟩ := fitIntResult_narrow hcat (intSum [v])
  by_cases hnarrow : Narrow cat (intSum [v])
  · rw [carriedRow, List.isEmpty_cons, if_neg (by simp), hfit hnarrow] at hb
    cases hb
    exact hR.not_null _ hbc
  · obtain ⟨e, he⟩ := hover hnarrow
    rw [carriedRow, List.isEmpty_cons, if_neg (by simp), he] at hb
    cases hb

theorem sumVals_error {vals : List Value} (hlen : vals.length < 2 ^ 64) (hint : ∀ v ∈ vals, isInt v = true) :
    (∃ e, sumVals A vals = .error e) ↔
      vals.any isBig = false ∧ ¬(-2 ^ 63 ≤ intSum vals ∧ intSum vals < 2 ^ 63) := by
  by_cases hne : vals = []
  · subst hne
    simp [sumVals, intSum]
  · obtain ⟨hok, herr⟩ := @sumVals_ok A vals hlen hint hne
    refine ⟨?_, herr⟩
    rintro ⟨e, he⟩
    by_contra hnot
    have hwide : vals.any isBig = true ∨ -2 ^ 63 ≤ intSum vals ∧ intSum vals < 2 ^ 63 := by
      cases hbig : vals.any isBig with
      | true => exact .inl rfl
      | false => exact .inr (by_contra fun h => hnot ⟨hbig, h⟩)
    rw [hok hwide] at he
    cases he

/-- Carried sums under a relation of results. -/
theorem carried_sum_of {cat : NumCat} {R : Value → Value → Prop} {T : List Value → Prop} (hR : Relates cat R T)
    (P : OrderedPartition K spec.orderBy input idxs) (hn : idxs.length < 2 ^ 64) (hspec : cumulative spec = true)
    (hargs : spec.args.length = 1) (hcat : partitionSumIntCat input idxs = some cat) :
    Outcome R (computeAgg K A spec .sum input idxs) (foldAfresh K A spec .sum input idxs) ↔
      (¬FirstRowCounted spec input idxs ∧ ∀ j < idxs.length, Narrow cat (intSum (ownArgs K spec input idxs j)) ∧
        (ownArgs K spec input idxs j = [] ∨ T (ownArgs K spec input idxs j))) ∨
      SumFails K spec input idxs := by
  obtain ⟨last, hgrow, hframe, hempty⟩ := resolveFrame_cumulative P (cumulative_start hspec)
  obtain ⟨hrank, hkind⟩ := partitionSumIntCat_spec hcat
  have hreach : ∀ j < idxs.length, reachOf (last j) ≤ idxs.length := by
    intro j hj
    cases h : last j with
    | none => exact Nat.lt_of_le_of_lt (Nat.zero_le j) hj
    | some e => exact hgrow.inside j hj e h
  have hown : ∀ j < idxs.length, ownArgs K spec input idxs j = frameValues input idxs (last j) := fun j hj =>
    ownArgs_eq hspec (hframe j hj)
  have hvals : ∀ j < idxs.length, (frameValues input idxs (last j)).length < 2 ^ 64 ∧
      (∀ v ∈ frameValues input idxs (last j), isInt v = true) ∧
      (cat ≠ .big → (frameValues input idxs (last j)).any isBig = false) := by
    intro j hj
    cases h : last j with
    | none => exact ⟨by simp [frameValues], by simp [frameValues], fun _ => rfl⟩
    | some e =>
      have he := hgrow.inside j hj e h
      have hall := hkind (e + 1) he
      refine ⟨Nat.lt_of_le_of_lt (length_nonNulls_le input idxs (e + 1)) (by omega), fun v hv => (hall v hv).1,
        fun hne => ?_⟩
      rw [List.any_eq_false]
      intro v hv
      simpa using (hall v hv).2 hne
  have hsame : ¬FirstRowCounted spec input idxs → ∀ j < idxs.length,
      nonNulls input idxs (reachOf (last j)) = frameValues input idxs (last j) := by
    intro hnot j hj
    refine nonNulls_reach fun hnone => ?_
    by_contra hnull
    obtain ⟨hlen, hfirst⟩ := hempty.1 ⟨j, hj, hnone⟩
    exact hnot ⟨hfirst, hlen, by simpa using hnull⟩
  have hrow : ¬FirstRowCounted spec input idxs → ∀ j < idxs.length,
      ((∃ b c, carriedRow cat (nonNulls input idxs (reachOf (last j))) = .ok b ∧
          sumVals A (frameValues input idxs (last j)) = .ok c ∧ R b c) ↔
        Narrow cat (intSum (ownArgs K spec input idxs j)) ∧
          (ownArgs K spec input idxs j = [] ∨ T (ownArgs K spec input idxs j))) := by
    intro hnot j hj
    obtain ⟨hlen, hint, hbig⟩ := hvals j hj
    rw [hsame hnot j hj, hown j hj]
    exact row_iff hR hrank hlen hint hbig
  rw [foldAfresh_eq hspec (.inr rfl) (by rfl) hframe, computeAgg_sum hspec hargs hcat, sweep_frames hgrow hframe,
    Loops.mapM_congr fun j hj =>
      upTo_carriedRow (Nat.lt_of_le_of_lt (hreach j (List.mem_range.1 hj)) hn), Loops.outcome_mapM]
  simp only [List.mem_range, evalWindowAgg]
  refine or_congr ⟨fun hall => ?_, ?_⟩ ⟨?_, ?_⟩
  · have hnot : ¬FirstRowCounted spec input idxs := by
      rintro ⟨hfirst, hlen, hnull⟩
      obtain ⟨j, hj, hnone⟩ := hempty.2 ⟨hlen, hfirst⟩
      have hj' := hall j hj
      rw [hnone, reachOf, nonNulls_one, hnull] at hj'
      exact not_row_first hR hrank _ hj'
    exact ⟨hnot, fun j hj => (hrow hnot j hj).1 (hall j hj)⟩
  · rintro ⟨hnot, hall⟩ j hj
    exact (hrow hnot j hj).2 (hall j hj)
  · rintro ⟨-, j, hj, hfail⟩
    obtain ⟨hlen, hint, -⟩ := hvals j hj
    refine ⟨j, hj, ?_⟩
    rw [hown j hj]
    exact (sumVals_error hlen hint).1 hfail
  · rintro ⟨j, hj, hfail⟩
    obtain ⟨hlen, hint, -⟩ := hvals j hj
    rw [hown j hj] at hfail
    have hreached : nonNulls input idxs (reachOf (last j)) = frameValues input idxs (last j) := by
      refine nonNulls_reach fun hnone => ?_
      rw [hnone] at hfail
      simp [frameValues, intSum] at hfail
    refine ⟨⟨j, hj, ?_⟩, j, hj, (sumVals_error hlen hint).2 hfail⟩
    have hne : (frameValues input idxs (last j)).isEmpty = false := by
      by_contra hnil
      rw [Bool.not_eq_false, List.isEmpty_iff] at hnil
      rw [hnil] at hfail
      simp [intSum] at hfail
    rw [hreached, carriedRow, hne]
    exact (fitIntResult_narrow hrank _).2 fun hnarrow => hfail.2 hnarrow.wide

/-! ## The two relations -/

theorem relates_sameNumber (cat : NumCat) : Relates cat SameNumber fun _ => True where
  nulls := .inl rfl
  not_null := by
    rintro s (h | ⟨q, -, hq⟩)
    · unfold carriedSum at h
      split at h <;> cases h
    · cases hq
  sums := fun vals hbig hnarrow => by
    refine ⟨fun _ => trivial, fun _ => .inr ⟨intSum vals, number_carriedSum hnarrow, ?_⟩⟩
    unfold plainSum
    split
    · exact number_numeric _
    · exact number_bigInt hnarrow.wide

theorem relates_eq (cat : NumCat) : Relates cat Eq fun vals => cat = .big ∧ vals.any isBig = false where
  nulls := rfl
  not_null := by
    intro s h
    unfold carriedSum at h
    split at h <;> cases h
  sums := fun vals hbig hnarrow => by
    unfold carriedSum plainSum
    by_cases hcat : cat = .big
    · cases hany : vals.any isBig <;> simp [hcat]
    · simp [hcat, hbig hcat]

/-- Counts of rows are always those of the frames. Counts of an argument are, unless the first row is counted without
a frame. Sums of integers are, by their numbers, when besides every one is in the range of the type of the arguments;
and as values when each has that type. -/
theorem carried_aggregates (spec : ExecWindow E) (input : WindowInput) (idxs : List Nat)
    (P : OrderedPartition K spec.orderBy input idxs) (hn : idxs.length < 2 ^ 64) :
    (spec.args = [] → computeAgg K A spec .count input idxs = foldAfresh K A spec .count input idxs) ∧
    (cumulative spec = true → spec.args ≠ [] →
      (computeAgg K A spec .count input idxs = foldAfresh K A spec .count input idxs ↔
        ¬FirstRowCounted spec input idxs)) ∧
    (∀ cat, cumulative spec = true → spec.args.length = 1 → partitionSumIntCat input idxs = some cat →
      (Outcome SameNumber (computeAgg K A spec .sum input idxs) (foldAfresh K A spec .sum input idxs) ↔
        (¬FirstRowCounted spec input idxs ∧ SumsFit K spec input idxs cat) ∨ SumFails K spec input idxs) ∧
      (Outcome Eq (computeAgg K A spec .sum input idxs) (foldAfresh K A spec .sum input idxs) ↔
        (¬FirstRowCounted spec input idxs ∧ SumsFit K spec input idxs cat ∧ SameTypes K spec input idxs cat) ∨
          SumFails K spec input idxs)) := by
  refine ⟨computeAgg_countStar, carried_count P, fun cat hspec hargs hcat => ⟨?_, ?_⟩⟩
  · rw [carried_sum_of (relates_sameNumber cat) P hn hspec hargs hcat]
    simp [SumsFit]
  · rw [carried_sum_of (relates_eq cat) P hn hspec hargs hcat]
    simp only [SumsFit, SameTypes, forall₂_and]

/-- Integer keys that fit a byte. -/
def smallKeys : KeyOps where
  compare := fun a b => .ok (compare (toI128 a) (toI128 b))
  valueKey := fun v => [UInt8.ofNat (toI128 v).toNat]
  intToF64 := fun _ => 0
  numericToF64 := fun _ => 0
  addF64 := fun a _ => a
  subF64 := fun a _ => a
  leF64 := fun _ _ => true

def noOtherAggs : AggOps where
  toF64v := fun _ => 0
  addF64 := fun a _ => a
  toF32 := fun _ => 0
  numericOther := fun _ => none
  typeName := fun _ => "unknown"
  otherAgg := fun _ _ => .ok .null
  ctorAgg := fun _ _ => .ok .null

/-- `sum(x) OVER (ORDER BY id)`. -/
def runningTotal : ExecWindow Unit := ⟨.agg .sum, [()], false, [], [⟨(), false, none⟩], .default, none, .noOthers⟩

/-- Two rows with the ids 1 and 2, the first with the largest 32-bit integer. -/
def twoRows : WindowInput := ⟨[[.int 1], [.int 2]], [[.int 2147483647], [.int 1]], []⟩

def twoRowsOrdered : OrderedPartition smallKeys runningTotal.orderBy twoRows [0, 1] where
  rank := fun p _ => p
  ranked := by
    intro p hp q hq i o ho
    have hi : i = 0 := by
      have := (List.getElem?_eq_some_iff.1 ho).1
      simp [runningTotal] at this
      exact this
    subst hi
    cases ho
    have hp' : p = 0 ∨ p = 1 := by simp at hp; omega
    have hq' : q = 0 ∨ q = 1 := by simp at hq; omega
    rcases hp' with rfl | rfl <;> rcases hq' with rfl | rfl <;> rfl
  sorted := by
    intro q hq p hp
    have hq' : q = 1 := by simp at hq; omega
    have hp' : p = 0 := by omega
    subst hq' hp'
    simp [compareWindowKeys, runningTotal, compareValues, keyAt, twoRows, smallKeys, toI128]
    decide

theorem carried_aggregates_two :
    0 < [0, 1].length ∧
      (Outcome SameNumber (computeAgg smallKeys noOtherAggs runningTotal .sum twoRows [0, 1])
          (foldAfresh smallKeys noOtherAggs runningTotal .sum twoRows [0, 1]) ↔
        (¬FirstRowCounted runningTotal twoRows [0, 1] ∧ SumsFit smallKeys runningTotal twoRows [0, 1] .int) ∨
          SumFails smallKeys runningTotal twoRows [0, 1]) :=
  ⟨by decide, ((carried_aggregates runningTotal twoRows [0, 1] twoRowsOrdered (by decide)).2.2 .int rfl rfl rfl).1⟩

/-- `count(x) OVER (ORDER BY id GROUPS BETWEEN UNBOUNDED PRECEDING AND 1 PRECEDING)`. -/
def countBefore : ExecWindow Unit :=
  { runningTotal with func := .agg .count, frame := .groups .unboundedPreceding (.preceding 1) }

/-- A running total past 32 bits fails where the plain sum does not; the first row is counted in a frame without rows. -/
theorem running_total_fails :
    computeAgg smallKeys noOtherAggs runningTotal .sum twoRows [0, 1] =
        .error (execError "22003" "integer out of range") ∧
      foldAfresh smallKeys noOtherAggs runningTotal .sum twoRows [0, 1] =
        .ok [.bigInt 2147483647, .bigInt 2147483648] ∧
      ¬Outcome SameNumber (computeAgg smallKeys noOtherAggs runningTotal .sum twoRows [0, 1])
        (foldAfresh smallKeys noOtherAggs runningTotal .sum twoRows [0, 1]) ∧
      computeAgg smallKeys noOtherAggs countBefore .count twoRows [0, 1] = .ok [.bigInt 1, .bigInt 1] ∧
      foldAfresh smallKeys noOtherAggs countBefore .count twoRows [0, 1] = .ok [.bigInt 0, .bigInt 1] :=
  ⟨rfl, rfl, fun h => h, rfl, rfl⟩

end Windows
