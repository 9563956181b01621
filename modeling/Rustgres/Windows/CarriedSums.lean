-- SUMMARY: Counts and sums by carrying an accumulator equal those of every frame, up to the values each can hold.
import Mathlib.Algebra.Order.Group.Abs
import Mathlib.Tactic.Linarith
import Rustgres.Lib.Loops
import Rustgres.Windows.Incremental

/-!
# Carried Counts and Sums

Over the frames of a partition the carried count is wrong only for frames without rows, and the carried sum fails
where the type of its arguments cannot hold it.
-/

namespace Windows

open Encoding (Value)
open Running

variable {E : Type} {K : KeyOps} {A : AggOps}

/-- The aggregate of each row over the rows of its own frame. -/
def foldAfresh (K : KeyOps) (A : AggOps) (spec : ExecWindow E) (f : AggFunc) (input : WindowInput) (idxs : List Nat) :
    Except ExecError (List Value) :=
  let peerId := peerIds K spec input idxs
  (List.range idxs.length).mapM fun j => do
    let frame ← resolveFrame K spec input idxs j peerId
    let rows := frameRows spec input idxs peerId j frame
    if f = .count && spec.args.isEmpty then .ok (.bigInt (Int64.ofNat rows.length))
    else frameAgg A f input idxs rows

/-! ## The arguments of a frame -/

/-- The arguments of the first `k` rows that are not null. -/
def nonNulls (input : WindowInput) (idxs : List Nat) (k : Nat) : List Value :=
  ((List.range k).map fun p => argAt input idxs p 0).filter fun v => !isNull v

/-- The arguments of a frame. -/
def frameValues (input : WindowInput) (idxs : List Nat) (last : Option Nat) : List Value :=
  last.elim [] fun e => nonNulls input idxs (e + 1)

def intSum (vals : List Value) : Int := (vals.map toI128).sum

theorem nonNulls_succ (input : WindowInput) (idxs : List Nat) (k : Nat) :
    nonNulls input idxs (k + 1) =
      nonNulls input idxs k ++ if isNull (argAt input idxs k 0) then [] else [argAt input idxs k 0] := by
  rw [nonNulls, nonNulls, List.range_succ, List.map_append, List.filter_append, List.map_singleton,
    List.filter_singleton]
  cases isNull (argAt input idxs k 0) <;> rfl

theorem mem_nonNulls {input : WindowInput} {idxs : List Nat} {k : Nat} {v : Value} :
    v ∈ nonNulls input idxs k ↔ ∃ p < k, argAt input idxs p 0 = v ∧ isNull v = false := by
  simp only [nonNulls, List.mem_filter, List.mem_map, List.mem_range, Bool.not_eq_true']
  constructor
  · rintro ⟨⟨p, hp, rfl⟩, hv⟩
    exact ⟨p, hp, rfl, hv⟩
  · rintro ⟨p, hp, rfl, hv⟩
    exact ⟨⟨p, hp, rfl⟩, hv⟩

theorem length_nonNulls_le (input : WindowInput) (idxs : List Nat) (k : Nat) :
    (nonNulls input idxs k).length ≤ k := by
  refine (List.length_filter_le _ _).trans ?_
  simp

theorem frameRows_cumulative {spec : ExecWindow E} (hspec : cumulative spec = true) (input : WindowInput)
    (idxs peerId : List Nat) (j : Nat) (last : Option Nat) :
    frameRows spec input idxs peerId j (frameTo last) = last.elim [] fun e => List.range (e + 1) := by
  simp only [cumulative, Bool.and_eq_true, Bool.not_eq_true', decide_eq_true_eq] at hspec
  cases last with
  | none => rfl
  | some e =>
    simp [frameRows, frameTo, filteredOut, excluded, hspec.1.2, hspec.2, List.range_eq_range']

/-- The aggregate of a frame folds its arguments. -/
theorem frameAgg_eq {f : AggFunc} (hf : f = .count ∨ f = .sum) (input : WindowInput) (idxs : List Nat)
    (last : Option Nat) :
    frameAgg A f input idxs (last.elim [] fun e => List.range (e + 1)) =
      evalWindowAgg A f (frameValues input idxs last) := by
  rcases hf with rfl | rfl <;> cases last <;> simp [frameAgg, keepsNulls, frameValues, nonNulls]

/-! ## Counts -/

theorem upTo_countStep (input : WindowInput) (idxs : List Nat) (k : Nat) :
    upTo (countStep input idxs) 0 k = .ok (nonNulls input idxs k).length := by
  induction k with
  | zero => rfl
  | succ k ih =>
    rw [upTo, List.range_succ, List.foldlM_append, ← upTo, ih, nonNulls_succ]
    cases h : isNull (argAt input idxs k 0) <;> simp [countStep, h, bind, Except.bind, pure, Except.pure]

/-! ## Sums -/

/-- An integer of any width. -/
def isInt : Value → Bool
  | .smallInt _ | .int _ | .bigInt _ => true
  | _ => false

def isBig : Value → Bool
  | .bigInt _ => true
  | _ => false

theorem toI128_range (v : Value) : -2 ^ 63 ≤ toI128 v ∧ toI128 v < 2 ^ 63 := by
  cases v with
  | smallInt i =>
    have h := i.le_toInt
    have h' := i.toInt_lt
    simp only [toI128]
    omega
  | int i => exact ⟨i.le_toInt, i.toInt_lt⟩
  | bigInt i => exact ⟨i.le_toInt, i.toInt_lt⟩
  | _ => simp [toI128]

theorem intSum_range (vals : List Value) :
    -(2 ^ 63 * vals.length : Int) ≤ intSum vals ∧ intSum vals ≤ 2 ^ 63 * vals.length := by
  induction vals with
  | nil => simp [intSum]
  | cons v vals ih =>
    have hv := toI128_range v
    have hcons : intSum (v :: vals) = toI128 v + intSum vals := by simp [intSum]
    rw [hcons, List.length_cons]
    push_cast
    omega

/-- The sum of as many integers as there can be rows. -/
theorem inI128_intSum {vals : List Value} (h : vals.length < 2 ^ 64) : Num.InI128 (intSum vals) := by
  have hr := intSum_range vals
  have hle : (vals.length : Int) ≤ 2 ^ 64 - 1 := by omega
  constructor
  · omega
  · omega

theorem intSum_append (a b : List Value) : intSum (a ++ b) = intSum a + intSum b := by simp [intSum]

theorem upTo_sumStep (input : WindowInput) (idxs : List Nat) {k : Nat} (hk : k < 2 ^ 64) :
    upTo (sumStep input idxs) (0, false) k =
      .ok (intSum (nonNulls input idxs k), !(nonNulls input idxs k).isEmpty) := by
  induction k with
  | zero => rfl
  | succ k ih =>
    have hfit := inI128_intSum (Nat.lt_of_le_of_lt (length_nonNulls_le input idxs (k + 1)) hk)
    rw [upTo, List.range_succ, List.foldlM_append, ← upTo, ih (by omega)]
    rw [nonNulls_succ] at hfit ⊢
    cases h : isNull (argAt input idxs k 0) with
    | true => simp [sumStep, h, bind, Except.bind, pure, Except.pure]
    | false =>
      rw [h, intSum_append] at hfit
      simp only [Bool.false_eq_true, if_false, intSum, List.map_singleton, List.sum_singleton] at hfit
      have hadd := Num.checkedI128_eq_some.2 ⟨hfit, rfl⟩
      simp [sumStep, h, bind, Except.bind, pure, Except.pure, intSum, hadd]

theorem foldlM_intSumStep {vals : List Value} (h : vals.length < 2 ^ 64) :
    vals.foldlM intSumStep 0 = .ok (intSum vals) := by
  induction vals using List.reverseRecOn with
  | nil => rfl
  | append_singleton vals v ih =>
    have hfit := inI128_intSum h
    rw [List.length_append] at h
    rw [List.foldlM_append, ih (by omega)]
    rw [intSum_append] at hfit ⊢
    have hadd := Num.checkedI128_eq_some.2 ⟨hfit, rfl⟩
    simp only [intSum, List.map_singleton, List.sum_singleton] at hadd
    simp [intSumStep, bind, Except.bind, pure, Except.pure, intSum, hadd]

theorem new_integer (z : Int) : Num.Numeric.new z 0 = ⟨z, 0, 0, .finite, none⟩ := by
  unfold Num.Numeric.new
  by_cases hz : z = 0
  · simp [hz]
  · simp [hz]

/-- Integers add up as numerics without digits behind the point. -/
theorem checkedAdd_new {a b : Int} (ha : Num.InI128 a) (hb : Num.InI128 b) (hab : Num.InI128 (a + b)) :
    (Num.Numeric.new a 0).checkedAdd (Num.Numeric.new b 0) = some (Num.Numeric.new (a + b) 0) := by
  have hzero : Num.asU32 0 = 0 := Num.asU32_of_lt (Int.le_refl 0) (by norm_num)
  have hpow : Num.checkedPow10 0 = some 1 := Num.checkedI128_eq_some.2 ⟨⟨by norm_num, by norm_num⟩, pow_zero _⟩
  have hup : ∀ {z : Int}, Num.InI128 z → Num.checkedI128 (z * 1) = some z := fun hz =>
    Num.checkedI128_eq_some.2 ⟨by rwa [mul_one], mul_one _⟩
  have hsum := Num.checkedI128_eq_some.2 ⟨hab, rfl⟩
  rw [new_integer, new_integer, new_integer]
  have halign : Num.Numeric.aligned ⟨a, 0, 0, .finite, none⟩ ⟨b, 0, 0, .finite, none⟩ = some (a, b, 0) := by
    simp only [Num.Numeric.aligned, max_self, sub_self, hzero, hpow, Option.bind_some, hup ha, hup hb]
  simp only [Num.Numeric.checkedAdd, Num.Numeric.addFinite, halign, hsum, Option.isSome_none, Bool.false_eq_true,
    or_self, if_false, new_integer]
  rfl

theorem toNumericOpt_int {v : Value} (h : isInt v = true) :
    toNumericOpt A v = some (Num.Numeric.new (toI128 v) 0) := by
  cases v <;> first | rfl | simp [isInt] at h

theorem foldlM_numericSumStep {vals : List Value} (h : vals.length < 2 ^ 64) (hint : ∀ v ∈ vals, isInt v = true) :
    vals.foldlM (numericSumStep A) Num.Numeric.zero = .ok (Num.Numeric.new (intSum vals) 0) := by
  induction vals using List.reverseRecOn with
  | nil => rfl
  | append_singleton vals v ih =>
    have hfit := inI128_intSum h
    rw [List.length_append] at h
    have hsum : intSum [v] = toI128 v := by simp [intSum]
    have hone : Num.InI128 (toI128 v) := hsum ▸ inI128_intSum (by simp)
    rw [intSum_append, hsum] at hfit
    rw [List.foldlM_append, ih (by omega) fun w hw => hint w (by simp [hw]), intSum_append, hsum]
    simp [bind, Except.bind, pure, Except.pure, numericSumStep, toNumericOpt_int (hint v (by simp)),
      checkedAdd_new (inI128_intSum (by omega)) hone hfit]

theorem foldlM_catStep {vals : List Value} (hint : ∀ v ∈ vals, isInt v = true) {cat : NumCat} (hcat : cat.rank ≤ 2) :
    ∃ c, vals.foldlM (catStep A) cat = .ok c ∧ c.rank ≤ 2 ∧ (c = .big ↔ cat = .big ∨ vals.any isBig = true) := by
  induction vals generalizing cat with
  | nil => exact ⟨cat, rfl, hcat, by simp⟩
  | cons v vals ih =>
    have hv := hint v List.mem_cons_self
    have hrest : ∀ w ∈ vals, isInt w = true := fun w hw => hint w (List.mem_cons_of_mem v hw)
    rw [List.foldlM_cons, List.any_cons]
    cases v with
    | smallInt i =>
      obtain ⟨c, hc, hle, hbig⟩ := ih hrest (show (cat.max .small).rank ≤ 2 by cases cat <;> simp_all [NumCat.max, NumCat.rank])
      refine ⟨c, hc, hle, hbig.trans ?_⟩
      cases cat <;> simp_all [NumCat.max, NumCat.rank, isBig]
    | int i =>
      obtain ⟨c, hc, hle, hbig⟩ := ih hrest (show (cat.max .int).rank ≤ 2 by cases cat <;> simp_all [NumCat.max, NumCat.rank])
      refine ⟨c, hc, hle, hbig.trans ?_⟩
      cases cat <;> simp_all [NumCat.max, NumCat.rank, isBig]
    | bigInt i =>
      obtain ⟨c, hc, hle, hbig⟩ := ih hrest (show (cat.max .big).rank ≤ 2 by cases cat <;> simp_all [NumCat.max, NumCat.rank])
      refine ⟨c, hc, hle, hbig.trans ?_⟩
      cases cat <;> simp_all [NumCat.max, NumCat.rank, isBig]
    | _ => simp [isInt] at hv

/-- A sum of integers is a numeric where a wide one is among them. -/
theorem sumVals_int {vals : List Value} (hne : vals ≠ []) (hlen : vals.length < 2 ^ 64)
    (hint : ∀ v ∈ vals, isInt v = true) :
    sumVals A vals =
      if vals.any isBig then .ok (.numeric (numericOut (Num.Numeric.new (intSum vals) 0)))
      else fitIntResult .big (intSum vals) := by
  obtain ⟨c, hc, hle, hbig⟩ := @foldlM_catStep A vals hint .small (by decide)
  have hempty : vals.isEmpty = false := by simpa using hne
  simp only [reduceCtorEq, false_or] at hbig
  rw [sumVals, hempty, hc]
  cases c with
  | small =>
    have hany : vals.any isBig = false := by simpa using hbig
    rw [hany, foldlM_intSumStep hlen]
    rfl
  | int =>
    have hany : vals.any isBig = false := by simpa using hbig
    rw [hany, foldlM_intSumStep hlen]
    rfl
  | big =>
    rw [hbig.1 rfl, foldlM_numericSumStep hlen hint]
    rfl
  | numeric => simp [NumCat.rank] at hle
  | real => simp [NumCat.rank] at hle
  | double => simp [NumCat.rank] at hle

/-! ## Results -/

/-- The number a value stands for. -/
def number : Value → Option ℚ
  | .smallInt i => some i.toInt
  | .int i => some i.toInt
  | .bigInt i => some i.toInt
  | .numeric n => if n.special = .finite then some (numericIn n).value else none
  | _ => none

/-- Values that are the same, or the same number in two types. -/
def SameNumber (a b : Value) : Prop := a = b ∨ ∃ q, number a = some q ∧ number b = some q

/-- The range of the type that a carried sum is held in. -/
def Narrow (cat : NumCat) (s : Int) : Prop :=
  if cat = .big then -2 ^ 63 ≤ s ∧ s < 2 ^ 63 else -2 ^ 31 ≤ s ∧ s < 2 ^ 31

/-- A carried sum in the type of its category. -/
def carriedSum (cat : NumCat) (s : Int) : Value := if cat = .big then .bigInt (Int64.ofInt s) else .int (Int64.ofInt s)

theorem fitIntResult_narrow {cat : NumCat} (hcat : cat.rank ≤ 2) (s : Int) :
    (Narrow cat s → fitIntResult (if cat = .small then .int else cat) s = .ok (carriedSum cat s)) ∧
      (¬Narrow cat s → ∃ e, fitIntResult (if cat = .small then .int else cat) s = .error e) := by
  cases cat with
  | small =>
    refine ⟨fun h => ?_, fun h => ⟨_, if_neg h⟩⟩
    exact if_pos h
  | int =>
    refine ⟨fun h => ?_, fun h => ⟨_, if_neg h⟩⟩
    exact if_pos h
  | big =>
    refine ⟨fun h => ?_, fun h => ⟨_, if_neg h⟩⟩
    exact if_pos h
  | numeric => simp [NumCat.rank] at hcat
  | real => simp [NumCat.rank] at hcat
  | double => simp [NumCat.rank] at hcat

theorem number_numeric (s : Int) : number (.numeric (numericOut (Num.Numeric.new s 0))) = some (s : ℚ) := by
  rw [new_integer]
  simp [number, numericOut, numericIn, specialOut, specialIn, Num.Numeric.value, Num.Numeric.coef, Scaled.scaled]

theorem number_bigInt {s : Int} (h : -2 ^ 63 ≤ s ∧ s < 2 ^ 63) : number (.bigInt (Int64.ofInt s)) = some (s : ℚ) := by
  rw [number, Int64.toInt_ofInt_of_le h.1 h.2]

theorem Narrow.wide {cat : NumCat} {s : Int} (h : Narrow cat s) : -2 ^ 63 ≤ s ∧ s < 2 ^ 63 := by
  unfold Narrow at h
  split at h
  · exact h
  · exact ⟨by omega, by omega⟩

theorem number_carriedSum {cat : NumCat} {s : Int} (h : Narrow cat s) : number (carriedSum cat s) = some (s : ℚ) := by
  unfold carriedSum
  split
  · exact number_bigInt h.wide
  · rw [number, Int64.toInt_ofInt_of_le h.wide.1 h.wide.2]

/-! ## The category of a partition -/

/-- A category of integers, if there is one yet. -/
def IntCat (c : Option NumCat) : Prop := c = none ∨ c = some .small ∨ c = some .int ∨ c = some .big

theorem intCatStep_spec {c c' : Option NumCat} {v : Value} (hc : IntCat c) (h : intCatStep c v = some c') :
    (isNull v = true ∨ isInt v = true) ∧ (c' ≠ some .big → isBig v = false ∧ c ≠ some .big) ∧ IntCat c' := by
  rcases hc with rfl | rfl | rfl | rfl <;> cases v <;> simp only [intCatStep, Option.some.injEq, reduceCtorEq] at h <;>
    subst h <;> simp [isNull, isInt, isBig, IntCat, NumCat.max, NumCat.rank]

theorem foldlM_intCatStep {argVals : List (List Value)} {idxs : List Nat} {c r : Option NumCat} (hc : IntCat c)
    (h : idxs.foldlM (fun cat i => (argVals.getD i []).head?.bind (intCatStep cat)) c = some r) :
    (∀ i ∈ idxs, (isNull ((argVals.getD i []).getD 0 .null) = true ∨ isInt ((argVals.getD i []).getD 0 .null) = true) ∧
      (r ≠ some .big → isBig ((argVals.getD i []).getD 0 .null) = false)) ∧
    IntCat r ∧ (r ≠ some .big → c ≠ some .big) := by
  induction idxs generalizing c with
  | nil =>
    cases h
    exact ⟨fun i hi => absurd hi List.not_mem_nil, hc, fun hr => hr⟩
  | cons i idxs ih =>
    rw [List.foldlM_cons] at h
    obtain ⟨c', hc', hrest⟩ := Option.bind_eq_some_iff.1 h
    obtain ⟨v, hv, hstep⟩ := Option.bind_eq_some_iff.1 hc'
    obtain ⟨hkind, hbig, hcat⟩ := intCatStep_spec hc hstep
    obtain ⟨hall, hr, hlast⟩ := ih hcat hrest
    have hfirst : (argVals.getD i []).getD 0 .null = v := by
      rw [List.getD_eq_getElem?_getD, ← List.head?_eq_getElem?, hv]
      rfl
    refine ⟨fun j hj => ?_, hr, fun hne => (hbig (hlast hne)).2⟩
    rcases List.mem_cons.1 hj with rfl | hj
    · rw [hfirst]
      exact ⟨hkind, fun hne => (hbig (hlast hne)).1⟩
    · exact hall j hj

/-- The arguments of a partition whose sums are carried. -/
theorem partitionSumIntCat_spec {input : WindowInput} {idxs : List Nat} {cat : NumCat}
    (h : partitionSumIntCat input idxs = some cat) :
    cat.rank ≤ 2 ∧ ∀ k ≤ idxs.length, ∀ v ∈ nonNulls input idxs k, isInt v = true ∧ (cat ≠ .big → isBig v = false) := by
  obtain ⟨hall, hint, -⟩ := foldlM_intCatStep (.inl rfl) (Option.join_eq_some_iff.1 h)
  have hrank : cat.rank ≤ 2 := by
    rcases hint with h | h | h | h <;> cases h <;> simp [NumCat.rank]
  refine ⟨hrank, fun k hk v hv => ?_⟩
  obtain ⟨p, hp, rfl, hnull⟩ := mem_nonNulls.1 hv
  have hmem : idxs.getD p 0 ∈ idxs := by
    rw [List.getD_eq_getElem?_getD, List.getElem?_eq_getElem (by omega)]
    exact List.getElem_mem _
  obtain ⟨hkind, hbig⟩ := hall _ hmem
  refine ⟨hkind.resolve_left ?_, fun hne => hbig fun heq => hne (Option.some.inj heq)⟩
  simpa [argAt] using hnull

end Windows
