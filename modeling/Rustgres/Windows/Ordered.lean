-- SUMMARY: Partitions in the order of a window, ranks for their keys, and the runs of rows that agree on a term.
import Mathlib.Order.Compare
import Rustgres.Windows.Groups

/-!
# Ordered Partitions

The values of each term of an order are ranked; the rows of a partition stand in the order of their ranks.
-/

namespace Windows

open Encoding (Value)

variable {E : Type} (K : KeyOps)

/-! ## Ranks -/

/-- The first of `len` terms that tells two rows apart puts the first row before the second. -/
def Before (len : Nat) (a b : Nat → Nat) : Prop := ∃ i < len, a i < b i ∧ ∀ j < i, a j = b j

/-- The value of the `i`th term. -/
def termValue (key : List Value) (i : Nat) : Value := key.getD i .null

theorem termValue_zero (key : List Value) : termValue key 0 = key.head?.getD .null := by
  cases key <;> rfl

theorem termValue_succ (key : List Value) (i : Nat) : termValue key (i + 1) = termValue key.tail i := by
  cases key with
  | nil => simp [termValue]
  | cons v key => simp [termValue]

theorem before_succ {len : Nat} {a b : Nat → Nat} :
    Before (len + 1) a b ↔ a 0 < b 0 ∨ a 0 = b 0 ∧ Before len (fun i => a (i + 1)) fun i => b (i + 1) := by
  constructor
  · rintro ⟨i, hi, hlt, heq⟩
    cases i with
    | zero => exact .inl hlt
    | succ i =>
      exact .inr ⟨heq 0 (Nat.succ_pos i), i, by omega, hlt, fun j hj => heq (j + 1) (by omega)⟩
  · rintro (hlt | ⟨h0, i, hi, hlt, heq⟩)
    · exact ⟨0, Nat.succ_pos len, hlt, fun j hj => absurd hj (Nat.not_lt_zero j)⟩
    · refine ⟨i + 1, by omega, hlt, fun j hj => ?_⟩
      cases j with
      | zero => exact h0
      | succ j => exact heq j (by omega)

theorem equal_succ {len : Nat} {a b : Nat → Nat} :
    (∀ i < len + 1, a i = b i) ↔ a 0 = b 0 ∧ ∀ i < len, a (i + 1) = b (i + 1) := by
  constructor
  · intro h
    exact ⟨h 0 (Nat.succ_pos len), fun i hi => h (i + 1) (by omega)⟩
  · rintro ⟨h0, h⟩ i hi
    cases i with
    | zero => exact h0
    | succ i => exact h i (by omega)

/-- Rows compare by the first term that tells them apart. -/
theorem compareWindowKeys_rank {orderBy : List (OrderTerm E)} {x y : List Value} {a b : Nat → Nat}
    (h : ∀ i o, orderBy[i]? = some o →
      compareValues K (termValue x i) (termValue y i) o.desc o.nullsFirst = .ok (compare (a i) (b i))) :
    ∃ ord, compareWindowKeys K x y orderBy = .ok ord ∧ (ord = .eq ↔ ∀ i < orderBy.length, a i = b i) ∧
      (ord = .lt ↔ Before orderBy.length a b) := by
  induction orderBy generalizing x y a b with
  | nil => exact ⟨.eq, by simp [compareWindowKeys], by simp, by simp [Before]⟩
  | cons o orderBy ih =>
    have hhead := h 0 o rfl
    rw [termValue_zero, termValue_zero] at hhead
    obtain ⟨ord, hord, heq, hlt⟩ := @ih x.tail y.tail (fun i => a (i + 1)) (fun i => b (i + 1)) fun i o' ho => by
      rw [← termValue_succ, ← termValue_succ]
      exact h (i + 1) o' ho
    rw [List.length_cons, before_succ, equal_succ, compareWindowKeys, hhead]
    cases hcmp : compare (a 0) (b 0) with
    | lt =>
      have h0 := compare_lt_iff_lt.1 hcmp
      exact ⟨.lt, rfl, by simp; omega, by simp [h0]⟩
    | eq =>
      have h0 := compare_eq_iff_eq.1 hcmp
      exact ⟨ord, hord, by simp [h0, heq], by simp [h0, hlt]⟩
    | gt =>
      have h0 := compare_gt_iff_gt.1 hcmp
      exact ⟨.gt, rfl, by simp; omega, by simp; omega⟩

/-! ## Ordered partitions -/

/-- A partition as it is sorted: every two of its rows can be compared on every term, by a rank. -/
structure OrderedPartition (orderBy : List (OrderTerm E)) (input : WindowInput) (idxs : List Nat) where
  rank : Nat → Nat → Nat
  ranked : ∀ p < idxs.length, ∀ q < idxs.length, ∀ i o, orderBy[i]? = some o →
    compareValues K (termValue (keyAt input idxs p) i) (termValue (keyAt input idxs q) i) o.desc o.nullsFirst =
      .ok (compare (rank p i) (rank q i))
  sorted : ∀ q < idxs.length, ∀ p < q,
    compareWindowKeys K (keyAt input idxs p) (keyAt input idxs q) orderBy ≠ .ok .gt

namespace OrderedPartition

variable {K} {orderBy : List (OrderTerm E)} {input : WindowInput} {idxs : List Nat}
  (P : OrderedPartition K orderBy input idxs)

/-- Rows that no term tells apart. -/
def Peers (p q : Nat) : Prop := ∀ i < orderBy.length, P.rank p i = P.rank q i

include P in
theorem sorted_rank {p q : Nat} (hpq : p ≤ q) (hq : q < idxs.length) :
    P.Peers p q ∨ Before orderBy.length (P.rank p) (P.rank q) := by
  rcases Nat.eq_or_lt_of_le hpq with rfl | hlt
  · exact .inl fun i _ => rfl
  · obtain ⟨ord, hord, heq, hbefore⟩ := compareWindowKeys_rank K (P.ranked p (by omega) q hq)
    cases ord with
    | lt => exact .inr (hbefore.1 rfl)
    | eq => exact .inl (heq.1 rfl)
    | gt => exact absurd hord (P.sorted q hq p hlt)

/-- The first term is in order on its own. -/
theorem rank_first_le {p q : Nat} (hpq : p ≤ q) (hq : q < idxs.length) (hlen : 0 < orderBy.length) :
    P.rank p 0 ≤ P.rank q 0 := by
  rcases P.sorted_rank hpq hq with hpeers | ⟨i, hi, hlt, heq⟩
  · exact Nat.le_of_eq (hpeers 0 hlen)
  · cases i with
    | zero => exact Nat.le_of_lt hlt
    | succ i => exact Nat.le_of_eq (heq 0 (Nat.succ_pos i))

end OrderedPartition

/-! ## Peers on the first term -/

section

variable {K} {o : OrderTerm E} {more : List (OrderTerm E)} {input : WindowInput} {idxs : List Nat}
  (P : OrderedPartition K (o :: more) input idxs)

theorem isPeer_eq {cur v : Value} {ord : Ordering} (h : compareValues K v cur o.desc o.nullsFirst = .ok ord) :
    isPeer K o cur v = (ord = .eq : Bool) := by
  have hif : ∀ nf : Bool, (.ok (if nf then .lt else .gt) : Except ExecError Ordering) = .ok ord → ord ≠ .eq := by
    intro nf hnf
    cases nf <;> cases hnf <;> simp
  have hif' : ∀ nf : Bool, (.ok (if nf then .gt else .lt) : Except ExecError Ordering) = .ok ord → ord ≠ .eq := by
    intro nf hnf
    cases nf <;> cases hnf <;> simp
  unfold isPeer
  split
  · have heq : ord = .eq := by simpa [compareValues, eq_comm] using h
    simp [heq]
  · have hne : ord ≠ .eq := by
      cases cur with
      | null => simp at *
      | _ => exact hif _ h
    simp [hne]
  · have hne : ord ≠ .eq := by
      cases v with
      | null => simp at *
      | _ => exact hif' _ h
    simp [hne]
  · rw [h]
    cases ord <;> rfl

/-- Rows are peers on the first term where its ranks agree. -/
theorem isPeer_firstKey {p q : Nat} (hp : p < idxs.length) (hq : q < idxs.length) :
    isPeer K o (firstKey input idxs q) (firstKey input idxs p) = (P.rank p 0 = P.rank q 0 : Bool) := by
  have hrank := P.ranked p hp q hq 0 o rfl
  rw [termValue_zero, termValue_zero] at hrank
  rw [firstKey, firstKey, isPeer_eq hrank]
  simp

/-! ## Runs -/

/-- The run up to `s` goes back to the first row from which on all rows are peers. -/
theorem runStart_spec (peer : Nat → Bool) (s : Nat) :
    runStart peer s ≤ s ∧ (∀ p, runStart peer s ≤ p → p < s → peer p = true) ∧
      (0 < runStart peer s → peer (runStart peer s - 1) = false) := by
  induction s with
  | zero => simp [runStart]
  | succ s ih =>
    rw [runStart]
    cases h : peer s with
    | false =>
      refine ⟨Nat.le_refl _, fun p hp hps => by simp at hp; omega, fun _ => ?_⟩
      simpa using h
    | true =>
      obtain ⟨hle, hall, hstop⟩ := ih
      refine ⟨by simp; omega, fun p hp hps => ?_, by simpa using hstop⟩
      rcases Nat.lt_succ_iff_lt_or_eq.1 hps with hlt | rfl
      · exact hall p (by simpa using hp) hlt
      · exact h

/-- The run from `e` goes on to the last row up to which all rows are peers. -/
theorem runEnd_spec (peer : Nat → Bool) (left e : Nat) :
    e ≤ runEnd peer left e ∧ runEnd peer left e ≤ e + left ∧
      (∀ p, e < p → p ≤ runEnd peer left e → peer p = true) ∧
      (runEnd peer left e < e + left → peer (runEnd peer left e + 1) = false) := by
  induction left generalizing e with
  | zero => exact ⟨Nat.le_refl _, Nat.le_refl _, fun p hp hpe => by simp only [runEnd] at hpe; omega, by simp [runEnd]⟩
  | succ left ih =>
    rw [runEnd]
    cases h : peer (e + 1) with
    | false =>
      refine ⟨by simp, by simp, fun p hp hpe => by simp at hpe; omega, fun _ => by simpa using h⟩
    | true =>
      obtain ⟨hle, hup, hall, hstop⟩ := ih (e + 1)
      rw [if_pos rfl]
      refine ⟨by omega, by omega, fun p hp hpe => ?_, fun hlt => hstop (by omega)⟩
      rcases Nat.eq_or_lt_of_le (Nat.succ_le_of_lt hp) with rfl | hlt
      · exact h
      · exact hall p hlt hpe

include P in
/-- The run of peers of a row on the first term. -/
theorem runEnd_rank {j : Nat} (hj : j < idxs.length) :
    let last := runEnd (fun p => isPeer K o (firstKey input idxs j) (firstKey input idxs p)) (idxs.length - 1 - j) j
    j ≤ last ∧ last < idxs.length ∧ (∀ p, j ≤ p → p ≤ last → P.rank p 0 = P.rank j 0) ∧
      (last + 1 < idxs.length → P.rank (last + 1) 0 ≠ P.rank j 0) := by
  intro last
  obtain ⟨hle, hup, hall, hstop⟩ := runEnd_spec
    (fun p => isPeer K o (firstKey input idxs j) (firstKey input idxs p)) (idxs.length - 1 - j) j
  have hlast : last < idxs.length := by
    have : last ≤ j + (idxs.length - 1 - j) := hup
    omega
  refine ⟨hle, hlast, fun p hjp hp => ?_, fun hbehind => ?_⟩
  · rcases Nat.eq_or_lt_of_le hjp with rfl | hlt
    · rfl
    · have hpeer := hall p hlt hp
      rw [isPeer_firstKey P (by omega) hj] at hpeer
      exact of_decide_eq_true hpeer
  · have hpeer := hstop (show last < j + (idxs.length - 1 - j) by omega)
    rw [isPeer_firstKey P hbehind hj] at hpeer
    exact of_decide_eq_false hpeer

end

end Windows
