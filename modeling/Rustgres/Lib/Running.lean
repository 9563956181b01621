-- SUMMARY: One accumulator swept over growing prefixes of the positions, against a fold from the start for each.
import Mathlib.Data.List.Range
import Mathlib.Order.Basic

/-!
# Running Folds

A sweep answers one prefix after another and never takes a position back: it answers each prefix as the longest of
the prefixes asked for so far.
-/

namespace Running

variable {α β ε ι : Type} (step : α → Nat → Except ε α) (emit : α → Except ε β)

/-- The fold over the first `k` positions. -/
def upTo (a : α) (k : Nat) : Except ε α := (List.range k).foldlM step a

/-- Take the accumulator from the first `next` positions on to the first `reach`. -/
def advance (a : α) (next reach : Nat) : Except ε α := (List.range' next (reach - next)).foldlM step a

/-- Answer one prefix after another, with the accumulator at the first `next` positions. -/
def sweep (prefixOf : ι → Except ε Nat) : List ι → Nat → α → Except ε (List β)
  | [], _, _ => .ok []
  | j :: js, next, a => do
    let reach ← prefixOf j
    let a ← advance step a next reach
    let v ← emit a
    let vs ← sweep prefixOf js (max next reach) a
    .ok (v :: vs)

/-- The longest prefix up to each of a list. -/
def peaks : Nat → List Nat → List Nat
  | _, [] => []
  | next, reach :: reaches => max next reach :: peaks (max next reach) reaches

theorem upTo_zero (a : α) : upTo step a 0 = .ok a := rfl

theorem upTo_advance (a : α) {next : Nat} (reach : Nat) :
    (upTo step a next >>= fun b => advance step b next reach) = upTo step a (max next reach) := by
  have hsplit : List.range (max next reach) = List.range next ++ List.range' next (reach - next) := by
    have hlen : max next reach = next + (reach - next) := by omega
    rw [List.range_eq_range', List.range_eq_range', hlen, ← List.range'_append_1, Nat.zero_add]
  simp only [upTo, advance, hsplit, List.foldlM_append]

/-- A sweep folds each peak from the start. -/
theorem sweep_eq {prefixOf : ι → Except ε Nat} {reach : ι → Nat} {init a : α} {next : Nat} {js : List ι}
    (hreach : ∀ j ∈ js, prefixOf j = .ok (reach j)) (h : upTo step init next = .ok a) :
    sweep step emit prefixOf js next a = (peaks next (js.map reach)).mapM fun k => upTo step init k >>= emit := by
  induction js generalizing next a with
  | nil => rfl
  | cons j js ih =>
    have hadv : advance step a next (reach j) = upTo step init (max next (reach j)) := by
      rw [← upTo_advance, h]
      rfl
    have htail : ∀ i ∈ js, prefixOf i = .ok (reach i) := fun i hi => hreach i (List.mem_cons_of_mem _ hi)
    simp only [sweep, hreach j List.mem_cons_self, List.map_cons, peaks, List.mapM_cons, bind, Except.bind, hadv]
    cases hb : upTo step init (max next (reach j)) with
    | error e => rfl
    | ok b =>
      simp only [ih htail hb]
      cases emit b <;> rfl

/-- Prefixes that only grow are answered as they are. -/
theorem peaks_of_pairwise {next : Nat} {reaches : List Nat} (hnext : ∀ r ∈ reaches, next ≤ r)
    (h : reaches.Pairwise (· ≤ ·)) : peaks next reaches = reaches := by
  induction reaches generalizing next with
  | nil => rfl
  | cons reach reaches ih =>
    rw [List.pairwise_cons] at h
    have hmax : max next reach = reach := Nat.max_eq_right (hnext reach List.mem_cons_self)
    rw [peaks, hmax, ih h.1 h.2]

end Running
