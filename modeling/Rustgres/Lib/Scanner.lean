-- SUMMARY: Scanners over a list of characters, and loops of scanning steps that need no fuel.
import Mathlib.Data.List.Basic

/-!
# Scanners

A scanner reads a value off the front of its input and returns the rest. A loop repeats a step that
says whether it was the last one. It is run with as much fuel as there is input; when each step reads
something, what it returns is described without fuel by two relations, one for success and one for
failure.
-/

namespace Scanner

variable {χ α : Type}

abbrev Scan (χ α : Type) := List χ → Option (α × List χ)

/-- What one step of a loop found. -/
inductive Step (α : Type) where
  | more (a : α)
  | last (a : α)
  | stop

@[grind =]
def loop (step : Scan χ (Step α)) : Nat → Scan χ (List α)
  | 0, _ => none
  | fuel + 1, s =>
    match step s with
    | none => none
    | some (.stop, s) => some ([], s)
    | some (.last a, s) => some ([a], s)
    | some (.more a, s) => (loop step fuel s).map fun r => (a :: r.1, r.2)

/-- The loop on the whole input. -/
def many (step : Scan χ (Step α)) : Scan χ (List α) := fun s => loop step (s.length + 1) s

/-- A step after which the loop goes on has read something. -/
def Advances (step : Scan χ (Step α)) : Prop :=
  ∀ s a s', step s = some (.more a, s') → s'.length < s.length

inductive Reads (step : Scan χ (Step α)) : List χ → List α → List χ → Prop
  | stop {s s' : List χ} (h : step s = some (.stop, s')) : Reads step s [] s'
  | last {s s' : List χ} {a : α} (h : step s = some (.last a, s')) : Reads step s [a] s'
  | more {s s' r : List χ} {a : α} {as : List α} (h : step s = some (.more a, s'))
      (rest : Reads step s' as r) : Reads step s (a :: as) r

inductive Fails (step : Scan χ (Step α)) : List χ → Prop
  | now {s : List χ} (h : step s = none) : Fails step s
  | later {s s' : List χ} {a : α} (h : step s = some (.more a, s')) (rest : Fails step s') :
      Fails step s

theorem loop_of_reads {step : Scan χ (Step α)} (hstep : Advances step) {s r : List χ} {as : List α}
    (h : Reads step s as r) {fuel : Nat} (hfuel : s.length < fuel) :
    loop step fuel s = some (as, r) := by
  induction h generalizing fuel with
  | stop h | last h =>
      cases fuel with
      | zero => cases hfuel
      | succ fuel => rw [loop, h]
  | more h _ ih =>
      cases fuel with
      | zero => cases hfuel
      | succ fuel =>
          have hshort := hstep _ _ _ h
          rw [loop, h]
          simp only
          rw [ih (Nat.lt_of_lt_of_le hshort (Nat.le_of_lt_succ hfuel))]
          rfl

theorem loop_of_fails {step : Scan χ (Step α)} {s : List χ} (h : Fails step s) {fuel : Nat} :
    loop step fuel s = none := by
  induction h generalizing fuel with
  | now h =>
      cases fuel with
      | zero => rfl
      | succ fuel => rw [loop, h]
  | later h _ ih =>
      cases fuel with
      | zero => rfl
      | succ fuel =>
          rw [loop, h]
          simp only
          rw [ih]
          rfl

theorem many_of_reads {step : Scan χ (Step α)} (hstep : Advances step) {s r : List χ} {as : List α}
    (h : Reads step s as r) : many step s = some (as, r) :=
  loop_of_reads hstep h (Nat.lt_succ_self _)

theorem many_of_fails {step : Scan χ (Step α)} {s : List χ} (h : Fails step s) :
    many step s = none :=
  loop_of_fails h

theorem reads_of_loop {step : Scan χ (Step α)} {fuel : Nat} {s r : List χ} {as : List α}
    (h : loop step fuel s = some (as, r)) : Reads step s as r := by
  induction fuel generalizing s as with
  | zero => cases h
  | succ fuel ih =>
      rw [loop] at h
      cases hs : step s with
      | none =>
          rw [hs] at h
          cases h
      | some p =>
          obtain ⟨x, s'⟩ := p
          rw [hs] at h
          cases x with
          | stop =>
              cases h
              exact .stop hs
          | last a =>
              cases h
              exact .last hs
          | more a =>
              obtain ⟨⟨as', r'⟩, hloop, hout⟩ := Option.map_eq_some_iff.1 h
              cases hout
              exact .more hs (ih hloop)

/-- What the loop returns does not depend on the fuel. -/
theorem many_eq_some {step : Scan χ (Step α)} (hstep : Advances step) {s r : List χ} {as : List α} :
    many step s = some (as, r) ↔ Reads step s as r :=
  ⟨reads_of_loop, many_of_reads hstep⟩

/-! ## Rests -/

/-- The rest is no longer than the input. -/
def Shrinks (scan : Scan χ α) : Prop := ∀ s a s', scan s = some (a, s') → s'.length ≤ s.length

theorem Reads.length_le {step : Scan χ (Step α)} (hstep : Shrinks step) {s r : List χ} {as : List α}
    (h : Reads step s as r) : r.length ≤ s.length := by
  induction h with
  | stop h | last h => exact hstep _ _ _ h
  | more h _ ih => exact Nat.le_trans ih (hstep _ _ _ h)

theorem shrinks_many {step : Scan χ (Step α)} (hstep : Shrinks step) : Shrinks (many step) :=
  fun _ _ _ h => (reads_of_loop h).length_le hstep

end Scanner
