-- SUMMARY: Operations in flight: their memory effect is there, their log record is not.
import Mathlib.Data.List.Basic

/-!
# Operations in Flight

An operation first changes a value in memory and later reaches a log. Between the value that the
log gives and the value in memory lie the operations that have yet to be logged, newest first. An
operation may be logged from the old end of the list, and taken back from the new end.
-/

variable {ι α : Type*}

namespace InFlight

/-- The operations, newest first, lead from `a` to `b`. -/
def Leads (R : ι → α → α → Prop) : List ι → α → α → Prop
  | [], a, b => a = b
  | i :: is, a, b => ∃ m, Leads R is a m ∧ R i m b

variable {R : ι → α → α → Prop} {a b : α} {i : ι} {is js : List ι}

@[simp]
theorem leads_nil : Leads R [] a b ↔ a = b := Iff.rfl

@[simp]
theorem leads_cons : Leads R (i :: is) a b ↔ ∃ m, Leads R is a m ∧ R i m b := Iff.rfl

theorem leads_append : Leads R (is ++ js) a b ↔ ∃ m, Leads R js a m ∧ Leads R is m b := by
  induction is generalizing b with
  | nil => simp
  | cons i is ih =>
      simp only [List.cons_append, leads_cons, ih]
      constructor
      · rintro ⟨n, ⟨m, hjs, his⟩, hi⟩
        exact ⟨m, hjs, n, his, hi⟩
      · rintro ⟨m, hjs, n, his, hi⟩
        exact ⟨n, ⟨m, hjs, his⟩, hi⟩

/-- A change that every operation commutes with may be made before all of them. -/
theorem Leads.map {f : α → α} (hf : ∀ i ∈ is, ∀ a b, R i a b → R i (f a) (f b))
    (h : Leads R is a b) : Leads R is (f a) (f b) := by
  induction is generalizing b with
  | nil => exact congrArg f h
  | cons i is ih =>
      obtain ⟨m, his, hi⟩ := h
      refine ⟨f m, ih (fun j hj => hf j (List.mem_cons_of_mem i hj)) his, ?_⟩
      exact hf i List.mem_cons_self m b hi

end InFlight
