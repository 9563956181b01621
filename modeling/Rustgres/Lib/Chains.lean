-- SUMMARY: Doubly linked chains threaded through two arrays: push at the head, unlink the last.
import Mathlib.Logic.Function.Basic
import Mathlib.Data.List.Basic

/-!
# Chains in Arrays

Entries are numbers from 1 on, and 0 ends a chain. The successor and the predecessor of an entry stand in
two arrays that many chains share; a change of one chain leaves those without a common entry alone.
-/

namespace Chains

/-- From `s` on, the successors go through `l`. -/
def Linked (next : Nat → Nat) : Nat → List Nat → Prop
  | s, [] => s = 0
  | s, e :: l => s = e ∧ e ≠ 0 ∧ Linked next (next e) l

/-- The predecessors go back through `l` to `p`. -/
def Backed (prev : Nat → Nat) : Nat → List Nat → Prop
  | _, [] => True
  | p, e :: l => prev e = p ∧ Backed prev e l

/-- A chain that starts at `s`, linked both ways. -/
structure Chain (next prev : Nat → Nat) (s : Nat) (l : List Nat) : Prop where
  linked : Linked next s l
  backed : Backed prev 0 l

variable {next next' prev prev' : Nat → Nat} {s p : Nat} {l : List Nat}

theorem Linked.congr (h : Linked next s l) (heq : ∀ e ∈ l, next' e = next e) : Linked next' s l := by
  induction l generalizing s with
  | nil => exact h
  | cons e l ih =>
      obtain ⟨hs, hne, hl⟩ := h
      refine ⟨hs, hne, ?_⟩
      rw [heq e List.mem_cons_self]
      exact ih hl fun e' he' => heq e' (List.mem_cons_of_mem e he')

theorem Backed.congr (h : Backed prev p l) (heq : ∀ e ∈ l, prev' e = prev e) : Backed prev' p l := by
  induction l generalizing p with
  | nil => exact h
  | cons e l ih =>
      obtain ⟨hp, hl⟩ := h
      exact ⟨(heq e List.mem_cons_self).trans hp, ih hl fun e' he' => heq e' (List.mem_cons_of_mem e he')⟩

theorem Chain.congr (h : Chain next prev s l) (hnext : ∀ e ∈ l, next' e = next e)
    (hprev : ∀ e ∈ l, prev' e = prev e) : Chain next' prev' s l :=
  ⟨h.linked.congr hnext, h.backed.congr hprev⟩

theorem Linked.ne_zero (h : Linked next s l) : ∀ e ∈ l, e ≠ 0 := by
  induction l generalizing s with
  | nil => exact fun e he => (nomatch he)
  | cons e l ih =>
      intro e' he'
      rcases List.mem_cons.1 he' with rfl | he'
      · exact h.2.1
      · exact ih h.2.2 e' he'

/-- The head of a chain that has no entry is 0. -/
theorem Linked.head_eq (h : Linked next s l) : s = l.headD 0 := by
  cases l with
  | nil => exact h
  | cons e l => exact h.1

/-! ## Push -/

/-- A new entry before the head `s`: it points to `s`, and `s`, if it is an entry, back to it. -/
theorem Chain.push {e : Nat} (h : Chain next prev s l) (he : e ≠ 0) (hfresh : e ∉ l) (hnodup : l.Nodup) :
    Chain (Function.update next e s) (Function.update (Function.update prev e 0) s e) e (e :: l) := by
  have hne : ∀ e' ∈ l, e' ≠ e := fun e' he' heq => hfresh (heq ▸ he')
  refine ⟨⟨rfl, he, ?_⟩, ?_, ?_⟩
  · rw [Function.update_self]
    exact h.linked.congr fun e' he' => Function.update_of_ne (hne e' he') _ _
  · have hs : e ≠ s := by
      rintro rfl
      have hhead := h.linked.head_eq
      cases l with
      | nil => exact he hhead
      | cons e' l => exact hfresh (hhead ▸ List.mem_cons_self)
    rw [Function.update_of_ne hs, Function.update_self]
  · cases l with
    | nil => trivial
    | cons e' l =>
        obtain rfl : s = e' := h.linked.1
        refine ⟨Function.update_self .., ?_⟩
        apply h.backed.2.congr
        intro e'' he''
        have hes : e'' ≠ s := fun heq => (List.nodup_cons.1 hnodup).1 (heq ▸ he'')
        rw [Function.update_of_ne hes, Function.update_of_ne (hne e'' (List.mem_cons_of_mem s he''))]

/-! ## Unlink the last entry -/

theorem Linked.next_last {e : Nat} (h : Linked next s (l ++ [e])) : next e = 0 := by
  induction l generalizing s with
  | nil => exact h.2.2
  | cons e' l ih => exact ih h.2.2

/-- The predecessor of the last entry is the entry before it, and 0 if there is none. -/
theorem Backed.prev_last {e : Nat} (h : Backed prev p (l ++ [e])) : prev e = (l.getLast?).getD p := by
  induction l generalizing p with
  | nil => exact h.1
  | cons e' l ih =>
      rw [ih h.2]
      cases l with
      | nil => rfl
      | cons e'' l => rw [List.getLast?_cons_cons, List.getLast?_eq_getLast_of_ne_nil (by simp)]; rfl

theorem Backed.of_append {l' : List Nat} (h : Backed prev p (l ++ l')) : Backed prev p l := by
  induction l generalizing p with
  | nil => trivial
  | cons e l ih => exact ⟨h.1, ih h.2⟩

/-- The chain ends before its last entry once the entry before it points to 0. -/
theorem Linked.cut {e q : Nat} (h : Linked next s (l ++ [e])) (hlast : l.getLast? = some q)
    (hnodup : l.Nodup) : Linked (Function.update next q 0) s l := by
  induction l generalizing s with
  | nil => cases hlast
  | cons e' l ih =>
      obtain ⟨hs, hne, hl⟩ := h
      obtain ⟨hnot, hnodup⟩ := List.nodup_cons.1 hnodup
      refine ⟨hs, hne, ?_⟩
      cases l with
      | nil =>
          obtain rfl : e' = q := Option.some.inj hlast
          rw [Function.update_self]
          rfl
      | cons e'' l =>
          rw [List.getLast?_cons_cons] at hlast
          have hq : q ∈ e'' :: l := List.mem_of_getLast? hlast
          have hne : e' ≠ q := fun heq => hnot (heq ▸ hq)
          rw [Function.update_of_ne hne]
          exact ih hl hlast hnodup

end Chains
