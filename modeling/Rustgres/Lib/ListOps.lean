-- SUMMARY: Vector operations on lists: removal by swapping, and updates of the first match.
import Mathlib.Data.List.Basic

/-!
# List Operations

`Vec::swap_remove` and the search for the first match, as a program uses them on its vectors.
-/

variable {α : Type*}

/-- The last element takes the place of the removed one (`Vec::swap_remove`). -/
def swapRemove (l : List α) (pos : Nat) : List α :=
  match l.getLast? with
  | some last => (l.set pos last).dropLast
  | none => []

theorem getElem?_swapRemove {l : List α} {pos : Nat} (hpos : pos < l.length) (i : Nat) :
    (swapRemove l pos)[i]?
      = if i + 1 < l.length then (if i = pos then l.getLast? else l[i]?) else none := by
  have hne : l ≠ [] := List.ne_nil_of_length_pos (by omega)
  have hlast : l.getLast? = some (l.getLast hne) := List.getLast?_eq_some_getLast hne
  simp only [swapRemove, hlast, List.getElem?_dropLast, List.length_set, List.getElem?_set]
  grind

/-- Apply `f` to the first element that satisfies `p` (`iter_mut().find(p)`). -/
def modifyFirst (p : α → Bool) (f : α → α) (l : List α) : List α :=
  l.modify (l.findIdx p) f

/-- Remove the first element that satisfies `p` by swapping. -/
def swapRemoveFirst (p : α → Bool) (l : List α) : List α :=
  match l.findIdx? p with
  | some pos => swapRemove l pos
  | none => l

/-! ## Lists in another order -/

theorem any_eq_of_perm {l l' : List α} (h : l.Perm l') (p : α → Bool) : l.any p = l'.any p := by
  rw [Bool.eq_iff_iff, List.any_eq_true, List.any_eq_true]
  exact exists_congr fun a => and_congr_left fun _ => h.mem_iff

/-- The first match of one match at most does not depend on the order. -/
theorem find?_eq_of_perm {l l' : List α} (h : l.Perm l') {p : α → Bool}
    (hunique : ∀ a ∈ l, ∀ b ∈ l, p a → p b → a = b) : l.find? p = l'.find? p := by
  cases hl : l.find? p with
  | none =>
      rw [eq_comm, List.find?_eq_none]
      exact fun a ha => List.find?_eq_none.1 hl a (h.mem_iff.2 ha)
  | some a =>
      have ha := List.mem_of_find?_eq_some hl
      have hpa := List.find?_some hl
      cases hl' : l'.find? p with
      | none => exact absurd hpa (List.find?_eq_none.1 hl' a (h.mem_iff.1 ha))
      | some b =>
          have hb := h.mem_iff.2 (List.mem_of_find?_eq_some hl')
          rw [hunique a ha b hb hpa (List.find?_some hl')]
