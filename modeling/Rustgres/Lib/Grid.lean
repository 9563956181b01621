-- SUMMARY: Grids of points in a linear order, and the greatest point that is not after a value.
import Mathlib.Data.Int.Order.Basic
import Mathlib.Order.Bounds.Basic
import Mathlib.Order.Monotone.Basic
import Mathlib.Order.ConditionallyCompleteLattice.Basic
import Mathlib.Data.Int.ConditionallyCompleteOrder

/-!
# Grids

A grid numbers its points by the whole numbers, in order. A value lies in the cell of one point: the point is not after
it, and the next one is.
-/

namespace Grid

variable {α : Type*} [LinearOrder α]

/-- The value `t` lies in the cell of the point `n`. -/
def Cell (point : Int → α) (n : Int) (t : α) : Prop := point n ≤ t ∧ t < point (n + 1)

/-- A point is the start of a cell. -/
def Points (point : Int → α) : Set α := Set.range point

variable {point : Int → α} (hpoint : StrictMono point)

include hpoint

theorem Cell.isGreatest {n : Int} {t : α} (h : Cell point n t) : IsGreatest {s | s ∈ Points point ∧ s ≤ t} (point n) := by
  refine ⟨⟨⟨n, rfl⟩, h.1⟩, ?_⟩
  rintro s ⟨⟨m, rfl⟩, hm⟩
  have hlt := hpoint.lt_iff_lt.1 (hm.trans_lt h.2)
  exact hpoint.monotone (Int.lt_add_one_iff.1 hlt)

theorem isLeast_next (n : Int) : IsLeast {s | s ∈ Points point ∧ point n < s} (point (n + 1)) := by
  refine ⟨⟨⟨n + 1, rfl⟩, hpoint (Int.lt_succ n)⟩, ?_⟩
  rintro s ⟨⟨m, rfl⟩, hm⟩
  exact hpoint.monotone (Int.add_one_le_of_lt (hpoint.lt_iff_lt.1 hm))

theorem cell_point (n : Int) : Cell point n (point n) := ⟨le_rfl, hpoint (Int.lt_succ n)⟩

/-- A later value has a later cell. -/
theorem Cell.le {n m : Int} {t u : α} (ht : Cell point n t) (hu : Cell point m u) (h : t ≤ u) : n ≤ m :=
  Int.lt_add_one_iff.1 (hpoint.lt_iff_lt.1 ((ht.1.trans h).trans_lt hu.2))

theorem Cell.eq {n m : Int} {t : α} (hn : Cell point n t) (hm : Cell point m t) : n = m :=
  le_antisymm (hn.le hpoint hm le_rfl) (hm.le hpoint hn le_rfl)

end Grid
