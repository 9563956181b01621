-- SUMMARY: Forests given by parent links: ancestors, roots, and links that are added or cut.
import Mathlib.Logic.Function.Basic

/-!
# Forests

A forest is a map from nodes to their parents in which every chain of parents ends. A root can be
linked below a node that it is not above, and any node can be cut off.
-/

namespace Forest

variable {α : Type*} {parent : α → Option α} {x y z c p : α}

/-- `y` is `x` or above it. -/
inductive Above (parent : α → Option α) : α → α → Prop
  | refl (x : α) : Above parent x x
  | up {x p y : α} (h : parent x = some p) (above : Above parent p y) : Above parent x y

/-- The chain of parents of `x` ends. -/
inductive Rooted (parent : α → Option α) : α → Prop
  | root {x : α} (h : parent x = none) : Rooted parent x
  | child {x p : α} (h : parent x = some p) (rooted : Rooted parent p) : Rooted parent x

theorem Above.trans (h : Above parent x y) (h' : Above parent y z) : Above parent x z := by
  induction h with
  | refl x => exact h'
  | up hx _ ih => exact .up hx (ih h')

/-- Two nodes above the same node are above each other, one way or the other. -/
theorem Above.total (h : Above parent x y) (h' : Above parent x z) :
    Above parent y z ∨ Above parent z y := by
  induction h with
  | refl x => exact .inl h'
  | @up x p y hx above ih =>
      cases h' with
      | refl x => exact .inr (.up hx above)
      | up hx' above' =>
          rw [hx] at hx'
          cases hx'
          exact ih above'

/-- A node whose chain ends is not above its own parent. -/
theorem Rooted.not_above (h : Rooted parent x) (hx : parent x = some p) : ¬ Above parent p x := by
  induction h generalizing p with
  | root h =>
      rw [h] at hx
      cases hx
  | @child x q h rooted ih =>
      rw [h] at hx
      cases hx
      intro above
      cases above with
      | refl => exact ih h (.refl _)
      | up hq above => exact ih hq (above.trans (.up h (.refl _)))

theorem Rooted.of_above (h : Rooted parent x) (hxy : Above parent x y) : Rooted parent y := by
  induction hxy with
  | refl x => exact h
  | up hx _ ih =>
      cases h with
      | root hroot =>
          rw [hroot] at hx
          cases hx
      | child hx' rooted =>
          rw [hx] at hx'
          cases hx'
          exact ih rooted

/-- The chain of parents of `x` ends within so many nodes. -/
inductive Shallow (parent : α → Option α) : Nat → α → Prop
  | root {n : Nat} {x : α} (h : parent x = none) : Shallow parent (n + 1) x
  | child {n : Nat} {x p : α} (h : parent x = some p) (shallow : Shallow parent n p) :
      Shallow parent (n + 1) x

/-! ## One link changed -/

section Update

variable [DecidableEq α] {o : Option α}

open Function (update)

/-- Chains that do not meet the changed node stay. -/
theorem Above.update (h : Above parent x y) (hc : ¬ Above parent x c) :
    Above (update parent c o) x y := by
  induction h with
  | refl x => exact .refl x
  | @up x p y hx _ ih =>
      have hne : x ≠ c := fun e => hc (e ▸ .refl x)
      refine .up (by rw [Function.update_of_ne hne, hx]) (ih fun h => hc (.up hx h))

theorem Above.of_update (h : Above (Function.update parent c o) x y) (hc : ¬ Above parent x c) :
    Above parent x y := by
  induction h with
  | refl x => exact .refl x
  | @up x p y hx _ ih =>
      have hne : x ≠ c := fun e => hc (e ▸ .refl x)
      rw [Function.update_of_ne hne] at hx
      exact .up hx (ih fun h => hc (.up hx h))

theorem Rooted.update_of_not_above (h : Rooted parent x) (hc : ¬ Above parent x c) :
    Rooted (Function.update parent c o) x := by
  induction h with
  | @root x hx =>
      have hne : x ≠ c := fun e => hc (e ▸ .refl x)
      exact .root (by rw [Function.update_of_ne hne, hx])
  | @child x p hx _ ih =>
      have hne : x ≠ c := fun e => hc (e ▸ .refl x)
      exact .child (by rw [Function.update_of_ne hne, hx]) (ih fun h => hc (.up hx h))

/-- Once the changed node is rooted, so is everything below it. -/
theorem Rooted.update (h : Rooted parent x) (hc : Rooted (Function.update parent c o) c) :
    Rooted (Function.update parent c o) x := by
  induction h with
  | @root x hx =>
      by_cases e : x = c
      · exact e ▸ hc
      · exact .root (by rw [Function.update_of_ne e, hx])
  | @child x p hx _ ih =>
      by_cases e : x = c
      · exact e ▸ hc
      · exact .child (by rw [Function.update_of_ne e, hx]) ih

/-- A node can be linked below one that it is not above. -/
theorem Rooted.link (h : ∀ x, Rooted parent x) (hp : ¬ Above parent p c) (x : α) :
    Rooted (Function.update parent c (some p)) x :=
  (h x).update (.child (Function.update_self ..) ((h p).update_of_not_above hp))

theorem Rooted.cut (h : ∀ x, Rooted parent x) (x : α) :
    Rooted (Function.update parent c none) x :=
  (h x).update (.root (Function.update_self ..))

end Update

end Forest
