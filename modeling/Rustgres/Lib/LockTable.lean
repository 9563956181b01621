-- SUMMARY: Exclusive locks with the order in which each owner took them, and release from a position on.
import Mathlib

/-!
# Lock Tables

A lock table knows the holder of each lock, and for each owner the locks in the order in which it
took them. While the two agree, a position in an owner's list stands for the set of locks that it
held when the list had that length: giving back what is behind the position restores that set.
-/

variable {ρ ξ : Type*}

structure LockTable (ρ ξ : Type*) where
  holder : ρ → Option ξ
  order : ξ → List ρ

namespace LockTable

variable [DecidableEq ρ] [DecidableEq ξ] (l : LockTable ρ ξ)

def grant (r : ρ) (x : ξ) : LockTable ρ ξ where
  holder := Function.update l.holder r (some x)
  order := Function.update l.order x (l.order x ++ [r])

def releaseAll (x : ξ) : LockTable ρ ξ where
  holder r := (l.holder r).filter (· ≠ x)
  order := Function.update l.order x []

/-- Give back the locks that `x` took after its first `keep`. -/
def releaseAfter (x : ξ) (keep : Nat) : LockTable ρ ξ where
  holder r := if r ∈ (l.order x).drop keep ∧ l.holder r = some x then none else l.holder r
  order := Function.update l.order x ((l.order x).take keep)

/-- The locks of `x`. -/
def held (x : ξ) : Set ρ := { r | l.holder r = some x }

omit [DecidableEq ρ] [DecidableEq ξ] in
theorem mem_held {r : ρ} {x : ξ} : r ∈ l.held x ↔ l.holder r = some x := Iff.rfl

/-- Every lock is in the list of its holder, once, and in no other. -/
structure Consistent : Prop where
  holder : ∀ r x, l.holder r = some x ↔ r ∈ l.order x
  nodup : ∀ x, (l.order x).Nodup

namespace Consistent

variable {l} {r : ρ} {x y : ξ} {keep : Nat}

omit [DecidableEq ρ] [DecidableEq ξ] in
theorem mem_held_iff (h : l.Consistent) : r ∈ l.held x ↔ r ∈ l.order x := h.holder r x

omit [DecidableEq ρ] [DecidableEq ξ] in
/-- No lock has two owners. -/
theorem held_disjoint (hxy : x ≠ y) : Disjoint (l.held x) (l.held y) := by
  rw [Set.disjoint_left]
  intro r hx hy
  exact hxy (Option.some.inj (hx.symm.trans hy))

/-- A free lock may be taken. -/
theorem grant (h : l.Consistent) (hfree : l.holder r = none) (x : ξ) : (l.grant r x).Consistent := by
  have hnew : ∀ y, r ∉ l.order y := fun y hy => by
    rw [← h.holder, hfree] at hy
    cases hy
  constructor
  · intro r' y
    unfold LockTable.grant
    by_cases hr : r' = r
    · subst hr
      by_cases hy : y = x
      · simp [hy]
      · simp [hy, hnew y, Ne.symm hy]
    · by_cases hy : y = x
      · subst hy
        simp [hr, h.holder]
      · simp [hr, hy, h.holder]
  · intro y
    unfold LockTable.grant
    by_cases hy : y = x
    · subst hy
      simpa [List.nodup_append, h.nodup] using fun a ha => ne_of_mem_of_not_mem ha (hnew y)
    · simpa [hy] using h.nodup y

omit [DecidableEq ρ] in
theorem releaseAll (h : l.Consistent) (x : ξ) : (l.releaseAll x).Consistent := by
  constructor
  · intro r y
    unfold LockTable.releaseAll
    by_cases hy : y = x
    · subst hy
      simp [Option.filter_eq_some_iff]
    · simp only [Option.filter_eq_some_iff, h.holder, hy, ne_eq, not_false_eq_true, decide_true,
        and_true, Function.update_of_ne]
  · intro y
    unfold LockTable.releaseAll
    by_cases hy : y = x
    · simp [hy]
    · simpa [hy] using h.nodup y

omit [DecidableEq ρ] in
theorem held_releaseAll : (l.releaseAll x).held x = ∅ := by
  ext r
  simp [LockTable.releaseAll, held, Option.filter_eq_some_iff]

omit [DecidableEq ρ] in
theorem held_releaseAll_ne (hy : y ≠ x) : (l.releaseAll x).held y = l.held y := by
  ext r
  simp [LockTable.releaseAll, held, Option.filter_eq_some_iff, hy]

theorem releaseAfter (h : l.Consistent) (x : ξ) (keep : Nat) : (l.releaseAfter x keep).Consistent := by
  have hsplit : ∀ r, r ∈ l.order x → (r ∈ (l.order x).take keep ↔ r ∉ (l.order x).drop keep) := by
    intro r hr
    have hnodup := h.nodup x
    rw [← List.take_append_drop keep (l.order x)] at hr hnodup
    obtain ⟨-, -, hdisj⟩ := List.nodup_append.1 hnodup
    refine ⟨fun ht hd => hdisj r ht r hd rfl, fun hd => ?_⟩
    exact (List.mem_append.1 hr).resolve_right hd
  constructor
  · intro r y
    unfold LockTable.releaseAfter
    by_cases hy : y = x
    · subst hy
      simp only [Function.update_self, h.holder]
      by_cases hr : r ∈ l.order y
      · rw [hsplit r hr]
        by_cases hd : r ∈ (l.order y).drop keep <;> simp [hr, hd, h.holder]
      · have hd : r ∉ (l.order y).drop keep := fun hd => hr (List.mem_of_mem_drop hd)
        have ht : r ∉ (l.order y).take keep := fun ht => hr (List.mem_of_mem_take ht)
        simp [hr, hd, ht, h.holder]
    · simp only [Function.update_of_ne hy, ← h.holder]
      by_cases hheld : r ∈ (l.order x).drop keep ∧ l.holder r = some x
      · simp [hheld, Ne.symm hy]
      · simp [hheld]
  · intro y
    unfold LockTable.releaseAfter
    by_cases hy : y = x
    · subst hy
      simpa using (h.nodup y).sublist (List.take_sublist _ _)
    · simpa [hy] using h.nodup y

/-- What is left are the locks that the owner had when its list was that long. -/
theorem mem_held_releaseAfter (h : l.Consistent) :
    r ∈ (l.releaseAfter x keep).held x ↔ r ∈ (l.order x).take keep := by
  rw [(h.releaseAfter x keep).mem_held_iff]
  simp [LockTable.releaseAfter]

theorem held_releaseAfter_ne (hy : y ≠ x) : (l.releaseAfter x keep).held y = l.held y := by
  ext r
  simp only [LockTable.releaseAfter, mem_held]
  by_cases hheld : r ∈ (l.order x).drop keep ∧ l.holder r = some x
  · simp [hheld, Ne.symm hy]
  · simp [hheld]

end Consistent

end LockTable
