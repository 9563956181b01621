-- SUMMARY: Stacks of saved values: unwinding them, and what a selective unwinding leaves.
import Mathlib.Data.List.Basic
import Mathlib.Tactic.Common

/-!
# Undo Stacks

A state assigns values to cells. Before a change, the old values of the cells it touches are pushed
on a stack, newest first. Unwinding the whole stack gives back the state before the oldest change;
unwinding only the local entries is meant to leave what the other changes made.
-/

variable {κ ν : Type*}

/-- Overwrite the cells that `d` gives a value. -/
def overwrite (f : κ → ν) (d : κ → Option ν) : κ → ν :=
  fun k => (d k).getD (f k)

theorem overwrite_of_none {f : κ → ν} {d : κ → Option ν} {k : κ} (h : d k = none) :
    overwrite f d k = f k := by
  simp [overwrite, h]

theorem overwrite_of_some {f : κ → ν} {d : κ → Option ν} {k : κ} {v : ν} (h : d k = some v) :
    overwrite f d k = v := by
  simp [overwrite, h]

@[simp]
theorem overwrite_empty (f : κ → ν) : overwrite f (fun _ => none) = f := rfl

/-- Give one cell a value. -/
def single [DecidableEq κ] (k : κ) (v : ν) : κ → Option ν :=
  fun k' => if k' = k then some v else none

/-- The cells one change touches, with their values before it. -/
structure UndoEntry (κ ν : Type*) where
  isLocal : Bool
  saved : κ → Option ν

/-- The state before the oldest entry of the stack. -/
def unwind (f : κ → ν) (stack : List (UndoEntry κ ν)) : κ → ν :=
  stack.foldl (fun f e => overwrite f e.saved) f

/-- Restore the local entries only, newest first. -/
def unwindLocal (f : κ → ν) (stack : List (UndoEntry κ ν)) : κ → ν :=
  stack.foldl (fun f e => if e.isLocal then overwrite f e.saved else f) f

/-- The state that the changes which are not local build on the one before the stack: a change that
is not local keeps the value it gave. -/
@[grind =]
def persisted (f : κ → ν) : List (UndoEntry κ ν) → κ → ν
  | [] => f
  | e :: stack =>
    let before := persisted (overwrite f e.saved) stack
    if e.isLocal then before
    else fun k => if (e.saved k).isSome then f k else before k

@[simp]
theorem unwind_nil (f : κ → ν) : unwind f [] = f := rfl

@[simp]
theorem unwind_cons (f : κ → ν) (e : UndoEntry κ ν) (stack : List (UndoEntry κ ν)) :
    unwind f (e :: stack) = unwind (overwrite f e.saved) stack := rfl

theorem unwind_append (f : κ → ν) (s₁ s₂ : List (UndoEntry κ ν)) :
    unwind f (s₁ ++ s₂) = unwind (unwind f s₁) s₂ := by
  simp [unwind]

/-- No entry that is not local stands above a local entry for the same cell. -/
def Layered (stack : List (UndoEntry κ ν)) : Prop :=
  stack.Pairwise fun newer older =>
    newer.isLocal = false → older.isLocal = true →
      ∀ k, (newer.saved k).isSome → older.saved k = none

private theorem unwindLocal_congr {f g : κ → ν} (stack : List (UndoEntry κ ν)) {k : κ}
    (h : f k = g k) : unwindLocal f stack k = unwindLocal g stack k := by
  induction stack generalizing f g with
  | nil => exact h
  | cons e stack ih =>
      refine ih ?_
      dsimp only
      split
      · simp [overwrite, h]
      · exact h

private theorem unwindLocal_untouched {f : κ → ν} {stack : List (UndoEntry κ ν)} {k : κ}
    (h : ∀ e ∈ stack, e.isLocal = true → e.saved k = none) : unwindLocal f stack k = f k := by
  induction stack generalizing f with
  | nil => rfl
  | cons e stack ih =>
      have hrest := ih (f := if e.isLocal then overwrite f e.saved else f)
        fun e' he' => h e' (by simp [he'])
      refine hrest.trans ?_
      split
      · next hl => exact overwrite_of_none (h e (by simp) hl)
      · rfl

/-- On a layered stack, unwinding the local entries leaves what the others persist. -/
theorem unwindLocal_eq_persisted {f : κ → ν} {stack : List (UndoEntry κ ν)} (h : Layered stack) :
    unwindLocal f stack = persisted f stack := by
  induction stack generalizing f with
  | nil => rfl
  | cons e stack ih =>
      obtain ⟨hbelow, hrest⟩ := List.pairwise_cons.mp h
      cases hl : e.isLocal with
      | true =>
          have hpersisted : persisted f (e :: stack) = persisted (overwrite f e.saved) stack := by
            simp [persisted, hl]
          rw [hpersisted, ← ih hrest]
          simp [unwindLocal, hl]
      | false =>
          funext k
          have hskip : unwindLocal f (e :: stack) = unwindLocal f stack := by
            simp [unwindLocal, hl]
          rw [hskip]
          cases hsaved : e.saved k with
          | none =>
              have hk : overwrite f e.saved k = f k := overwrite_of_none hsaved
              rw [unwindLocal_congr stack hk.symm, ih hrest]
              simp [persisted, hl, hsaved]
          | some v =>
              rw [unwindLocal_untouched fun e' he' hl' => hbelow e' he' hl hl' k (by simp [hsaved])]
              simp [persisted, hl, hsaved]

/-! ## Pushing a change -/

/-- The entries hold the values in `f` of exactly the cells that `d` changes. -/
structure SavesAll (es : List (UndoEntry κ ν)) (isLocal : Bool) (f : κ → ν) (d : κ → Option ν) :
    Prop where
  isLocal_eq : ∀ e ∈ es, e.isLocal = isLocal
  saved_eq : ∀ e ∈ es, ∀ k v, e.saved k = some v → v = f k
  covers : ∀ k, (d k).isSome ↔ ∃ e ∈ es, (e.saved k).isSome

variable {es : List (UndoEntry κ ν)} {f g : κ → ν}

private theorem unwind_eq_of_saved (hsaved : ∀ e ∈ es, ∀ k v, e.saved k = some v → v = f k)
    (hrest : ∀ k, (∀ e ∈ es, e.saved k = none) → g k = f k) : unwind g es = f := by
  induction es generalizing g with
  | nil => exact funext fun k => hrest k (by simp)
  | cons e es ih =>
      rw [unwind_cons]
      refine ih (fun e' he' => hsaved e' (by simp [he'])) fun k hk => ?_
      cases he : e.saved k with
      | none => rw [overwrite_of_none he]; exact hrest k (by simpa [he] using hk)
      | some v => rw [overwrite_of_some he]; exact hsaved e (by simp) k v he

private theorem persisted_append_local (hlocal : ∀ e ∈ es, e.isLocal = true)
    (stack : List (UndoEntry κ ν)) :
    persisted g (es ++ stack) = persisted (unwind g es) stack := by
  induction es generalizing g with
  | nil => rfl
  | cons e es ih =>
      have hl := hlocal e (by simp)
      simp only [List.cons_append, persisted, hl, if_true, unwind_cons]
      exact ih fun e' he' => hlocal e' (by simp [he'])

private theorem persisted_append_session (hlocal : ∀ e ∈ es, e.isLocal = false)
    (hsaved : ∀ e ∈ es, ∀ k v, e.saved k = some v → v = f k)
    (hrest : ∀ k, (∀ e ∈ es, e.saved k = none) → g k = f k)
    (stack : List (UndoEntry κ ν)) (k : κ) :
    persisted g (es ++ stack) k
      = if ∃ e ∈ es, (e.saved k).isSome then g k else persisted f stack k := by
  induction es generalizing g with
  | nil =>
      have hgf : g = f := funext fun k => hrest k (by simp)
      simp [hgf]
  | cons e es ih =>
      have hl := hlocal e (by simp)
      have hrest' : ∀ k, (∀ e' ∈ es, e'.saved k = none) → overwrite g e.saved k = f k := by
        intro k hk
        cases he : e.saved k with
        | none => rw [overwrite_of_none he]; exact hrest k (by simpa [he] using hk)
        | some v => rw [overwrite_of_some he]; exact hsaved e (by simp) k v he
      have hih := ih (fun e' he' => hlocal e' (by simp [he']))
        (fun e' he' => hsaved e' (by simp [he'])) hrest'
      simp only [List.cons_append, persisted, hl, Bool.false_eq_true, if_false, hih]
      cases he : e.saved k with
      | none => simp [he, overwrite]
      | some v => simp [he]

private theorem SavesAll.rest {isLocal : Bool} {d : κ → Option ν} (h : SavesAll es isLocal f d)
    (k : κ) (hk : ∀ e ∈ es, e.saved k = none) : overwrite f d k = f k := by
  have hnone : ¬ (d k).isSome := by
    rw [h.covers k]
    rintro ⟨e, he, hsome⟩
    simp [hk e he] at hsome
  exact overwrite_of_none (by simpa using hnone)

/-- Unwinding the entries of a change takes the change back. -/
theorem SavesAll.unwind {isLocal : Bool} {d : κ → Option ν} (h : SavesAll es isLocal f d) :
    unwind (overwrite f d) es = f :=
  unwind_eq_of_saved h.saved_eq h.rest

/-- A local change does not show in what persists, any other change does. -/
theorem SavesAll.persisted {isLocal : Bool} {d : κ → Option ν} (h : SavesAll es isLocal f d)
    (stack : List (UndoEntry κ ν)) : persisted (overwrite f d) (es ++ stack)
      = if isLocal then persisted f stack else overwrite (persisted f stack) d := by
  cases isLocal with
  | true => rw [persisted_append_local h.isLocal_eq, h.unwind, if_pos rfl]
  | false =>
      funext k
      rw [persisted_append_session h.isLocal_eq h.saved_eq h.rest]
      simp only [← h.covers k, Bool.false_eq_true, if_false]
      cases hd : d k <;> simp [overwrite, hd]
