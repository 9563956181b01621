-- SUMMARY: Programs that change a state and may fail, and the relations between states they keep.
import Mathlib.Data.List.Basic
import Mathlib.Tactic.Common

/-!
# Programs with Failure

A program changes a state and ends with a value or an error; at an error the state stays as it is.
A relation that is reflexive and transitive holds between the states before and after a program
when it holds for each of its steps, whatever fails and wherever an error is caught.
-/

/-- A program over the states `σ`. -/
abbrev Prog (σ ε : Type) := ExceptT ε (StateM σ)

namespace Prog

variable {σ τ ε α β : Type}

/-- The outcome from the state `s`, and the state it leaves. -/
def exec (p : Prog σ ε α) (s : σ) : Except ε α × σ := p.run.run s

/-- Every run leaves a state that `R` relates to the one it started in. -/
def Keeps (R : σ → σ → Prop) (p : Prog σ ε α) : Prop := ∀ s, R s (p.exec s).2

/-- Give up if there is no value. -/
def ofExcept (x : Except ε α) : Prog σ ε α :=
  match x with
  | .ok a => pure a
  | .error e => throw e

/-- Run a program on a part of the state. -/
def onPart (get : τ → σ) (set : σ → τ → τ) (p : Prog σ ε α) : Prog τ ε α :=
  fun t =>
    let (r, s) := p.exec (get t)
    (r, set s t)

/-- The first answer that the body gives for an element of the list, if it gives one. -/
def firstAnswer (body : β → Prog σ ε (Option α)) : List β → Prog σ ε (Option α)
  | [] => pure none
  | x :: xs => do
    match ← body x with
    | some a => return some a
    | none => firstAnswer body xs

@[simp]
theorem exec_pure (a : α) (s : σ) : (pure a : Prog σ ε α).exec s = (.ok a, s) := rfl

@[simp]
theorem exec_throw (e : ε) (s : σ) : (throw e : Prog σ ε α).exec s = (.error e, s) := rfl

@[simp]
theorem exec_get (s : σ) : (get : Prog σ ε σ).exec s = (.ok s, s) := rfl

@[simp]
theorem exec_modify (f : σ → σ) (s : σ) : (modify f : Prog σ ε PUnit).exec s = (.ok ⟨⟩, f s) := rfl

theorem exec_bind (p : Prog σ ε α) (q : α → Prog σ ε β) (s : σ) :
    (p >>= q).exec s = match p.exec s with
      | (.ok a, s') => (q a).exec s'
      | (.error e, s') => (.error e, s') := by
  unfold exec
  simp only [ExceptT.run_bind, StateT.run_bind]
  rcases hp : StateT.run (ExceptT.run p) s with ⟨r, s'⟩
  cases r with
  | ok a => rfl
  | error e => rfl

theorem exec_tryCatch (p : Prog σ ε α) (h : ε → Prog σ ε α) (s : σ) :
    (tryCatch p h : Prog σ ε α).exec s = match p.exec s with
      | (.ok a, s') => (.ok a, s')
      | (.error e, s') => (h e).exec s' := by
  unfold exec
  simp only [ExceptT.run_tryCatch, StateT.run_bind]
  rcases hp : StateT.run (ExceptT.run p) s with ⟨r, s'⟩
  cases r with
  | ok a => rfl
  | error e => rfl

section Keeps

variable {R : σ → σ → Prop} [IsPreorder σ R]

theorem keeps_pure (a : α) : Keeps R (pure a : Prog σ ε α) := fun s => refl_of R s

theorem keeps_throw (e : ε) : Keeps R (throw e : Prog σ ε α) := fun s => refl_of R s

theorem keeps_get : Keeps R (get : Prog σ ε σ) := fun s => refl_of R s

theorem keeps_ofExcept (x : Except ε α) : Keeps R (ofExcept x : Prog σ ε α) := by
  cases x with
  | ok a => exact keeps_pure a
  | error e => exact keeps_throw e

/-- The first program is looked at from one state only. -/
theorem keeps_bind_at {p : Prog σ ε α} {q : α → Prog σ ε β} {s : σ} (hp : R s (p.exec s).2)
    (hq : ∀ a, (q a).Keeps R) : R s ((p >>= q).exec s).2 := by
  rw [exec_bind]
  rcases hrun : p.exec s with ⟨r, s'⟩
  rw [hrun] at hp
  cases r with
  | ok a => exact trans_of R hp (hq a s')
  | error e => exact hp

theorem Keeps.bind {p : Prog σ ε α} {q : α → Prog σ ε β} (hp : p.Keeps R)
    (hq : ∀ a, (q a).Keeps R) : (p >>= q).Keeps R :=
  fun s => keeps_bind_at (hp s) hq

omit [IsPreorder σ R] in
/-- A program that reads the state goes on from the state that it has read. -/
theorem keeps_get_bind {q : σ → Prog σ ε α} (hq : ∀ s, R s ((q s).exec s).2) :
    (get >>= q : Prog σ ε α).Keeps R := hq

omit [IsPreorder σ R] in
/-- A caught error: the handler is looked at from the state in which the error was raised. -/
theorem keeps_tryCatch_at {p : Prog σ ε α} {h : ε → Prog σ ε α} {s : σ} (hp : R s (p.exec s).2)
    (hh : ∀ e s', R s s' → R s ((h e).exec s').2) :
    R s ((tryCatch p h : Prog σ ε α).exec s).2 := by
  rw [exec_tryCatch]
  rcases hrun : p.exec s with ⟨r, s'⟩
  rw [hrun] at hp
  cases r with
  | ok a => exact hp
  | error e => exact hh e s' hp

theorem Keeps.firstAnswer {body : β → Prog σ ε (Option α)} (hbody : ∀ x, (body x).Keeps R)
    (xs : List β) : (firstAnswer body xs).Keeps R := by
  induction xs with
  | nil => exact keeps_pure _
  | cons x xs ih =>
    apply (hbody x).bind
    intro answer
    cases answer with
    | some a => exact keeps_pure _
    | none => exact ih

theorem Keeps.mapM {f : β → Prog σ ε α} (hf : ∀ x, (f x).Keeps R) (xs : List β) :
    (xs.mapM f).Keeps R := by
  induction xs with
  | nil => exact keeps_pure _
  | cons x xs ih =>
    rw [List.mapM_cons]
    exact (hf x).bind fun _ => ih.bind fun _ => keeps_pure _

theorem Keeps.forM {f : β → Prog σ ε PUnit} (hf : ∀ x, (f x).Keeps R) (xs : List β) :
    (xs.forM f).Keeps R := by
  induction xs with
  | nil => exact keeps_pure _
  | cons x xs ih => exact (hf x).bind fun _ => ih

end Keeps

/-- A program on a part keeps what the part's relation gives for the whole. -/
theorem Keeps.onPart {R : σ → σ → Prop} {Q : τ → τ → Prop} {get : τ → σ} {set : σ → τ → τ}
    {p : Prog σ ε α} (hp : p.Keeps R) (hset : ∀ t s, R (get t) s → Q t (set s t)) :
    (p.onPart get set).Keeps Q :=
  fun t => hset t _ (hp (get t))

end Prog
