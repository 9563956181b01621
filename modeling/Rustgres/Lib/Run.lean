-- SUMMARY: Runs of a partial step function, with the induction rules for invariants over runs.
import Mathlib.Data.List.Induction

/-!
# Runs

`run step s is` takes the steps `is` one after the other from `s`; a step that is not possible in
its state makes the whole run impossible. An invariant may speak about the steps taken so far.
-/

variable {σ ι : Type*}

/-- The state after the steps `is`, if each of them is possible. -/
def run (step : σ → ι → Option σ) : σ → List ι → Option σ
  | s, [] => some s
  | s, i :: is => (step s i).bind fun s' => run step s' is

namespace run

variable {step : σ → ι → Option σ}

@[simp]
theorem nil (s : σ) : run step s [] = some s := rfl

@[simp]
theorem cons (s : σ) (i : ι) (is : List ι) :
    run step s (i :: is) = (step s i).bind fun s' => run step s' is := rfl

theorem append (s : σ) (is js : List ι) :
    run step s (is ++ js) = (run step s is).bind fun s' => run step s' js := by
  induction is generalizing s with
  | nil => rfl
  | cons i is ih =>
      simp only [List.cons_append, cons, Option.bind_assoc, ih]

/-- A run ends with its last step. -/
theorem snoc_eq_some {s s' : σ} {is : List ι} {i : ι} :
    run step s (is ++ [i]) = some s' ↔ ∃ m, run step s is = some m ∧ step m i = some s' := by
  simp [append, Option.bind_eq_some_iff]

/-- An invariant of the steps taken and the state reached, kept by every possible step. -/
theorem invariant (Inv : List ι → σ → Prop) {s : σ} (hinit : Inv [] s)
    (hstep : ∀ is m i m', run step s is = some m → Inv is m → step m i = some m' →
      Inv (is ++ [i]) m')
    {is : List ι} {s' : σ} (hrun : run step s is = some s') : Inv is s' := by
  induction is using List.reverseRecOn generalizing s' with
  | nil =>
      cases hrun
      exact hinit
  | append_singleton is i ih =>
      obtain ⟨m, hm, hi⟩ := snoc_eq_some.mp hrun
      exact hstep is m i s' hm (ih hm) hi

/-- Every step is taken in a state that allows it. -/
def Along (step : σ → ι → Option σ) (P : σ → ι → Prop) : σ → List ι → Prop
  | _, [] => True
  | s, i :: is => P s i ∧ ∀ s', step s i = some s' → Along step P s' is

instance decidableAlong (P : σ → ι → Prop) [∀ s i, Decidable (P s i)] :
    ∀ s is, Decidable (Along step P s is)
  | _, [] => .isTrue trivial
  | s, i :: is =>
    match h : step s i with
    | none => decidable_of_iff (P s i) (by simp [Along, h])
    | some s' =>
      haveI := decidableAlong P s' is
      decidable_of_iff (P s i ∧ Along step P s' is) (by simp [Along, h])

/-- What every allowed step keeps, every allowed run keeps. -/
theorem inv_along {P : σ → ι → Prop} (Inv : σ → Prop)
    (hstep : ∀ s i s', Inv s → P s i → step s i = some s' → Inv s') {s s' : σ} {is : List ι}
    (hP : Along step P s is) (hinit : Inv s) (hrun : run step s is = some s') : Inv s' := by
  induction is generalizing s with
  | nil =>
      cases hrun
      exact hinit
  | cons i is ih =>
      obtain ⟨m, hm, hrest⟩ := Option.bind_eq_some_iff.mp hrun
      exact ih (hP.2 m hm) (hstep s i m hinit hP.1 hm) hrest

theorem along_mono {P Q : σ → ι → Prop} (h : ∀ s i, P s i → Q s i) {s : σ} {is : List ι}
    (hP : Along step P s is) : Along step Q s is := by
  induction is generalizing s with
  | nil => trivial
  | cons i is ih => exact ⟨h s i hP.1, fun s' hs' => ih (hP.2 s' hs')⟩

theorem along_append {P : σ → ι → Prop} {s m : σ} {is js : List ι} (hP : Along step P s (is ++ js))
    (hrun : run step s is = some m) : Along step P s is ∧ Along step P m js := by
  induction is generalizing s with
  | nil =>
      cases hrun
      exact ⟨trivial, hP⟩
  | cons i is ih =>
      obtain ⟨m', hm', hrest⟩ := Option.bind_eq_some_iff.mp hrun
      obtain ⟨his, hjs⟩ := ih (hP.2 m' hm') hrest
      refine ⟨⟨hP.1, fun s' hs' => ?_⟩, hjs⟩
      obtain rfl : m' = s' := Option.some.inj (hm'.symm.trans hs')
      exact his

end run
