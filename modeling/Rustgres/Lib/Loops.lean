-- SUMMARY: Loops over lists that may stop with an error.
import Mathlib.Data.List.Basic

/-!
# Loops That May Fail

What a loop over a list has done when it went through: for a map, for a check of each element, and for
a fold with an invariant.
-/

namespace Loops

variable {α β γ ε : Type}

theorem bind_eq_ok {x : Except ε α} {f : α → Except ε β} {b : β} (h : x >>= f = .ok b) :
    ∃ a, x = .ok a ∧ f a = .ok b := by
  cases x with
  | error e => cases h
  | ok a => exact ⟨a, rfl, h⟩

theorem map_eq_ok {x : Except ε α} {f : α → β} {b : β} (h : x.map f = .ok b) :
    ∃ a, x = .ok a ∧ f a = b := by
  cases x with
  | error e => cases h
  | ok a => exact ⟨a, rfl, Except.ok.inj h⟩

/-! ## Maps -/

theorem mapM_cons_ok {f : α → Except ε β} {a : α} {l : List α} {bs : List β}
    (h : (a :: l).mapM f = .ok bs) : ∃ b bs', f a = .ok b ∧ l.mapM f = .ok bs' ∧ bs = b :: bs' := by
  rw [List.mapM_cons] at h
  obtain ⟨b, hb, h⟩ := bind_eq_ok h
  obtain ⟨bs', hbs, h⟩ := bind_eq_ok h
  cases h
  exact ⟨b, bs', hb, hbs, rfl⟩

theorem mapM_eq_ok {f : α → Except ε β} {g : α → β} {l : List α} (h : ∀ a ∈ l, f a = .ok (g a)) :
    l.mapM f = .ok (l.map g) := by
  induction l with
  | nil => rfl
  | cons a l ih =>
      rw [List.mapM_cons, h a (by simp), ih fun b hb => h b (by simp [hb])]
      rfl

theorem mem_of_mapM {f : α → Except ε β} {l : List α} {bs : List β} (h : l.mapM f = .ok bs) {a : α}
    {b : β} (ha : a ∈ l) (hb : f a = .ok b) : b ∈ bs := by
  induction l generalizing bs with
  | nil => cases ha
  | cons x l ih =>
      obtain ⟨y, ys, hy, hys, rfl⟩ := mapM_cons_ok h
      rcases List.mem_cons.1 ha with rfl | ha
      · rw [hb] at hy
        cases hy
        exact List.mem_cons_self
      · exact List.mem_cons_of_mem y (ih hys ha)

theorem exists_of_mem_mapM {f : α → Except ε β} {l : List α} {bs : List β} (h : l.mapM f = .ok bs)
    {b : β} (hb : b ∈ bs) : ∃ a ∈ l, f a = .ok b := by
  induction l generalizing bs with
  | nil =>
      cases h
      cases hb
  | cons x l ih =>
      obtain ⟨y, ys, hy, hys, rfl⟩ := mapM_cons_ok h
      rcases List.mem_cons.1 hb with rfl | hb
      · exact ⟨x, List.mem_cons_self, hy⟩
      · obtain ⟨a, ha, hfa⟩ := ih hys hb
        exact ⟨a, List.mem_cons_of_mem x ha, hfa⟩

/-- A loop that went through has done its step at each place. -/
theorem forall₂_of_mapM {f : α → Except ε β} {l : List α} {bs : List β} (h : l.mapM f = .ok bs) :
    List.Forall₂ (fun a b => f a = .ok b) l bs := by
  induction l generalizing bs with
  | nil =>
      cases h
      exact .nil
  | cons a l ih =>
      obtain ⟨b, bs', hb, hbs, rfl⟩ := mapM_cons_ok h
      exact .cons hb (ih hbs)

theorem mapM_of_forall₂ {f : α → Except ε β} {l : List α} {bs : List β}
    (h : List.Forall₂ (fun a b => f a = .ok b) l bs) : l.mapM f = .ok bs := by
  induction h with
  | nil => rfl
  | cons hb _ ih =>
      rw [List.mapM_cons, hb, ih]
      rfl

theorem getElem?_of_forall₂ {R : α → β → Prop} {l : List α} {bs : List β} (h : List.Forall₂ R l bs) {k : Nat}
    {b : β} (hk : bs[k]? = some b) : ∃ a, l[k]? = some a ∧ R a b := by
  induction h generalizing k with
  | nil => cases hk
  | @cons a b' _ _ hr _ ih =>
      cases k with
      | zero =>
          cases hk
          exact ⟨a, rfl, hr⟩
      | succ k => exact ih hk

/-- Two loops one after the other are one. -/
theorem mapM_bind {f : α → Except ε β} {g : β → Except ε γ} {l : List α} {bs : List β} {cs : List γ}
    (hf : l.mapM f = .ok bs) (hg : bs.mapM g = .ok cs) : l.mapM (fun a => f a >>= g) = .ok cs := by
  induction l generalizing bs cs with
  | nil =>
      cases hf
      cases hg
      rfl
  | cons a l ih =>
      obtain ⟨b, bs', hb, hbs, rfl⟩ := mapM_cons_ok hf
      obtain ⟨c, cs', hc, hcs, rfl⟩ := mapM_cons_ok hg
      rw [List.mapM_cons, hb, ih hbs hcs]
      change (g b >>= fun c => _) = _
      rw [hc]
      rfl

theorem mapM_congr {f g : α → Except ε β} {l : List α} (h : ∀ a ∈ l, f a = g a) :
    l.mapM f = l.mapM g := by
  induction l with
  | nil => rfl
  | cons a l ih =>
      rw [List.mapM_cons, List.mapM_cons, h a (by simp), ih fun b hb => h b (by simp [hb])]

/-! ## Checks -/

theorem forM_cons (f : α → Except ε Unit) (a : α) (l : List α) :
    (a :: l).forM f = (f a).bind fun _ => l.forM f := rfl

theorem forM_eq_ok {f : α → Except ε Unit} {l : List α} : l.forM f = .ok () ↔ ∀ a ∈ l, f a = .ok () := by
  induction l with
  | nil => simp [List.forM, Pure.pure, Except.pure]
  | cons a l ih =>
      rw [List.forall_mem_cons, ← ih]
      change (f a >>= fun _ => l.forM f) = .ok () ↔ _
      cases f a with
      | error e => simp [Bind.bind, Except.bind]
      | ok u => simp [Bind.bind, Except.bind]

/-! ## Folds -/

/-- What each step of a loop preserves holds when the loop is through. -/
theorem foldlM_invariant {P : β → Prop} {f : β → α → Except ε β} {l : List α} {b b' : β}
    (h : l.foldlM f b = .ok b') (hstep : ∀ a ∈ l, ∀ b b', P b → f b a = .ok b' → P b') (hb : P b) :
    P b' := by
  induction l generalizing b with
  | nil =>
      cases h
      exact hb
  | cons a l ih =>
      rw [List.foldlM_cons] at h
      obtain ⟨b₁, hb₁, h⟩ := bind_eq_ok h
      exact ih h (fun a ha => hstep a (by simp [ha])) (hstep a (by simp) b b₁ hb hb₁)

/-! ## Two loops over one list -/

/-- Both went through with related results, or both failed. -/
def Outcome (R : β → γ → Prop) : Except ε (List β) → Except ε (List γ) → Prop
  | .ok bs, .ok cs => List.Forall₂ R bs cs
  | .error _, .error _ => True
  | _, _ => False

theorem mapM_eq_error {f : α → Except ε β} {l : List α} :
    (∃ e, l.mapM f = .error e) ↔ ∃ a ∈ l, ∃ e, f a = .error e := by
  induction l with
  | nil => simp [pure, Except.pure]
  | cons a l ih =>
      rw [List.mapM_cons, List.exists_mem_cons_iff, ← ih]
      cases f a with
      | error e => simp [bind, Except.bind]
      | ok b => cases l.mapM f <;> simp [bind, Except.bind, pure, Except.pure]

theorem forall₂_of_forall₂ {R : β → γ → Prop} {f : α → Except ε β} {g : α → Except ε γ} {l : List α} {bs : List β}
    {cs : List γ} (hf : List.Forall₂ (fun a b => f a = .ok b) l bs) (hg : List.Forall₂ (fun a c => g a = .ok c) l cs) :
    List.Forall₂ R bs cs ↔ ∀ a ∈ l, ∃ b c, f a = .ok b ∧ g a = .ok c ∧ R b c := by
  induction hf generalizing cs with
  | nil =>
      cases hg
      simp
  | @cons a b l bs hb _ ih =>
      cases hg with
      | @cons _ c _ cs hc hrest =>
          rw [List.forall₂_cons, ih hrest, List.forall_mem_cons]
          refine and_congr_left fun _ => ⟨fun h => ⟨b, c, hb, hc, h⟩, ?_⟩
          rintro ⟨b', c', hb', hc', h⟩
          rw [hb] at hb'
          rw [hc] at hc'
          cases hb'
          cases hc'
          exact h

/-- Two loops agree when each of their steps does, or when each of them fails somewhere. -/
theorem outcome_mapM {R : β → γ → Prop} {f : α → Except ε β} {g : α → Except ε γ} {l : List α} :
    Outcome R (l.mapM f) (l.mapM g) ↔ (∀ a ∈ l, ∃ b c, f a = .ok b ∧ g a = .ok c ∧ R b c) ∨
      ((∃ a ∈ l, ∃ e, f a = .error e) ∧ ∃ a ∈ l, ∃ e, g a = .error e) := by
  rw [← mapM_eq_error, ← mapM_eq_error]
  cases hf : l.mapM f with
  | ok bs =>
      cases hg : l.mapM g with
      | ok cs => simp [Outcome, forall₂_of_forall₂ (forall₂_of_mapM hf) (forall₂_of_mapM hg)]
      | error e =>
          obtain ⟨a, ha, e', he⟩ := mapM_eq_error.1 ⟨e, hg⟩
          simp only [Outcome, false_iff, not_or, reduceCtorEq, exists_false, false_and, not_false_iff, and_true]
          intro h
          obtain ⟨b, c, -, hc, -⟩ := h a ha
          rw [he] at hc
          cases hc
  | error e =>
      obtain ⟨a, ha, e', he⟩ := mapM_eq_error.1 ⟨e, hf⟩
      have hnot : ¬∀ a ∈ l, ∃ b c, f a = .ok b ∧ g a = .ok c ∧ R b c := by
        intro h
        obtain ⟨b, c, hb, -, -⟩ := h a ha
        rw [he] at hb
        cases hb
      cases hg : l.mapM g with
      | ok cs =>
          rw [or_iff_right hnot]
          simp [Outcome]
      | error e => simp [Outcome]

end Loops
