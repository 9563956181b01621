-- SUMMARY: Patterns with wildcards: what they match, and what a match may forget.
import Mathlib.Data.List.Basic

/-!
# Wildcards

A pattern is a list of pieces: a character that stands for itself, one for any character, and one for any text. Where a
matcher comes to a piece of the last kind, it need not go back to the ones before it.
-/

namespace Wildcards

inductive Piece (α : Type) where
  | lit (c : α)
  | any
  | star
deriving DecidableEq

variable {α : Type}

/-- The texts that a pattern matches. -/
def Fits : List (Piece α) → List α → Prop
  | [], s => s = []
  | .lit c :: toks, s => ∃ rest, s = c :: rest ∧ Fits toks rest
  | .any :: toks, s => ∃ c rest, s = c :: rest ∧ Fits toks rest
  | .star :: toks, s => ∃ k, Fits toks (s.drop k)

variable {t : Piece α} {toks toks₀ : List (Piece α)} {c : α} {s text text₀ : List α}

/-! ## Pieces of one character -/

/-- A piece for one character accepts it. -/
def Piece.takes [DecidableEq α] : Piece α → α → Bool
  | .lit c, x => c = x
  | .any, _ => true
  | .star, _ => false

theorem fits_cons_iff [DecidableEq α] (h : t ≠ .star) : Fits (t :: toks) (c :: s) ↔ t.takes c = true ∧ Fits toks s := by
  cases t with
  | lit d =>
      constructor
      · rintro ⟨rest, heq, hfits⟩
        cases heq
        exact ⟨decide_eq_true rfl, hfits⟩
      · rintro ⟨htakes, hfits⟩
        rw [← of_decide_eq_true htakes]
        exact ⟨s, rfl, hfits⟩
  | any =>
      constructor
      · rintro ⟨_, rest, heq, hfits⟩
        cases heq
        exact ⟨rfl, hfits⟩
      · rintro ⟨-, hfits⟩
        exact ⟨c, s, rfl, hfits⟩
  | star => exact absurd rfl h

/-- A piece for one character takes one. -/
theorem Fits.tail (h : Fits (t :: toks) s) (hne : t ≠ .star) : Fits toks s.tail := by
  cases t with
  | lit d =>
      obtain ⟨rest, rfl, hfits⟩ := h
      exact hfits
  | any =>
      obtain ⟨d, rest, rfl, hfits⟩ := h
      exact hfits
  | star => exact absurd rfl hne

/-! ## Any text -/

/-- Any text is no text, or a character and any text. -/
theorem fits_star_iff : Fits (.star :: toks) s ↔ Fits toks s ∨ Fits (.star :: toks) s.tail := by
  constructor
  · rintro ⟨k, hfits⟩
    cases k with
    | zero => exact .inl hfits
    | succ k =>
        refine .inr ⟨k, ?_⟩
        rwa [List.drop_tail]
  · rintro (hfits | ⟨k, hfits⟩)
    · exact ⟨0, hfits⟩
    · rw [List.drop_tail] at hfits
      exact ⟨k + 1, hfits⟩

theorem fits_star_of_drop {k : Nat} (h : Fits (.star :: toks) (s.drop k)) : Fits (.star :: toks) s := by
  obtain ⟨l, hfits⟩ := h
  rw [List.drop_drop] at hfits
  exact ⟨k + l, hfits⟩

/-- Only any text matches no text. -/
theorem fits_nil_iff [DecidableEq α] : Fits toks [] ↔ (toks.dropWhile (· = .star)).isEmpty = true := by
  induction toks with
  | nil => exact ⟨fun _ => rfl, fun _ => rfl⟩
  | cons t toks ih =>
      cases t with
      | lit d => exact ⟨fun ⟨_, heq, _⟩ => (by cases heq), fun h => (by cases h)⟩
      | any => exact ⟨fun ⟨_, _, heq, _⟩ => (by cases heq), fun h => (by cases h)⟩
      | star =>
          have hnone : Fits (.star :: toks) ([] : List α) ↔ Fits toks [] := by
            rw [fits_star_iff, List.tail_nil]
            refine ⟨fun h => h.elim id fun ⟨k, hfits⟩ => ?_, .inl⟩
            rwa [List.drop_nil] at hfits
          rw [hnone, ih]
          rfl

/-- A pattern of characters that stand for themselves matches these. -/
theorem fits_literal {l : List α} : Fits (l.map .lit) s ↔ s = l := by
  induction l generalizing s with
  | nil => exact Iff.rfl
  | cons c l ih =>
      constructor
      · rintro ⟨rest, rfl, hfits⟩
        rw [ih.1 hfits]
      · rintro rfl
        exact ⟨l, rfl, ih.2 rfl⟩

/-! ## What was passed -/

/-- From the first pattern and text to the second each piece took one character. -/
inductive Since (toks₀ : List (Piece α)) (text₀ : List α) : List (Piece α) → List α → Prop where
  | refl : Since toks₀ text₀ toks₀ text₀
  | one {t : Piece α} {toks : List (Piece α)} {c : α} {text : List α} (h : Since toks₀ text₀ (t :: toks) (c :: text))
      (hne : t ≠ .star) : Since toks₀ text₀ toks text

/-- A match that starts later is a match that goes on later. -/
theorem Since.fits (h : Since toks₀ text₀ toks text) {k : Nat} (hfits : Fits toks₀ (text₀.drop k)) :
    Fits toks (text.drop k) := by
  induction h with
  | refl => exact hfits
  | one _ hne ih =>
      -- the piece takes the first character of what is left
      have htail := ih.tail hne
      rwa [List.tail_drop, List.drop_succ_cons] at htail

theorem Since.length_toks (h : Since toks₀ text₀ toks text) : toks.length ≤ toks₀.length := by
  induction h with
  | refl => exact Nat.le_refl _
  | one _ _ ih => exact Nat.le_of_succ_le ih

theorem Since.length_text (h : Since toks₀ text₀ toks text) : text.length ≤ text₀.length := by
  induction h with
  | refl => exact Nat.le_refl _
  | one _ _ ih => exact Nat.le_of_succ_le ih

/-- At a piece for any text an earlier one can be forgotten. -/
theorem Since.forget (h : Since toks₀ text₀ (.star :: toks) text) (hfits : Fits (.star :: toks₀) text₀.tail) :
    Fits (.star :: toks) text := by
  obtain ⟨k, hfits⟩ := hfits
  rw [List.drop_tail] at hfits
  exact fits_star_of_drop (h.fits hfits)

end Wildcards
