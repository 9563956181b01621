-- SUMMARY: Dictionary coding: literals and copies from the output, and the copies that an input admits.
import Mathlib.Data.List.Basic

/-!
# Sliding Windows

A text is written as literals and copies of a part of the output written before. A copy may overlap
its own output. What a coder has to know about the text it codes is only which parts repeat.
-/

namespace Window

variable {α : Type*}

/-! ## Playing a code -/

inductive Step (α : Type*) where
  | lits (bs : List α)
  | copy (offset len : Nat)

/-- Append `len` elements, each read `offset` before the end that it is appended to. -/
def copyBack (offset : Nat) : Nat → List α → Option (List α)
  | 0, out => some out
  | len + 1, out => (out[out.length - offset]?).bind fun b => copyBack offset len (out ++ [b])

/-- The output after the steps; a copy has to stay within what is written. -/
def play : List (Step α) → List α → Option (List α)
  | [], out => some out
  | .lits bs :: steps, out => play steps (out ++ bs)
  | .copy offset len :: steps, out =>
    if 0 < offset ∧ offset ≤ out.length then (copyBack offset len out).bind (play steps) else none

theorem play_append (steps steps' : List (Step α)) (out : List α) :
    play (steps ++ steps') out = (play steps out).bind (play steps') := by
  induction steps generalizing out with
  | nil => rfl
  | cons s steps ih =>
      cases s with
      | lits bs => exact ih (out ++ bs)
      | copy offset len =>
          rw [List.cons_append, play, play]
          split
          · rw [Option.bind_assoc]
            exact congrArg _ (funext ih)
          · rfl

theorem copyBack_isSome {offset : Nat} (hpos : 0 < offset) (len : Nat) {out : List α}
    (hle : offset ≤ out.length) :
    ∃ out', copyBack offset len out = some out' ∧ out'.length = out.length + len := by
  induction len generalizing out with
  | zero => exact ⟨out, rfl, rfl⟩
  | succ len ih =>
      have hlt : out.length - offset < out.length := by omega
      rw [copyBack, List.getElem?_eq_getElem hlt, Option.bind_some]
      obtain ⟨out', hout, hlen⟩ := @ih (out ++ [out[out.length - offset]]) (by simp; omega)
      refine ⟨out', hout, ?_⟩
      rw [hlen, List.length_append, List.length_singleton]
      omega

/-! ## Repetitions -/

/-- The next `len` elements of `x` at `pos` are those `offset` before. -/
structure Repeats (x : List α) (pos offset len : Nat) : Prop where
  back : 0 < offset
  le : offset ≤ pos
  fits : pos + len ≤ x.length
  agrees : ∀ i < len, x[pos + i]? = x[pos - offset + i]?

/-- A copy of a repetition writes what comes next. -/
theorem Repeats.copyBack_take {x : List α} {pos offset len : Nat} (h : Repeats x pos offset len) :
    copyBack offset len (x.take pos) = some (x.take (pos + len)) := by
  obtain ⟨hback, hle, hfits, hagrees⟩ := h
  induction len generalizing pos with
  | zero => rfl
  | succ len ih =>
      have hlt : pos < x.length := by omega
      have hlen : (x.take pos).length = pos := List.length_take_of_le (Nat.le_of_lt hlt)
      have hbyte : (x.take pos)[pos - offset]? = some x[pos] := by
        rw [List.getElem?_take_of_lt (by omega), ← List.getElem?_eq_getElem hlt]
        exact (hagrees 0 (by omega)).symm
      have hnext : x.take pos ++ [x[pos]] = x.take (pos + 1) := List.take_append_getElem hlt
      rw [copyBack, hlen, hbyte, Option.bind_some, hnext, ih (by omega) (by omega)]
      · rw [show pos + 1 + len = pos + (len + 1) by omega]
      · intro i hi
        have := hagrees (i + 1) (by omega)
        rw [show pos + 1 + i = pos + (i + 1) by omega, this]
        congr 1
        omega

theorem play_copy {x : List α} {steps : List (Step α)} {pos offset len : Nat}
    (hplay : play steps [] = some (x.take pos)) (h : Repeats x pos offset len) :
    play (steps ++ [.copy offset len]) [] = some (x.take (pos + len)) := by
  have hlen : (x.take pos).length = pos := List.length_take_of_le (by have := h.fits; omega)
  rw [play_append, hplay, Option.bind_some, play, if_pos ⟨h.back, by rw [hlen]; exact h.le⟩,
    h.copyBack_take]
  rfl

theorem play_lits {x : List α} {steps : List (Step α)} {a b : Nat} (hab : a ≤ b)
    (hplay : play steps [] = some (x.take a)) :
    play (steps ++ [.lits ((x.take b).drop a)]) [] = some (x.take b) := by
  have hsplit := List.take_append_drop a (x.take b)
  rw [List.take_take, Nat.min_eq_left hab] at hsplit
  rw [play_append, hplay, Option.bind_some, play, play, hsplit]

/-! ## Common prefixes -/

variable [DecidableEq α]

/-- How many elements agree from `a` and from `b` on, `max` at most. -/
def agreeing (x : List α) : Nat → Nat → Nat → Nat
  | 0, _, _ => 0
  | max + 1, a, b => if x[a]? = x[b]? then agreeing x max (a + 1) (b + 1) + 1 else 0

theorem agreeing_le (x : List α) (max a b : Nat) : agreeing x max a b ≤ max := by
  induction max generalizing a b with
  | zero => exact Nat.le_refl 0
  | succ max ih =>
      rw [agreeing]
      split
      · exact Nat.succ_le_succ (ih _ _)
      · exact Nat.zero_le _

theorem agrees_of_lt {x : List α} {max a b : Nat} :
    ∀ i < agreeing x max a b, x[a + i]? = x[b + i]? := by
  induction max generalizing a b with
  | zero => exact fun i hi => absurd hi (Nat.not_lt_zero i)
  | succ max ih =>
      rw [agreeing]
      split
      · rename_i heq
        intro i hi
        cases i with
        | zero => exact heq
        | succ i =>
            have := @ih (a + 1) (b + 1) i (by omega)
            rwa [Nat.add_right_comm, Nat.add_right_comm b 1] at this
      · exact fun i hi => absurd hi (Nat.not_lt_zero i)

theorem agreeing_eq_max {x : List α} {max a b : Nat} (h : ∀ i < max, x[a + i]? = x[b + i]?) :
    agreeing x max a b = max := by
  induction max generalizing a b with
  | zero => rfl
  | succ max ih =>
      have h0 : x[a]? = x[b]? := h 0 (Nat.succ_pos max)
      rw [agreeing, if_pos h0, ih]
      intro i hi
      have := h (i + 1) (Nat.succ_lt_succ hi)
      rwa [Nat.add_right_comm, Nat.add_right_comm b 1]

end Window
