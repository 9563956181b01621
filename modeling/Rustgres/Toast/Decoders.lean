-- SUMMARY: Decoders of byte strings: where they stand, how they stop, and the copies they make.
import Rustgres.Lib.Window

/-!
# Decoders

A decoder reads its input from front to back and appends to its output. It yields a result or gives
up; that it neither indexes out of bounds nor runs forever is part of what is proved about it.
-/

namespace Toast

/-- A decoder gives up, or indexes out of bounds, or runs forever. -/
inductive Stop where
  | corrupt
  | panicked
  | diverged
deriving DecidableEq, Repr

/-- The input from `ip` on, and the output written so far. -/
structure Progress where
  ip : Nat
  rest : List UInt8
  out : List UInt8

/-- The place of a decoder in its input of `n` bytes. -/
def Progress.At (p : Progress) (n : Nat) : Prop := p.ip + p.rest.length = n

/-- Copy a match byte by byte to an output with room for `outLen`; it may overlap what it writes. -/
def copyMatch (outLen offset : Nat) : Nat → List UInt8 → Except Stop (List UInt8)
  | 0, out => .ok out
  | len + 1, out =>
    if outLen ≤ out.length ∨ out.length < offset then .error .panicked
    else
      match out[out.length - offset]? with
      | none => .error .panicked
      | some b => copyMatch outLen offset len (out ++ [b])

/-! ## Decoders that give up -/

/-- A decoder yields a result of which `P` holds, or gives up. -/
def Yields {α : Type} (x : Except Stop α) (P : α → Prop) : Prop :=
  match x with
  | .ok a => P a
  | .error e => e = .corrupt

namespace Yields

variable {α β : Type} {P : α → Prop} {Q : β → Prop}

theorem bind {x : Except Stop α} {f : α → Except Stop β} (hx : Yields x P)
    (hf : ∀ a, P a → Yields (f a) Q) : Yields (x >>= f) Q := by
  cases x with
  | ok a => exact hf a hx
  | error e => exact hx

theorem mono {P' : α → Prop} {x : Except Stop α} (hx : Yields x P) (h : ∀ a, P a → P' a) :
    Yields x P' := by
  cases x with
  | ok a => exact h a hx
  | error e => exact hx

theorem ok {a : α} (h : P a) : Yields (.ok a) P := h

theorem corrupt : Yields (.error .corrupt) P := rfl

end Yields

/-! ## Copies -/

open Window in
theorem copyMatch_eq {outLen offset len : Nat} {out out' : List UInt8}
    (hcopy : copyBack offset len out = some out') (hle : offset ≤ out.length)
    (hroom : out.length + len ≤ outLen) : copyMatch outLen offset len out = .ok out' := by
  induction len generalizing out with
  | zero =>
      cases hcopy
      rfl
  | succ len ih =>
      rw [copyBack] at hcopy
      obtain ⟨b, hb, hcopy⟩ := Option.bind_eq_some_iff.1 hcopy
      rw [copyMatch, if_neg (by omega), hb]
      apply ih hcopy
      · rw [List.length_append]
        omega
      · rw [List.length_append, List.length_singleton]
        omega

end Toast
