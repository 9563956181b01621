-- SUMMARY: Machine integers as whole numbers: their ranges, checked results, casts and overflows.
import Mathlib.Tactic.Common

/-!
# Machine Integers

A program on machine integers is written over the whole numbers. An operation that checks its result is `checked`,
a cast is `wrap`, and an operation that does neither is `op`, which fails where it overflows.
-/

namespace Machine

structure IntType where
  lo : Int
  hi : Int

def i32 : IntType := ⟨-2147483648, 2147483647⟩
def i64 : IntType := ⟨-9223372036854775808, 9223372036854775807⟩
def i128 : IntType :=
  ⟨-170141183460469231731687303715884105728, 170141183460469231731687303715884105727⟩

namespace IntType

variable (t : IntType)

/-- The whole number is a value of the type. -/
def Holds (n : Int) : Prop := t.lo ≤ n ∧ n ≤ t.hi

instance (n : Int) : Decidable (t.Holds n) := inferInstanceAs (Decidable (_ ∧ _))

/-- A conversion or an operation that checks its result. -/
def checked (n : Int) : Option Int := if t.Holds n then some n else none

/-- The value of the type that agrees with `n` in the bits of the type. -/
def wrap (n : Int) : Int := t.lo + (n - t.lo) % (t.hi - t.lo + 1)

variable {t}

theorem checked_of_holds {n : Int} (h : t.Holds n) : t.checked n = some n := if_pos h

theorem checked_of_not_holds {n : Int} (h : ¬t.Holds n) : t.checked n = none := if_neg h

theorem checked_eq_some {n m : Int} : t.checked n = some m ↔ t.Holds n ∧ n = m := by
  unfold checked
  split
  · rename_i h
    simp [h]
  · rename_i h
    simp [h]

theorem wrap_of_holds {n : Int} (h : t.Holds n) : t.wrap n = n := by
  have := h.1
  have := h.2
  rw [wrap, Int.emod_eq_of_lt (by omega) (by omega)]
  omega

end IntType

/-- How a call fails: with a message, or at an operation that overflows. Whether that one stops the program or
wraps is up to the build. -/
inductive Failure where
  | message (text : String)
  | overflow
  deriving DecidableEq

/-- The result of an operation of the type `t` without a check. -/
def IntType.op (t : IntType) (n : Int) : Except Failure Int := if t.Holds n then .ok n else .error .overflow

theorem IntType.op_of_holds {t : IntType} {n : Int} (h : t.Holds n) : t.op n = .ok n := if_pos h

/-- A step that does not overflow. -/
theorem IntType.op_bind {α : Type} {t : IntType} {n : Int} (h : t.Holds n) (f : Int → Except Failure α) :
    (t.op n >>= f) = f n := by
  rw [op_of_holds h]
  rfl

theorem IntType.op_of_not_holds {t : IntType} {n : Int} (h : ¬t.Holds n) : t.op n = .error .overflow := if_neg h

end Machine
