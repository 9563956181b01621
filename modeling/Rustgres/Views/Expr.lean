-- SUMMARY: Expressions of views and of statements through them: references, scopes, and evaluation.
import Rustgres.Exec.Common
import Rustgres.Lib.Terms

/-!
# Expressions

An expression is a term of operators over references. What an operator other than `AND` computes,
and what a subquery yields in a scope, is left open.
-/

open Terms

namespace Views

/-- A column of a scope under the name of its range. -/
structure QCol where
  qual : String
  name : String
  hidden : Bool
deriving DecidableEq, Repr

/-- The leaves of an expression that a scope gives a meaning to. -/
inductive Ref (S : Type) where
  | column (table : Option String) (name : String)
  | wholeRow (qual : String)
  | subquery (s : S)

/-- `other` is any constructor but `AND`, with the data it has besides its arguments. -/
inductive Op (F : Type) where
  | and
  | other (f : F)

abbrev Expr (F S : Type) := Term (Op F) (Ref S)

def column {F S : Type} (table : Option String) (name : String) : Expr F S :=
  .leaf (.column table name)

/-- The columns that an expression sees, with the values of the row. -/
abbrev Scope (V : Type) := List (QCol × V)

/-- The values, and what the operators and subqueries compute. An operator may leave an argument
unevaluated, so it gets its arguments with their errors. -/
structure Semantics (V F S : Type) where
  bool3 : Option Bool → V
  asBool3 : V → Option (Option Bool)
  asBool3_eq_some : ∀ v b, asBool3 v = some b ↔ v = bool3 b
  record : List (String × V) → V
  apply : F → List (Except ExecError V) → Except ExecError V
  subquery : S → Scope V → Except ExecError V

variable {V F S : Type}

/-! ## References -/

def noColumn (name : String) : ExecError :=
  execError "42703" ("column \"" ++ name ++ "\" does not exist")

def noColumnOf (qual name : String) : ExecError :=
  execError "42703" ("column " ++ qual ++ "." ++ name ++ " does not exist")

def ambiguous (name : String) : ExecError :=
  execError "42702" ("column reference \"" ++ name ++ "\" is ambiguous")

/-- The value of the only match. -/
def only (missing several : ExecError) : Scope V → Except ExecError V
  | [] => .error missing
  | [c] => .ok c.2
  | _ => .error several

def hasQual (scope : Scope V) (qual : String) : Bool := scope.any (·.1.qual = qual)

/-- Hidden columns are only found under a qualifier. -/
def resolveCol (scope : Scope V) : Option String → String → Except ExecError V
  | some qual, name =>
    if hasQual scope qual then
      only (noColumnOf qual name) (ambiguous (qual ++ "." ++ name))
        (scope.filter fun c => c.1.qual = qual ∧ c.1.name = name)
    else .error (noColumn name)
  | none, name =>
    only (noColumn name) (ambiguous name) (scope.filter fun c => !c.1.hidden ∧ c.1.name = name)

section

variable (sem : Semantics V F S) (scope : Scope V)

def evalWholerow (qual : String) : Except ExecError V :=
  if hasQual scope qual then
    .ok (sem.record ((scope.filter (·.1.qual = qual)).map fun c => (c.1.name, c.2)))
  else .error (execError "42703" ("missing FROM-clause entry for table \"" ++ qual ++ "\""))

/-- A bare name that is no column but a range stands for its row. -/
def evalRef : Ref S → Except ExecError V
  | .column table name =>
    match resolveCol scope table name with
    | .ok v => .ok v
    | .error e =>
      if table = none ∧ e.code = "42703" ∧ hasQual scope name then evalWholerow sem scope name
      else .error e
  | .wholeRow qual => evalWholerow sem scope qual
  | .subquery s => sem.subquery s scope

/-! ## Operators -/

def asBool3 (v : V) : Except ExecError (Option Bool) :=
  match sem.asBool3 v with
  | some b => .ok b
  | none => .error (execError "42804" "AND requires boolean operands")

def and3 : Option Bool → Option Bool → Option Bool
  | some false, _ | _, some false => some false
  | some true, some true => some true
  | _, _ => none

def evalOp : Op F → List (Except ExecError V) → Except ExecError V
  | .and, [a, b] => do
    let a ← a
    let b ← b
    return sem.bool3 (and3 (← asBool3 sem a) (← asBool3 sem b))
  | .and, _ => .error (execError "XX000" "AND takes two operands")
  | .other f, args => sem.apply f args

def eval (e : Expr F S) : Except ExecError V := Term.eval (evalOp sem) (evalRef sem scope) e

/-- The condition is true, rather than false or unknown. -/
def Holds (e : Expr F S) : Prop := eval sem scope e = .ok (sem.bool3 (some true))

end

instance [DecidableEq V] (sem : Semantics V F S) (scope : Scope V) (e : Expr F S) :
    Decidable (Holds sem scope e) :=
  inferInstanceAs (Decidable (_ = _))

theorem and3_eq_true {a b : Option Bool} : and3 a b = some true ↔ a = some true ∧ b = some true := by
  cases a with
  | none => cases b with
    | none => simp [and3]
    | some b => cases b <;> simp [and3]
  | some a => cases a <;> cases b with
    | none => simp [and3]
    | some b => cases b <;> simp [and3]

theorem Semantics.bool3_injective (sem : Semantics V F S) {b c : Option Bool}
    (h : sem.bool3 b = sem.bool3 c) : b = c := by
  have hb := (sem.asBool3_eq_some (sem.bool3 b) b).2 rfl
  have hc := (sem.asBool3_eq_some (sem.bool3 b) c).2 h
  exact Option.some.inj (hb.symm.trans hc)

/-- A conjunction is true when both sides are. -/
theorem holds_and {sem : Semantics V F S} {scope : Scope V} {a b : Expr F S} :
    Holds sem scope (.node .and [a, b]) ↔ Holds sem scope a ∧ Holds sem scope b := by
  unfold Holds eval
  rw [Term.eval_node, List.map_cons, List.map_cons, List.map_nil, evalOp]
  cases Term.eval (evalOp sem) (evalRef sem scope) a with
  | error e => simp [Bind.bind, Except.bind]
  | ok va =>
      cases Term.eval (evalOp sem) (evalRef sem scope) b with
      | error e => simp [Bind.bind, Except.bind]
      | ok vb =>
          simp only [Bind.bind, Except.bind, asBool3, Except.ok.injEq]
          cases ha : sem.asBool3 va with
          | none =>
              have hne : va ≠ sem.bool3 (some true) := by
                intro h
                simp [(sem.asBool3_eq_some va _).2 h] at ha
              simp [hne]
          | some ba =>
              cases hb : sem.asBool3 vb with
              | none =>
                  have hne : vb ≠ sem.bool3 (some true) := by
                    intro h
                    simp [(sem.asBool3_eq_some vb _).2 h] at hb
                  simp [hne]
              | some bb =>
                  rw [(sem.asBool3_eq_some va ba).1 ha, (sem.asBool3_eq_some vb bb).1 hb]
                  constructor
                  · intro h
                    obtain ⟨h₁, h₂⟩ := and3_eq_true.1 (sem.bool3_injective (Except.ok.inj h))
                    exact ⟨congrArg _ h₁, congrArg _ h₂⟩
                  · rintro ⟨h₁, h₂⟩
                    have h := and3_eq_true.2 ⟨sem.bool3_injective h₁, sem.bool3_injective h₂⟩
                    exact congrArg (Except.ok ∘ sem.bool3) h

end Views
