-- SUMMARY: Terms over operators and leaves: substitution, partial substitution, and evaluation.
import Mathlib.Data.List.Basic

/-!
# Terms

Trees of operators over leaves. A substitution replaces the leaves by terms; a partial one gives up
on a term when it has no replacement for one of its leaves. What a term means after a substitution
is what it meant in the environment of the replacements' meanings.
-/

namespace Terms

inductive Term (Op L : Type) where
  | leaf (l : L)
  | node (op : Op) (args : List (Term Op L))

variable {Op L M R : Type}

namespace Term

/-- Induction over a term and all its arguments. -/
@[elab_as_elim]
theorem ind {P : Term Op L → Prop} (leaf : ∀ l, P (.leaf l))
    (node : ∀ op args, (∀ t ∈ args, P t) → P (.node op args)) (t : Term Op L) : P t := by
  refine @Term.rec Op L P (fun ts => ∀ t ∈ ts, P t) leaf node ?_ ?_ t
  · simp
  · intro t ts ht hts
    simp only [List.mem_cons, forall_eq_or_imp]
    exact ⟨ht, hts⟩

/-! ## Evaluation -/

section

variable (sem : Op → List R → R) (env : L → R)

mutual

def eval : Term Op L → R
  | .leaf l => env l
  | .node op args => sem op (evals args)

def evals : List (Term Op L) → List R
  | [] => []
  | t :: ts => eval t :: evals ts

end

@[simp]
theorem evals_eq (ts : List (Term Op L)) : evals sem env ts = ts.map (eval sem env) := by
  induction ts with
  | nil => rfl
  | cons t ts ih => rw [evals, ih, List.map_cons]

@[simp]
theorem eval_leaf (l : L) : eval sem env (.leaf l) = env l := rfl

@[simp]
theorem eval_node (op : Op) (args : List (Term Op L)) :
    eval sem env (.node op args) = sem op (args.map (eval sem env)) := by
  rw [eval, evals_eq]

end

/-! ## Leaves -/

mutual

/-- Every leaf satisfies `P`. -/
def All (P : L → Prop) : Term Op L → Prop
  | .leaf l => P l
  | .node _ args => AllOf P args

def AllOf (P : L → Prop) : List (Term Op L) → Prop
  | [] => True
  | t :: ts => All P t ∧ AllOf P ts

end

section

variable {P Q : L → Prop}

theorem allOf_iff {ts : List (Term Op L)} : AllOf P ts ↔ ∀ t ∈ ts, All P t := by
  induction ts with
  | nil => simp [AllOf]
  | cons t ts ih => simp [AllOf, ih]

@[simp]
theorem all_leaf {l : L} : All P (.leaf l : Term Op L) ↔ P l := Iff.rfl

@[simp]
theorem all_node {op : Op} {args : List (Term Op L)} :
    All P (.node op args) ↔ ∀ t ∈ args, All P t := allOf_iff

theorem All.mono {t : Term Op L} (h : t.All P) (hPQ : ∀ l, P l → Q l) : t.All Q := by
  induction t using ind with
  | leaf l => exact hPQ l h
  | node op args ih =>
      rw [all_node] at h ⊢
      exact fun t ht => ih t ht (h t ht)

theorem All.and {t : Term Op L} (hP : t.All P) (hQ : t.All Q) : t.All fun l => P l ∧ Q l := by
  induction t using ind with
  | leaf l => exact ⟨hP, hQ⟩
  | node op args ih =>
      rw [all_node] at hP hQ ⊢
      exact fun t ht => ih t ht (hP t ht) (hQ t ht)

theorem all_of_forall {t : Term Op L} (h : ∀ l, P l) : t.All P := by
  induction t using ind with
  | leaf l => exact h l
  | node op args ih => exact all_node.2 ih

/-- A term only depends on its own leaves. -/
theorem eval_congr {sem : Op → List R → R} {env env' : L → R} {t : Term Op L}
    (h : t.All fun l => env l = env' l) : t.eval sem env = t.eval sem env' := by
  induction t using ind with
  | leaf l => exact h
  | node op args ih =>
      rw [all_node] at h
      rw [eval_node, eval_node]
      exact congrArg (sem op) (List.map_congr_left fun t ht => ih t ht (h t ht))

end

/-! ## Substitution -/

section

variable (f : L → Term Op M)

mutual

def bind : Term Op L → Term Op M
  | .leaf l => f l
  | .node op args => .node op (binds args)

def binds : List (Term Op L) → List (Term Op M)
  | [] => []
  | t :: ts => bind t :: binds ts

end

@[simp]
theorem binds_eq (ts : List (Term Op L)) : binds f ts = ts.map (bind f) := by
  induction ts with
  | nil => rfl
  | cons t ts ih => rw [binds, ih, List.map_cons]

@[simp]
theorem bind_leaf (l : L) : bind f (.leaf l) = f l := rfl

@[simp]
theorem bind_node (op : Op) (args : List (Term Op L)) :
    bind f (.node op args) = .node op (args.map (bind f)) := by
  rw [bind, binds_eq]

end

/-- Substituting is evaluating in the environment of the replacements. -/
theorem eval_bind {sem : Op → List R → R} {env : M → R} {f : L → Term Op M} (t : Term Op L) :
    (t.bind f).eval sem env = t.eval sem fun l => (f l).eval sem env := by
  induction t using ind with
  | leaf l => rfl
  | node op args ih =>
      rw [bind_node, eval_node, eval_node, List.map_map]
      exact congrArg (sem op) (List.map_congr_left ih)

/-- A substitution keeps what a term means where each replacement means what its leaf did. -/
theorem eval_bind_eq {sem : Op → List R → R} {env : L → R} {env' : M → R} {f : L → Term Op M}
    {t : Term Op L} (h : t.All fun l => (f l).eval sem env' = env l) :
    (t.bind f).eval sem env' = t.eval sem env := by
  rw [eval_bind]
  exact eval_congr h

/-! ## Partial substitution -/

section

variable {ε : Type} (f : L → Except ε (Term Op M))

mutual

def bindE : Term Op L → Except ε (Term Op M)
  | .leaf l => f l
  | .node op args => do
    let args ← bindsE args
    return .node op args

def bindsE : List (Term Op L) → Except ε (List (Term Op M))
  | [] => .ok []
  | t :: ts => do
    let u ← bindE t
    let us ← bindsE ts
    return u :: us

end

variable {f}

theorem bindE_leaf {l : L} : bindE f (.leaf l) = f l := rfl

theorem bindE_node {op : Op} {args : List (Term Op L)} {u : Term Op M}
    (h : bindE f (.node op args) = .ok u) : ∃ us, bindsE f args = .ok us ∧ u = .node op us := by
  rw [bindE] at h
  cases hargs : bindsE f args with
  | error e => simp [hargs, Bind.bind, Except.bind] at h
  | ok us =>
      rw [hargs] at h
      cases h
      exact ⟨us, rfl, rfl⟩

theorem bindsE_cons {t : Term Op L} {ts : List (Term Op L)} {us : List (Term Op M)}
    (h : bindsE f (t :: ts) = .ok us) :
    ∃ u us', bindE f t = .ok u ∧ bindsE f ts = .ok us' ∧ us = u :: us' := by
  rw [bindsE] at h
  cases ht : bindE f t with
  | error e => simp [ht, Bind.bind, Except.bind] at h
  | ok u =>
      cases hts : bindsE f ts with
      | error e => simp [ht, hts, Bind.bind, Except.bind] at h
      | ok us' =>
          rw [ht, hts] at h
          cases h
          exact ⟨u, us', rfl, rfl, rfl⟩

theorem all_bindE {P : M → Prop} {t : Term Op L} {u : Term Op M} (h : t.bindE f = .ok u)
    (hf : t.All fun l => ∀ m, f l = .ok m → m.All P) : u.All P := by
  induction t using ind generalizing u with
  | leaf l => exact hf u h
  | node op args ih =>
      obtain ⟨us, hus, rfl⟩ := bindE_node h
      rw [all_node] at hf ⊢
      clear h
      induction args generalizing us with
      | nil =>
          cases hus
          simp
      | cons t ts ihts =>
          obtain ⟨u, us', hu, hus', rfl⟩ := bindsE_cons hus
          rw [List.forall_mem_cons] at hf ⊢
          exact ⟨ih t (by simp) hu hf.1,
            ihts (fun t' h' => ih t' (by simp [h'])) hf.2 us' hus'⟩

/-- A partial substitution that goes through keeps what the term means where each replacement means
what its leaf did. -/
theorem eval_bindE {sem : Op → List R → R} {env : L → R} {env' : M → R} {t : Term Op L}
    {u : Term Op M} (h : t.bindE f = .ok u)
    (heval : t.All fun l => ∀ m, f l = .ok m → m.eval sem env' = env l) :
    u.eval sem env' = t.eval sem env := by
  induction t using ind generalizing u with
  | leaf l => exact heval u h
  | node op args ih =>
      obtain ⟨us, hus, rfl⟩ := bindE_node h
      rw [all_node] at heval
      have hargs : us.map (eval sem env') = args.map (eval sem env) := by
        clear h
        induction args generalizing us with
        | nil =>
            cases hus
            rfl
        | cons t ts ihts =>
            obtain ⟨u, us', hu, hus', rfl⟩ := bindsE_cons hus
            have hhead := ih t (by simp) hu (heval t (by simp))
            have htail := ihts (fun t' h' => ih t' (by simp [h']))
              (fun t' h' => heval t' (by simp [h'])) us' hus'
            rw [List.map_cons, List.map_cons, hhead, htail]
      rw [eval_node, eval_node, hargs]

end

end Term

end Terms
