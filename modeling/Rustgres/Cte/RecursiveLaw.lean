-- SUMMARY: A recursive common table expression lists the least closed set, or the sum of its rounds.
import Mathlib
import Rustgres.Cte.Recursive
import Rustgres.Lib.Rounds

/-!
# The Law of Recursion

Rows are the same when their cells are, nulls included. The set of a recursion has the seed and is closed under the
recursive term, applied to the rows that the round before brought.
-/

namespace Cte

open Rounds

variable {σ V : Type} {ops : CellOps V} {T : Terms σ V}

/-! ## The code as rounds -/

/-- The recursive term over the rows of the round before, in the types of the seed. -/
def applyTerm (ops : CellOps V) (T : Terms σ V) (binding : CteBinding V) (width : Nat) (s : σ)
    (working : List (List V)) : Except ExecError (List (List V) × σ) :=
  match T.right s (some { binding with rows := working }) with
  | .error e => .error e
  | .ok (delta, s) =>
    if delta.columns.length ≠ width then .error (errTermWidth binding.name delta.columns.length width)
    else (delta.rows.mapM (coerceCells ops binding.name (binding.schema.map (·.2)))).map fun coerced => (coerced, s)

/-- Rows with the same key. -/
def KeySame (ops : CellOps V) (a b : List V) : Prop := rowKey ops a = rowKey ops b

instance (ops : CellOps V) : DecidableRel (KeySame ops) := fun a b =>
  inferInstanceAs (Decidable (rowKey ops a = rowKey ops b))

theorem KeySame.refl (ops : CellOps V) (r : List V) : KeySame ops r r := rfl

theorem insertNew_spec {seen : List Bytes} {known rows : List (List V)}
    (hseen : ∀ k, k ∈ seen ↔ ∃ r ∈ known, rowKey ops r = k) :
    (insertNew ops seen rows).2 = fresh (KeySame ops) known rows ∧
      ∀ k, k ∈ (insertNew ops seen rows).1 ↔ ∃ r ∈ known ++ fresh (KeySame ops) known rows, rowKey ops r = k := by
  induction rows generalizing seen known with
  | nil => exact ⟨rfl, by simpa [insertNew, fresh] using hseen⟩
  | cons row rows ih =>
    have hmem : rowKey ops row ∈ seen ↔ ∃ r ∈ known, KeySame ops r row := hseen (rowKey ops row)
    rw [insertNew, fresh]
    by_cases h : rowKey ops row ∈ seen
    · rw [if_pos h, if_pos (hmem.1 h)]
      exact ih hseen
    · rw [if_neg h, if_neg fun h' => h (hmem.2 h')]
      have hnext : ∀ k, k ∈ rowKey ops row :: seen ↔ ∃ r ∈ known ++ [row], rowKey ops r = k := by
        intro k
        simp only [List.mem_cons, hseen, List.mem_append, List.not_mem_nil, or_false]
        constructor
        · rintro (rfl | ⟨r, hr, rfl⟩)
          · exact ⟨row, .inr rfl, rfl⟩
          · exact ⟨r, .inl hr, rfl⟩
        · rintro ⟨r, hr | rfl, rfl⟩
          · exact .inr ⟨r, hr, rfl⟩
          · exact .inl rfl
      obtain ⟨hnew, hkeys⟩ := ih hnext
      exact ⟨congrArg (row :: ·) hnew, by simpa using hkeys⟩

/-- What a loop returns for the result of a run. -/
def ofRun (binding : CteBinding V) :
    Except ExecError (Option (Stage (List V) σ)) → Except ExecError (CteBinding V × σ)
  | .error e => .error e
  | .ok none => .error (errIterations binding.name)
  | .ok (some st) => .ok ({ binding with rows := st.all }, st.state)

theorem iterate_all {binding : CteBinding V} {width fuel : Nat} {s : σ} {seen : List Bytes}
    {rows working : List (List V)} :
    iterate ops T binding width true fuel s seen rows working =
      ofRun binding (run (fun _ results => results) (applyTerm ops T binding width) fuel ⟨working, rows, s, false⟩) := by
  induction fuel generalizing s rows working with
  | zero => rfl
  | succ fuel ih =>
    rw [iterate, Rounds.run, next, applyTerm]
    cases T.right s (some { binding with rows := working }) with
    | error e => rfl
    | ok out =>
      obtain ⟨delta, s'⟩ := out
      by_cases hwidth : delta.columns.length ≠ width
      · simp [hwidth, ofRun]
      · simp only [hwidth, if_false]
        cases delta.rows.mapM (coerceCells ops binding.name (binding.schema.map (·.2))) with
        | error e => rfl
        | ok coerced =>
          cases hempty : coerced.isEmpty with
          | true =>
            have hnil := List.isEmpty_iff.1 hempty
            simp [hnil, Except.map, ofRun]
          | false => simp [hempty, Except.map, ih]

theorem iterate_union {binding : CteBinding V} {width fuel : Nat} {s : σ} {seen : List Bytes}
    {rows working : List (List V)} (hseen : ∀ k, k ∈ seen ↔ ∃ r ∈ rows, rowKey ops r = k) :
    iterate ops T binding width false fuel s seen rows working =
      ofRun binding (run (fresh (KeySame ops)) (applyTerm ops T binding width) fuel ⟨working, rows, s, false⟩) := by
  induction fuel generalizing s seen rows working with
  | zero => rfl
  | succ fuel ih =>
    rw [iterate, Rounds.run, next, applyTerm]
    cases T.right s (some { binding with rows := working }) with
    | error e => rfl
    | ok out =>
      obtain ⟨delta, s'⟩ := out
      by_cases hwidth : delta.columns.length ≠ width
      · simp [hwidth, ofRun]
      · simp only [hwidth, if_false]
        cases delta.rows.mapM (coerceCells ops binding.name (binding.schema.map (·.2))) with
        | error e => rfl
        | ok coerced =>
          obtain ⟨hnew, hkeys⟩ := @insertNew_spec _ ops seen rows coerced hseen
          simp only [Except.map, Bool.false_eq_true, if_false, hnew]
          cases hempty : (fresh (KeySame ops) rows coerced).isEmpty with
          | true =>
            have hnil := List.isEmpty_iff.1 hempty
            simp [hnil, ofRun]
          | false =>
            simp only [Bool.false_eq_true, if_false]
            exact ih hkeys

/-! ## What a recursion lists -/

section

variable (S : Setoid V) (ops : CellOps V) (T : Terms σ V)

/-- Rows whose cells are equal, one by one. -/
def SameRow (a b : List V) : Prop := List.Forall₂ S.r a b

def Distinct (rows : List (List V)) : Prop := rows.Pairwise fun a b => ¬SameRow S a b

/-- The rows, each once, of a set that does not tell apart the same rows. -/
def Lists (rows : List (List V)) (set : List V → Prop) : Prop :=
  Distinct S rows ∧ ∀ r, set r ↔ ∃ k ∈ rows, SameRow S k r

noncomputable instance : DecidableRel (SameRow S) := Classical.decRel (SameRow S)

/-- The seed: the rows that a recursion starts from, their width, and the state then. -/
def seedOf (cte : CteDef) (s : σ) : Except ExecError (CteBinding V × Nat × σ) := do
  let (seed, s) ← T.left s
  let binding ← cteBinding cte seed.columns seed.rows
  .ok (binding, seed.columns.length, s)

/-- The rows of a term that does not refer to the expression, in the types of the seed. -/
def otherRows (binding : CteBinding V) (width : Nat) (s : σ) : Except ExecError (List (List V) × σ) :=
  match T.right s none with
  | .error e => .error e
  | .ok (other, s) =>
    if other.columns.length ≠ width then .error (errRightWidth binding.name other.columns.length width)
    else (other.rows.mapM (coerceCells ops binding.name (binding.schema.map (·.2)))).map fun coerced => (coerced, s)

/-- The rounds of a recursion that keeps what is the same as no row before it. -/
noncomputable def roundsOf (binding : CteBinding V) (width : Nat) (s : σ) :
    Nat → Except ExecError (Stage (List V) σ) :=
  stage (fresh (SameRow S)) (applyTerm ops T binding width) binding.rows s

/-- The rows that an evaluation comes across. -/
inductive MetRow (binding : CteBinding V) (width : Nat) (s : σ) (r : List V) : Prop
  | round : T.rightRefs = true → Met (fresh (SameRow S)) (applyTerm ops T binding width) binding.rows s r →
    MetRow binding width s r
  | seed : T.rightRefs = false → r ∈ binding.rows → MetRow binding width s r
  | other {results : List (List V)} {state : σ} : T.rightRefs = false →
    otherRows ops T binding width s = .ok (results, state) → r ∈ results → MetRow binding width s r

/-- A set of rows with the seed and what one application of the term makes of the rows of a round. -/
structure ClosedSet (binding : CteBinding V) (width : Nat) (s : σ) (set : List V → Prop) : Prop where
  same : ∀ a b, SameRow S a b → set a → set b
  seed : ∀ r ∈ binding.rows, set r
  step : T.rightRefs = true → ∀ n st results state, roundsOf S ops T binding width s n = .ok st → st.isOver = false →
    (∀ r ∈ st.new, set r) → applyTerm ops T binding width st.state st.new = .ok (results, state) →
    ∀ r ∈ results, set r
  other : T.rightRefs = false → ∀ results state, otherRows ops T binding width s = .ok (results, state) →
    ∀ r ∈ results, set r

/-- The least such set. -/
def Least (binding : CteBinding V) (width : Nat) (s : σ) (r : List V) : Prop :=
  ∀ set, ClosedSet S ops T binding width s set → set r

/-- Different rows have different keys. -/
def KeysSeparate (binding : CteBinding V) (width : Nat) (s : σ) : Prop :=
  ∀ a b, MetRow S ops T binding width s a → MetRow S ops T binding width s b → KeySame ops a b → SameRow S a b

/-- The same rows have the same key. -/
def KeysJoin (binding : CteBinding V) (width : Nat) (s : σ) : Prop :=
  ∀ a b, MetRow S ops T binding width s a → MetRow S ops T binding width s b → SameRow S a b → KeySame ops a b

end

variable {S : Setoid V}

theorem SameRow.refl (r : List V) : SameRow S r r := List.forall₂_same.2 fun v _ => S.iseqv.refl v

theorem SameRow.symm {a b : List V} (h : SameRow S a b) : SameRow S b a := by
  induction h with
  | nil => exact .nil
  | cons hv _ ih => exact .cons (S.iseqv.symm hv) ih

theorem SameRow.trans {a b c : List V} (h : SameRow S a b) (h' : SameRow S b c) : SameRow S a c := by
  induction h generalizing c with
  | nil => exact h'
  | cons hv _ ih =>
    cases h' with
    | cons hv' h' => exact .cons (S.iseqv.trans hv hv') (ih h')

section

variable {binding : CteBinding V} {width : Nat} {s : σ}

/-- A row that is met is the same as none but the rows of the least set. -/
theorem least_iff_met {r : List V} :
    Least S ops T binding width s r ↔ ∃ k, MetRow S ops T binding width s k ∧ SameRow S k r := by
  constructor
  · intro h
    refine h (fun r => ∃ k, MetRow S ops T binding width s k ∧ SameRow S k r) ⟨?_, ?_, ?_, ?_⟩
    · rintro a b hab ⟨k, hk, hka⟩
      exact ⟨k, hk, hka.trans hab⟩
    · intro r hr
      cases hrefs : T.rightRefs with
      | true => exact ⟨r, .round hrefs (.base hr), .refl r⟩
      | false => exact ⟨r, .seed hrefs hr, .refl r⟩
    · intro hrefs n st results state hst hopen _ hterm r hr
      exact ⟨r, .round hrefs (.step hst hopen hterm hr), .refl r⟩
    · intro hrefs results state hother r hr
      exact ⟨r, .other hrefs hother hr, .refl r⟩
  · rintro ⟨k, hk, hkr⟩ set hset
    refine hset.same k r hkr ?_
    cases hk with
    | seed _ hk => exact hset.seed k hk
    | other hrefs hother hk => exact hset.other hrefs _ _ hother k hk
    | round hrefs hk =>
      have hclosed : Closed (fresh (SameRow S)) (applyTerm ops T binding width) binding.rows s set :=
        ⟨hset.seed, hset.step hrefs⟩
      cases hk with
      | base hk => exact hset.seed k hk
      | @step n st results state _ hst hopen hterm hk =>
        have hnew : ∀ r ∈ st.new, set r := (mem_of_closed hclosed (fun _ _ _ hr => (mem_fresh hr).1) hst).1
        exact hset.step hrefs n st results state hst hopen hnew hterm k hk

/-- Different rows, among them one with the key of every row met, list the least set, and the same rows have the same
key. -/
theorem lists_of_covers {rows : List (List V)} (hmet : ∀ k ∈ rows, MetRow S ops T binding width s k)
    (hcovers : ∀ r, MetRow S ops T binding width s r → ∃ k ∈ rows, KeySame ops k r)
    (hfine : KeysSeparate S ops T binding width s) (hdistinct : Distinct S rows) :
    Lists S rows (Least S ops T binding width s) ∧ KeysJoin S ops T binding width s := by
  refine ⟨⟨hdistinct, fun r => ?_⟩, ?_⟩
  · rw [least_iff_met]
    constructor
    · rintro ⟨k, hk, hkr⟩
      obtain ⟨k', hk', hkeys⟩ := hcovers k hk
      exact ⟨k', hk', (hfine k' k (hmet k' hk') hk hkeys).trans hkr⟩
    · rintro ⟨k, hk, hkr⟩
      exact ⟨k, hmet k hk, hkr⟩
  · intro a b ha hb hab
    obtain ⟨k, hk, hka⟩ := hcovers a ha
    obtain ⟨k', hk', hkb⟩ := hcovers b hb
    have hsame : SameRow S k k' :=
      ((hfine k a (hmet k hk) ha hka).trans hab).trans (hfine k' b (hmet k' hk') hb hkb).symm
    have heq : k = k' := by
      by_contra hne
      have hsymm : Std.Symm fun a b : List V => ¬SameRow S a b := ⟨fun _ _ h h' => h h'.symm⟩
      exact List.Pairwise.forall hdistinct hk hk' hne hsame
    rw [KeySame] at hka hkb ⊢
    rw [← hka, ← hkb, heq]

end

/-! ## The evaluation -/

section

variable {cte : CteDef} {binding : CteBinding V} {width : Nat} {s s₁ : σ}

theorem seedOf_ok (h : seedOf T cte s = .ok (binding, width, s₁)) :
    ∃ seed, T.left s = .ok (seed, s₁) ∧ seed.columns.length = width ∧
      cteBinding cte seed.columns seed.rows = .ok binding ∧ binding.name = cte.name := by
  simp only [seedOf, bind, Except.bind] at h
  cases hleft : T.left s with
  | error e =>
    rw [hleft] at h
    cases h
  | ok out =>
    obtain ⟨seed, s'⟩ := out
    simp only [hleft] at h
    cases hbinding : cteBinding cte seed.columns seed.rows with
    | error e =>
      rw [hbinding] at h
      cases h
    | ok binding' =>
      rw [hbinding] at h
      cases h
      refine ⟨seed, rfl, rfl, hbinding, ?_⟩
      simp only [cteBinding, bind, Except.bind] at hbinding
      cases harity : checkColAliasArity cte.name seed.columns.length cte.colAliases with
      | error e =>
        rw [harity] at hbinding
        cases hbinding
      | ok _ =>
        rw [harity] at hbinding
        cases hbinding
        rfl

theorem eval_rounds (hseed : seedOf T cte s = .ok (binding, width, s₁)) (hrefs : T.rightRefs = true) (all : Bool) :
    evalRecursiveCte ops T cte all s =
      (T.checkCollations s₁ binding).bind fun _ =>
        iterate ops T binding width all 10000 s₁ (if all then [] else binding.rows.map (rowKey ops)) binding.rows
          binding.rows := by
  obtain ⟨seed, hleft, rfl, hbinding, -⟩ := seedOf_ok hseed
  simp only [evalRecursiveCte, bind, Except.bind, hleft, hbinding, hrefs, if_true]

theorem eval_other (hseed : seedOf T cte s = .ok (binding, width, s₁)) (hrefs : T.rightRefs = false) (all : Bool) :
    evalRecursiveCte ops T cte all s =
      (otherRows ops T binding width s₁).map fun out =>
        ({ binding with
            rows := binding.rows ++
              if all then out.1 else (insertNew ops (binding.rows.map (rowKey ops)) out.1).2 }, out.2) := by
  obtain ⟨seed, hleft, rfl, hbinding, hname⟩ := seedOf_ok hseed
  simp only [evalRecursiveCte, bind, Except.bind, hleft, hbinding, hrefs, otherRows, hname, Bool.false_eq_true, if_false]
  cases T.right s₁ none with
  | error e => rfl
  | ok out =>
    obtain ⟨other, s₂⟩ := out
    by_cases hwidth : other.columns.length ≠ seed.columns.length
    · simp [hwidth, Except.map]
    · simp only [hwidth, if_false]
      cases other.rows.mapM (coerceCells ops cte.name (binding.schema.map (·.2))) with
      | error e => rfl
      | ok coerced => cases all <;> rfl

theorem ofRun_ok {result : Except ExecError (Option (Stage (List V) σ))} {out : CteBinding V × σ}
    (h : ofRun binding result = .ok out) : ∃ st, result = .ok (some st) ∧ out.1.rows = st.all := by
  match result, h with
  | .ok (some st), h =>
    cases h
    exact ⟨st, rfl, rfl⟩

theorem eval_union (hseed : seedOf T cte s = .ok (binding, width, s₁)) (hrefs : T.rightRefs = true) :
    evalRecursiveCte ops T cte false s =
      (T.checkCollations s₁ binding).bind fun _ =>
        ofRun binding (run (fresh (KeySame ops)) (applyTerm ops T binding width) 10000
          ⟨binding.rows, binding.rows, s₁, false⟩) := by
  rw [eval_rounds hseed hrefs]
  refine congrArg _ (funext fun _ => iterate_union fun k => ?_)
  simp

/-! ## The law -/

theorem metRow_iff (hrefs : T.rightRefs = true) {r : List V} :
    MetRow S ops T binding width s r ↔ Met (fresh (SameRow S)) (applyTerm ops T binding width) binding.rows s r := by
  constructor
  · rintro (⟨-, h⟩ | ⟨h, -⟩ | ⟨h, -, -⟩)
    · exact h
    all_goals
      rw [hrefs] at h
      cases h
  · exact .round hrefs

theorem start_of_distinct {same : List V → List V → Prop} [DecidableRel same] {rows : List (List V)}
    {term : σ → List (List V) → Except ExecError (List (List V) × σ)}
    (h : rows.Pairwise fun a b => ¬same a b) : stage (fresh same) term rows s 0 = .ok ⟨rows, rows, s, false⟩ := by
  have hfresh : fresh same [] rows = rows := fresh_of_pairwise (by simpa using h)
  rw [stage, start, hfresh]

theorem keys_distinct (hsep : KeysSeparate S ops T binding width s) (hdistinct : Distinct S binding.rows) :
    binding.rows.Pairwise fun a b => ¬KeySame ops a b := by
  have hmet : ∀ r ∈ binding.rows, MetRow S ops T binding width s r := by
    intro r hr
    cases hrefs : T.rightRefs with
    | true => exact .round hrefs (.base hr)
    | false => exact .seed hrefs hr
  exact hdistinct.imp_of_mem fun ha hb hne hkey => hne (hsep _ _ (hmet _ ha) (hmet _ hb) hkey)

/-- Where keys and rows agree, the rounds are those of the rows. -/
theorem rounds_of_agree (hrefs : T.rightRefs = true) (hsep : KeysSeparate S ops T binding width s)
    (hjoin : KeysJoin S ops T binding width s) (n : Nat) :
    stage (fresh (KeySame ops)) (applyTerm ops T binding width) binding.rows s n =
      roundsOf S ops T binding width s n :=
  stage_of_agree (fun a b ha hb => ⟨hsep a b ((metRow_iff hrefs).2 ha) ((metRow_iff hrefs).2 hb),
    hjoin a b ((metRow_iff hrefs).2 ha) ((metRow_iff hrefs).2 hb)⟩) n

theorem rounds_list (hrefs : T.rightRefs = true) (hsep : KeysSeparate S ops T binding width s)
    {st : Stage (List V) σ}
    (hrun : run (fresh (KeySame ops)) (applyTerm ops T binding width) 10000 ⟨binding.rows, binding.rows, s, false⟩ =
      .ok (some st)) :
    Lists S st.all (Least S ops T binding width s) ↔ Distinct S binding.rows ∧ KeysJoin S ops T binding width s := by
  have hfine : ∀ a b, Met (fresh (SameRow S)) (applyTerm ops T binding width) binding.rows s a →
      Met (fresh (SameRow S)) (applyTerm ops T binding width) binding.rows s b → KeySame ops a b → SameRow S a b :=
    fun a b ha hb => hsep a b ((metRow_iff hrefs).2 ha) ((metRow_iff hrefs).2 hb)
  constructor
  · rintro ⟨hdistinct, -⟩
    have hseed : Distinct S binding.rows := List.Pairwise.sublist (run_grows hrun).sublist hdistinct
    obtain ⟨m, -, hlast, hover⟩ := run_ok (start_of_distinct (keys_distinct hsep hseed)) rfl hrun
    rw [Nat.zero_add] at hlast
    have hideal := stage_of_distinct hfine hlast hdistinct
    refine ⟨hseed, (lists_of_covers ?_ ?_ hsep hdistinct).2⟩
    · exact fun k hk => (metRow_iff hrefs).2 (met_all hideal k hk)
    · intro r hr
      -- A row met in the rounds of the rows is met in those of the keys.
      have hmet : Met (fresh (KeySame ops)) (applyTerm ops T binding width) binding.rows s r := by
        cases (metRow_iff hrefs).1 hr with
        | base hr => exact .base hr
        | @step n st₀ results state _ hst hopen hterm hr =>
          have hlt := lt_of_over hst hopen hideal hover
          obtain ⟨st₁, hst₁⟩ := stage_of_le (Nat.le_of_lt hlt) hlast
          have hbefore : Distinct S st₁.all :=
            List.Pairwise.sublist (all_grows (Nat.le_of_lt hlt) hst₁ hlast).sublist hdistinct
          have hsame := stage_of_distinct hfine hst₁ hbefore
          rw [hst] at hsame
          cases hsame
          exact .step hst₁ hopen hterm hr
      exact met_covers (KeySame.refl ops) hlast hover hmet
  · rintro ⟨hseed, hjoin⟩
    obtain ⟨m, -, hlast, hover⟩ := run_ok (start_of_distinct (keys_distinct hsep hseed)) rfl hrun
    rw [rounds_of_agree hrefs hsep hjoin] at hlast
    have hmet : ∀ k ∈ st.all, MetRow S ops T binding width s k :=
      fun k hk => (metRow_iff hrefs).2 (met_all hlast k hk)
    refine (lists_of_covers hmet ?_ hsep (all_pairwise hlast)).1
    intro r hr
    obtain ⟨k, hk, hsame⟩ := met_covers SameRow.refl hlast hover ((metRow_iff hrefs).1 hr)
    exact ⟨k, hk, hjoin k r (hmet k hk) hr hsame⟩

theorem other_list (hrefs : T.rightRefs = false) (hsep : KeysSeparate S ops T binding width s)
    {results : List (List V)} {state : σ} (hother : otherRows ops T binding width s = .ok (results, state)) :
    Lists S (binding.rows ++ fresh (KeySame ops) binding.rows results) (Least S ops T binding width s) ↔
      Distinct S binding.rows ∧ KeysJoin S ops T binding width s := by
  have hmet : ∀ k ∈ binding.rows ++ results, MetRow S ops T binding width s k :=
    fun k hk => (List.mem_append.1 hk).elim (.seed hrefs) (.other hrefs hother)
  have hlisted : ∀ k ∈ binding.rows ++ fresh (KeySame ops) binding.rows results,
      MetRow S ops T binding width s k := fun k hk =>
    (List.mem_append.1 hk).elim (.seed hrefs) fun hk => .other hrefs hother (mem_fresh hk).1
  have hcovers : ∀ r, MetRow S ops T binding width s r →
      ∃ k ∈ binding.rows ++ fresh (KeySame ops) binding.rows results, KeySame ops k r := by
    rintro r (⟨h, -⟩ | ⟨-, hr⟩ | ⟨-, h, hr⟩)
    · rw [hrefs] at h
      cases h
    · exact ⟨r, List.mem_append_left _ hr, rfl⟩
    · rw [hother] at h
      cases h
      exact fresh_covers (KeySame.refl ops) hr
  constructor
  · rintro ⟨hdistinct, -⟩
    exact ⟨(List.pairwise_append.1 hdistinct).1, (lists_of_covers hlisted hcovers hsep hdistinct).2⟩
  · rintro ⟨hseed, hjoin⟩
    have hagree : fresh (KeySame ops) binding.rows results = fresh (SameRow S) binding.rows results :=
      fresh_congr fun a ha b hb =>
        ⟨hsep a b (hmet a ha) (hmet b (List.mem_append_right _ hb)),
          hjoin a b (hmet a ha) (hmet b (List.mem_append_right _ hb))⟩
    refine (lists_of_covers hlisted hcovers hsep ?_).1
    rw [hagree]
    exact fresh_pairwise.2 hseed

/-- A recursion is over by the time that its rounds have brought every row. -/
theorem over_of_finite {rows : List (List V)} {n : Nat} {st : Stage (List V) σ} (hrefs : T.rightRefs = true)
    (hdistinct : Distinct S binding.rows) (hst : roundsOf S ops T binding width s n = .ok st)
    (hfinite : ∀ r, Least S ops T binding width s r → ∃ k ∈ rows, SameRow S k r)
    (hlength : rows.length < binding.rows.length + n) : st.isOver = true := by
  by_contra hopen
  rw [Bool.not_eq_true] at hopen
  have hfresh : fresh (SameRow S) [] binding.rows = binding.rows := fresh_of_pairwise hdistinct
  have hlong := length_le hst hopen
  rw [hfresh] at hlong
  have hshort : st.all.length ≤ rows.length := by
    refine @length_le_of_covers _ (SameRow S) (fun a b c ha hb => ha.symm.trans hb) _ _ (all_pairwise hst) fun r hr => ?_
    exact hfinite r (least_iff_met.2 ⟨r, (metRow_iff hrefs).2 (met_all hst r hr), .refl r⟩)
  omega

/-- Cells of one byte, which is their key. -/
def byteOps : CellOps UInt8 := ⟨fun v => [v], fun v _ _ => .ok v⟩

def byteTerms (rows : List (List UInt8)) (term : List (List UInt8) → List (List UInt8)) : Terms Unit UInt8 where
  left s := .ok (⟨[("n", .int)], rows⟩, s)
  right s bound := .ok (⟨[("n", .int)], term ((bound.map (·.rows)).getD [])⟩, s)
  rightRefs := true
  checkCollations _ _ := .ok ()

/-- Counting to three from one. -/
def counting : Terms Unit UInt8 :=
  byteTerms [[1]] fun rows => (rows.filter fun r => r.all (· < 3)).map fun r => r.map (· + 1)

theorem byteOps_keySame {a b : List UInt8} : KeySame byteOps a b ↔ SameRow ⊥ a b := by
  have hkey : ∀ r : List UInt8, rowKey byteOps r = r := fun r => by simp [rowKey, byteOps]
  have hsame : SameRow ⊥ a b ↔ a = b := by
    rw [SameRow, ← List.forall₂_eq_eq_eq]
    rfl
  rw [KeySame, hkey, hkey, hsame]

end

end Cte
