-- SUMMARY: Rounds of a recursion over the rows that the last round brought, and the set they reach.
import Mathlib.Data.List.Perm.Subperm
import Mathlib.Tactic.Choose
import Mathlib.Tactic.Tauto

/-!
# Recursion by Rounds

A term is applied to what the last round kept of its results, until a round keeps nothing. What is kept of the
results may depend on what is there already.
-/

namespace Rounds

variable {R σ ε : Type}

/-! ## Rounds -/

/-- A recursion between two rounds; it is over once a round has kept nothing. -/
structure Stage (R σ : Type) where
  new : List R
  all : List R
  state : σ
  isOver : Bool

section

variable (keep : List R → List R → List R) (term : σ → List R → Except ε (List R × σ))

def next (st : Stage R σ) : Except ε (Stage R σ) :=
  match term st.state st.new with
  | .error e => .error e
  | .ok (results, state) =>
    .ok ⟨keep st.all results, st.all ++ keep st.all results, state, (keep st.all results).isEmpty⟩

def start (seed : List R) (state : σ) : Stage R σ := ⟨keep [] seed, keep [] seed, state, false⟩

/-- The recursion after `n` rounds. -/
@[grind =]
def stage (seed : List R) (state : σ) : Nat → Except ε (Stage R σ)
  | 0 => .ok (start keep seed state)
  | n + 1 =>
    match stage seed state n with
    | .error e => .error e
    | .ok st => if st.isOver then .ok st else next keep term st

/-- Rounds until one keeps nothing, at most `fuel` of them. -/
def run : Nat → Stage R σ → Except ε (Option (Stage R σ))
  | 0, _ => .ok none
  | fuel + 1, st =>
    match next keep term st with
    | .error e => .error e
    | .ok st => if st.isOver then .ok (some st) else run fuel st

variable {keep term} {seed : List R} {s₀ : σ}

theorem next_ok {st st' : Stage R σ} (h : next keep term st = .ok st') :
    ∃ results, term st.state st.new = .ok (results, st'.state) ∧ st'.new = keep st.all results ∧
      st'.all = st.all ++ st'.new ∧ st'.isOver = st'.new.isEmpty := by
  unfold next at h
  cases ht : term st.state st.new with
  | error e =>
    rw [ht] at h
    cases h
  | ok out =>
    obtain ⟨results, state⟩ := out
    rw [ht] at h
    cases h
    exact ⟨results, rfl, rfl, rfl, rfl⟩

theorem stage_succ {n : Nat} {st : Stage R σ} (h : stage keep term seed s₀ n = .ok st) :
    stage keep term seed s₀ (n + 1) = if st.isOver then .ok st else next keep term st := by
  rw [stage, h]

theorem stage_succ_ok {n : Nat} {st' : Stage R σ} (h : stage keep term seed s₀ (n + 1) = .ok st') :
    ∃ st, stage keep term seed s₀ n = .ok st ∧
      (st.isOver = true ∧ st' = st ∨ st.isOver = false ∧ next keep term st = .ok st') := by
  cases hst : stage keep term seed s₀ n with
  | error e =>
    rw [stage, hst] at h
    cases h
  | ok st =>
    rw [stage_succ hst] at h
    refine ⟨st, rfl, ?_⟩
    cases hover : st.isOver with
    | true =>
      rw [hover] at h
      cases h
      exact .inl ⟨rfl, rfl⟩
    | false =>
      rw [hover] at h
      exact .inr ⟨rfl, h⟩

/-- A run goes through the stages. -/
theorem run_ok {fuel n : Nat} {st st' : Stage R σ} (hst : stage keep term seed s₀ n = .ok st) (hopen : st.isOver = false)
    (h : run keep term fuel st = .ok (some st')) :
    ∃ m, m < fuel ∧ stage keep term seed s₀ (n + m + 1) = .ok st' ∧ st'.isOver = true := by
  induction fuel generalizing n st with
  | zero => cases h
  | succ fuel ih =>
    rw [run] at h
    cases hnext : next keep term st with
    | error e =>
      rw [hnext] at h
      cases h
    | ok st₁ =>
      rw [hnext] at h
      have hstage : stage keep term seed s₀ (n + 1) = .ok st₁ := by
        rw [stage_succ hst, hopen]
        exact hnext
      cases hover : st₁.isOver with
      | true =>
        simp only [hover, if_true] at h
        cases h
        exact ⟨0, Nat.succ_pos fuel, hstage, hover⟩
      | false =>
        simp only [hover, Bool.false_eq_true, if_false] at h
        obtain ⟨m, hm, hlast, hdone⟩ := ih hstage hover h
        refine ⟨m + 1, by omega, ?_, hdone⟩
        rwa [show n + (m + 1) + 1 = n + 1 + m + 1 by omega]

/-- A recursion that is over within the fuel is run to its end. -/
theorem run_of_over {fuel n m : Nat} {st st' : Stage R σ} (hst : stage keep term seed s₀ n = .ok st)
    (hopen : st.isOver = false) (hm : m < fuel) (hlast : stage keep term seed s₀ (n + m + 1) = .ok st')
    (hdone : st'.isOver = true) : ∃ st'', run keep term fuel st = .ok (some st'') := by
  induction fuel generalizing n m st with
  | zero => exact absurd hm (Nat.not_lt_zero m)
  | succ fuel ih =>
    have hnext : ∃ st₁, next keep term st = .ok st₁ := by
      cases hnext : next keep term st with
      | ok st₁ => exact ⟨st₁, rfl⟩
      | error e =>
        have herr : ∀ k, stage keep term seed s₀ (n + k + 1) = .error e := by
          intro k
          induction k with
          | zero =>
            rw [Nat.add_zero, stage_succ hst, hopen]
            exact hnext
          | succ k ihk => rw [← Nat.add_assoc, stage, ihk]
        rw [herr m] at hlast
        cases hlast
    obtain ⟨st₁, hnext⟩ := hnext
    have hstage : stage keep term seed s₀ (n + 1) = .ok st₁ := by
      rw [stage_succ hst, hopen]
      exact hnext
    rw [run, hnext]
    cases hover : st₁.isOver with
    | true => exact ⟨st₁, by simp [hover]⟩
    | false =>
      cases m with
      | zero =>
        rw [Nat.add_zero, hstage] at hlast
        cases hlast
        rw [hover] at hdone
        cases hdone
      | succ m =>
        obtain ⟨st'', h⟩ := ih hstage hover (show m < fuel by omega)
          (by rwa [show n + 1 + m + 1 = n + (m + 1) + 1 by omega])
        exact ⟨st'', by simp [hover, h]⟩

/-- A run keeps what is there. -/
theorem run_grows {fuel : Nat} {st st' : Stage R σ} (h : run keep term fuel st = .ok (some st')) :
    st.all <+: st'.all := by
  induction fuel generalizing st with
  | zero => cases h
  | succ fuel ih =>
    rw [run] at h
    cases hnext : next keep term st with
    | error e =>
      rw [hnext] at h
      cases h
    | ok st₁ =>
      rw [hnext] at h
      obtain ⟨-, -, -, hall, -⟩ := next_ok hnext
      have hstep : st.all <+: st₁.all := by
        rw [hall]
        exact List.prefix_append st.all st₁.new
      cases hover : st₁.isOver with
      | true =>
        simp only [hover, if_true] at h
        cases h
        exact hstep
      | false =>
        simp only [hover, Bool.false_eq_true, if_false] at h
        exact hstep.trans (ih h)

theorem over_new {n : Nat} {st : Stage R σ} (h : stage keep term seed s₀ n = .ok st) (hover : st.isOver = true) :
    st.new = [] := by
  induction n generalizing st with
  | zero =>
    cases h
    cases hover
  | succ n ih =>
    obtain ⟨st₀, hst₀, ⟨hover₀, rfl⟩ | ⟨-, hnext⟩⟩ := stage_succ_ok h
    · exact ih hst₀ hover₀
    · obtain ⟨-, -, -, -, hlast⟩ := next_ok hnext
      rw [hlast] at hover
      exact List.isEmpty_iff.1 hover

end

/-- What a round kept; nothing once the recursion is over. -/
def newAt (keep : List R → List R → List R) (term : σ → List R → Except ε (List R × σ)) (seed : List R) (s₀ : σ)
    (n : Nat) : List R :=
  match stage keep term seed s₀ n with
  | .ok st => st.new
  | .error _ => []

section

variable {keep : List R → List R → List R} {term : σ → List R → Except ε (List R × σ)} {seed : List R} {s₀ : σ}

theorem newAt_ok {n : Nat} {st : Stage R σ} (h : stage keep term seed s₀ n = .ok st) :
    newAt keep term seed s₀ n = st.new := by
  rw [newAt, h]

/-- All that is there is what the rounds kept, one after another. -/
theorem all_eq {n : Nat} {st : Stage R σ} (h : stage keep term seed s₀ n = .ok st) :
    st.all = (List.range (n + 1)).flatMap (newAt keep term seed s₀) := by
  induction n generalizing st with
  | zero =>
    have hnew := newAt_ok h
    cases h
    simp [hnew, start]
  | succ n ih =>
    have hnew := newAt_ok h
    rw [List.range_succ, List.flatMap_append, List.flatMap_singleton, hnew]
    obtain ⟨st₀, hst₀, ⟨hover₀, rfl⟩ | ⟨-, hnext⟩⟩ := stage_succ_ok h
    · rw [← ih hst₀, over_new hst₀ hover₀, List.append_nil]
    · obtain ⟨-, -, -, hall, -⟩ := next_ok hnext
      rw [← ih hst₀, hall]

/-- What is there stays there, in its order. -/
theorem all_grows {n m : Nat} {st st' : Stage R σ} (hnm : n ≤ m) (h : stage keep term seed s₀ n = .ok st)
    (h' : stage keep term seed s₀ m = .ok st') : st.all <+: st'.all := by
  induction m generalizing st' with
  | zero =>
    obtain rfl : n = 0 := by omega
    rw [h] at h'
    cases h'
    exact List.prefix_refl st.all
  | succ m ih =>
    rcases Nat.eq_or_lt_of_le hnm with rfl | hlt
    · rw [h] at h'
      cases h'
      exact List.prefix_refl st.all
    · obtain ⟨st₀, hst₀, ⟨-, rfl⟩ | ⟨-, hnext⟩⟩ := stage_succ_ok h'
      · exact ih (by omega) hst₀
      · obtain ⟨-, -, -, hall, -⟩ := next_ok hnext
        rw [hall]
        exact (ih (by omega) hst₀).trans (List.prefix_append st₀.all st'.new)

/-- The stages before one that is reached are reached. -/
theorem stage_of_le {n m : Nat} {st' : Stage R σ} (hnm : n ≤ m) (h' : stage keep term seed s₀ m = .ok st') :
    ∃ st, stage keep term seed s₀ n = .ok st := by
  induction m generalizing st' with
  | zero =>
    obtain rfl : n = 0 := by omega
    exact ⟨st', h'⟩
  | succ m ih =>
    rcases Nat.eq_or_lt_of_le hnm with rfl | hlt
    · exact ⟨st', h'⟩
    · obtain ⟨st₀, hst₀, -⟩ := stage_succ_ok h'
      exact ih (by omega) hst₀

/-- Once over, the recursion stays as it is. -/
theorem stage_of_over {n : Nat} {st : Stage R σ} (h : stage keep term seed s₀ n = .ok st) (hover : st.isOver = true)
    (m : Nat) : stage keep term seed s₀ (n + m) = .ok st := by
  induction m with
  | zero => exact h
  | succ m ih => rw [← Nat.add_assoc, stage_succ ih, hover, if_pos rfl]

theorem lt_of_over {n m : Nat} {st st' : Stage R σ} (h : stage keep term seed s₀ n = .ok st) (hopen : st.isOver = false)
    (h' : stage keep term seed s₀ m = .ok st') (hover : st'.isOver = true) : n < m := by
  by_contra hle
  have hlate := stage_of_over h' hover (n - m)
  rw [show m + (n - m) = n by omega, h] at hlate
  cases hlate
  rw [hopen] at hover
  cases hover

/-- Every round but the last one brings something. -/
theorem length_le {n : Nat} {st : Stage R σ} (h : stage keep term seed s₀ n = .ok st) (hopen : st.isOver = false) :
    (keep [] seed).length + n ≤ st.all.length := by
  induction n generalizing st with
  | zero =>
    cases h
    exact Nat.le_refl _
  | succ n ih =>
    obtain ⟨st₀, hst₀, ⟨hover₀, rfl⟩ | ⟨hopen₀, hnext⟩⟩ := stage_succ_ok h
    · rw [hover₀] at hopen
      cases hopen
    · obtain ⟨-, -, -, hall, hlast⟩ := next_ok hnext
      have hpos : 0 < st.new.length := by
        rw [hopen] at hlast
        exact List.length_pos_iff.2 (List.isEmpty_eq_false_iff.1 hlast.symm)
      have hlen := ih hst₀ hopen₀
      rw [hall, List.length_append]
      omega

end

section

variable {keep keep' : List R → List R → List R} {term : σ → List R → Except ε (List R × σ)} {seed : List R} {s₀ : σ}

theorem next_congr {st : Stage R σ}
    (h : ∀ results state, term st.state st.new = .ok (results, state) → keep st.all results = keep' st.all results) :
    next keep term st = next keep' term st := by
  unfold next
  cases hterm : term st.state st.new with
  | error e => rfl
  | ok out =>
    obtain ⟨results, state⟩ := out
    simp only [h results state hterm]

/-- Stages do not depend on a difference that none of them sees. -/
theorem stage_congr (hseed : keep [] seed = keep' [] seed)
    (h : ∀ n st results state, stage keep term seed s₀ n = .ok st → st.isOver = false →
      term st.state st.new = .ok (results, state) → keep st.all results = keep' st.all results) (n : Nat) :
    stage keep term seed s₀ n = stage keep' term seed s₀ n := by
  induction n with
  | zero => rw [stage, stage, start, start, hseed]
  | succ n ih =>
    rw [stage, stage, ← ih]
    cases hst : stage keep term seed s₀ n with
    | error e => rfl
    | ok st =>
      cases hover : st.isOver with
      | true => simp [hover]
      | false =>
        have hnext := @next_congr _ _ _ _ keep' _ st fun results state hterm => h n st results state hst hover hterm
        simpa [hover] using hnext

end

/-! ## What is new -/

/-- Rows without duplicates, each the same as one of some others, are no more than those. -/
theorem length_le_of_covers {same : R → R → Prop} (hsame : ∀ a b c, same c a → same c b → same a b) {rows others : List R}
    (hdistinct : rows.Pairwise fun a b => ¬same a b) (hcovers : ∀ r ∈ rows, ∃ k ∈ others, same k r) :
    rows.length ≤ others.length := by
  classical
  choose! find hfind using hcovers
  have hnodup : (rows.map find).Nodup := by
    refine List.pairwise_map.2 (hdistinct.imp_of_mem ?_)
    intro a b ha hb hab heq
    refine hab (hsame a b (find a) (hfind a ha).2 ?_)
    rw [heq]
    exact (hfind b hb).2
  have hsubset : rows.map find ⊆ others := by
    intro k hk
    obtain ⟨r, hr, rfl⟩ := List.mem_map.1 hk
    exact (hfind r hr).1
  simpa using (hnodup.subperm hsubset).length_le

section

variable (same : R → R → Prop) [DecidableRel same]

/-- The rows that are the same as none before them. -/
@[grind =]
def fresh : List R → List R → List R
  | _, [] => []
  | known, r :: rows =>
    if ∃ s ∈ known, same s r then fresh known rows else r :: fresh (known ++ [r]) rows

variable {same}

theorem mem_fresh {known rows : List R} {r : R} (h : r ∈ fresh same known rows) :
    r ∈ rows ∧ ¬∃ s ∈ known, same s r := by
  induction rows generalizing known with
  | nil => cases h
  | cons x rows ih =>
    rw [fresh] at h
    split at h
    · exact ⟨List.mem_cons_of_mem x (ih h).1, (ih h).2⟩
    · rcases List.mem_cons.1 h with rfl | h
      · exact ⟨List.mem_cons_self, ‹_›⟩
      · obtain ⟨hr, hnew⟩ := ih h
        refine ⟨List.mem_cons_of_mem x hr, ?_⟩
        rintro ⟨s, hs, hsame⟩
        exact hnew ⟨s, List.mem_append_left [x] hs, hsame⟩

/-- What is not new is the same as something known or new. -/
theorem fresh_covers (hrefl : ∀ r, same r r) {known rows : List R} {r : R} (h : r ∈ rows) :
    ∃ s ∈ known ++ fresh same known rows, same s r := by
  induction rows generalizing known with
  | nil => cases h
  | cons x rows ih =>
    rw [fresh]
    split
    · rcases List.mem_cons.1 h with rfl | h
      · obtain ⟨s, hs, hsame⟩ := ‹∃ s ∈ known, same s r›
        exact ⟨s, List.mem_append_left _ hs, hsame⟩
      · exact ih h
    · rcases List.mem_cons.1 h with rfl | h
      · exact ⟨r, by simp, hrefl r⟩
      · obtain ⟨s, hs, hsame⟩ := @ih (known ++ [x]) h
        exact ⟨s, by simpa [or_assoc] using hs, hsame⟩

theorem fresh_pairwise {known rows : List R} :
    (known ++ fresh same known rows).Pairwise (fun a b => ¬same a b) ↔ known.Pairwise fun a b => ¬same a b := by
  induction rows generalizing known with
  | nil => rw [fresh, List.append_nil]
  | cons x rows ih =>
    rw [fresh]
    split
    · exact ih
    · have hnew := ‹¬∃ s ∈ known, same s x›
      have hmove : known ++ x :: fresh same (known ++ [x]) rows = (known ++ [x]) ++ fresh same (known ++ [x]) rows := by
        simp
      rw [hmove, ih, List.pairwise_append]
      simp only [List.pairwise_cons, List.mem_singleton, forall_eq, List.not_mem_nil, false_implies, implies_true,
        List.Pairwise.nil, and_true, true_and, and_iff_left_iff_imp]
      intro _ a ha hsame
      exact hnew ⟨a, ha, hsame⟩

/-- Rows without duplicates are all new. -/
theorem fresh_of_pairwise {known rows : List R} (h : (known ++ rows).Pairwise fun a b => ¬same a b) :
    fresh same known rows = rows := by
  induction rows generalizing known with
  | nil => rfl
  | cons x rows ih =>
    have hnew : ¬∃ s ∈ known, same s x := by
      rintro ⟨s, hs, hsame⟩
      exact (List.pairwise_append.1 h).2.2 s hs x List.mem_cons_self hsame
    rw [fresh, if_neg hnew, ih (by simpa using h)]

variable {same' : R → R → Prop} [DecidableRel same']

theorem fresh_congr {known rows : List R} (h : ∀ a ∈ known ++ rows, ∀ b ∈ rows, same a b ↔ same' a b) :
    fresh same known rows = fresh same' known rows := by
  induction rows generalizing known with
  | nil => rfl
  | cons x rows ih =>
    have hx : (∃ s ∈ known, same s x) ↔ ∃ s ∈ known, same' s x :=
      exists_congr fun s => and_congr_right fun hs => h s (List.mem_append_left _ hs) x List.mem_cons_self
    have hskip : ∀ a ∈ known ++ rows, ∀ b ∈ rows, same a b ↔ same' a b := fun a ha b hb =>
      h a (by simp only [List.mem_append, List.mem_cons] at ha ⊢; tauto) b (List.mem_cons_of_mem x hb)
    have htake : ∀ a ∈ (known ++ [x]) ++ rows, ∀ b ∈ rows, same a b ↔ same' a b := fun a ha b hb =>
      h a (by simp only [List.mem_append, List.mem_cons, List.not_mem_nil, or_false] at ha ⊢; tauto) b
        (List.mem_cons_of_mem x hb)
    rw [fresh, fresh, ih hskip, ih htake]
    simp only [hx]

/-- A finer relation that lets nothing in twice lets in what the coarser one does. -/
theorem fresh_of_distinct {known rows : List R} (hfine : ∀ a ∈ known ++ rows, ∀ b ∈ rows, same a b → same' a b)
    (h : (known ++ fresh same known rows).Pairwise fun a b => ¬same' a b) :
    fresh same known rows = fresh same' known rows := by
  induction rows generalizing known with
  | nil => rfl
  | cons x rows ih =>
    have hskip : ∀ a ∈ known ++ rows, ∀ b ∈ rows, same a b → same' a b := fun a ha b hb =>
      hfine a (by simp only [List.mem_append, List.mem_cons] at ha ⊢; tauto) b (List.mem_cons_of_mem x hb)
    have htake : ∀ a ∈ (known ++ [x]) ++ rows, ∀ b ∈ rows, same a b → same' a b := fun a ha b hb =>
      hfine a (by simp only [List.mem_append, List.mem_cons, List.not_mem_nil, or_false] at ha ⊢; tauto) b
        (List.mem_cons_of_mem x hb)
    rw [fresh] at h ⊢
    rw [fresh]
    by_cases hx : ∃ s ∈ known, same s x
    · rw [if_pos hx] at h ⊢
      obtain ⟨s, hs, hsame⟩ := hx
      rw [if_pos ⟨s, hs, hfine s (List.mem_append_left _ hs) x List.mem_cons_self hsame⟩]
      exact ih hskip h
    · rw [if_neg hx] at h ⊢
      have hnew : ¬∃ s ∈ known, same' s x := by
        rintro ⟨s, hs, hsame⟩
        exact (List.pairwise_append.1 h).2.2 s hs x List.mem_cons_self hsame
      rw [if_neg hnew, ih htake (by simpa using h)]

end

/-! ## The set reached -/

/-- A set that has the seed and, where it has what a round kept, what the term makes of it. -/
structure Closed (keep : List R → List R → List R) (term : σ → List R → Except ε (List R × σ)) (seed : List R) (s₀ : σ)
    (T : R → Prop) : Prop where
  base : ∀ r ∈ seed, T r
  step : ∀ n st results state, stage keep term seed s₀ n = .ok st → st.isOver = false → (∀ r ∈ st.new, T r) →
    term st.state st.new = .ok (results, state) → ∀ r ∈ results, T r

/-- The rows that a recursion comes across. -/
inductive Met (keep : List R → List R → List R) (term : σ → List R → Except ε (List R × σ)) (seed : List R) (s₀ : σ) :
    R → Prop
  | base {r : R} : r ∈ seed → Met keep term seed s₀ r
  | step {n : Nat} {st : Stage R σ} {results : List R} {state : σ} {r : R} : stage keep term seed s₀ n = .ok st →
    st.isOver = false → term st.state st.new = .ok (results, state) → r ∈ results → Met keep term seed s₀ r

section

variable {keep : List R → List R → List R} {term : σ → List R → Except ε (List R × σ)} {seed : List R} {s₀ : σ}

theorem closed_met : Closed keep term seed s₀ (Met keep term seed s₀) where
  base _ := .base
  step _ _ _ _ hst hopen _ hterm _ := .step hst hopen hterm

/-- What the recursion keeps is in every closed set. -/
theorem mem_of_closed {T : R → Prop} (h : Closed keep term seed s₀ T)
    (hkeep : ∀ known rows, ∀ r ∈ keep known rows, r ∈ rows) {n : Nat} {st : Stage R σ}
    (hst : stage keep term seed s₀ n = .ok st) : (∀ r ∈ st.new, T r) ∧ ∀ r ∈ st.all, T r := by
  induction n generalizing st with
  | zero =>
    cases hst
    exact ⟨fun r hr => h.base r (hkeep _ _ r hr), fun r hr => h.base r (hkeep _ _ r hr)⟩
  | succ n ih =>
    obtain ⟨st₀, hst₀, ⟨-, rfl⟩ | ⟨hopen, hnext⟩⟩ := stage_succ_ok hst
    · exact ih hst₀
    · obtain ⟨results, hterm, hkept, hall, -⟩ := next_ok hnext
      have hfrom : ∀ r ∈ st.new, T r := by
        intro r hr
        rw [hkept] at hr
        exact h.step n st₀ results st.state hst₀ hopen (ih hst₀).1 hterm r (hkeep _ _ r hr)
      refine ⟨hfrom, fun r hr => ?_⟩
      rw [hall] at hr
      exact (List.mem_append.1 hr).elim ((ih hst₀).2 r) (hfrom r)

end

section

variable {same same' : R → R → Prop} [DecidableRel same] [DecidableRel same']
  {term : σ → List R → Except ε (List R × σ)} {seed : List R} {s₀ : σ}

theorem met_all {n : Nat} {st : Stage R σ} (h : stage (fresh same) term seed s₀ n = .ok st) :
    ∀ r ∈ st.all, Met (fresh same) term seed s₀ r :=
  (mem_of_closed closed_met (fun _ _ _ hr => (mem_fresh hr).1) h).2

/-- Nothing is there twice. -/
theorem all_pairwise {n : Nat} {st : Stage R σ} (h : stage (fresh same) term seed s₀ n = .ok st) :
    st.all.Pairwise fun a b => ¬same a b := by
  induction n generalizing st with
  | zero =>
    cases h
    have hnil := @fresh_pairwise _ same _ [] seed
    rw [List.nil_append] at hnil
    exact hnil.2 List.Pairwise.nil
  | succ n ih =>
    obtain ⟨st₀, hst₀, ⟨-, rfl⟩ | ⟨-, hnext⟩⟩ := stage_succ_ok h
    · exact ih hst₀
    · obtain ⟨results, -, hkept, hall, -⟩ := next_ok hnext
      rw [hall, hkept]
      exact fresh_pairwise.2 (ih hst₀)

/-- Once the recursion is over, every row that it came across is there. -/
theorem met_covers (hrefl : ∀ r, same r r) {m : Nat} {st' : Stage R σ}
    (hlast : stage (fresh same) term seed s₀ m = .ok st') (hover : st'.isOver = true) {r : R}
    (h : Met (fresh same) term seed s₀ r) : ∃ k ∈ st'.all, same k r := by
  cases h with
  | base hr =>
    obtain ⟨k, hk, hsame⟩ := @fresh_covers _ same _ hrefl [] seed r hr
    exact ⟨k, (all_grows (Nat.zero_le m) rfl hlast).subset hk, hsame⟩
  | @step n st results state _ hst hopen hterm hr =>
    have hnext : stage (fresh same) term seed s₀ (n + 1) =
        .ok ⟨fresh same st.all results, st.all ++ fresh same st.all results, state,
          (fresh same st.all results).isEmpty⟩ := by
      rw [stage_succ hst, hopen, if_neg (by decide), next, hterm]
    obtain ⟨k, hk, hsame⟩ := fresh_covers hrefl hr
    exact ⟨k, (all_grows (lt_of_over hst hopen hlast hover) hnext hlast).subset hk, hsame⟩

/-- The stages of a finer relation that lets nothing in twice are those of the coarser one. -/
theorem stage_of_distinct
    (hfine : ∀ a b, Met (fresh same') term seed s₀ a → Met (fresh same') term seed s₀ b → same a b → same' a b)
    {n : Nat} {st : Stage R σ} (h : stage (fresh same) term seed s₀ n = .ok st)
    (hdistinct : st.all.Pairwise fun a b => ¬same' a b) : stage (fresh same') term seed s₀ n = .ok st := by
  induction n generalizing st with
  | zero =>
    have hstart : fresh same [] seed = fresh same' [] seed := by
      refine fresh_of_distinct (fun a ha b hb => hfine a b (.base (by simpa using ha)) (.base hb)) ?_
      cases h
      exact hdistinct
    rw [← h, stage, stage, start, start, hstart]
  | succ n ih =>
    obtain ⟨st₀, hst₀, ⟨hover₀, rfl⟩ | ⟨hopen₀, hnext⟩⟩ := stage_succ_ok h
    · rw [stage_succ (ih hst₀ hdistinct), hover₀, if_pos rfl]
    · have hnext' := hnext
      obtain ⟨results, hterm, hkept, hall, -⟩ := next_ok hnext
      rw [hall] at hdistinct
      have hbefore := ih hst₀ (List.pairwise_append.1 hdistinct).1
      have hmet := met_all hbefore
      rw [stage_succ hbefore, hopen₀, if_neg (by decide), ← hnext']
      refine (next_congr fun results' state' hterm' => ?_).symm
      rw [hterm] at hterm'
      cases hterm'
      refine fresh_of_distinct (fun a ha b hb => hfine a b ?_ (.step hbefore hopen₀ hterm hb)) ?_
      · exact (List.mem_append.1 ha).elim (hmet a) (.step hbefore hopen₀ hterm)
      · rwa [← hkept]

/-- The stages of two relations that agree on the rows that one of them comes across. -/
theorem stage_of_agree
    (h : ∀ a b, Met (fresh same') term seed s₀ a → Met (fresh same') term seed s₀ b → (same a b ↔ same' a b))
    (n : Nat) : stage (fresh same) term seed s₀ n = stage (fresh same') term seed s₀ n := by
  refine (stage_congr ?_ ?_ n).symm
  · exact (fresh_congr fun a ha b hb => h a b (.base (by simpa using ha)) (.base hb)).symm
  · intro n st results state hst hopen hterm
    refine (fresh_congr fun a ha b hb => h a b ?_ (.step hst hopen hterm hb)).symm
    exact (List.mem_append.1 ha).elim (met_all hst a) (.step hst hopen hterm)

end

end Rounds
