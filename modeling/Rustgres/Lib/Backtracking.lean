-- SUMMARY: Machines that backtrack: depth-first search with a stack and a budget, and what it finds.
import Mathlib.Data.List.Basic
import Mathlib.Tactic.Common

/-!
# Backtracking

A machine goes on, forks, fails or accepts. The search follows one frame, keeps the alternatives that it has
passed on a stack, and pays for each move. It is described twice: by the frames that can be reached at all, and,
where the tree of moves is finite, by the list of exits in the order in which the search comes to them.
-/

namespace Backtracking

variable {σ ρ : Type}

/-- What a machine does in a frame. -/
inductive Move (σ ρ : Type) where
  | go (s : σ)
  | fork (s alt : σ)
  | fail
  | halt
  | accept (r : ρ)

inductive Verdict (ρ : Type) where
  | accepted (r : ρ)
  | failed
  | exhausted

/-- Carry out a move; `search` goes on from a frame with a stack. -/
def Move.carryOut (search : σ → List σ → Verdict ρ) : Move σ ρ → List σ → Verdict ρ
  | .go s, stack => search s stack
  | .fork s alt, stack => search s (alt :: stack)
  | .fail, [] => .failed
  | .fail, alt :: stack => search alt stack
  | .halt, _ => .failed
  | .accept r, _ => .accepted r

variable (step : σ → Move σ ρ)

def search : Nat → σ → List σ → Verdict ρ
  | 0, _, _ => .exhausted
  | budget + 1, s, stack => (step s).carryOut (search budget) stack

/-- The search goes on with the alternative passed last. -/
def backtrack (budget : Nat) : List σ → Verdict ρ
  | [] => .failed
  | alt :: stack => search step budget alt stack

variable {step} {s t u : σ} {stack : List σ} {r : ρ} {budget : Nat}

theorem search_succ : search step (budget + 1) s stack = (step s).carryOut (search step budget) stack := rfl

theorem search_go (h : step s = .go t) : search step (budget + 1) s stack = search step budget t stack := by
  rw [search_succ, h]
  rfl

theorem search_fork (h : step s = .fork t u) :
    search step (budget + 1) s stack = search step budget t (u :: stack) := by
  rw [search_succ, h]
  rfl

theorem search_fail (h : step s = .fail) : search step (budget + 1) s stack = backtrack step budget stack := by
  rw [search_succ, h]
  cases stack <;> rfl

theorem search_halt (h : step s = .halt) : search step (budget + 1) s stack = .failed := by
  rw [search_succ, h]
  cases stack <;> rfl

theorem search_accept (h : step s = .accept r) : search step (budget + 1) s stack = .accepted r := by
  rw [search_succ, h]
  cases stack <;> rfl

/-! ## Reachable frames -/

variable (step) in
/-- One move, whichever side of a fork it takes. -/
inductive Next : σ → σ → Prop where
  | go {s t : σ} (h : step s = .go t) : Next s t
  | left {s t u : σ} (h : step s = .fork t u) : Next s t
  | right {s t u : σ} (h : step s = .fork t u) : Next s u

theorem next_go (h : step s = .go t) : Next step s u ↔ u = t := by
  constructor
  · intro hnext
    cases hnext with
    | go hgo =>
        rw [h] at hgo
        cases hgo
        rfl
    | left hfork | right hfork =>
        rw [h] at hfork
        cases hfork
  · rintro rfl
    exact .go h

theorem next_fork {alt : σ} (h : step s = .fork t alt) : Next step s u ↔ u = t ∨ u = alt := by
  constructor
  · intro hnext
    cases hnext with
    | go hgo =>
        rw [h] at hgo
        cases hgo
    | left hfork =>
        rw [h] at hfork
        cases hfork
        exact .inl rfl
    | right hfork =>
        rw [h] at hfork
        cases hfork
        exact .inr rfl
  · rintro (rfl | rfl)
    · exact .left h
    · exact .right h

theorem not_next_fail (h : step s = .fail) : ¬Next step s u := by
  intro hnext
  cases hnext with
  | go hother | left hother | right hother =>
      rw [h] at hother
      cases hother

theorem not_next_accept (h : step s = .accept r) : ¬Next step s u := by
  intro hnext
  cases hnext with
  | go hother | left hother | right hother =>
      rw [h] at hother
      cases hother

variable (step) in
inductive ReachesIn : Nat → σ → σ → Prop where
  | refl (s : σ) : ReachesIn 0 s s
  | head {n : Nat} {s t u : σ} (h : Next step s t) (rest : ReachesIn n t u) : ReachesIn (n + 1) s u

theorem ReachesIn.head_of_ne {n : Nat} (h : ReachesIn step n s u) (hne : u ≠ s) :
    ∃ m t, n = m + 1 ∧ Next step s t ∧ ReachesIn step m t u := by
  cases h with
  | refl => exact absurd rfl hne
  | head hnext hrest => exact ⟨_, _, rfl, hnext, hrest⟩

variable (step) in
def Reaches (s t : σ) : Prop := ∃ n, ReachesIn step n s t

theorem Reaches.refl (s : σ) : Reaches step s s := ⟨0, .refl s⟩

theorem Reaches.head (h : Next step s t) (rest : Reaches step t u) : Reaches step s u := by
  obtain ⟨n, hn⟩ := rest
  exact ⟨n + 1, .head h hn⟩

theorem Reaches.trans (h : Reaches step s t) (rest : Reaches step t u) : Reaches step s u := by
  obtain ⟨n, hn⟩ := h
  induction hn with
  | refl => exact rest
  | head hnext _ ih => exact .head hnext (ih rest)

/-- A path from a frame stops there or goes through one of the next frames. -/
theorem Reaches.cases (h : Reaches step s u) : u = s ∨ ∃ t, Next step s t ∧ Reaches step t u := by
  obtain ⟨n, hn⟩ := h
  cases hn with
  | refl => exact .inl rfl
  | head hnext hrest => exact .inr ⟨_, hnext, _, hrest⟩

/-- What no move leaves is never left. -/
theorem Reaches.invariant {I : σ → Prop} (hstep : ∀ s t, I s → Next step s t → I t) (h : Reaches step s t) (hs : I s) :
    I t := by
  obtain ⟨n, hn⟩ := h
  induction hn with
  | refl => exact hs
  | head hnext _ ih => exact ih (hstep _ _ hs hnext)

/-! ## What a search finds -/

/-- What the search accepts, it has reached. -/
theorem reaches_of_accepted (h : search step budget s stack = .accepted r) :
    ∃ s₀ ∈ s :: stack, ∃ t, Reaches step s₀ t ∧ step t = .accept r := by
  induction budget generalizing s stack with
  | zero => cases h
  | succ budget ih =>
      cases hmove : step s with
      | go t =>
          rw [search_go hmove] at h
          obtain ⟨s₀, hs₀, u, hu, hacc⟩ := ih h
          rcases List.mem_cons.1 hs₀ with rfl | hs₀
          · exact ⟨s, List.mem_cons_self, u, .head (.go hmove) hu, hacc⟩
          · exact ⟨s₀, List.mem_cons_of_mem s hs₀, u, hu, hacc⟩
      | fork t alt =>
          rw [search_fork hmove] at h
          obtain ⟨s₀, hs₀, u, hu, hacc⟩ := ih h
          rcases List.mem_cons.1 hs₀ with rfl | hs₀
          · exact ⟨s, List.mem_cons_self, u, .head (.left hmove) hu, hacc⟩
          · rcases List.mem_cons.1 hs₀ with rfl | hs₀
            · exact ⟨s, List.mem_cons_self, u, .head (.right hmove) hu, hacc⟩
            · exact ⟨s₀, List.mem_cons_of_mem s hs₀, u, hu, hacc⟩
      | fail =>
          rw [search_fail hmove] at h
          cases stack with
          | nil => cases h
          | cons alt stack =>
              obtain ⟨s₀, hs₀, u, hu, hacc⟩ := ih h
              exact ⟨s₀, List.mem_cons_of_mem s hs₀, u, hu, hacc⟩
      | halt =>
          rw [search_halt hmove] at h
          cases h
      | accept r' =>
          rw [search_accept hmove] at h
          cases h
          exact ⟨s, List.mem_cons_self, s, .refl s, hmove⟩

/-- A search that fails has tried everything, unless a frame halts it. -/
theorem not_reaches_of_failed (h : search step budget s stack = .failed)
    (hhalt : ∀ s₀ ∈ s :: stack, ∀ t, Reaches step s₀ t → step t ≠ .halt) :
    ∀ s₀ ∈ s :: stack, ∀ t r, Reaches step s₀ t → step t ≠ .accept r := by
  induction budget generalizing s stack with
  | zero => cases h
  | succ budget ih =>
      obtain ⟨hhere, hstack⟩ := List.forall_mem_cons.1 hhalt
      cases hmove : step s with
      | go t =>
          rw [search_go hmove] at h
          have hrest := ih h (List.forall_mem_cons.2 ⟨fun u hu => hhere u (.head (.go hmove) hu), hstack⟩)
          obtain ⟨ht, hstack⟩ := List.forall_mem_cons.1 hrest
          refine List.forall_mem_cons.2 ⟨fun u r hu hacc => ?_, hstack⟩
          rcases hu.cases with rfl | ⟨v, hnext, hv⟩
          · rw [hmove] at hacc
            cases hacc
          · obtain rfl := (next_go hmove).1 hnext
            exact ht u r hv hacc
      | fork t alt =>
          rw [search_fork hmove] at h
          have hrest := ih h (List.forall_mem_cons.2 ⟨fun u hu => hhere u (.head (.left hmove) hu),
            List.forall_mem_cons.2 ⟨fun u hu => hhere u (.head (.right hmove) hu), hstack⟩⟩)
          obtain ⟨ht, hrest⟩ := List.forall_mem_cons.1 hrest
          obtain ⟨halt, hstack⟩ := List.forall_mem_cons.1 hrest
          refine List.forall_mem_cons.2 ⟨fun u r hu hacc => ?_, hstack⟩
          rcases hu.cases with rfl | ⟨v, hnext, hv⟩
          · rw [hmove] at hacc
            cases hacc
          · rcases (next_fork hmove).1 hnext with rfl | rfl
            · exact ht u r hv hacc
            · exact halt u r hv hacc
      | fail =>
          have hdead : ∀ u r, Reaches step s u → step u ≠ .accept r := fun u r hu hacc => by
            rcases hu.cases with rfl | ⟨v, hnext, -⟩
            · rw [hmove] at hacc
              cases hacc
            · exact not_next_fail hmove hnext
          rw [search_fail hmove] at h
          refine List.forall_mem_cons.2 ⟨hdead, ?_⟩
          cases stack with
          | nil => exact fun s₀ hs₀ => absurd hs₀ List.not_mem_nil
          | cons alt stack => exact ih h hstack
      | halt => exact absurd hmove (hhere s (.refl s))
      | accept r =>
          rw [search_accept hmove] at h
          cases h

/-- More budget changes a verdict only where there was none. -/
theorem search_mono {v : Verdict ρ} (h : search step budget s stack = v) (hv : v ≠ .exhausted) (more : Nat) :
    search step (budget + more) s stack = v := by
  induction budget generalizing s stack with
  | zero => exact absurd h.symm hv
  | succ budget ih =>
      rw [Nat.succ_add]
      cases hmove : step s with
      | go t =>
          rw [search_go hmove] at h ⊢
          exact ih h
      | fork t alt =>
          rw [search_fork hmove] at h ⊢
          exact ih h
      | fail =>
          rw [search_fail hmove] at h ⊢
          cases stack with
          | nil => exact h
          | cons alt stack => exact ih h
      | halt =>
          rw [search_halt hmove] at h ⊢
          exact h
      | accept r =>
          rw [search_accept hmove] at h ⊢
          exact h

/-! ## Exits in order -/

variable (step) in
/-- The search from a frame comes to these exits, in this order, and then fails. -/
inductive Yields (exit : σ → Prop) : σ → List σ → Prop where
  | exit {s : σ} (h : exit s) : Yields exit s [s]
  | go {s t : σ} {outs : List σ} (h : step s = .go t) (rest : Yields exit t outs) : Yields exit s outs
  | fork {s t u : σ} {outs outs' : List σ} (h : step s = .fork t u) (first : Yields exit t outs)
      (second : Yields exit u outs') : Yields exit s (outs ++ outs')
  | fail {s : σ} (h : step s = .fail) : Yields exit s []

/-- From the exits of one part the search goes through the next part. -/
theorem Yields.bind {exit exit' : σ → Prop} {outs : List σ} {f : σ → List σ} (h : Yields step exit s outs)
    (hf : ∀ o ∈ outs, Yields step exit' o (f o)) : Yields step exit' s (outs.flatMap f) := by
  induction h with
  | exit =>
      rw [List.flatMap_singleton]
      exact hf _ (List.mem_singleton_self _)
  | go h _ ih => exact .go h (ih hf)
  | fork h _ _ ih ih' =>
      rw [List.flatMap_append]
      exact .fork h (ih fun o ho => hf o (List.mem_append_left _ ho)) (ih' fun o ho => hf o (List.mem_append_right _ ho))
  | fail h => exact .fail h

/-- With enough budget the search accepts at the first exit, and backtracks when there is none. -/
theorem Yields.search {exit : σ → Prop} {result : σ → ρ} (haccept : ∀ t, exit t → step t = .accept (result t))
    {outs : List σ} (h : Yields step exit s outs) :
    ∃ cost, ∀ budget stack, search step (budget + cost) s stack =
      match outs.head? with
      | some o => .accepted (result o)
      | none => backtrack step budget stack := by
  induction h with
  | exit h => exact ⟨1, fun budget stack => search_accept (haccept _ h)⟩
  | go h _ ih =>
      obtain ⟨cost, hcost⟩ := ih
      exact ⟨cost + 1, fun budget stack => (search_go h).trans (hcost budget stack)⟩
  | @fork s t u outs outs' h _ _ ih ih' =>
      obtain ⟨cost, hcost⟩ := ih
      obtain ⟨cost', hcost'⟩ := ih'
      refine ⟨cost' + cost + 1, fun budget stack => ?_⟩
      rw [← Nat.add_assoc, search_fork h, ← Nat.add_assoc, hcost]
      cases outs with
      | cons o outs => rfl
      | nil => exact hcost' budget stack
  | fail h => exact ⟨1, fun budget stack => search_fail h⟩

/-! ## Ordered choices -/

section Choices

variable {α : Type}

/-- As many steps of a relation. -/
def Times (R : α → α → Prop) : Nat → α → α → Prop
  | 0, a, b => b = a
  | n + 1, a, b => ∃ o, R a o ∧ Times R n o b

theorem Times.congr {R S : α → α → Prop} (h : ∀ a b, R a b ↔ S a b) (n : Nat) (a b : α) : Times R n a b ↔ Times S n a b := by
  rw [funext fun a => funext fun b => propext (h a b)]

theorem Times.add {R : α → α → Prop} {m n : Nat} {a b : α} :
    Times R (m + n) a b ↔ ∃ o, Times R m a o ∧ Times R n o b := by
  induction m generalizing a with
  | zero =>
      rw [Nat.zero_add]
      exact ⟨fun h => ⟨a, rfl, h⟩, fun ⟨o, ho, h⟩ => ho ▸ h⟩
  | succ m ih =>
      rw [Nat.succ_add]
      constructor
      · rintro ⟨o, ho, h⟩
        obtain ⟨o', hm, hn⟩ := ih.1 h
        exact ⟨o', ⟨o, ho, hm⟩, hn⟩
      · rintro ⟨o', ⟨o, ho, hm⟩, hn⟩
        exact ⟨o, ho, ih.2 ⟨o', hm, hn⟩⟩

/-- Steps of which each may be left out are at most as many steps. -/
theorem Times.optional {R : α → α → Prop} {m : Nat} {a b : α} :
    Times (fun a b => b = a ∨ R a b) m a b ↔ ∃ n, n ≤ m ∧ Times R n a b := by
  induction m generalizing a with
  | zero => exact ⟨fun h => ⟨0, Nat.le_refl 0, h⟩, fun ⟨n, hn, h⟩ => by
      obtain rfl : n = 0 := Nat.le_zero.1 hn
      exact h⟩
  | succ m ih =>
      constructor
      · rintro ⟨o, rfl | ho, h⟩
        · obtain ⟨n, hn, h⟩ := ih.1 h
          exact ⟨n, Nat.le_succ_of_le hn, h⟩
        · obtain ⟨n, hn, h⟩ := ih.1 h
          exact ⟨n + 1, Nat.succ_le_succ hn, o, ho, h⟩
      · rintro ⟨n, hn, h⟩
        cases n with
        | zero => exact ⟨a, .inl rfl, ih.2 ⟨0, Nat.zero_le m, h⟩⟩
        | succ n =>
            obtain ⟨o, ho, h⟩ := h
            exact ⟨o, .inr ho, ih.2 ⟨n, Nat.le_of_succ_le_succ hn, h⟩⟩

/-- As many choices, one after the other. -/
def times (f : α → List α) : Nat → α → List α
  | 0, a => [a]
  | n + 1, a => (f a).flatMap (times f n)

theorem mem_times {f : α → List α} {n : Nat} {a b : α} : b ∈ times f n a ↔ Times (fun a b => b ∈ f a) n a b := by
  induction n generalizing a with
  | zero => exact List.mem_singleton
  | succ n ih =>
      rw [times, List.mem_flatMap]
      exact exists_congr fun o => and_congr_right fun _ => ih

/-- An alternative to the choices: the first of them, or the last. -/
def prefer (first : Bool) (a : α) (more : List α) : List α := if first then a :: more else more ++ [a]

theorem mem_prefer {first : Bool} {a b : α} {more : List α} : b ∈ prefer first a more ↔ b = a ∨ b ∈ more := by
  unfold prefer
  split
  · exact List.mem_cons
  · rw [List.mem_append, List.mem_singleton, or_comm]

/-- Any number of choices that make progress, each time with the alternative to stop. -/
def star (progress : α → α → Bool) (stopFirst : Bool) (f : α → List α) : Nat → α → List α
  | 0, a => [a]
  | n + 1, a => prefer stopFirst a (((f a).filter (progress a)).flatMap (star progress stopFirst f n))

variable {progress : α → α → Bool} {stopFirst : Bool} {f : α → List α} {left : α → Nat}

theorem star_succ (hprogress : ∀ a, ∀ b ∈ f a, progress a b) (n : Nat) (a : α) :
    star progress stopFirst f (n + 1) a = prefer stopFirst a ((f a).flatMap (star progress stopFirst f n)) := by
  rw [star, List.filter_eq_self.2 (hprogress a)]

/-- Where each choice leaves less, the bound on their number does not matter. -/
theorem star_of_le (hprogress : ∀ a, ∀ b ∈ f a, progress a b) (hleft : ∀ a, ∀ b ∈ f a, left b < left a) {n : Nat} {a : α}
    (hn : left a ≤ n) :
    star progress stopFirst f n a = prefer stopFirst a ((f a).flatMap fun b => star progress stopFirst f (left b) b) := by
  induction n using Nat.strongRecOn generalizing a with
  | ind n ih =>
      have hrest : ∀ b ∈ f a, ∀ m, left b ≤ m → m < n → star progress stopFirst f m b = star progress stopFirst f (left b) b :=
        fun b hb m hm hlt => (ih m hlt hm).trans (ih (left b) (Nat.lt_of_le_of_lt hm hlt) (Nat.le_refl _)).symm
      cases n with
      | zero =>
          have hnil : f a = [] := List.eq_nil_iff_forall_not_mem.2 fun b hb =>
            absurd (hleft a b hb) (by rw [Nat.le_zero.1 hn]; exact Nat.not_lt_zero _)
          rw [star, hnil]
          unfold prefer
          split <;> rfl
      | succ n =>
          rw [star_succ hprogress]
          congr 1
          refine List.flatMap_congr fun b hb => hrest b hb n ?_ (Nat.lt_succ_self n)
          exact Nat.le_of_lt_succ (Nat.lt_of_lt_of_le (hleft a b hb) hn)

theorem mem_star (hprogress : ∀ a, ∀ b ∈ f a, progress a b) (hleft : ∀ a, ∀ b ∈ f a, left b < left a) {n : Nat} {a b : α}
    (hn : left a ≤ n) : b ∈ star progress stopFirst f n a ↔ ∃ k, Times (fun a b => b ∈ f a) k a b := by
  induction n using Nat.strongRecOn generalizing a with
  | ind n ih =>
      rw [star_of_le hprogress hleft hn, mem_prefer, List.mem_flatMap]
      constructor
      · rintro (rfl | ⟨o, ho, hb⟩)
        · exact ⟨0, rfl⟩
        · obtain ⟨k, hk⟩ := (ih (left o) (Nat.lt_of_lt_of_le (hleft a o ho) hn) (Nat.le_refl _)).1 hb
          exact ⟨k + 1, o, ho, hk⟩
      · rintro ⟨k, hk⟩
        cases k with
        | zero => exact .inl hk
        | succ k =>
            obtain ⟨o, ho, hk⟩ := hk
            exact .inr ⟨o, ho, (ih (left o) (Nat.lt_of_lt_of_le (hleft a o ho) hn) (Nat.le_refl _)).2 ⟨k, hk⟩⟩

end Choices

end Backtracking
