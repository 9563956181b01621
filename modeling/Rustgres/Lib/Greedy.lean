-- SUMMARY: Loops that act on the largest element left, until a bound holds or none is left.
import Mathlib.Data.List.Basic

/-!
# Greedy Loops

A greedy loop looks for the largest element of a list that it may still act on. It ends if each action
leaves fewer such elements.
-/

namespace Greedy

variable {ι σ : Type}

/-! ## The largest element -/

/-- Keep `i` if it may be taken and is larger than the best one so far. -/
def better (p : ι → Bool) (key : ι → Nat) (best : Option ι) (i : ι) : Option ι :=
  if p i then
    match best with
    | none => some i
    | some b => if key b < key i then some i else some b
  else best

/-- The first of the largest elements that may be taken. -/
def largest (p : ι → Bool) (key : ι → Nat) (l : List ι) : Option ι :=
  l.foldl (better p key) none

/-- `r` is the best of `best` and of the elements of `l` that may be taken. -/
def BestOf (p : ι → Bool) (key : ι → Nat) (best : Option ι) (l : List ι) (r : Option ι) : Prop :=
  match r with
  | none => best = none ∧ ∀ i ∈ l, p i = false
  | some b => (best = some b ∨ b ∈ l ∧ p b = true) ∧ (∀ c, best = some c → key c ≤ key b) ∧
      ∀ i ∈ l, p i = true → key i ≤ key b

theorem bestOf_better (p : ι → Bool) (key : ι → Nat) (best : Option ι) (a : ι) :
    BestOf p key best [a] (better p key best a) := by
  unfold better
  by_cases ha : p a = true
  · rw [if_pos ha]
    cases best with
    | none =>
        refine ⟨.inr ⟨List.mem_cons_self, ha⟩, fun c hc => (nomatch hc), fun i hi _ => ?_⟩
        exact Nat.le_of_eq (congrArg key (List.mem_singleton.1 hi))
    | some b =>
        dsimp only
        by_cases hlt : key b < key a
        · rw [if_pos hlt]
          refine ⟨.inr ⟨List.mem_cons_self, ha⟩, fun c hc => ?_, fun i hi _ => ?_⟩
          · cases hc
            exact Nat.le_of_lt hlt
          · exact Nat.le_of_eq (congrArg key (List.mem_singleton.1 hi))
        · rw [if_neg hlt]
          refine ⟨.inl rfl, fun c hc => ?_, fun i hi _ => ?_⟩
          · cases hc
            exact Nat.le_refl _
          · rw [List.mem_singleton.1 hi]
            exact Nat.le_of_not_lt hlt
  · rw [if_neg ha]
    cases best with
    | none => exact ⟨rfl, fun i hi => by rw [List.mem_singleton.1 hi, Bool.eq_false_iff.2 ha]⟩
    | some b =>
        refine ⟨.inl rfl, fun c hc => ?_, fun i hi hp => ?_⟩
        · cases hc
          exact Nat.le_refl _
        · rw [List.mem_singleton.1 hi] at hp
          exact absurd hp ha

theorem BestOf.cons {p : ι → Bool} {key : ι → Nat} {best r r' : Option ι} {a : ι} {l : List ι}
    (h : BestOf p key best [a] r) (hl : BestOf p key r l r') : BestOf p key best (a :: l) r' := by
  cases r with
  | none =>
      obtain ⟨hbest, ha⟩ := h
      subst hbest
      have ha := ha a List.mem_cons_self
      cases r' with
      | none => exact ⟨rfl, List.forall_mem_cons.2 ⟨ha, hl.2⟩⟩
      | some b =>
          obtain ⟨hfrom, -, hall⟩ := hl
          refine ⟨?_, fun c hc => (nomatch hc), List.forall_mem_cons.2 ⟨fun h => ?_, hall⟩⟩
          · rcases hfrom with hnone | ⟨hmem, hb⟩
            · cases hnone
            · exact .inr ⟨List.mem_cons_of_mem a hmem, hb⟩
          · rw [ha] at h
            cases h
  | some c =>
      obtain ⟨hfromc, hbest, ha⟩ := h
      have ha := ha a List.mem_cons_self
      cases r' with
      | none => exact nomatch hl.1
      | some b =>
          obtain ⟨hfrom, hkeep, hall⟩ := hl
          have hcb := hkeep c rfl
          refine ⟨?_, fun c' hc' => Nat.le_trans (hbest c' hc') hcb,
            List.forall_mem_cons.2 ⟨fun hp => Nat.le_trans (ha hp) hcb, hall⟩⟩
          rcases hfrom with heq | ⟨hmem, hb⟩
          · cases heq
            rcases hfromc with heq | ⟨hmem, hp⟩
            · exact .inl heq
            · rw [List.mem_singleton.1 hmem] at hp ⊢
              exact .inr ⟨List.mem_cons_self, hp⟩
          · exact .inr ⟨List.mem_cons_of_mem a hmem, hb⟩

theorem foldl_better (p : ι → Bool) (key : ι → Nat) (best : Option ι) (l : List ι) :
    BestOf p key best l (l.foldl (better p key) best) := by
  induction l generalizing best with
  | nil =>
      cases best with
      | none => exact ⟨rfl, fun i hi => (nomatch hi)⟩
      | some b =>
          refine ⟨.inl rfl, fun c hc => ?_, fun i hi => (nomatch hi)⟩
          cases hc
          exact Nat.le_refl _
  | cons a l ih =>
      rw [List.foldl_cons]
      exact (bestOf_better p key best a).cons (ih _)

theorem largest_none {p : ι → Bool} {key : ι → Nat} {l : List ι} (h : largest p key l = none) :
    ∀ i ∈ l, p i = false := by
  have := foldl_better p key none l
  unfold largest at h
  rw [h] at this
  exact this.2

theorem largest_some {p : ι → Bool} {key : ι → Nat} {l : List ι} {b : ι} (h : largest p key l = some b) :
    b ∈ l ∧ p b = true ∧ ∀ i ∈ l, p i = true → key i ≤ key b := by
  have := foldl_better p key none l
  unfold largest at h
  rw [h] at this
  obtain ⟨hfrom, -, hall⟩ := this
  rcases hfrom with hnone | ⟨hmem, hb⟩
  · cases hnone
  · exact ⟨hmem, hb, hall⟩

/-! ## The loop -/

/-- Act on what is found until `stop` holds or nothing is found; the fuel bounds the number of turns. -/
def drain (stop : σ → Bool) (find : σ → Option ι) (act : ι → σ → σ) : Nat → σ → Option σ
  | 0, _ => none
  | fuel + 1, s =>
    if stop s then some s
    else
      match find s with
      | none => some s
      | some i => drain stop find act fuel (act i s)

/-- With an invariant, and a count of what is left that each turn lowers, the loop ends. -/
theorem drain_spec {stop : σ → Bool} {find : σ → Option ι} {act : ι → σ → σ} (inv : σ → Prop)
    (left : σ → Nat)
    (hact : ∀ s i, inv s → stop s = false → find s = some i → inv (act i s) ∧ left (act i s) < left s)
    (fuel : Nat) {s : σ} (hs : inv s) (hfuel : left s < fuel) :
    ∃ s', drain stop find act fuel s = some s' ∧ inv s' ∧ (stop s' = true ∨ find s' = none) := by
  induction fuel generalizing s with
  | zero => exact absurd hfuel (Nat.not_lt_zero _)
  | succ fuel ih =>
      unfold drain
      by_cases hstop : stop s = true
      · rw [if_pos hstop]
        exact ⟨s, rfl, hs, .inl hstop⟩
      · rw [if_neg hstop]
        cases hfind : find s with
        | none => exact ⟨s, rfl, hs, .inr hfind⟩
        | some i =>
            obtain ⟨hinv, hless⟩ := hact s i hs (Bool.eq_false_iff.2 hstop) hfind
            exact ih hinv (Nat.lt_of_lt_of_le hless (Nat.lt_succ_iff.1 hfuel))

/-- What may be taken gets fewer when an element is taken and no other becomes free. -/
theorem countP_lt {p q : ι → Bool} {l : List ι} {b : ι} (hb : b ∈ l) (hp : p b = true) (hq : q b = false)
    (hle : ∀ i ∈ l, q i = true → p i = true) : l.countP q < l.countP p := by
  induction l with
  | nil => cases hb
  | cons a l ih =>
      have hmono : l.countP q ≤ l.countP p :=
        List.countP_mono_left fun i hi => hle i (List.mem_cons_of_mem a hi)
      rw [List.countP_cons, List.countP_cons]
      rcases List.mem_cons.1 hb with rfl | hb
      · rw [hp, hq]
        exact Nat.lt_succ_of_le hmono
      · have hlt := ih hb fun i hi => hle i (List.mem_cons_of_mem a hi)
        have ha := hle a List.mem_cons_self
        split
        · rename_i hqa
          rw [if_pos (ha hqa)]
          exact Nat.succ_lt_succ hlt
        · exact Nat.lt_of_lt_of_le hlt (Nat.le_add_right _ _)

end Greedy
