-- SUMMARY: Worklists over a finite graph: a list that grows to what is reachable, and a stack that searches for a node.
import Mathlib.Data.List.Perm.Subperm
import Mathlib.Logic.Relation
import Mathlib.Tactic.Common

/-!
# Worklists

A graph gives each node a list of next nodes, with repetitions and cycles as they come. The list visits its own
elements in order and appends the new ones; the stack keeps apart what it has seen. Both end, and what they find is
what is reachable.
-/

namespace Worklist

variable {α : Type*}

def Reach (next : α → List α) : α → α → Prop := Relation.ReflTransGen fun a b => b ∈ next a

/-- What is reachable in a graph is reachable in one with more edges. -/
theorem Reach.mono {next next' : α → List α} (h : ∀ a, ∀ b ∈ next a, b ∈ next' a) {a b : α} (hab : Reach next a b) :
    Reach next' a b :=
  Relation.ReflTransGen.mono h a b hab

/-- A set with the root that the edges do not leave has all that is reachable. -/
theorem Reach.mem_of_closed {next : α → List α} {S : α → Prop} {root b : α} (hroot : S root)
    (hclosed : ∀ a, S a → ∀ b ∈ next a, S b) (h : Reach next root b) : S b := by
  induction h with
  | refl => exact hroot
  | tail _ hstep ih => exact hclosed _ ih _ hstep

/-! ## A list that grows -/

section Growing

variable [DecidableEq α]

/-- Append each element that is not there yet. -/
def addNew (out : List α) : List α → List α
  | [] => out
  | b :: bs => addNew (if b ∈ out then out else out ++ [b]) bs

theorem mem_addNew {out bs : List α} {a : α} : a ∈ addNew out bs ↔ a ∈ out ∨ a ∈ bs := by
  induction bs generalizing out with
  | nil => simp [addNew]
  | cons b bs ih =>
    rw [addNew, ih, List.mem_cons]
    split
    · rename_i hb
      constructor
      · rintro (h | h)
        · exact .inl h
        · exact .inr (.inr h)
      · rintro (h | rfl | h)
        · exact .inl h
        · exact .inl hb
        · exact .inr h
    · rw [List.mem_append, List.mem_singleton]
      tauto

theorem nodup_addNew {out bs : List α} (h : out.Nodup) : (addNew out bs).Nodup := by
  induction bs generalizing out with
  | nil => exact h
  | cons b bs ih =>
    rw [addNew]
    split
    · exact ih h
    · rename_i hb
      refine ih (List.nodup_append.2 ⟨h, List.nodup_cons.2 ⟨List.not_mem_nil, List.nodup_nil⟩, fun a ha c hc => ?_⟩)
      rintro rfl
      exact hb (List.mem_singleton.1 hc ▸ ha)

/-- Elements stay where they are. -/
theorem getElem?_addNew {out bs : List α} {j : Nat} (hj : j < out.length) : (addNew out bs)[j]? = out[j]? := by
  induction bs generalizing out with
  | nil => rfl
  | cons b bs ih =>
    rw [addNew]
    split
    · exact ih hj
    · rw [ih (by rw [List.length_append]; omega), List.getElem?_append_left hj]

/-- Visit the elements from the `i`-th on. -/
def closure (next : α → List α) : Nat → List α → Nat → Option (List α)
  | 0, out, i => if i < out.length then none else some out
  | fuel + 1, out, i =>
    match out[i]? with
    | none => some out
    | some a => closure next fuel (addNew out (next a)) (i + 1)

/-- The nodes reached from `root` so far, of which those before `i` are visited. -/
structure Growing (next : α → List α) (nodes : List α) (root : α) (out : List α) (i : Nat) : Prop where
  root_mem : root ∈ out
  reached : ∀ a ∈ out, Reach next root a
  visited : ∀ j a, j < i → out[j]? = some a → ∀ b ∈ next a, b ∈ out
  nodup : out.Nodup
  within : ∀ a ∈ out, a ∈ nodes

variable {next : α → List α} {nodes : List α} {root : α}

omit [DecidableEq α] in
theorem Growing.start (hroot : root ∈ nodes) : Growing next nodes root [root] 0 where
  root_mem := List.mem_singleton_self root
  reached := fun a ha => by
    rw [List.mem_singleton.1 ha]
    exact Relation.ReflTransGen.refl
  visited := fun j _ hj => absurd hj (Nat.not_lt_zero j)
  nodup := List.nodup_cons.2 ⟨List.not_mem_nil, List.nodup_nil⟩
  within := fun a ha => by rwa [List.mem_singleton.1 ha]

theorem Growing.step {out : List α} {i : Nat} (h : Growing next nodes root out i) (hnodes : ∀ a, ∀ b ∈ next a, b ∈ nodes)
    {a : α} (ha : out[i]? = some a) : Growing next nodes root (addNew out (next a)) (i + 1) where
  root_mem := mem_addNew.2 (.inl h.root_mem)
  reached := fun b hb => by
    rcases mem_addNew.1 hb with hb | hb
    · exact h.reached b hb
    · exact (h.reached a (List.mem_of_getElem? ha)).tail hb
  visited := fun j c hj hc b hb => by
    have hlt := (List.getElem?_eq_some_iff.1 ha).1
    rw [getElem?_addNew (by omega)] at hc
    rcases Nat.lt_succ_iff_lt_or_eq.1 hj with hj | rfl
    · exact mem_addNew.2 (.inl (h.visited j c hj hc b hb))
    · rw [ha] at hc
      cases hc
      exact mem_addNew.2 (.inr hb)
  nodup := nodup_addNew h.nodup
  within := fun b hb => by
    rcases mem_addNew.1 hb with hb | hb
    · exact h.within b hb
    · exact hnodes a b hb

omit [DecidableEq α] in
theorem Growing.length_le {out : List α} {i : Nat} (h : Growing next nodes root out i) : out.length ≤ nodes.length :=
  (h.nodup.subperm h.within).length_le

omit [DecidableEq α] in
/-- With all elements visited the list is what is reachable. -/
theorem Growing.mem_iff {out : List α} {i : Nat} (h : Growing next nodes root out i) (hend : out.length ≤ i) {a : α} :
    a ∈ out ↔ Reach next root a := by
  refine ⟨h.reached a, Reach.mem_of_closed h.root_mem ?_⟩
  intro b hb c hc
  obtain ⟨j, hj⟩ := List.mem_iff_getElem?.1 hb
  have hlt := (List.getElem?_eq_some_iff.1 hj).1
  exact h.visited j b (by omega) hj c hc

theorem closure_of_growing (hnodes : ∀ a, ∀ b ∈ next a, b ∈ nodes) {fuel : Nat} {out : List α} {i : Nat}
    (h : Growing next nodes root out i) (hfuel : nodes.length ≤ fuel + i) :
    ∃ out', closure next fuel out i = some out' ∧ out'.Nodup ∧ ∀ a, a ∈ out' ↔ Reach next root a := by
  induction fuel generalizing out i with
  | zero =>
    have hlen := h.length_le
    rw [closure, if_neg (by omega)]
    exact ⟨out, rfl, h.nodup, fun a => h.mem_iff (by omega)⟩
  | succ fuel ih =>
    rw [closure]
    cases ha : out[i]? with
    | none => exact ⟨out, rfl, h.nodup, fun a => h.mem_iff (List.getElem?_eq_none_iff.1 ha)⟩
    | some a => exact ih (h.step hnodes ha) (by omega)

/-- The list ends, and is what is reachable. -/
theorem closure_spec (hroot : root ∈ nodes) (hnodes : ∀ a, ∀ b ∈ next a, b ∈ nodes) :
    ∃ out, closure next nodes.length [root] 0 = some out ∧ out.Nodup ∧ ∀ a, a ∈ out ↔ Reach next root a :=
  closure_of_growing hnodes (Growing.start hroot) (Nat.le_refl _)

end Growing

/-! ## A stack -/

section Searching

variable {next : α → List α} {nodes : List α} {root target : α}

/-- What is on the stack is reached, and the edges from what is seen lead to the stack or to what is seen. -/
structure Searching (next : α → List α) (nodes : List α) (root target : α) (stack seen : List α) : Prop where
  root_mem : root ∈ stack ∨ root ∈ seen
  reached : ∀ a ∈ stack, Reach next root a
  closed : ∀ a ∈ seen, ∀ b ∈ next a, b ∈ stack ∨ b ∈ seen
  missing : target ∉ seen
  within : ∀ a ∈ stack, a ∈ nodes

theorem Searching.start (hroot : root ∈ nodes) : Searching next nodes root target [root] [] where
  root_mem := .inl (List.mem_singleton_self root)
  reached := fun a ha => by
    rw [List.mem_singleton.1 ha]
    exact Relation.ReflTransGen.refl
  closed := fun a ha => absurd ha List.not_mem_nil
  missing := List.not_mem_nil
  within := fun a ha => by rwa [List.mem_singleton.1 ha]

/-- An empty stack means that the target is not reachable. -/
theorem Searching.not_reach {seen : List α} (h : Searching next nodes root target [] seen) :
    ¬Reach next root target := by
  intro hreach
  refine h.missing (Reach.mem_of_closed (h.root_mem.resolve_left List.not_mem_nil) ?_ hreach)
  intro a ha b hb
  exact (h.closed a ha b hb).resolve_left List.not_mem_nil

/-- A node that was seen before is dropped. -/
theorem Searching.skip {cur : α} {stack seen : List α} (h : Searching next nodes root target (cur :: stack) seen)
    (hseen : cur ∈ seen) : Searching next nodes root target stack seen where
  root_mem := by
    rcases h.root_mem with hr | hr
    · rcases List.mem_cons.1 hr with rfl | hr
      · exact .inr hseen
      · exact .inl hr
    · exact .inr hr
  reached := fun a ha => h.reached a (List.mem_cons_of_mem cur ha)
  closed := fun a ha b hb => by
    rcases h.closed a ha b hb with hb | hb
    · rcases List.mem_cons.1 hb with rfl | hb
      · exact .inr hseen
      · exact .inl hb
    · exact .inr hb
  missing := h.missing
  within := fun a ha => h.within a (List.mem_cons_of_mem cur ha)

/-- A new node is replaced by the nodes next to it. -/
theorem Searching.expand {cur : α} {stack seen : List α} (h : Searching next nodes root target (cur :: stack) seen)
    (hnodes : ∀ a, ∀ b ∈ next a, b ∈ nodes) (hne : cur ≠ target) :
    Searching next nodes root target ((next cur).reverse ++ stack) (seen ++ [cur]) where
  root_mem := by
    rcases h.root_mem with hr | hr
    · rcases List.mem_cons.1 hr with rfl | hr
      · exact .inr (List.mem_append_right _ (List.mem_singleton_self _))
      · exact .inl (List.mem_append_right _ hr)
    · exact .inr (List.mem_append_left _ hr)
  reached := fun a ha => by
    rcases List.mem_append.1 ha with ha | ha
    · exact (h.reached cur List.mem_cons_self).tail (List.mem_reverse.1 ha)
    · exact h.reached a (List.mem_cons_of_mem cur ha)
  closed := fun a ha b hb => by
    rcases List.mem_append.1 ha with ha | ha
    · rcases h.closed a ha b hb with hb | hb
      · rcases List.mem_cons.1 hb with rfl | hb
        · exact .inr (List.mem_append_right _ (List.mem_singleton_self _))
        · exact .inl (List.mem_append_right _ hb)
      · exact .inr (List.mem_append_left _ hb)
    · rw [List.mem_singleton.1 ha] at hb
      exact .inl (List.mem_append_left _ (List.mem_reverse.2 hb))
  missing := fun ht => by
    rcases List.mem_append.1 ht with ht | ht
    · exact h.missing ht
    · exact hne (List.mem_singleton.1 ht).symm
  within := fun a ha => by
    rcases List.mem_append.1 ha with ha | ha
    · exact hnodes cur a (List.mem_reverse.1 ha)
    · exact h.within a (List.mem_cons_of_mem cur ha)

variable [DecidableEq α]

/-- Whether `target` is found from the nodes on the stack. -/
def search (next : α → List α) (target : α) : Nat → List α → List α → Option Bool
  | _, [], _ => some false
  | 0, _ :: _, _ => none
  | fuel + 1, cur :: stack, seen =>
    if cur = target then some true
    else if cur ∈ seen then search next target fuel stack seen
    else search next target fuel ((next cur).reverse ++ stack) (seen ++ [cur])

/-- The nodes that are not seen, each with its edges. -/
def unseen (next : α → List α) (seen : List α) : List α → Nat
  | [] => 0
  | a :: nodes => (if a ∈ seen then 0 else (next a).length + 1) + unseen next seen nodes

theorem unseen_le (seen nodes : List α) (a : α) : unseen next (seen ++ [a]) nodes ≤ unseen next seen nodes := by
  induction nodes with
  | nil => exact Nat.le_refl 0
  | cons b nodes ih =>
    unfold unseen
    by_cases hb : b ∈ seen
    · rw [if_pos hb, if_pos (List.mem_append_left _ hb)]
      omega
    · rw [if_neg hb]
      split
      · omega
      · omega

theorem unseen_append {seen nodes : List α} {a : α} (ha : a ∈ nodes) (hnew : a ∉ seen) :
    unseen next (seen ++ [a]) nodes + ((next a).length + 1) ≤ unseen next seen nodes := by
  induction nodes with
  | nil => cases ha
  | cons b nodes ih =>
    unfold unseen
    by_cases hb : b = a
    · subst hb
      have := @unseen_le _ next _ seen nodes b
      rw [if_neg hnew, if_pos (List.mem_append_right _ (List.mem_singleton_self b))]
      omega
    · have hrest := ih ((List.mem_cons.1 ha).resolve_left fun h => hb h.symm)
      have hsame : b ∈ seen ++ [a] ↔ b ∈ seen := by
        rw [List.mem_append, List.mem_singleton, or_iff_left hb]
      rw [if_congr hsame rfl rfl]
      omega

theorem search_of_searching (hnodes : ∀ a, ∀ b ∈ next a, b ∈ nodes) {fuel : Nat} {stack seen : List α}
    (h : Searching next nodes root target stack seen) (hfuel : stack.length + unseen next seen nodes ≤ fuel) :
    ∃ found, search next target fuel stack seen = some found ∧ (found = true ↔ Reach next root target) := by
  induction fuel generalizing stack seen with
  | zero =>
    cases stack with
    | nil => exact ⟨false, rfl, by simpa using h.not_reach⟩
    | cons cur stack =>
      rw [List.length_cons] at hfuel
      omega
  | succ fuel ih =>
    cases stack with
    | nil => exact ⟨false, rfl, by simpa using h.not_reach⟩
    | cons cur stack =>
      rw [List.length_cons] at hfuel
      rw [search]
      split
      · rename_i heq
        exact ⟨true, rfl, by simpa using heq ▸ h.reached cur List.mem_cons_self⟩
      · rename_i hne
        split
        · rename_i hseen
          exact ih (h.skip hseen) (by omega)
        · rename_i hnew
          have hless := @unseen_append _ next _ _ _ _ (h.within cur List.mem_cons_self) hnew
          refine ih (h.expand hnodes hne) ?_
          rw [List.length_append, List.length_reverse]
          omega

/-- The search ends, and finds what is reachable. -/
theorem search_spec (hroot : root ∈ nodes) (hnodes : ∀ a, ∀ b ∈ next a, b ∈ nodes) (target : α) :
    ∃ found, search next target (1 + unseen next [] nodes) [root] [] = some found ∧
      (found = true ↔ Reach next root target) :=
  search_of_searching hnodes (Searching.start hroot) (Nat.le_refl _)

end Searching

end Worklist
