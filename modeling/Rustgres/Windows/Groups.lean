-- SUMMARY: The numbers of peer groups, and the first and last rows of a group.
import Mathlib.Data.List.Chain
import Rustgres.Windows.Frames

/-!
# Peer Groups

The numbers of the peer groups start at 0 and go up by one from group to group.
-/

namespace Windows

variable {E : Type} (K : KeyOps)

/-- The rows of a partition by the numbers of their groups. -/
structure Numbered (peerId : List Nat) : Prop where
  first : peerId.head?.getD 0 = 0
  steps : peerId.IsChain fun a b => b = a ∨ b = a + 1

theorem isChain_numberFrom (prev : List Encoding.Value) (p : Nat) (keys : List (List Encoding.Value)) :
    (p :: numberFrom K prev p keys).IsChain fun a b => b = a ∨ b = a + 1 := by
  induction keys generalizing prev p with
  | nil => exact .singleton p
  | cons key keys ih =>
    rw [numberFrom]
    refine .cons_cons ?_ (ih key _)
    split
    · exact .inl rfl
    · exact .inr rfl

theorem numbered_peerIds (spec : ExecWindow E) (input : WindowInput) (idxs : List Nat) :
    Numbered (peerIds K spec input idxs) := by
  unfold peerIds
  split
  · refine ⟨by cases idxs <;> rfl, ?_⟩
    rw [List.map_const']
    exact List.isChain_replicate_of_rel _ (.inl rfl)
  · cases (List.range idxs.length).map (keyAt input idxs) with
    | nil => exact ⟨rfl, .nil⟩
    | cons key keys => exact ⟨rfl, isChain_numberFrom K key 0 keys⟩

theorem length_numberFrom (prev : List Encoding.Value) (p : Nat) (keys : List (List Encoding.Value)) :
    (numberFrom K prev p keys).length = keys.length := by
  induction keys generalizing prev p with
  | nil => rfl
  | cons key keys ih => simp [numberFrom, ih]

@[simp] theorem length_peerIds (spec : ExecWindow E) (input : WindowInput) (idxs : List Nat) :
    (peerIds K spec input idxs).length = idxs.length := by
  unfold peerIds
  split
  · simp
  · cases h : (List.range idxs.length).map (keyAt input idxs) with
    | nil => simpa [numberGroups] using congrArg List.length h.symm
    | cons key keys =>
      have hlen := congrArg List.length h
      simp only [List.length_map, List.length_range, List.length_cons] at hlen
      rw [numberGroups, List.length_cons, length_numberFrom, hlen]

section

variable {peerId : List Nat}

theorem Numbered.pairwise (h : Numbered peerId) : peerId.Pairwise (· ≤ ·) := by
  have hchain : peerId.IsChain (· ≤ ·) := h.steps.imp fun a b hab => by omega
  exact hchain.pairwise

theorem Numbered.le (h : Numbered peerId) {p q g g' : Nat} (hpq : p ≤ q) (hp : peerId[p]? = some g)
    (hq : peerId[q]? = some g') : g ≤ g' := by
  obtain ⟨hplt, rfl⟩ := List.getElem?_eq_some_iff.1 hp
  obtain ⟨hqlt, rfl⟩ := List.getElem?_eq_some_iff.1 hq
  rcases Nat.eq_or_lt_of_le hpq with rfl | hlt
  · exact Nat.le_refl _
  · exact List.pairwise_iff_getElem.1 h.pairwise p q hplt hqlt hlt

/-- Every number up to one in use is in use before it. -/
theorem Numbered.exists_row (h : Numbered peerId) {q g : Nat} (hq : peerId[q]? = some g) :
    ∀ g' ≤ g, ∃ p ≤ q, peerId[p]? = some g' := by
  induction q generalizing g with
  | zero =>
    intro g' hg
    have hzero : g = 0 := by
      have hfirst := h.first
      rw [List.head?_eq_getElem?, hq] at hfirst
      exact hfirst
    exact ⟨0, Nat.le_refl 0, by rw [hq]; congr 1; omega⟩
  | succ q ih =>
    intro g' hg
    obtain ⟨hlt, hget⟩ := List.getElem?_eq_some_iff.1 hq
    have hprev : peerId[q]? = some peerId[q] := List.getElem?_eq_getElem (by omega)
    have hstep := List.isChain_iff_getElem.1 h.steps q hlt
    by_cases hle : g' ≤ peerId[q]
    · obtain ⟨p, hp, hpg⟩ := ih hprev g' hle
      exact ⟨p, by omega, hpg⟩
    · refine ⟨q + 1, Nat.le_refl _, ?_⟩
      rw [hq]
      congr 1
      omega

theorem getElem?_number {p : Nat} (hp : p < peerId.length) : peerId[p]? = some (peerId.getD p 0) := by
  rw [List.getD_eq_getElem?_getD, List.getElem?_eq_getElem hp]
  rfl

theorem Numbered.number_le (h : Numbered peerId) {p q : Nat} (hpq : p ≤ q) (hq : q < peerId.length) :
    peerId.getD p 0 ≤ peerId.getD q 0 :=
  h.le hpq (getElem?_number (Nat.lt_of_le_of_lt hpq hq)) (getElem?_number hq)

/-- The largest number is in use. -/
theorem max_number {p : Nat} (hp : p < peerId.length) :
    (∃ q : Nat, peerId[q]? = some (peerId.max?.getD 0)) ∧ peerId.getD p 0 ≤ peerId.max?.getD 0 := by
  cases hmax : peerId.max? with
  | none =>
    rw [List.max?_eq_none_iff.1 hmax] at hp
    exact absurd hp (Nat.not_lt_zero p)
  | some m =>
    have hm := List.max?_eq_some_iff.1 hmax
    exact ⟨List.mem_iff_getElem?.1 hm.1, hm.2 _ (List.mem_of_getElem? (getElem?_number hp))⟩

/-! ## First and last rows -/

theorem firstOf_spec {g p : Nat} (hp : peerId[p]? = some g) :
    peerId[firstOf peerId g]? = some g ∧ ∀ q, peerId[q]? = some g → firstOf peerId g ≤ q := by
  have hsome : (peerId.findIdx? (· = g)).isSome := by
    rw [List.findIdx?_isSome, List.any_eq_true]
    exact ⟨g, List.mem_of_getElem? hp, by simp⟩
  obtain ⟨i, hi⟩ := Option.isSome_iff_exists.1 hsome
  obtain ⟨hlt, hget, hbefore⟩ := List.findIdx?_eq_some_iff_getElem.1 hi
  have hfirst : firstOf peerId g = i := by rw [firstOf, hi]; rfl
  rw [hfirst]
  refine ⟨by rw [List.getElem?_eq_getElem hlt]; simpa using hget, fun q hq => ?_⟩
  by_contra hqi
  obtain ⟨hqlt, hqg⟩ := List.getElem?_eq_some_iff.1 hq
  have hne := hbefore q (by omega)
  simp [hqg] at hne

theorem lastOf_spec {g p : Nat} (hp : peerId[p]? = some g) :
    peerId[lastOf peerId g]? = some g ∧ ∀ q, peerId[q]? = some g → q ≤ lastOf peerId g := by
  have hplt := (List.getElem?_eq_some_iff.1 hp).1
  have hsome : ((List.range peerId.length).reverse.find? (peerId[·]? = some g)).isSome := by
    rw [List.find?_isSome]
    exact ⟨p, by simpa using hplt, by simpa using hp⟩
  obtain ⟨l, hl⟩ := Option.isSome_iff_exists.1 hsome
  obtain ⟨hget, i, hi, hil, hbefore⟩ := List.find?_eq_some_iff_getElem.1 hl
  have hlast : lastOf peerId g = l := by rw [lastOf, hl]; rfl
  rw [hlast]
  refine ⟨by simpa using hget, fun q hq => ?_⟩
  by_contra hlq
  obtain ⟨hqlt, -⟩ := List.getElem?_eq_some_iff.1 hq
  rw [List.getElem_reverse, List.getElem_range, List.length_range] at hil
  rw [List.length_reverse, List.length_range] at hi
  have hne := hbefore (peerId.length - 1 - q) (by omega)
  rw [List.getElem_reverse, List.getElem_range, List.length_range] at hne
  have hback : peerId.length - 1 - (peerId.length - 1 - q) = q := by omega
  simp [hback, hq] at hne

theorem Numbered.lastOf_le (h : Numbered peerId) {p q g g' : Nat} (hp : peerId[p]? = some g)
    (hq : peerId[q]? = some g') (hg : g ≤ g') : lastOf peerId g ≤ lastOf peerId g' := by
  by_contra hlt
  obtain ⟨hlast, hmax⟩ := lastOf_spec hp
  obtain ⟨hlast', hmax'⟩ := lastOf_spec hq
  have hback := h.le (Nat.le_of_lt (Nat.lt_of_not_le hlt)) hlast' hlast
  have heq : g = g' := Nat.le_antisymm hg hback
  exact hlt (heq ▸ Nat.le_refl _)

end

end Windows
