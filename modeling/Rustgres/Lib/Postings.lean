-- SUMMARY: An index from keys to lists of ids, exact for a set of items.
import Mathlib.Data.List.Nodup
import Mathlib.Logic.Function.Basic
import Rustgres.Lib.ListOps

/-!
# Postings

An index keeps the ids of the items with each key. It is exact if every item stands once under its key, and nothing else
does. Entering an item and taking one out keep it so.
-/

namespace Postings

variable {Id Val Key : Type}

/-- The ids under a key are those of the items with this key, each once. -/
structure Exact (keyOf : Val → Key) (items : Id → Val → Prop) (tree : Key → List Id) : Prop where
  nodup : ∀ key, (tree key).Nodup
  mem : ∀ key id, id ∈ tree key ↔ ∃ v, items id v ∧ keyOf v = key

variable {keyOf : Val → Key} {items items' : Id → Val → Prop} {tree : Key → List Id}

theorem Exact.congr (h : Exact keyOf items tree) (hitems : ∀ id v, items' id v ↔ items id v) :
    Exact keyOf items' tree where
  nodup := h.nodup
  mem key id := by
    rw [h.mem]
    exact exists_congr fun v => and_congr_left fun _ => (hitems id v).symm

theorem exact_empty (h : ∀ id v, ¬items id v) : Exact keyOf items fun _ => [] where
  nodup _ := List.nodup_nil
  mem _ id := ⟨fun hmem => absurd hmem List.not_mem_nil, fun ⟨v, hv, _⟩ => absurd hv (h id v)⟩

section

variable [DecidableEq Key]

/-- A new item is entered under its key. -/
theorem Exact.insert (h : Exact keyOf items tree) {id : Id} {v : Val} (hfresh : ∀ w, ¬items id w) :
    Exact keyOf (fun i w => items i w ∨ i = id ∧ w = v)
      (Function.update tree (keyOf v) (tree (keyOf v) ++ [id])) := by
  have hnone : ∀ key, id ∉ tree key := fun key hmem => by
    obtain ⟨w, hw, -⟩ := (h.mem key id).1 hmem
    exact hfresh w hw
  constructor
  · intro key
    by_cases hkey : key = keyOf v
    · rw [hkey, Function.update_self, List.nodup_append]
      refine ⟨h.nodup _, List.nodup_singleton id, fun a ha b hb hab => ?_⟩
      rw [List.mem_singleton.1 hb] at hab
      exact hnone _ (hab ▸ ha)
    · rw [Function.update_of_ne hkey]
      exact h.nodup key
  · intro key i
    by_cases hkey : key = keyOf v
    · rw [hkey, Function.update_self, List.mem_append, h.mem, List.mem_singleton]
      constructor
      · rintro (⟨w, hw, hwkey⟩ | rfl)
        · exact ⟨w, .inl hw, hwkey⟩
        · exact ⟨v, .inr ⟨rfl, rfl⟩, rfl⟩
      · rintro ⟨w, hw | ⟨rfl, -⟩, hwkey⟩
        · exact .inl ⟨w, hw, hwkey⟩
        · exact .inr rfl
    · rw [Function.update_of_ne hkey, h.mem]
      constructor
      · rintro ⟨w, hw, hwkey⟩
        exact ⟨w, .inl hw, hwkey⟩
      · rintro ⟨w, hw | ⟨-, rfl⟩, hwkey⟩
        · exact ⟨w, hw, hwkey⟩
        · exact absurd hwkey.symm hkey

end

section

theorem mem_swapRemove {l : List Id} {pos : Nat} {a : Id} (hpos : pos < l.length) (hnodup : l.Nodup) :
    a ∈ swapRemove l pos ↔ a ∈ l ∧ l[pos]? ≠ some a := by
  have hlast : l.getLast? = l[l.length - 1]? := List.getLast?_eq_getElem?
  have hget := getElem?_swapRemove hpos
  constructor
  · intro hmem
    obtain ⟨i, hi⟩ := List.mem_iff_getElem?.1 hmem
    rw [hget] at hi
    split at hi
    · rename_i hlt
      split at hi
      · rename_i heq
        rw [hlast] at hi
        refine ⟨List.mem_of_getElem? hi, fun hsame => ?_⟩
        have := (List.getElem?_inj (by omega) hnodup).1 (hi.trans hsame.symm)
        omega
      · rename_i hne
        refine ⟨List.mem_of_getElem? hi, fun hsame => hne ?_⟩
        exact (List.getElem?_inj (by omega) hnodup).1 (hi.trans hsame.symm)
    · cases hi
  · rintro ⟨hmem, hne⟩
    obtain ⟨i, hi⟩ := List.mem_iff_getElem?.1 hmem
    have hlt : i < l.length := (List.getElem?_eq_some_iff.1 hi).1
    have hipos : i ≠ pos := fun h => hne (h ▸ hi)
    rw [List.mem_iff_getElem?]
    by_cases hend : i + 1 < l.length
    · refine ⟨i, ?_⟩
      rw [hget, if_pos hend, if_neg hipos]
      exact hi
    · refine ⟨pos, ?_⟩
      rw [hget, if_pos (by omega), if_pos rfl, hlast]
      have hlen : l.length - 1 = i := by omega
      rw [hlen]
      exact hi

theorem nodup_swapRemove {l : List Id} {pos : Nat} (hpos : pos < l.length) (hnodup : l.Nodup) :
    (swapRemove l pos).Nodup := by
  have hget := getElem?_swapRemove hpos
  have hlast : l.getLast? = l[l.length - 1]? := List.getLast?_eq_getElem?
  rw [List.nodup_iff_getElem?_ne_getElem?]
  intro i j hij hj heq
  rw [hget, hget] at heq
  have hlen : (swapRemove l pos).length ≤ l.length - 1 := by
    by_contra hlong
    have hsome := List.getElem?_eq_getElem (show l.length - 1 < (swapRemove l pos).length by omega)
    rw [hget, if_neg (by omega)] at hsome
    cases hsome
  have hi : i + 1 < l.length := by omega
  have hj' : j + 1 < l.length := by omega
  rw [if_pos hi, if_pos hj', hlast] at heq
  by_cases hipos : i = pos
  · rw [if_pos hipos, if_neg (by omega)] at heq
    have := (List.getElem?_inj (by omega) hnodup).1 heq
    omega
  · rw [if_neg hipos] at heq
    split at heq
    · have := (List.getElem?_inj (by omega) hnodup).1 heq
      omega
    · have := (List.getElem?_inj (by omega) hnodup).1 heq
      omega

variable [DecidableEq Id]

theorem mem_swapRemoveFirst {l : List Id} {a b : Id} (hnodup : l.Nodup) :
    b ∈ swapRemoveFirst (fun i => i = a) l ↔ b ∈ l ∧ b ≠ a := by
  unfold swapRemoveFirst
  cases hfind : l.findIdx? fun i => decide (i = a) with
  | none =>
      rw [List.findIdx?_eq_none_iff] at hfind
      refine ⟨fun hb => ⟨hb, fun heq => ?_⟩, And.left⟩
      exact absurd (hfind b hb) (by simp [heq])
  | some pos =>
      obtain ⟨hpos, ha, -⟩ := List.findIdx?_eq_some_iff_getElem.1 hfind
      have hget : l[pos]? = some a := by
        rw [List.getElem?_eq_getElem hpos, of_decide_eq_true ha]
      show b ∈ swapRemove l pos ↔ _
      rw [mem_swapRemove hpos hnodup, hget, ne_eq, Option.some.injEq, eq_comm]

theorem nodup_swapRemoveFirst {l : List Id} {a : Id} (hnodup : l.Nodup) :
    (swapRemoveFirst (fun i => i = a) l).Nodup := by
  unfold swapRemoveFirst
  cases hfind : l.findIdx? fun i => decide (i = a) with
  | none => exact hnodup
  | some pos =>
      obtain ⟨hpos, -⟩ := List.findIdx?_eq_some_iff_getElem.1 hfind
      exact nodup_swapRemove hpos hnodup

variable [DecidableEq Key]

/-- An item that goes is taken out under its key. -/
theorem Exact.remove (h : Exact keyOf items tree) {id : Id} {v : Val} (honly : ∀ w, items id w → w = v) :
    Exact keyOf (fun i w => items i w ∧ i ≠ id)
      (Function.update tree (keyOf v) (swapRemoveFirst (fun i => i = id) (tree (keyOf v)))) := by
  constructor
  · intro key
    by_cases hkey : key = keyOf v
    · rw [hkey, Function.update_self]
      exact nodup_swapRemoveFirst (h.nodup _)
    · rw [Function.update_of_ne hkey]
      exact h.nodup key
  · intro key i
    by_cases hkey : key = keyOf v
    · rw [hkey, Function.update_self, mem_swapRemoveFirst (h.nodup _), h.mem]
      constructor
      · rintro ⟨⟨w, hw, hwkey⟩, hne⟩
        exact ⟨w, ⟨hw, hne⟩, hwkey⟩
      · rintro ⟨w, ⟨hw, hne⟩, hwkey⟩
        exact ⟨⟨w, hw, hwkey⟩, hne⟩
    · rw [Function.update_of_ne hkey, h.mem]
      constructor
      · rintro ⟨w, hw, hwkey⟩
        refine ⟨w, ⟨hw, fun heq => hkey ?_⟩, hwkey⟩
        rw [← hwkey, honly w (heq ▸ hw)]
      · rintro ⟨w, ⟨hw, -⟩, hwkey⟩
        exact ⟨w, hw, hwkey⟩

end

end Postings
