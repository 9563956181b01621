-- SUMMARY: Dictionaries: association lists with their values, and updates of the values in place.
import Mathlib.Data.List.AList

/-!
# Dictionaries

Hash maps that a program iterates over are association lists with distinct keys. The lemmas say
which values are stored after an update in place and after the removal of entries.
-/

variable {κ α β : Type*}

/-- A finite map that can be iterated over. -/
abbrev Dict (κ α : Type*) := AList fun _ : κ => α

namespace Dict

def values (d : Dict κ α) : List α :=
  d.entries.map Sigma.snd

/-- Apply `f` to the value of every key. -/
def mapValues (f : κ → α → β) (d : Dict κ α) : Dict κ β :=
  ⟨d.entries.map fun e => ⟨e.1, f e.1 e.2⟩, by
    have h := d.nodupKeys
    simp only [List.NodupKeys, List.keys, List.map_map] at h ⊢
    exact h⟩

theorem mapValues_mapValues {γ : Type*} (f : κ → α → β) (g : κ → β → γ) (d : Dict κ α) :
    (d.mapValues f).mapValues g = d.mapValues fun k a => g k (f k a) := by
  apply AList.ext
  simp [mapValues, Function.comp_def]

theorem mapValues_eq_self {f : κ → α → α} {d : Dict κ α}
    (h : ∀ e ∈ d.entries, f e.1 e.2 = e.2) : d.mapValues f = d := by
  apply AList.ext
  refine (List.map_congr_left fun e he => ?_).trans (List.map_id d.entries)
  rw [h e he]
  rfl

/-- Keep the entries that `p` holds of (`retain`). -/
def retain (p : κ → α → Bool) (d : Dict κ α) : Dict κ α :=
  ⟨d.entries.filter fun e => p e.1 e.2, by
    have h := d.nodupKeys
    exact h.sublist List.filter_sublist⟩

section Lookup

variable [DecidableEq κ]

/-- Apply `f` to the value of `k`, if there is one (`get_mut`). -/
def update (k : κ) (f : α → α) (d : Dict κ α) : Dict κ α :=
  d.mapValues fun k' a => if k' = k then f a else a

@[simp]
theorem lookup_mapValues (f : κ → α → β) (d : Dict κ α) (k : κ) :
    (d.mapValues f).lookup k = (d.lookup k).map (f k) :=
  List.dlookup_map₂ k

@[simp]
theorem lookup_update (k : κ) (f : α → α) (d : Dict κ α) :
    (d.update k f).lookup k = (d.lookup k).map f := by
  simp [update]

theorem lookup_update_ne {k k' : κ} (h : k' ≠ k) (f : α → α) (d : Dict κ α) :
    (d.update k f).lookup k' = d.lookup k' := by
  simp [update, h]

theorem update_update (k : κ) (f g : α → α) (d : Dict κ α) :
    (d.update k f).update k g = d.update k (g ∘ f) := by
  apply AList.ext
  simp only [update, mapValues, List.map_map]
  congr 1
  funext e
  by_cases he : e.1 = k <;> simp [he]

theorem update_id (k : κ) (d : Dict κ α) : d.update k (fun a => a) = d := by
  apply AList.ext
  simp [update, mapValues]

theorem mem_values {d : Dict κ α} {a : α} : a ∈ d.values ↔ ∃ k, d.lookup k = some a := by
  simp only [values, List.mem_map, ← Option.mem_def, AList.mem_lookup_iff]
  constructor
  · rintro ⟨⟨k, a⟩, he, rfl⟩
    exact ⟨k, he⟩
  · rintro ⟨k, hk⟩
    exact ⟨⟨k, a⟩, hk, rfl⟩

theorem mem_values_update {k : κ} {f : α → α} {d : Dict κ α} {a : α}
    (h : a ∈ (d.update k f).values) : (∃ b, d.lookup k = some b ∧ a = f b) ∨ a ∈ d.values := by
  obtain ⟨k', hk'⟩ := mem_values.1 h
  by_cases hk : k' = k
  · subst hk
    rw [lookup_update] at hk'
    obtain ⟨b, hb, rfl⟩ := Option.map_eq_some_iff.1 hk'
    exact .inl ⟨b, hb, rfl⟩
  · rw [lookup_update_ne hk] at hk'
    exact .inr (mem_values.2 ⟨k', hk'⟩)

theorem mem_values_insert {k : κ} {b : α} {d : Dict κ α} {a : α}
    (h : a ∈ values (d.insert k b)) : a = b ∨ a ∈ d.values := by
  obtain ⟨k', hk'⟩ := mem_values.1 h
  by_cases hk : k' = k
  · subst hk
    rw [AList.lookup_insert] at hk'
    exact .inl (Option.some.inj hk').symm
  · rw [AList.lookup_insert_ne hk] at hk'
    exact .inr (mem_values.2 ⟨k', hk'⟩)

theorem mem_values_erase {k : κ} {d : Dict κ α} {a : α}
    (h : a ∈ values (d.erase k)) : a ∈ d.values := by
  obtain ⟨k', hk'⟩ := mem_values.1 h
  by_cases hk : k' = k
  · subst hk
    rw [AList.lookup_erase] at hk'
    cases hk'
  · rw [AList.lookup_erase_ne hk] at hk'
    exact mem_values.2 ⟨k', hk'⟩

theorem lookup_retain {p : κ → α → Bool} {d : Dict κ α} {k : κ} {a : α} :
    (d.retain p).lookup k = some a ↔ d.lookup k = some a ∧ p k a := by
  simp only [← Option.mem_def, AList.mem_lookup_iff, retain, List.mem_filter]

/-- An entry splits the others into those before and those behind it. -/
theorem exists_split {d : Dict κ α} {k : κ} {a : α} (h : d.lookup k = some a) :
    ∃ l₁ l₂, d.entries = l₁ ++ ⟨k, a⟩ :: l₂ ∧ (∀ e ∈ l₁, e.1 ≠ k) ∧ (∀ e ∈ l₂, e.1 ≠ k) := by
  have hmem : (⟨k, a⟩ : Sigma fun _ : κ => α) ∈ d.entries := AList.mem_lookup_iff.1 h
  obtain ⟨l₁, l₂, hsplit⟩ := List.append_of_mem hmem
  have hnodup := d.nodupKeys
  rw [hsplit, List.NodupKeys, List.keys, List.map_append, List.map_cons] at hnodup
  obtain ⟨-, htail, hdisj⟩ := List.nodup_append.1 hnodup
  refine ⟨l₁, l₂, hsplit, fun e he hek => ?_, fun e he hek => ?_⟩
  · exact hdisj e.1 (List.mem_map_of_mem he) k List.mem_cons_self hek
  · exact (List.nodup_cons.1 htail).1 (List.mem_map.2 ⟨e, he, hek⟩)

theorem entries_erase {d : Dict κ α} {k : κ} {a : α} {l₁ l₂ : List (Sigma fun _ : κ => α)}
    (hd : d.entries = l₁ ++ ⟨k, a⟩ :: l₂) (h : ∀ e ∈ l₁, e.1 ≠ k) :
    (d.erase k).entries = l₁ ++ l₂ := by
  have hkeys : k ∉ l₁.keys := by
    intro hk
    obtain ⟨e, he, rfl⟩ := List.mem_map.1 hk
    exact h e he rfl
  change List.kerase k d.entries = _
  rw [hd, List.kerase_append_right hkeys]
  exact congrArg (l₁ ++ ·) (List.kerase_cons_eq (s := (⟨k, a⟩ : Sigma fun _ : κ => α)) rfl)

theorem entries_update {d : Dict κ α} {k : κ} {a : α} {l₁ l₂ : List (Sigma fun _ : κ => α)}
    (hd : d.entries = l₁ ++ ⟨k, a⟩ :: l₂) (h₁ : ∀ e ∈ l₁, e.1 ≠ k) (h₂ : ∀ e ∈ l₂, e.1 ≠ k)
    (f : α → α) : (d.update k f).entries = l₁ ++ ⟨k, f a⟩ :: l₂ := by
  have hkeep : ∀ l : List (Sigma fun _ : κ => α), (∀ e ∈ l, e.1 ≠ k) →
      l.map (fun e => (⟨e.1, if e.1 = k then f e.2 else e.2⟩ : Sigma fun _ : κ => α)) = l := by
    intro l hl
    refine (List.map_congr_left fun e he => ?_).trans (List.map_id l)
    rw [if_neg (hl e he)]
    rfl
  simp only [update, mapValues, hd, List.map_append, List.map_cons, hkeep l₁ h₁, hkeep l₂ h₂,
    if_true]

end Lookup

end Dict
