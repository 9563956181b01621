-- SUMMARY: Cuts of a linear order, just below and just above its elements, and what elements tell of spans of cuts.
import Mathlib.Data.Prod.Lex
import Mathlib.Order.WithBot
import Mathlib.Order.Interval.Finset.Basic
import Mathlib.Data.Finset.Max
import Rustgres.Lib.Spans

/-!
# Cuts

An interval of a linear order, with or without its ends or without bounds, is the elements between two cuts. Cuts
are a linear order again, in which every interval is half-open. Two spans of cuts may have the same elements; not
so if an element lies between any two different ends.
-/

namespace Cuts

open Spans (cover)

variable {α : Type*} [LinearOrder α]

/-- Below all, above all, or just below or just above an element. -/
abbrev Cut (α : Type*) := WithBot (WithTop (Lex (α × Bool)))

/-- Just below or just above an element. -/
def beside (x : α) (b : Bool) : Cut α := ((toLex (x, b) : Lex (α × Bool)) : WithTop (Lex (α × Bool)))

def below (x : α) : Cut α := beside x false

def above (x : α) : Cut α := beside x true

theorem beside_le {x y : α} {b c : Bool} : beside x b ≤ beside y c ↔ x < y ∨ x = y ∧ b ≤ c := by
  unfold beside
  rw [WithBot.coe_le_coe, WithTop.coe_le_coe, Prod.Lex.toLex_le_toLex]

theorem beside_lt {x y : α} {b c : Bool} : beside x b < beside y c ↔ x < y ∨ x = y ∧ b < c := by
  unfold beside
  rw [WithBot.coe_lt_coe, WithTop.coe_lt_coe, Prod.Lex.toLex_lt_toLex]

omit [LinearOrder α] in
theorem beside_inj {x y : α} {b c : Bool} : beside x b = beside y c ↔ x = y ∧ b = c := by
  unfold beside
  rw [WithBot.coe_inj, WithTop.coe_inj, toLex_inj, Prod.mk_inj]

theorem bot_lt_beside (x : α) (b : Bool) : (⊥ : Cut α) < beside x b := WithBot.bot_lt_coe _

theorem beside_lt_top (x : α) (b : Bool) : beside x b < (⊤ : Cut α) :=
  WithBot.coe_lt_coe.2 (WithTop.coe_lt_top _)

omit [LinearOrder α] in
/-- Each cut is one of these. -/
theorem cut_cases (c : Cut α) : c = ⊥ ∨ c = ⊤ ∨ ∃ x b, c = beside x b := by
  induction c using WithBot.recBotCoe with
  | bot => exact .inl rfl
  | coe c =>
      induction c using WithTop.recTopCoe with
      | top => exact .inr (.inl rfl)
      | coe p => exact .inr (.inr ⟨(ofLex p).1, (ofLex p).2, rfl⟩)

/-- Between the two cuts at an element there is no other. -/
theorem lt_above {c : Cut α} {x : α} : c < above x ↔ c ≤ below x := by
  unfold above below
  rcases cut_cases c with rfl | rfl | ⟨y, b, rfl⟩
  · exact ⟨fun _ => bot_le, fun _ => bot_lt_beside x true⟩
  · exact ⟨fun h => absurd h (beside_lt_top x true).not_gt, fun h => absurd h (beside_lt_top x false).not_ge⟩
  · rw [beside_le, beside_lt]
    cases b <;> simp

theorem above_le {c : Cut α} {x : α} : above x ≤ c ↔ below x < c := by
  rw [← not_lt, lt_above, not_le]

theorem below_le_below {x y : α} : below x ≤ below y ↔ x ≤ y := by
  unfold below
  rw [beside_le, @le_iff_lt_or_eq α _ x y]
  exact or_congr_right (and_iff_left (le_refl false))

theorem below_lt_below {x y : α} : below x < below y ↔ x < y := by
  rw [← not_le, below_le_below, not_le]

/-! ## Elements of spans -/

/-- The elements whose lower cut lies in a set of cuts. -/
def elements (s : Set (Cut α)) : Set α := {x | below x ∈ s}

/-- Between any two different cuts of the set lies an element. -/
def Separated (s : Set (Cut α)) : Prop := ∀ c ∈ s, ∀ d ∈ s, c < d → ∃ x, c ≤ below x ∧ below x < d

theorem Separated.mono {s t : Set (Cut α)} (h : Separated t) (hst : s ⊆ t) : Separated s :=
  fun c hc d hd => h c (hst hc) d (hst hd)

/-- In a dense order without a first or a last element, all cuts are separated. -/
theorem separated_of_dense [Nonempty α] [DenselyOrdered α] [NoMinOrder α] [NoMaxOrder α]
    (s : Set (Cut α)) : Separated s := by
  rintro c - d - hcd
  rcases cut_cases c with rfl | rfl | ⟨x, b, rfl⟩
  · rcases cut_cases d with rfl | rfl | ⟨y, b', rfl⟩
    · exact absurd hcd (lt_irrefl _)
    · obtain ⟨z⟩ := ‹Nonempty α›
      exact ⟨z, bot_le, beside_lt_top z false⟩
    · obtain ⟨z, hz⟩ := exists_lt y
      exact ⟨z, bot_le, beside_lt.2 (.inl hz)⟩
  · exact absurd hcd not_top_lt
  · rcases cut_cases d with rfl | rfl | ⟨y, b', rfl⟩
    · exact absurd hcd not_lt_bot
    · obtain ⟨z, hz⟩ := exists_gt x
      exact ⟨z, beside_le.2 (.inl hz), beside_lt_top z false⟩
    · rcases beside_lt.1 hcd with hxy | ⟨rfl, hbb⟩
      · obtain ⟨z, hxz, hzy⟩ := exists_between hxy
        exact ⟨z, beside_le.2 (.inl hxz), beside_lt.2 (.inl hzy)⟩
      · exact ⟨x, beside_le.2 (.inr ⟨rfl, (Bool.lt_iff.1 hbb).1.le⟩),
          beside_lt.2 (.inr ⟨rfl, lt_of_lt_of_eq (Bool.lt_iff.2 ⟨rfl, rfl⟩) (Bool.lt_iff.1 hbb).2.symm⟩)⟩

/-- Without a first element, cuts that are infinite or just below an element are separated. -/
theorem separated_of_below [Nonempty α] [NoMinOrder α] {s : Set (Cut α)}
    (h : ∀ c ∈ s, c = ⊥ ∨ c = ⊤ ∨ ∃ x, c = below x) : Separated s := by
  intro c hc d hd hcd
  rcases h c hc with rfl | rfl | ⟨x, rfl⟩
  · rcases h d hd with rfl | rfl | ⟨y, rfl⟩
    · exact absurd hcd (lt_irrefl _)
    · obtain ⟨z⟩ := ‹Nonempty α›
      exact ⟨z, bot_le, beside_lt_top z false⟩
    · obtain ⟨z, hz⟩ := exists_lt y
      exact ⟨z, bot_le, below_lt_below.2 hz⟩
  · exact absurd hcd not_top_lt
  · exact ⟨x, le_rfl, hcd⟩

/-- With an end on either side of a cut, some element is on the same side of every end. -/
theorem Separated.exists_beside {s : Finset (Cut α)} (h : Separated (s : Set (Cut α))) {c : Cut α}
    (hlo : ∃ a ∈ s, a ≤ c) (hhi : ∃ b ∈ s, c < b) : ∃ x, ∀ e ∈ s, e ≤ below x ↔ e ≤ c := by
  obtain ⟨a, ha, hac⟩ := hlo
  obtain ⟨b, hb, hcb⟩ := hhi
  -- The last end up to the cut, and the first behind it.
  obtain ⟨a', ha', hmax⟩ := (s.filter (· ≤ c)).exists_max_image id ⟨a, Finset.mem_filter.2 ⟨ha, hac⟩⟩
  obtain ⟨b', hb', hmin⟩ := (s.filter (c < ·)).exists_min_image id ⟨b, Finset.mem_filter.2 ⟨hb, hcb⟩⟩
  obtain ⟨ha's, ha'c⟩ := Finset.mem_filter.1 ha'
  obtain ⟨hb's, hb'c⟩ := Finset.mem_filter.1 hb'
  obtain ⟨x, hax, hxb⟩ := h a' ha's b' hb's (ha'c.trans_lt hb'c)
  refine ⟨x, fun e he => ⟨fun hex => ?_, fun hec => ?_⟩⟩
  · by_contra hce
    rw [not_le] at hce
    exact absurd (hex.trans_lt hxb) (hmin e (Finset.mem_filter.2 ⟨he, hce⟩)).not_gt
  · exact (hmax e (Finset.mem_filter.2 ⟨he, hec⟩)).trans hax

/-- All ends of the spans. -/
def ends (l : List (Cut α × Cut α)) : Finset (Cut α) := (l.map Prod.fst ++ l.map Prod.snd).toFinset

theorem fst_mem_ends {l : List (Cut α × Cut α)} {p : Cut α × Cut α} (h : p ∈ l) : p.1 ∈ ends l :=
  List.mem_toFinset.2 (List.mem_append_left _ (List.mem_map_of_mem h))

theorem snd_mem_ends {l : List (Cut α × Cut α)} {p : Cut α × Cut α} (h : p ∈ l) : p.2 ∈ ends l :=
  List.mem_toFinset.2 (List.mem_append_right _ (List.mem_map_of_mem h))

theorem ends_append (l l' : List (Cut α × Cut α)) : ends (l ++ l') = ends l ∪ ends l' := by
  ext e
  unfold ends
  rw [Finset.mem_union, List.mem_toFinset, List.mem_toFinset, List.mem_toFinset, List.map_append,
    List.map_append]
  simp only [List.mem_append]
  tauto

/-- Cuts on the same side of all ends are covered together. -/
theorem mem_cover_congr {l : List (Cut α × Cut α)} {s : Finset (Cut α)} (hl : ends l ⊆ s) {c d : Cut α}
    (h : ∀ e ∈ s, e ≤ d ↔ e ≤ c) : d ∈ cover l ↔ c ∈ cover l := by
  refine exists_congr fun p => and_congr_right fun hp => ?_
  rw [Set.mem_Ico, Set.mem_Ico, ← not_le, ← not_le, h p.1 (hl (fst_mem_ends hp)), h p.2 (hl (snd_mem_ends hp))]

/-- Some element stands for each covered cut. -/
theorem exists_element {l : List (Cut α × Cut α)} {s : Finset (Cut α)} (h : Separated (s : Set (Cut α)))
    (hl : ends l ⊆ s) {c : Cut α} (hc : c ∈ cover l) : ∃ x, ∀ e ∈ s, e ≤ below x ↔ e ≤ c := by
  obtain ⟨p, hp, hpc, hcp⟩ := hc
  exact h.exists_beside ⟨p.1, hl (fst_mem_ends hp), hpc⟩ ⟨p.2, hl (snd_mem_ends hp), hcp⟩

/-- If the ends are separated, elements tell whether what one list covers is covered by another. -/
theorem elements_subset_iff {l l' : List (Cut α × Cut α)}
    (h : Separated (ends (l ++ l') : Set (Cut α))) :
    elements (cover l) ⊆ elements (cover l') ↔ cover l ⊆ cover l' := by
  constructor
  · intro hsub c hc
    have hl : ends l ⊆ ends (l ++ l') := by
      rw [ends_append]
      exact Finset.subset_union_left
    have hl' : ends l' ⊆ ends (l ++ l') := by
      rw [ends_append]
      exact Finset.subset_union_right
    obtain ⟨x, hx⟩ := exists_element h hl hc
    have hmem : x ∈ elements (cover l) := (mem_cover_congr hl hx).2 hc
    exact (mem_cover_congr hl' hx).1 (hsub hmem)
  · exact fun hsub x hx => hsub hx

/-- Whether two spans meet. -/
theorem elements_meet_iff {l l' : List (Cut α × Cut α)}
    (h : Separated (ends (l ++ l') : Set (Cut α))) :
    (elements (cover l) ∩ elements (cover l')).Nonempty ↔ (cover l ∩ cover l').Nonempty := by
  constructor
  · rintro ⟨x, hx, hx'⟩
    exact ⟨below x, hx, hx'⟩
  · rintro ⟨c, hc, hc'⟩
    have hl : ends l ⊆ ends (l ++ l') := by
      rw [ends_append]
      exact Finset.subset_union_left
    have hl' : ends l' ⊆ ends (l ++ l') := by
      rw [ends_append]
      exact Finset.subset_union_right
    obtain ⟨x, hx⟩ := exists_element h hl hc
    exact ⟨x, (mem_cover_congr hl hx).2 hc, (mem_cover_congr hl' hx).2 hc'⟩

/-! ## Two spans -/

section two

variable {p q : Cut α × Cut α}

/-- Between any two different ends of the two spans lies an element. -/
def SeparatedPair (p q : Cut α × Cut α) : Prop := Separated {p.1, p.2, q.1, q.2}

theorem SeparatedPair.symm (h : SeparatedPair p q) : SeparatedPair q p := by
  apply Separated.mono h
  rintro c (rfl | rfl | rfl | rfl) <;> simp

theorem SeparatedPair.first (h : SeparatedPair p q) (hp : p.1 < p.2) : ∃ x, below x ∈ Set.Ico p.1 p.2 :=
  h p.1 (by simp) p.2 (by simp) hp

theorem SeparatedPair.ends (h : SeparatedPair p q) : Separated (ends ([p] ++ [q]) : Set (Cut α)) := by
  apply Separated.mono h
  intro c hc
  simpa [Cuts.ends, or_comm, or_left_comm] using hc

/-- Strictly left: the one span ends before the other begins. -/
theorem elements_lt_iff (h : SeparatedPair p q) (hp : p.1 < p.2) (hq : q.1 < q.2) :
    (∀ x ∈ elements (Set.Ico p.1 p.2), ∀ y ∈ elements (Set.Ico q.1 q.2), x < y) ↔ p.2 ≤ q.1 := by
  constructor
  · intro hlt
    by_contra hnot
    rw [not_le] at hnot
    obtain ⟨x, hx, hxp⟩ : ∃ x, max p.1 q.1 ≤ below x ∧ below x < p.2 := by
      rcases max_choice p.1 q.1 with heq | heq <;> rw [heq]
      · exact h p.1 (by simp) p.2 (by simp) hp
      · exact h q.1 (by simp) p.2 (by simp) hnot
    rw [max_le_iff] at hx
    have hxmem : x ∈ elements (Set.Ico p.1 p.2) := ⟨hx.1, hxp⟩
    by_cases hxq : below x < q.2
    · exact lt_irrefl x (hlt x hxmem x ⟨hx.2, hxq⟩)
    · obtain ⟨y, hy⟩ := h.symm.first hq
      rw [not_lt] at hxq
      exact lt_asymm (hlt x hxmem y hy) (below_lt_below.1 (hy.2.trans_le hxq))
  · intro hle x hx y hy
    exact below_lt_below.1 ((hx.2.trans_le hle).trans_le hy.1)

/-- Not reaching further right. -/
theorem elements_overleft_iff (h : SeparatedPair p q) (hp : p.1 < p.2) (hq : q.1 < q.2) :
    (∀ x ∈ elements (Set.Ico p.1 p.2), ∃ y ∈ elements (Set.Ico q.1 q.2), x ≤ y) ↔ p.2 ≤ q.2 := by
  constructor
  · intro hle
    by_contra hnot
    rw [not_le] at hnot
    obtain ⟨x, hx, hxp⟩ : ∃ x, max p.1 q.2 ≤ below x ∧ below x < p.2 := by
      rcases max_choice p.1 q.2 with heq | heq <;> rw [heq]
      · exact h p.1 (by simp) p.2 (by simp) hp
      · exact h q.2 (by simp) p.2 (by simp) hnot
    rw [max_le_iff] at hx
    obtain ⟨y, hy, hxy⟩ := hle x ⟨hx.1, hxp⟩
    exact absurd hxy (below_lt_below.1 (hy.2.trans_le hx.2)).not_ge
  · intro hle x hx
    by_cases hxq : q.1 ≤ below x
    · exact ⟨x, ⟨hxq, hx.2.trans_le hle⟩, le_rfl⟩
    · obtain ⟨y, hy⟩ := h.symm.first hq
      rw [not_le] at hxq
      exact ⟨y, hy, (below_lt_below.1 (hxq.trans_le hy.1)).le⟩

/-- Not reaching further left. -/
theorem elements_overright_iff (h : SeparatedPair p q) (hp : p.1 < p.2) (hq : q.1 < q.2) :
    (∀ x ∈ elements (Set.Ico p.1 p.2), ∃ y ∈ elements (Set.Ico q.1 q.2), y ≤ x) ↔ q.1 ≤ p.1 := by
  constructor
  · intro hle
    by_contra hnot
    rw [not_le] at hnot
    obtain ⟨x, hpx, hx⟩ : ∃ x, p.1 ≤ below x ∧ below x < min p.2 q.1 := by
      rcases min_choice p.2 q.1 with heq | heq <;> rw [heq]
      · exact h p.1 (by simp) p.2 (by simp) hp
      · exact h p.1 (by simp) q.1 (by simp) hnot
    rw [lt_min_iff] at hx
    obtain ⟨y, hy, hyx⟩ := hle x ⟨hpx, hx.1⟩
    exact absurd hyx (below_lt_below.1 (hx.2.trans_le hy.1)).not_ge
  · intro hle x hx
    by_cases hxq : below x < q.2
    · exact ⟨x, ⟨hle.trans hx.1, hxq⟩, le_rfl⟩
    · obtain ⟨y, hy⟩ := h.symm.first hq
      rw [not_lt] at hxq
      exact ⟨y, hy, (below_lt_below.1 (hy.2.trans_le hxq)).le⟩

/-- One set lies wholly before another, and nothing between them. -/
def Follows (s t : Set α) : Prop :=
  (∀ x ∈ s, ∀ y ∈ t, x < y) ∧ ¬∃ z, (∀ x ∈ s, x < z) ∧ ∀ y ∈ t, z < y

/-- One span follows another without a gap if the one ends where the other begins. -/
theorem elements_follows_iff (h : SeparatedPair p q) (hp : p.1 < p.2) (hq : q.1 < q.2) :
    Follows (elements (Set.Ico p.1 p.2)) (elements (Set.Ico q.1 q.2)) ↔ p.2 = q.1 := by
  constructor
  · rintro ⟨hlt, hnone⟩
    apply le_antisymm ((elements_lt_iff h hp hq).1 hlt)
    by_contra hgap
    rw [not_le] at hgap
    obtain ⟨z, hpz, hzq⟩ := h p.2 (by simp) q.1 (by simp) hgap
    exact hnone ⟨z, fun x hx => below_lt_below.1 (hx.2.trans_le hpz),
      fun y hy => below_lt_below.1 (hzq.trans_le hy.1)⟩
  · intro heq
    refine ⟨(elements_lt_iff h hp hq).2 heq.le, ?_⟩
    rintro ⟨z, hz, hz'⟩
    rcases le_or_gt p.2 (below z) with hpz | hzp
    · rcases lt_or_ge (below z) q.2 with hzq | hqz
      · exact lt_irrefl z (hz' z ⟨heq ▸ hpz, hzq⟩)
      · obtain ⟨y, hy⟩ := h.symm.first hq
        exact lt_asymm (hz' y hy) (below_lt_below.1 (hy.2.trans_le hqz))
    · rcases le_or_gt p.1 (below z) with hpz | hzp'
      · exact lt_irrefl z (hz z ⟨hpz, hzp⟩)
      · obtain ⟨x, hx⟩ := h.first hp
        exact lt_asymm (hz x hx) (below_lt_below.1 (hzp'.trans_le hx.1))

/-- The elements of a span have no gap. -/
theorem elements_ordConnected (p : Cut α × Cut α) {x y z : α} (hx : x ∈ elements (Set.Ico p.1 p.2))
    (hz : z ∈ elements (Set.Ico p.1 p.2)) (hxy : x ≤ y) (hyz : y ≤ z) :
    y ∈ elements (Set.Ico p.1 p.2) :=
  ⟨hx.1.trans (below_le_below.2 hxy), (below_le_below.2 hyz).trans_lt hz.2⟩

end two

end Cuts
