-- SUMMARY: Half-open spans of a linear order: lists of them with gaps between, and the pass that joins spans.
import Mathlib.Order.Bounds.Basic
import Mathlib.Order.MinMax
import Mathlib.Order.Interval.Set.LinearOrder
import Mathlib.Data.List.Basic

/-!
# Spans

A span `(a, b)` stands for `Set.Ico a b`. A list of spans that go up with a gap between each and the next is
determined by what it covers, and a span lies in what it covers only if it lies in one of its spans.
-/

namespace Spans

variable {β : Type*} [LinearOrder β]

/-- What lies in some span of the list. -/
def cover (l : List (β × β)) : Set β := {c | ∃ p ∈ l, c ∈ Set.Ico p.1 p.2}

theorem cover_nil : cover ([] : List (β × β)) = ∅ := by
  ext c
  exact ⟨fun ⟨_, hp, _⟩ => (nomatch hp), nofun⟩

theorem cover_cons (p : β × β) (l : List (β × β)) : cover (p :: l) = Set.Ico p.1 p.2 ∪ cover l := by
  ext c
  constructor
  · rintro ⟨q, hq, hc⟩
    rcases List.mem_cons.1 hq with rfl | hq
    · exact .inl hc
    · exact .inr ⟨q, hq, hc⟩
  · rintro (hc | ⟨q, hq, hc⟩)
    · exact ⟨p, List.mem_cons_self, hc⟩
    · exact ⟨q, List.mem_cons_of_mem p hq, hc⟩

theorem cover_append (l l' : List (β × β)) : cover (l ++ l') = cover l ∪ cover l' := by
  induction l with
  | nil => rw [cover_nil, Set.empty_union, List.nil_append]
  | cons p l ih => rw [List.cons_append, cover_cons, cover_cons, ih, Set.union_assoc]

theorem cover_singleton (p : β × β) : cover [p] = Set.Ico p.1 p.2 := by
  rw [cover_cons, cover_nil, Set.union_empty]

theorem mem_cover_of_mem {p : β × β} {l : List (β × β)} (h : p ∈ l) : Set.Ico p.1 p.2 ⊆ cover l :=
  fun _ hc => ⟨p, h, hc⟩

/-- What is covered does not depend on the order. -/
theorem cover_congr {l l' : List (β × β)} (h : ∀ p, p ∈ l ↔ p ∈ l') : cover l = cover l' := by
  ext c
  exact exists_congr fun p => and_congr_left fun _ => h p

/-! ## Spans with gaps -/

/-- No span is empty, and between each and a later one there is a gap. -/
structure Spaced (l : List (β × β)) : Prop where
  proper : ∀ p ∈ l, p.1 < p.2
  gaps : l.Pairwise fun p q => p.2 < q.1

theorem Spaced.nil : Spaced ([] : List (β × β)) := ⟨nofun, List.Pairwise.nil⟩

theorem Spaced.tail {p : β × β} {l : List (β × β)} (h : Spaced (p :: l)) : Spaced l :=
  ⟨fun q hq => h.proper q (List.mem_cons_of_mem p hq), (List.pairwise_cons.1 h.gaps).2⟩

theorem Spaced.gap {p : β × β} {l : List (β × β)} (h : Spaced (p :: l)) {c : β} (hc : c ∈ cover l) :
    p.2 < c := by
  obtain ⟨q, hq, hqc, -⟩ := hc
  exact ((List.pairwise_cons.1 h.gaps).1 q hq).trans_le hqc

theorem Spaced.first {p : β × β} {l : List (β × β)} (h : Spaced (p :: l)) :
    IsLeast (cover (p :: l)) p.1 := by
  have hp := h.proper p List.mem_cons_self
  rw [cover_cons]
  refine ⟨.inl ⟨le_rfl, hp⟩, ?_⟩
  rintro c (hc | hc)
  · exact hc.1
  · exact (hp.trans (h.gap hc)).le

/-- Of two spans that begin lists with the same cover, the one ends no later. -/
theorem Spaced.end_le {p q : β × β} {l l' : List (β × β)} (h : Spaced (p :: l)) (hfirst : p.1 = q.1)
    (hcover : cover (q :: l') ⊆ cover (p :: l)) : q.2 ≤ p.2 := by
  by_contra hlt
  rw [not_le] at hlt
  have hp := h.proper p List.mem_cons_self
  have hmem : p.2 ∈ cover (p :: l) := by
    apply hcover
    rw [cover_cons]
    exact .inl ⟨hfirst ▸ hp.le, hlt⟩
  rw [cover_cons] at hmem
  rcases hmem with hmem | hmem
  · exact lt_irrefl _ hmem.2
  · exact lt_irrefl _ (h.gap hmem)

theorem Spaced.cover_tail {p : β × β} {l : List (β × β)} (h : Spaced (p :: l)) :
    cover l = cover (p :: l) \ Set.Ico p.1 p.2 := by
  ext c
  rw [cover_cons]
  constructor
  · intro hc
    exact ⟨.inr hc, fun hp => lt_asymm hp.2 (h.gap hc)⟩
  · rintro ⟨hc | hc, hnot⟩
    · exact absurd hc hnot
    · exact hc

/-- Spans with gaps are determined by what they cover. -/
theorem Spaced.ext {l l' : List (β × β)} (h : Spaced l) (h' : Spaced l') (hcover : cover l = cover l') :
    l = l' := by
  induction l generalizing l' with
  | nil =>
      cases l' with
      | nil => rfl
      | cons q l' =>
          have := h'.first.1
          rw [← hcover, cover_nil] at this
          exact this.elim
  | cons p l ih =>
      cases l' with
      | nil =>
          have := h.first.1
          rw [hcover, cover_nil] at this
          exact this.elim
      | cons q l' =>
          have hfirst : p.1 = q.1 := h.first.unique (hcover ▸ h'.first)
          have hend : p.2 = q.2 :=
            le_antisymm (h'.end_le hfirst.symm hcover.le) (h.end_le hfirst hcover.ge)
          have hpq : p = q := Prod.ext hfirst hend
          subst hpq
          rw [ih h.tail h'.tail]
          rw [h.cover_tail, h'.cover_tail, hcover]

/-- A span lies in what is covered only if it lies in one span. -/
theorem Spaced.subset_iff {l : List (β × β)} (h : Spaced l) {p : β × β} (hp : p.1 < p.2) :
    Set.Ico p.1 p.2 ⊆ cover l ↔ ∃ q ∈ l, q.1 ≤ p.1 ∧ p.2 ≤ q.2 := by
  constructor
  · intro hsub
    induction l with
    | nil =>
        have := hsub ⟨le_rfl, hp⟩
        rw [cover_nil] at this
        exact this.elim
    | cons q l ih =>
        by_cases hfirst : p.1 < q.2
        · refine ⟨q, List.mem_cons_self, h.first.2 (hsub ⟨le_rfl, hp⟩), ?_⟩
          by_contra hlt
          rw [not_le] at hlt
          have hmem := hsub ⟨hfirst.le, hlt⟩
          rw [cover_cons] at hmem
          rcases hmem with hmem | hmem
          · exact lt_irrefl _ hmem.2
          · exact lt_irrefl _ (h.gap hmem)
        · have hrest : Set.Ico p.1 p.2 ⊆ cover l := by
            intro c hc
            have hmem := hsub hc
            rw [cover_cons] at hmem
            rcases hmem with hmem | hmem
            · exact absurd (hc.1.trans_lt hmem.2) hfirst
            · exact hmem
          obtain ⟨r, hr, hin⟩ := ih h.tail hrest
          exact ⟨r, List.mem_cons_of_mem q hr, hin⟩
  · rintro ⟨q, hq, hle⟩
    exact (Set.Ico_subset_Ico hle.1 hle.2).trans (mem_cover_of_mem hq)

/-! ## Joining -/

/-- Take in one more span, which starts no earlier than those there: it makes the last one longer, or comes
behind a gap. -/
def join (out : List (β × β)) (p : β × β) : List (β × β) :=
  match out.getLast? with
  | some last => if last.2 < p.1 then out ++ [p] else out.dropLast ++ [(last.1, max last.2 p.2)]
  | none => [p]

theorem Spaced.snoc {l : List (β × β)} {p : β × β} (h : Spaced l) (hp : p.1 < p.2)
    (hgap : ∀ q ∈ l, q.2 < p.1) : Spaced (l ++ [p]) := by
  refine ⟨fun q hq => ?_, ?_⟩
  · rcases List.mem_append.1 hq with hq | hq
    · exact h.proper q hq
    · rw [List.mem_singleton.1 hq]
      exact hp
  · refine List.pairwise_append.2 ⟨h.gaps, List.pairwise_singleton _ _, fun q hq r hr => ?_⟩
    rw [List.mem_singleton.1 hr]
    exact hgap q hq

theorem Spaced.of_snoc {l : List (β × β)} {p : β × β} (h : Spaced (l ++ [p])) :
    Spaced l ∧ p.1 < p.2 ∧ ∀ q ∈ l, q.2 < p.1 := by
  obtain ⟨hl, -, hgap⟩ := List.pairwise_append.1 h.gaps
  refine ⟨⟨fun q hq => h.proper q (List.mem_append_left _ hq), hl⟩, ?_, fun q hq => ?_⟩
  · exact h.proper p (List.mem_append_right _ (List.mem_singleton_self p))
  · exact hgap q hq p (List.mem_singleton_self p)

/-- What one more span does. -/
theorem join_spec {out : List (β × β)} {p : β × β} (h : Spaced out) (hp : p.1 < p.2)
    (hle : ∀ q ∈ out, q.1 ≤ p.1) :
    Spaced (join out p) ∧ cover (join out p) = cover out ∪ Set.Ico p.1 p.2 ∧
      ∀ q ∈ join out p, q.1 ≤ p.1 := by
  rcases List.eq_nil_or_concat out with rfl | ⟨init, last, rfl⟩
  · refine ⟨Spaced.nil.snoc hp nofun, ?_, fun q hq => ?_⟩
    · show cover [p] = _
      rw [cover_singleton, cover_nil, Set.empty_union]
    · rw [List.mem_singleton.1 hq]
  · rw [List.concat_eq_append] at h hle ⊢
    obtain ⟨hinit, hlast, hgap⟩ := h.of_snoc
    have hstart : last.1 ≤ p.1 := hle last (List.mem_append_right _ (List.mem_singleton_self last))
    unfold join
    rw [List.getLast?_concat]
    dsimp only
    split
    · rename_i hbehind
      refine ⟨h.snoc hp fun q hq => ?_, ?_, fun q hq => ?_⟩
      · rcases List.mem_append.1 hq with hq | hq
        · exact (hgap q hq).trans_le hstart
        · rw [List.mem_singleton.1 hq]
          exact hbehind
      · rw [cover_append, cover_singleton]
      · rcases List.mem_append.1 hq with hq | hq
        · exact hle q hq
        · rw [List.mem_singleton.1 hq]
    · rename_i hmeets
      rw [not_lt] at hmeets
      rw [List.dropLast_concat]
      refine ⟨hinit.snoc (lt_max_of_lt_left hlast) hgap, ?_, fun q hq => ?_⟩
      · rw [cover_append, cover_append, cover_singleton, cover_singleton, Set.union_assoc]
        congr 1
        show Set.Ico last.1 (max last.2 p.2) = _
        rw [Set.Ico_union_Ico' hmeets (hstart.trans hp.le), min_eq_left hstart]
      · rcases List.mem_append.1 hq with hq | hq
        · exact hle q (List.mem_append_left _ hq)
        · rw [List.mem_singleton.1 hq]
          exact hstart

/-- Spans that are taken in by where they start end up with gaps between, and cover what they did. -/
theorem foldl_join {l : List (β × β)} {out : List (β × β)} (hout : Spaced out)
    (hl : ∀ p ∈ l, p.1 < p.2) (hsorted : l.Pairwise fun p q => p.1 ≤ q.1)
    (hle : ∀ q ∈ out, ∀ p ∈ l, q.1 ≤ p.1) :
    Spaced (l.foldl join out) ∧ cover (l.foldl join out) = cover out ∪ cover l := by
  induction l generalizing out with
  | nil =>
      rw [cover_nil, Set.union_empty]
      exact ⟨hout, rfl⟩
  | cons p l ih =>
      obtain ⟨hfirst, hrest⟩ := List.pairwise_cons.1 hsorted
      obtain ⟨hspaced, hcover, hstart⟩ := join_spec hout (hl p List.mem_cons_self)
        fun q hq => hle q hq p List.mem_cons_self
      obtain ⟨hres, heq⟩ := ih hspaced (fun q hq => hl q (List.mem_cons_of_mem p hq)) hrest
        fun q hq r hr => (hstart q hq).trans (hfirst r hr)
      refine ⟨hres, ?_⟩
      rw [List.foldl_cons, heq, hcover, cover_cons, Set.union_assoc]

/-! ## One span less another -/

/-- What is left of a span on both sides of another. -/
theorem Ico_diff_Ico (p q : β × β) :
    Set.Ico p.1 p.2 \ Set.Ico q.1 q.2 = Set.Ico p.1 (min p.2 q.1) ∪ Set.Ico (max p.1 q.2) p.2 := by
  ext c
  rw [Set.mem_sdiff, Set.mem_union, Set.mem_Ico, Set.mem_Ico, Set.mem_Ico, Set.mem_Ico, lt_min_iff, max_le_iff,
    not_and_or, not_le, not_lt]
  constructor
  · rintro ⟨⟨hpc, hcp⟩, hc | hc⟩
    · exact .inl ⟨hpc, hcp, hc⟩
    · exact .inr ⟨⟨hpc, hc⟩, hcp⟩
  · rintro (⟨hpc, hcp, hc⟩ | ⟨⟨hpc, hc⟩, hcp⟩)
    · exact ⟨⟨hpc, hcp⟩, .inl hc⟩
    · exact ⟨⟨hpc, hcp⟩, .inr hc⟩

end Spans
