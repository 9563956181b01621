-- SUMMARY: What regular expressions mean: which matches there are, and in which order they are preferred.
import Rustgres.Regex.Program

/-!
# The meaning of expressions

A match leads from one point, a position and the captures there, to another. The language of an expression relates
the points; its outcomes list them by preference: an earlier alternative before a later one, and a greedy quantifier
before it stops. An iteration of an unbounded quantifier has to advance.
-/

open Backtracking

namespace Regex

section

variable (lower : Char → List Char) (ci nl : Bool) (s : List Char)

/-! ## The language -/

/-- Read one character. -/
def readChar (accepts : Char → Bool) (p : Point) : Option Point :=
  if s[p.si]?.any accepts then some (p.advance 1) else none

/-- What the expressions without parts match. -/
def leaf : Ast → Point → Option Point
  | .lit c, p => readChar s (fun x => charsEq lower x c ci) p
  | .dot, p => readChar s (fun x => !(nl && x = '\n')) p
  | .charClass cc, p => readChar s (fun x => cc.matches x && !(nl && cc.neg && x = '\n')) p
  | .anchorStart, p => if atStart nl s p.si then some p else none
  | .anchorEnd, p => if atEnd nl s p.si then some p else none
  | .backRef g, p =>
    match p.group g with
    | some (gs, ge) => if repeats lower ci s p.si gs ge then some (p.advance (ge - gs)) else none
    | none => none
  | _, p => some p

mutual

def Ast.Matches : Ast → Point → Point → Prop
  | .seq v, p, q => SeqMatches v p q
  | .alt v, p, q => AltMatches v p q
  | .repeated inner min max _, p, q => ∃ n, min ≤ n ∧ (∀ mx ∈ max, n ≤ mx) ∧ Times inner.Matches n p q
  | .group inner idx, p, q => ∃ o, inner.Matches (p.saveStart idx) o ∧ q = o.saveEnd idx
  | a, p, q => leaf lower ci nl s a p = some q

def SeqMatches : List Ast → Point → Point → Prop
  | [], p, q => q = p
  | a :: v, p, q => ∃ o, a.Matches p o ∧ SeqMatches v o q

def AltMatches : List Ast → Point → Point → Prop
  | [], _, _ => False
  | a :: v, p, q => a.Matches p q ∨ AltMatches v p q

end

/-! ## Preference -/

/-- Further along in the text. -/
def advances (p q : Point) : Bool := p.si < q.si

mutual

def outcomes : Ast → Bool → Point → List Point
  | .seq v, isLazy, p => seqOutcomes v isLazy p
  | .alt v, isLazy, p => altOutcomes v isLazy p
  | .repeated inner min max lazyHere, isLazy, p =>
    let body := outcomes inner (lazyHere || isLazy)
    (times body min p).flatMap fun q =>
      match max with
      | some mx => times (fun q => prefer (lazyHere || isLazy) q (body q)) (mx - min) q
      | none => star advances (lazyHere || isLazy) body (s.length - q.si) q
  | .group inner idx, isLazy, p => (outcomes inner isLazy (p.saveStart idx)).map fun o => o.saveEnd idx
  | a, _, p => (leaf lower ci nl s a p).toList

def seqOutcomes : List Ast → Bool → Point → List Point
  | [], _, p => [p]
  | a :: v, isLazy, p => (outcomes a isLazy p).flatMap (seqOutcomes v isLazy)

def altOutcomes : List Ast → Bool → Point → List Point
  | [], _, _ => []
  | a :: v, isLazy, p => outcomes a isLazy p ++ altOutcomes v isLazy p

end

end

/-! ## Conditions on expressions -/

mutual

/-- Bounds are in order, and alternatives are not empty. -/
def Ast.Wf : Ast → Prop
  | .seq v => AllWf v
  | .alt v => v ≠ [] ∧ AllWf v
  | .repeated inner min max _ => inner.Wf ∧ ∀ mx ∈ max, min ≤ mx
  | .group inner _ => inner.Wf
  | _ => True

def AllWf : List Ast → Prop
  | [] => True
  | a :: v => a.Wf ∧ AllWf v

end

mutual

/-- Whether an expression may match without reading a character. -/
def nullable : Ast → Bool
  | .lit _ | .dot | .charClass _ => false
  | .empty | .anchorStart | .anchorEnd | .backRef _ => true
  | .seq v => allNullable v
  | .alt v => anyNullable v
  | .repeated inner min _ _ => min = 0 || nullable inner
  | .group inner _ => nullable inner

def allNullable : List Ast → Bool
  | [] => true
  | a :: v => nullable a && allNullable v

def anyNullable : List Ast → Bool
  | [] => false
  | a :: v => nullable a || anyNullable v

end

mutual

/-- The body of an unbounded quantifier reads a character. -/
def regular : Ast → Bool
  | .seq v => allRegular v
  | .alt v => allRegular v
  | .repeated inner _ max _ => regular inner && (max.isSome || !nullable inner)
  | .group inner _ => regular inner
  | _ => true

def allRegular : List Ast → Bool
  | [] => true
  | a :: v => regular a && allRegular v

end

mutual

/-- The characters that stand for themselves. -/
def literals : Ast → List Char
  | .lit c => [c]
  | .seq v => allLiterals v
  | .alt v => allLiterals v
  | .repeated inner _ _ _ => literals inner
  | .group inner _ => literals inner
  | _ => []

def allLiterals : List Ast → List Char
  | [] => []
  | a :: v => literals a ++ allLiterals v

end

section

variable {lower : Char → List Char} {ci nl : Bool} {s : List Char} {a inner : Ast} {v : List Ast} {p q o : Point}

/-! ## Points in the text -/

/-- The position is in the text behind `base`, and each capture lies between the two. -/
structure Point.InText (p : Point) (base : Nat) (s : List Char) : Prop where
  behind : base ≤ p.si
  le : p.si ≤ s.length
  captured : ∀ g lo hi, p.group g = some (lo, hi) → base ≤ lo ∧ lo ≤ hi ∧ hi ≤ p.si

variable {base : Nat}

theorem Point.InText.advance (h : p.InText base s) {n : Nat} (hn : p.si + n ≤ s.length) : (p.advance n).InText base s where
  behind := Nat.le_add_right_of_le h.behind
  le := hn
  captured := fun g lo hi hg => by
    obtain ⟨hbase, hlo, hhi⟩ := h.captured g lo hi hg
    exact ⟨hbase, hlo, Nat.le_add_right_of_le hhi⟩

theorem Point.group_set {caps : Caps} {si g g' : Nat} {range : Nat × Nat} {r : Nat × Nat}
    (h : Point.group ⟨si, caps.set g (some range)⟩ g' = some r) : r = range ∨ Point.group ⟨si, caps⟩ g' = some r := by
  unfold Point.group at h ⊢
  rw [List.getElem?_set] at h
  split at h
  · split at h
    · left
      simpa using h.symm
    · simp at h
  · exact .inr h

theorem Point.InText.saveStart (h : p.InText base s) (g : Nat) : (p.saveStart g).InText base s where
  behind := h.behind
  le := h.le
  captured := fun g' lo hi hg => by
    rcases Point.group_set hg with heq | hold
    · cases heq
      exact ⟨h.behind, Nat.le_refl _, Nat.le_refl _⟩
    · exact h.captured g' lo hi hold

theorem Point.si_saveEnd (p : Point) (g : Nat) : (p.saveEnd g).si = p.si := by
  unfold Point.saveEnd
  split <;> rfl

theorem Point.InText.saveEnd (h : p.InText base s) (g : Nat) : (p.saveEnd g).InText base s where
  behind := by
    rw [Point.si_saveEnd]
    exact h.behind
  le := by
    rw [Point.si_saveEnd]
    exact h.le
  captured := fun g' lo hi hg => by
    rw [Point.si_saveEnd]
    cases hst : p.caps[g]? with
    | none =>
        simp only [Point.saveEnd, hst] at hg
        exact h.captured g' lo hi hg
    | some captured =>
        cases captured with
        | none =>
            simp only [Point.saveEnd, hst] at hg
            exact h.captured g' lo hi hg
        | some range =>
            simp only [Point.saveEnd, hst] at hg
            rcases Point.group_set hg with heq | hold
            · cases heq
              have hopen : p.group g = some range := by
                unfold Point.group
                rw [hst]
                rfl
              obtain ⟨hbase, hlo, hhi⟩ := h.captured g range.1 range.2 hopen
              exact ⟨hbase, hlo.trans hhi, Nat.le_refl _⟩
            · exact h.captured g' lo hi hold

/-! ## Where a match can lead -/

theorem readChar_eq_some {accepts : Char → Bool} (h : readChar s accepts p = some q) :
    q = p.advance 1 ∧ p.si < s.length := by
  unfold readChar at h
  split at h
  · rename_i hany
    cases h
    refine ⟨rfl, ?_⟩
    by_contra hge
    rw [List.getElem?_eq_none (Nat.le_of_not_lt hge)] at hany
    cases hany
  · cases h

/-- A match goes forward, and what it reads is in the text. -/
structure Forward (s : List Char) (p q : Point) : Prop where
  le : p.si ≤ q.si
  within : q.si ≠ p.si → q.si ≤ s.length
  inText : ∀ base, p.InText base s → q.InText base s

theorem Forward.refl (p : Point) : Forward s p p := ⟨Nat.le_refl _, fun h => absurd rfl h, fun _ hp => hp⟩

theorem Forward.trans (h : Forward s p o) (h' : Forward s o q) : Forward s p q where
  le := h.le.trans h'.le
  within := fun hne => by
    by_cases hoq : q.si = o.si
    · rw [hoq]
      exact h.within fun hop => hne (hoq.trans hop)
    · exact h'.within hoq
  inText := fun base hp => h'.inText base (h.inText base hp)

theorem Forward.advance {n : Nat} (hn : p.si + n ≤ s.length) : Forward s p (p.advance n) where
  le := Nat.le_add_right _ _
  within := fun _ => hn
  inText := fun _ hp => hp.advance hn

theorem leaf_forward (h : leaf lower ci nl s a p = some q) : Forward s p q := by
  have hread : ∀ {accepts : Char → Bool}, readChar s accepts p = some q → Forward s p q := fun hread => by
    obtain ⟨rfl, hlt⟩ := readChar_eq_some hread
    exact .advance hlt
  unfold leaf at h
  split at h
  · exact hread h
  · exact hread h
  · exact hread h
  · split at h
    · cases h
      exact .refl p
    · cases h
  · split at h
    · cases h
      exact .refl p
    · cases h
  · split at h
    · split at h
      · rename_i hrep
        cases h
        unfold repeats at hrep
        rw [Bool.and_eq_true, decide_eq_true_eq] at hrep
        exact .advance hrep.1
      · cases h
    · cases h
  · cases h
    exact .refl p

theorem Times.forward {R : Point → Point → Prop} (hR : ∀ p q, R p q → Forward s p q) {n : Nat} (h : Times R n p q) :
    Forward s p q := by
  induction n generalizing p with
  | zero =>
      obtain rfl : q = p := h
      exact .refl q
  | succ n ih =>
      obtain ⟨o, ho, h⟩ := h
      exact (hR p o ho).trans (ih h)

theorem seq_forward (hv : ∀ a ∈ v, ∀ p q, a.Matches lower ci nl s p q → Forward s p q)
    (h : SeqMatches lower ci nl s v p q) : Forward s p q := by
  induction v generalizing p with
  | nil =>
      obtain rfl : q = p := h
      exact .refl q
  | cons a v ih =>
      obtain ⟨o, ho, h⟩ := h
      exact (hv a List.mem_cons_self p o ho).trans (ih (fun a ha => hv a (List.mem_cons_of_mem _ ha)) h)

theorem altMatches_iff : AltMatches lower ci nl s v p q ↔ ∃ a ∈ v, a.Matches lower ci nl s p q := by
  induction v with
  | nil => exact ⟨fun h => h.elim, fun ⟨_, ha, _⟩ => absurd ha List.not_mem_nil⟩
  | cons a v ih =>
      rw [List.exists_mem_cons_iff, ← ih]
      exact Iff.rfl

theorem Ast.Matches.forward (h : a.Matches lower ci nl s p q) : Forward s p q := by
  induction a using Ast.ind generalizing p q with
  | empty | lit | dot | charClass | anchorStart | anchorEnd | backRef => exact leaf_forward h
  | seq v ih => exact seq_forward (fun a ha p q => ih a ha) h
  | alt v ih =>
      obtain ⟨a, ha, h⟩ := altMatches_iff.1 h
      exact ih a ha h
  | repeated inner min max isLazy ih =>
      obtain ⟨n, -, -, h⟩ := h
      exact Times.forward (fun p q => ih) h
  | group inner idx ih =>
      obtain ⟨o, ho, rfl⟩ := h
      have hbody := ih ho
      refine ⟨?_, ?_, fun base hp => (hbody.inText base (hp.saveStart idx)).saveEnd idx⟩
      · rw [Point.si_saveEnd]
        exact hbody.le
      · rw [Point.si_saveEnd]
        exact hbody.within

/-- An expression that is not nullable reads a character. -/
theorem Ast.Matches.advances (hn : nullable a = false) (h : a.Matches lower ci nl s p q) : p.si < q.si := by
  induction a using Ast.ind generalizing p q with
  | empty | anchorStart | anchorEnd | backRef => cases hn
  | lit | dot | charClass =>
      obtain ⟨rfl, -⟩ := readChar_eq_some h
      exact Nat.lt_succ_self _
  | seq v ih =>
      change allNullable v = false at hn
      change SeqMatches lower ci nl s v p q at h
      induction v generalizing p with
      | nil => cases hn
      | cons a v ihv =>
          obtain ⟨o, ho, h⟩ := h
          have hrest : ∀ b ∈ v, ∀ p q, b.Matches lower ci nl s p q → Forward s p q := fun b _ p q hb => hb.forward
          have hle : o.si ≤ q.si := (seq_forward hrest h).le
          cases ha : nullable a with
          | false => exact Nat.lt_of_lt_of_le (ih a List.mem_cons_self ha ho) hle
          | true =>
              have hv : allNullable v = false := by
                change (nullable a && allNullable v) = false at hn
                rwa [ha, Bool.true_and] at hn
              exact Nat.lt_of_le_of_lt ho.forward.le (ihv (fun b hb => ih b (List.mem_cons_of_mem a hb)) hv h)
  | alt v ih =>
      obtain ⟨a, ha, hm⟩ := altMatches_iff.1 h
      change anyNullable v = false at hn
      refine ih a ha ?_ hm
      clear ih h hm
      induction v with
      | nil => cases ha
      | cons b v ihv =>
          change (nullable b || anyNullable v) = false at hn
          rw [Bool.or_eq_false_iff] at hn
          rcases List.mem_cons.1 ha with rfl | ha
          · exact hn.1
          · exact ihv ha hn.2
  | repeated inner min max isLazy ih =>
      change (decide (min = 0) || nullable inner) = false at hn
      rw [Bool.or_eq_false_iff, decide_eq_false_iff_not] at hn
      obtain ⟨n, hmin, -, h⟩ := h
      cases n with
      | zero => exact absurd (Nat.le_zero.1 hmin) hn.1
      | succ n =>
          obtain ⟨o, ho, h⟩ := h
          have hrest : Forward s o q := Times.forward (fun p q hb => Ast.Matches.forward hb) h
          exact Nat.lt_of_lt_of_le (ih hn.2 ho) hrest.le
  | group inner idx ih =>
      obtain ⟨o, ho, rfl⟩ := h
      have hbody : (p.saveStart idx).si < o.si := ih hn ho
      rw [Point.si_saveEnd]
      exact hbody

/-! ## The outcomes are the matches -/

theorem seqOutcomes_iff {isLazy : Bool}
    (hv : ∀ a ∈ v, ∀ p q, q ∈ outcomes lower ci nl s a isLazy p ↔ a.Matches lower ci nl s p q) :
    q ∈ seqOutcomes lower ci nl s v isLazy p ↔ SeqMatches lower ci nl s v p q := by
  induction v generalizing p with
  | nil => exact List.mem_singleton
  | cons a v ih =>
      change q ∈ (outcomes lower ci nl s a isLazy p).flatMap _ ↔ ∃ o, _ ∧ _
      rw [List.mem_flatMap]
      exact exists_congr fun o => and_congr (hv a List.mem_cons_self p o)
        (ih fun a ha => hv a (List.mem_cons_of_mem _ ha))

theorem altOutcomes_iff {isLazy : Bool}
    (hv : ∀ a ∈ v, ∀ p q, q ∈ outcomes lower ci nl s a isLazy p ↔ a.Matches lower ci nl s p q) :
    q ∈ altOutcomes lower ci nl s v isLazy p ↔ AltMatches lower ci nl s v p q := by
  induction v with
  | nil => exact ⟨fun h => absurd h List.not_mem_nil, fun h => h.elim⟩
  | cons a v ih =>
      change q ∈ outcomes lower ci nl s a isLazy p ++ _ ↔ _ ∨ _
      rw [List.mem_append]
      exact or_congr (hv a List.mem_cons_self p q) (ih fun a ha => hv a (List.mem_cons_of_mem _ ha))

theorem allRegular_iff : allRegular v = true ↔ ∀ a ∈ v, regular a = true := by
  induction v with
  | nil => exact ⟨fun _ a ha => absurd ha List.not_mem_nil, fun _ => rfl⟩
  | cons a v ih =>
      change (regular a && allRegular v) = true ↔ _
      rw [Bool.and_eq_true, ih, List.forall_mem_cons]

theorem allWf_iff : AllWf v ↔ ∀ a ∈ v, a.Wf := by
  induction v with
  | nil => exact ⟨fun _ a ha => absurd ha List.not_mem_nil, fun _ => trivial⟩
  | cons a v ih =>
      change a.Wf ∧ AllWf v ↔ _
      rw [ih, List.forall_mem_cons]

/-- Between the bounds: the mandatory copies, and some of those that may be left out. -/
theorem times_bounded {R : Point → Point → Prop} {min mx : Nat} (h : min ≤ mx) :
    (∃ n, min ≤ n ∧ (∀ m ∈ some mx, n ≤ m) ∧ Times R n p q) ↔
      ∃ o, Times R min p o ∧ Times (fun p q => q = p ∨ R p q) (mx - min) o q := by
  constructor
  · rintro ⟨n, hmin, hmax, ht⟩
    obtain ⟨k, rfl⟩ := Nat.exists_eq_add_of_le hmin
    obtain ⟨o, hmust, hmay⟩ := Times.add.1 ht
    have hk : min + k ≤ mx := hmax mx rfl
    exact ⟨o, hmust, Times.optional.2 ⟨k, by omega, hmay⟩⟩
  · rintro ⟨o, hmust, hmay⟩
    obtain ⟨k, hk, hmay⟩ := Times.optional.1 hmay
    refine ⟨min + k, Nat.le_add_right _ _, fun m hm => ?_, Times.add.2 ⟨o, hmust, hmay⟩⟩
    cases hm
    omega

theorem times_unbounded {R : Point → Point → Prop} {min : Nat} :
    (∃ n, min ≤ n ∧ (∀ m ∈ (none : Option Nat), n ≤ m) ∧ Times R n p q) ↔
      ∃ o, Times R min p o ∧ ∃ k, Times R k o q := by
  constructor
  · rintro ⟨n, hmin, -, ht⟩
    obtain ⟨k, rfl⟩ := Nat.exists_eq_add_of_le hmin
    obtain ⟨o, hmust, hmay⟩ := Times.add.1 ht
    exact ⟨o, hmust, k, hmay⟩
  · rintro ⟨o, hmust, k, hmay⟩
    exact ⟨min + k, Nat.le_add_right _ _, fun m hm => (by cases hm), Times.add.2 ⟨o, hmust, hmay⟩⟩

/-- The body of an unbounded quantifier makes progress towards the end of the text. -/
theorem body_advances (hn : nullable inner = false) (h : inner.Matches lower ci nl s p q) :
    Regex.advances p q = true ∧ s.length - q.si < s.length - p.si := by
  have hlt := h.advances hn
  have hle := h.forward.within (Nat.ne_of_gt hlt)
  exact ⟨decide_eq_true hlt, by omega⟩

theorem mem_outcomes {isLazy : Bool} (hr : regular a = true) (hw : a.Wf) :
    q ∈ outcomes lower ci nl s a isLazy p ↔ a.Matches lower ci nl s p q := by
  induction a using Ast.ind generalizing p q isLazy with
  | empty | lit | dot | charClass | anchorStart | anchorEnd | backRef => exact Option.mem_toList
  | seq v ih => exact seqOutcomes_iff fun a ha p q => ih a ha (allRegular_iff.1 hr a ha) (allWf_iff.1 hw a ha)
  | alt v ih => exact altOutcomes_iff fun a ha p q => ih a ha (allRegular_iff.1 hr a ha) (allWf_iff.1 hw.2 a ha)
  | group inner idx ih =>
      change q ∈ (outcomes lower ci nl s inner isLazy (p.saveStart idx)).map _ ↔ ∃ o, _ ∧ _
      rw [List.mem_map]
      exact exists_congr fun o => and_congr (ih hr hw) eq_comm
  | repeated inner min max lazyHere ih =>
      change (regular inner && (max.isSome || !nullable inner)) = true at hr
      rw [Bool.and_eq_true] at hr
      have hbody : ∀ p q, q ∈ outcomes lower ci nl s inner (lazyHere || isLazy) p ↔ inner.Matches lower ci nl s p q :=
        fun p q => ih hr.1 hw.1
      have htimes : ∀ n p q, q ∈ times (outcomes lower ci nl s inner (lazyHere || isLazy)) n p ↔
          Times (inner.Matches lower ci nl s) n p q := fun n p q => mem_times.trans (Times.congr hbody n p q)
      cases max with
      | some mx =>
          change q ∈ (times _ min p).flatMap (times _ (mx - min)) ↔ ∃ n, _ ∧ _ ∧ _
          rw [times_bounded (hw.2 mx rfl), List.mem_flatMap]
          refine exists_congr fun o => and_congr (htimes min p o) (mem_times.trans (Times.congr (fun p q => ?_) _ _ _))
          rw [mem_prefer, hbody]
      | none =>
          have hn : nullable inner = false := by simpa using hr.2
          change q ∈ (times _ min p).flatMap (fun q => star _ _ _ (s.length - q.si) q) ↔ ∃ n, _ ∧ _ ∧ _
          rw [times_unbounded, List.mem_flatMap]
          refine exists_congr fun o => and_congr (htimes min p o) ?_
          have hprogress : ∀ p, ∀ q ∈ outcomes lower ci nl s inner (lazyHere || isLazy) p, Regex.advances p q = true :=
            fun p q hq => (body_advances hn ((hbody p q).1 hq)).1
          have hleft : ∀ p, ∀ q ∈ outcomes lower ci nl s inner (lazyHere || isLazy) p,
              s.length - q.si < s.length - p.si := fun p q hq => (body_advances hn ((hbody p q).1 hq)).2
          rw [@mem_star Point Regex.advances _ _ (fun p => s.length - p.si) hprogress hleft _ _ _ (Nat.le_refl _)]
          exact exists_congr fun k => Times.congr hbody k o q

end

end Regex
