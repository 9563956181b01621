-- SUMMARY: The grammar of numeric literals, and that the parser accepts it.
import Mathlib.Data.List.DropRight
import Rustgres.Lib.Loops
import Rustgres.Numeric.RoundTrip

/-!
# The Grammar of Numeric Literals

What a literal is, without saying how it is taken apart. The parser reads each part with a routine that
takes a sign of its own, and it reads an exponent mark without an exponent as none: the loose grammar.
-/

namespace Num

open Decimal Scaled Loops

namespace Numeric

/-! ## Literals -/

/-- Digits with single separators between them, and the digits alone. -/
inductive Grouped (ok : Char → Bool) : Text → Text → Prop where
  | last {c : Char} (hc : ok c = true) : Grouped ok [c] [c]
  | digit {c : Char} {s ds : Text} (hc : ok c = true) (h : Grouped ok s ds) : Grouped ok (c :: s) (c :: ds)
  | separator {c : Char} {s ds : Text} (hc : ok c = true) (h : Grouped ok s ds) :
      Grouped ok (c :: '_' :: s) (c :: ds)

inductive Signed : Bool → Text → Text → Prop where
  | none (s : Text) : Signed false s s
  | plus (s : Text) : Signed false ('+' :: s) s
  | minus (s : Text) : Signed true ('-' :: s) s

/-- Digits on one side of the point; loosely, with a sign of their own. -/
inductive Part (loose : Bool) : Text → Text → Prop where
  | empty : Part loose [] []
  | grouped {s ds : Text} (h : Grouped Char.isDigit s ds) : Part loose s ds
  | signed {s ds : Text} (hl : loose = true) (h : Grouped Char.isDigit s ds) : Part loose ('+' :: s) ds

inductive Mantissa (loose : Bool) : Text → Text → Text → Prop where
  | whole {s ds : Text} (h : Part loose s ds) (hne : ds ≠ []) : Mantissa loose s ds []
  | point {s ds t es : Text} (h : Part loose s ds) (ht : Part loose t es) (hne : ds ≠ [] ∨ es ≠ []) :
      Mantissa loose (s ++ '.' :: t) ds es

/-- The exponent of a literal; loosely, a mark alone is none. -/
inductive Exponent (loose : Bool) : Text → Int → Prop where
  | none : Exponent loose [] 0
  | mark {c : Char} {neg : Bool} {s t ds : Text} (hc : isExp c = true) (hs : Signed neg s t)
      (h : Grouped Char.isDigit t ds) : Exponent loose (c :: s) (signed neg (Nat.ofDigitChars 10 ds 0))
  | bare {c : Char} (hl : loose = true) (hc : isExp c = true) : Exponent loose [c] 0

inductive Literal where
  | nan
  | inf (neg : Bool)
  | based (neg : Bool) (base : Nat) (digits : Text)
  | decimal (neg : Bool) (int frac : Text) (exp : Int)

/-- The letter of a base. -/
def baseOf (c : Char) : Option Nat :=
  if c = 'b' ∨ c = 'B' then some 2
  else if c = 'o' ∨ c = 'O' then some 8
  else if c = 'x' ∨ c = 'X' then some 16
  else none

inductive Spells (loose : Bool) : Text → Literal → Prop where
  | nan {s : Text} (h : s.map Char.toLower = "nan".toList) : Spells loose s .nan
  | inf {neg : Bool} {s t : Text} (hs : Signed neg s t)
      (h : t.map Char.toLower = "inf".toList ∨ t.map Char.toLower = "infinity".toList) :
      Spells loose s (.inf neg)
  | based {neg : Bool} {s t ds : Text} {c : Char} {base : Nat} (hb : baseOf c = some base)
      (hs : Signed neg s ('0' :: c :: t)) (h : Grouped (digitOk base) t ds) : Spells loose s (.based neg base ds)
  | separated {neg : Bool} {s t ds : Text} {c : Char} {base : Nat} (hb : baseOf c = some base)
      (hs : Signed neg s ('0' :: c :: '_' :: t)) (h : Grouped (digitOk base) t ds) :
      Spells loose s (.based neg base ds)
  | decimal {neg : Bool} {s m e int frac : Text} {exp : Int} (hs : Signed neg s (m ++ e))
      (hm : Mantissa loose m int frac) (he : Exponent loose e exp) : Spells loose s (.decimal neg int frac exp)

def basedValue (base : Nat) (digits : Text) : Nat := digits.foldl (fun v c => v * base + digitVal c) 0

/-- The limits of the format: a machine integer with a base, and the digits and the exponent of a decimal. -/
def Literal.Fits : Literal → Prop
  | .nan => True
  | .inf _ => True
  | .based _ base digits => basedValue base digits ≤ BigUint.i128Max
  | .decimal _ int frac exp => InI32 exp ∧ Numeric.Fits int frac exp

/-- The number is what the literal denotes, with the digits of its fraction less the exponent shown. -/
def Literal.Means (n : Numeric) : Literal → Prop
  | .nan => n = Numeric.nan
  | .inf neg => n = if neg then negInfinity else infinity
  | .based neg base digits => n.Builds (signed neg (basedValue base digits) : Int) 0
  | .decimal neg int frac exp => n.Builds (digitsValue neg int frac exp) ((frac.length : Int) - exp).toNat

/-! ## Groups of digits -/

variable {ok : Char → Bool} {s t ds : Text} {c : Char}

theorem Grouped.ok_of_mem (h : Grouped ok s ds) : ∀ c ∈ ds, ok c = true := by
  induction h with
  | last hc =>
      intro c hmem
      rw [List.mem_singleton.1 hmem]
      exact hc
  | digit hc _ ih | separator hc _ ih =>
      intro c hmem
      rcases List.mem_cons.1 hmem with rfl | hmem
      · exact hc
      · exact ih c hmem

theorem Grouped.ne_nil (h : Grouped ok s ds) : ds ≠ [] := by
  cases h with
  | last _ | digit _ _ | separator _ _ => exact List.cons_ne_nil _ _

theorem Grouped.head (h : Grouped ok s ds) : ∃ c t, s = c :: t ∧ ok c = true := by
  cases h with
  | last hc | digit hc _ | separator hc _ => exact ⟨_, _, rfl, hc⟩

/-- Every character of a group is a digit or a separator. -/
theorem Grouped.mem (h : Grouped ok s ds) : ∀ c ∈ s, ok c = true ∨ c = '_' := by
  induction h with
  | last hc =>
      intro c hmem
      rw [List.mem_singleton.1 hmem]
      exact Or.inl hc
  | digit hc _ ih =>
      intro c hmem
      rcases List.mem_cons.1 hmem with rfl | hmem
      · exact Or.inl hc
      · exact ih c hmem
  | separator hc _ ih =>
      intro c hmem
      rcases List.mem_cons.1 hmem with rfl | hmem
      · exact Or.inl hc
      · rcases List.mem_cons.1 hmem with rfl | hmem
        · exact Or.inr rfl
        · exact ih c hmem

/-- What may follow a digit. -/
inductive Follows (ok : Char → Bool) : Text → Text → Prop where
  | done : Follows ok [] []
  | digit {s ds : Text} (h : Grouped ok s ds) : Follows ok s ds
  | separator {s ds : Text} (h : Grouped ok s ds) : Follows ok ('_' :: s) ds

theorem grouped_cons (hc : ok c = true) : Grouped ok (c :: s) ds ↔ ∃ ds', ds = c :: ds' ∧ Follows ok s ds' := by
  constructor
  · intro h
    cases h with
    | last _ => exact ⟨_, rfl, .done⟩
    | digit _ h => exact ⟨_, rfl, .digit h⟩
    | separator _ h => exact ⟨_, rfl, .separator h⟩
  · rintro ⟨ds', rfl, h⟩
    cases h with
    | done => exact .last hc
    | digit h => exact .digit hc h
    | separator h => exact .separator hc h

theorem follows_cons (hc : ok c = true) (hsep : c ≠ '_') : Follows ok (c :: s) ds ↔ Grouped ok (c :: s) ds := by
  constructor
  · intro h
    cases h with
    | digit h => exact h
    | separator _ => exact absurd rfl hsep
  · exact .digit

theorem follows_separator (hsep : ok '_' = false) : Follows ok ('_' :: s) ds ↔ Grouped ok s ds := by
  constructor
  · intro h
    cases h with
    | digit h =>
        obtain ⟨c, t, heq, hc⟩ := h.head
        cases heq
        rw [hsep] at hc
        cases hc
    | separator h => exact h
  · exact .separator

theorem stripSeparators_iff (s : Text) :
    (∀ saw ds, stripSeparators true saw s = some ds ↔ Grouped Char.isDigit s ds) ∧
      ∀ ds, stripSeparators false true s = some ds ↔ Follows Char.isDigit s ds := by
  induction s with
  | nil =>
      refine ⟨fun saw ds => ?_, fun ds => ?_⟩
      · unfold stripSeparators
        rw [Bool.or_true, if_pos rfl]
        exact ⟨fun h => (nomatch h), fun h => (nomatch h)⟩
      · unfold stripSeparators
        constructor
        · intro h
          cases h
          exact .done
        · intro h
          cases h with
          | done => rfl
          | digit h => exact nomatch h
  | cons c s ih =>
      obtain ⟨ihneed, ihfree⟩ := ih
      by_cases hsep : c = '_'
      · rw [hsep]
        refine ⟨fun saw ds => ?_, fun ds => ?_⟩
        · unfold stripSeparators
          rw [if_pos rfl, if_pos rfl]
          refine ⟨fun h => (nomatch h), fun h => ?_⟩
          obtain ⟨d, t, heq, hd⟩ := h.head
          cases heq
          cases hd
        · unfold stripSeparators
          rw [if_pos rfl, if_neg Bool.false_ne_true, ihneed, follows_separator rfl]
      · by_cases hc : c.isDigit
        · have hmap : ∀ ds, (stripSeparators false true s).map (c :: ·) = some ds
              ↔ Grouped Char.isDigit (c :: s) ds := by
            intro ds
            rw [grouped_cons hc, Option.map_eq_some_iff]
            constructor
            · rintro ⟨ds', h, rfl⟩
              exact ⟨ds', rfl, (ihfree ds').1 h⟩
            · rintro ⟨ds', rfl, h⟩
              exact ⟨ds', (ihfree ds').2 h, rfl⟩
          refine ⟨fun saw ds => ?_, fun ds => ?_⟩
          · unfold stripSeparators
            rw [if_neg hsep, if_pos hc, hmap]
          · unfold stripSeparators
            rw [if_neg hsep, if_pos hc, hmap, follows_cons hc hsep]
        · refine ⟨fun saw ds => ?_, fun ds => ?_⟩
          · unfold stripSeparators
            rw [if_neg hsep, if_neg hc]
            refine ⟨fun h => (nomatch h), fun h => ?_⟩
            obtain ⟨d, t, heq, hd⟩ := h.head
            cases heq
            exact absurd hd hc
          · unfold stripSeparators
            rw [if_neg hsep, if_neg hc]
            refine ⟨fun h => (nomatch h), fun h => ?_⟩
            cases h with
            | digit h =>
                obtain ⟨d, t, heq, hd⟩ := h.head
                cases heq
                exact absurd hd hc
            | separator _ => exact absurd rfl hsep

/-! ## Signs -/

theorem signed_splitSign (s : Text) : Signed (splitSign s).1 s (splitSign s).2 := by
  unfold splitSign
  split
  · exact .minus _
  · exact .plus _
  · exact .none _

/-- A sign is split off what does not start with one. -/
theorem Signed.splitSign_eq {neg : Bool} (h : Signed neg s t) (ht : ∀ c ∈ t.head?, c ≠ '+' ∧ c ≠ '-') :
    splitSign s = (neg, t) := by
  cases h with
  | none =>
      unfold splitSign
      split
      · exact absurd rfl (ht '-' rfl).2
      · exact absurd rfl (ht '+' rfl).1
      · rfl
  | plus | minus => rfl

theorem not_sign_of_isDigit (hc : c.isDigit = true) : c ≠ '+' ∧ c ≠ '-' := by
  constructor
  · rintro rfl
    cases hc
  · rintro rfl
    cases hc

theorem Grouped.head_not_sign (h : Grouped Char.isDigit s ds) : ∀ c ∈ s.head?, c ≠ '+' ∧ c ≠ '-' := by
  obtain ⟨c, t, rfl, hc⟩ := h.head
  intro d hd
  cases hd
  exact not_sign_of_isDigit hc

theorem stripUnderscoresStrict_signed {neg : Bool} (hs : Signed neg s t) (h : Grouped Char.isDigit t ds) :
    stripUnderscoresStrict s = some (if neg then '-' :: ds else ds) := by
  rw [stripUnderscoresStrict, hs.splitSign_eq h.head_not_sign]
  dsimp only
  rw [((stripSeparators_iff t).1 false ds).2 h]
  rfl

theorem signed_of_stripUnderscoresStrict {out : Text} (h : stripUnderscoresStrict s = some out) :
    ∃ neg t ds, Signed neg s t ∧ Grouped Char.isDigit t ds ∧ out = if neg then '-' :: ds else ds := by
  have hsigned := signed_splitSign s
  unfold stripUnderscoresStrict at h
  obtain ⟨ds, hds, hout⟩ := Option.map_eq_some_iff.1 h
  exact ⟨_, _, ds, hsigned, ((stripSeparators_iff _).1 _ _).1 hds, hout.symm⟩

/-! ## Parts -/

theorem part_iff : (stripUnderscoresOptStrict s = some ds ∧ ∀ c ∈ ds, c.isDigit) ↔ Part true s ds := by
  constructor
  · rintro ⟨h, hall⟩
    cases s with
    | nil =>
        cases h
        exact .empty
    | cons c s =>
        rw [stripUnderscoresOptStrict, List.isEmpty_cons, if_neg Bool.false_ne_true] at h
        obtain ⟨neg, t, es, hs, hg, hout⟩ := signed_of_stripUnderscoresStrict h
        cases hs with
        | none => rw [hout]; exact .grouped hg
        | plus => rw [hout]; exact .signed rfl hg
        | minus =>
            have hminus := hall '-' (by rw [hout]; exact List.mem_cons_self)
            cases hminus
  · intro h
    cases h with
    | empty => exact ⟨rfl, fun c hc => absurd hc List.not_mem_nil⟩
    | grouped h =>
        refine ⟨?_, h.ok_of_mem⟩
        have hstrip := stripUnderscoresStrict_signed (.none s) h
        obtain ⟨c, t, rfl, -⟩ := h.head
        exact hstrip
    | signed _ h => exact ⟨stripUnderscoresStrict_signed (.plus _) h, h.ok_of_mem⟩

theorem Part.loosen {loose : Bool} (h : Part loose s ds) : Part true s ds := by
  cases h with
  | empty => exact .empty
  | grouped h => exact .grouped h
  | signed _ h => exact .signed rfl h

theorem Part.ok_of_mem {loose : Bool} (h : Part loose s ds) : ∀ c ∈ ds, c.isDigit :=
  (part_iff.2 h.loosen).2

theorem Part.strip {loose : Bool} (h : Part loose s ds) : stripUnderscoresOptStrict s = some ds :=
  (part_iff.2 h.loosen).1

theorem Part.mem {loose : Bool} (h : Part loose s ds) : ∀ c ∈ s, c.isDigit = true ∨ c = '_' ∨ c = '+' := by
  cases h with
  | empty => exact fun c hc => (nomatch hc)
  | grouped h =>
      intro c hc
      rcases h.mem c hc with hd | hd
      · exact Or.inl hd
      · exact Or.inr (Or.inl hd)
  | signed _ h =>
      intro c hc
      rcases List.mem_cons.1 hc with hd | hd
      · exact Or.inr (Or.inr hd)
      · rcases h.mem c hd with hd | hd
        · exact Or.inl hd
        · exact Or.inr (Or.inl hd)

theorem not_point (h : c.isDigit = true ∨ c = '_' ∨ c = '+') : decide (c = '.') = false := by
  rw [decide_eq_false_iff_not]
  rintro rfl
  rcases h with h | h | h <;> cases h

theorem not_exp (h : c.isDigit = true ∨ c = '_' ∨ c = '+' ∨ c = '.') : isExp c = false := by
  rw [isExp, Bool.or_eq_false_iff, decide_eq_false_iff_not, decide_eq_false_iff_not]
  constructor
  · rintro rfl
    rcases h with h | h | h | h <;> cases h
  · rintro rfl
    rcases h with h | h | h | h <;> cases h

/-! ## Splitting -/

theorem splitAt_append {p : Char → Bool} {a b : Text} (ha : ∀ c ∈ a, p c = false) (hc : p c = true) :
    splitAt p (a ++ c :: b) = (a, b) := by
  have hall : ∀ x ∈ a, (!p x) = true := fun x hx => by rw [ha x hx]; rfl
  rw [splitAt, List.takeWhile_append_of_pos hall, List.dropWhile_append_of_pos hall,
    List.takeWhile_cons_of_neg (by rw [hc]; decide), List.dropWhile_cons_of_neg (by rw [hc]; decide),
    List.append_nil]
  rfl

theorem splitAt_cases (p : Char → Bool) (s : Text) :
    (∀ c ∈ s, p c = false) ∨ ∃ a c b, s = a ++ c :: b ∧ (∀ x ∈ a, p x = false) ∧ p c = true := by
  induction s with
  | nil => exact Or.inl fun c hc => (nomatch hc)
  | cons d s ih =>
      cases hd : p d with
      | true => exact Or.inr ⟨[], d, s, rfl, fun x hx => (nomatch hx), hd⟩
      | false =>
          rcases ih with hnone | ⟨a, c, b, rfl, ha, hc⟩
          · refine Or.inl fun c hc => ?_
            rcases List.mem_cons.1 hc with rfl | hc
            · exact hd
            · exact hnone c hc
          · refine Or.inr ⟨d :: a, c, b, rfl, fun x hx => ?_, hc⟩
            rcases List.mem_cons.1 hx with rfl | hx
            · exact hd
            · exact ha x hx

/-! ## Mantissas -/

theorem splitMantissa_parts {i f : Text} {int frac : Text} (hsplit : splitAt (· = '.') s = (i, f))
    (hi : Part true i int) (hf : Part true f frac) (hne : int ≠ [] ∨ frac ≠ []) :
    splitMantissa s = .ok (int, frac) := by
  have hempty : (int.isEmpty && frac.isEmpty) = false := by
    rw [Bool.and_eq_false_iff, List.isEmpty_eq_false_iff, List.isEmpty_eq_false_iff]
    exact hne
  simp only [splitMantissa, hsplit, hi.strip, hf.strip, orSyntax, Bind.bind, Except.bind, hempty,
    Bool.false_eq_true, if_false]

theorem Mantissa.split {loose : Bool} {m int frac : Text} (h : Mantissa loose m int frac) :
    splitMantissa m = .ok (int, frac) := by
  cases h with
  | whole h hne =>
      exact splitMantissa_parts (splitAt_of_forall fun c hc => not_point (h.mem c hc)) h.loosen .empty (Or.inl hne)
  | point h ht hne =>
      exact splitMantissa_parts (splitAt_append (fun c hc => not_point (h.mem c hc)) (by decide)) h.loosen
        ht.loosen hne

theorem Mantissa.ok_of_mem {loose : Bool} {m int frac : Text} (h : Mantissa loose m int frac) :
    ∀ c ∈ int ++ frac, c.isDigit := by
  cases h with
  | whole h _ =>
      rw [List.append_nil]
      exact h.ok_of_mem
  | point h ht _ =>
      intro c hc
      rcases List.mem_append.1 hc with hc | hc
      · exact h.ok_of_mem c hc
      · exact ht.ok_of_mem c hc

theorem Mantissa.mem {loose : Bool} {m int frac : Text} (h : Mantissa loose m int frac) :
    ∀ c ∈ m, c.isDigit = true ∨ c = '_' ∨ c = '+' ∨ c = '.' := by
  have hpart : ∀ {s ds : Text}, Part loose s ds → ∀ c ∈ s, c.isDigit = true ∨ c = '_' ∨ c = '+' ∨ c = '.' := by
    intro s ds h c hc
    rcases h.mem c hc with hd | hd | hd
    · exact Or.inl hd
    · exact Or.inr (Or.inl hd)
    · exact Or.inr (Or.inr (Or.inl hd))
  cases h with
  | whole h _ => exact hpart h
  | point h ht _ =>
      intro c hc
      rcases List.mem_append.1 hc with hc | hc
      · exact hpart h c hc
      · rcases List.mem_cons.1 hc with rfl | hc
        · exact Or.inr (Or.inr (Or.inr rfl))
        · exact hpart ht c hc

theorem orSyntax_eq_ok {α : Type} {o : Option α} {a : α} (h : orSyntax o = .ok a) : o = some a := by
  cases o with
  | none => cases h
  | some b =>
      cases h
      rfl

theorem mantissa_of_split {m int frac : Text} (h : splitMantissa m = .ok (int, frac))
    (hall : ∀ c ∈ int ++ frac, c.isDigit) : Mantissa true m int frac := by
  have hi : ∀ c ∈ int, c.isDigit := fun c hc => hall c (List.mem_append_left _ hc)
  have hf : ∀ c ∈ frac, c.isDigit := fun c hc => hall c (List.mem_append_right _ hc)
  unfold splitMantissa at h
  dsimp only at h
  obtain ⟨int', hint, h⟩ := bind_eq_ok h
  obtain ⟨frac', hfrac, h⟩ := bind_eq_ok h
  split at h
  · cases h
  · rename_i hempty
    cases h
    rw [Bool.and_eq_true, List.isEmpty_iff, List.isEmpty_iff] at hempty
    have hip := part_iff.1 ⟨orSyntax_eq_ok hint, hi⟩
    have hfp := part_iff.1 ⟨orSyntax_eq_ok hfrac, hf⟩
    have hne : int ≠ [] ∨ frac ≠ [] := by
      by_cases hz : int = []
      · exact Or.inr fun hz' => hempty ⟨hz, hz'⟩
      · exact Or.inl hz
    rcases splitAt_cases (fun c => decide (c = '.')) m with hnone | ⟨i, c, f, rfl, hnone, hc⟩
    · rw [splitAt_of_forall hnone] at hip hfp
      cases hfp with
      | empty => exact .whole hip (hne.resolve_right fun h => h rfl)
      | grouped h => exact nomatch h
    · rw [splitAt_append hnone hc] at hip hfp
      rw [of_decide_eq_true hc]
      exact .point hip hfp hne

/-! ## Exponents -/

theorem readI32_signed {neg : Bool} (h : Grouped Char.isDigit t ds) :
    readI32 (if neg then '-' :: ds else ds)
      = if InI32 (signed neg (Nat.ofDigitChars 10 ds 0)) then some (signed neg (Nat.ofDigitChars 10 ds 0))
        else none := by
  have hsplit : splitSign (if neg then '-' :: ds else ds) = (neg, ds) := by
    cases neg with
    | true => rfl
    | false =>
        rw [if_neg Bool.false_ne_true]
        apply splitSign_digits
        intro c hc
        exact h.ok_of_mem c (List.mem_of_mem_head? hc)
  unfold readI32
  rw [hsplit]
  dsimp only
  change (if signed neg (Nat.ofDigitChars 10 ds 0) < -2 ^ 31 ∨ signed neg (Nat.ofDigitChars 10 ds 0) ≥ 2 ^ 31
    then none else some (signed neg (Nat.ofDigitChars 10 ds 0))) = _
  by_cases hr : InI32 (signed neg (Nat.ofDigitChars 10 ds 0))
  · rw [if_pos hr, if_neg (by unfold InI32 at hr; omega)]
  · rw [if_neg hr, if_pos (by unfold InI32 at hr; omega)]

/-- The exponent of a literal, and that of its second reading. -/
theorem Exponent.read {m e : Text} {exp : Int} (h : Exponent false e exp) (hm : ∀ c ∈ m, isExp c = false) :
    (splitAt isExp (m ++ e)).1 = m ∧
      readExp (splitAt isExp (m ++ e)).2 = (if InI32 exp then .ok exp else .error .badSyntax) ∧
      readBigExp (m ++ e) = if InI32 exp then .ok exp else .error .badSyntax := by
  cases h with
  | none =>
      have hany : m.any isExp = false := List.any_eq_false.2 fun c hc => by
        rw [hm c hc]
        exact Bool.false_ne_true
      rw [List.append_nil, splitAt_of_forall hm, readBigExp, hany]
      exact ⟨rfl, rfl, rfl⟩
  | @mark c neg s t ds hc hs h =>
      have hany : (m ++ c :: s).any isExp = true :=
        List.any_eq_true.2 ⟨c, List.mem_append_right _ List.mem_cons_self, hc⟩
      have hstrip := stripUnderscoresStrict_signed hs h
      have hread := @readI32_signed t ds neg h
      have hvalue : orSyntax ((stripUnderscoresStrict s).bind readI32)
          = if InI32 (signed neg (Nat.ofDigitChars 10 ds 0)) then .ok (signed neg (Nat.ofDigitChars 10 ds 0))
            else .error .badSyntax := by
        rw [hstrip, Option.bind_some, hread]
        split
        · rfl
        · rfl
      have hnonempty : s.isEmpty = false := by
        cases s with
        | nil =>
            obtain ⟨d, u, hdu, -⟩ := h.head
            rw [hdu] at hs
            cases hs
        | cons _ _ => rfl
      rw [splitAt_append hm hc, readBigExp, hany, if_pos rfl, splitAt_append hm hc]
      dsimp only
      rw [hvalue, readExp, hnonempty, if_neg Bool.false_ne_true, hvalue]
      exact ⟨rfl, rfl, rfl⟩
  | bare hl _ => cases hl

theorem exponent_of_read {e : Text} {exp : Int} (hc : isExp c = true) (h : readExp e = .ok exp) :
    Exponent true (c :: e) exp := by
  unfold readExp at h
  split at h
  · rename_i hempty
    rw [List.isEmpty_iff] at hempty
    cases h
    rw [hempty]
    exact .bare rfl hc
  · obtain ⟨out, hout, hread⟩ := Option.bind_eq_some_iff.1 (orSyntax_eq_ok h)
    obtain ⟨neg, t, ds, hs, hg, rfl⟩ := signed_of_stripUnderscoresStrict hout
    rw [readI32_signed hg] at hread
    split at hread
    · cases hread
      exact .mark hc hs hg
    · cases hread

/-! ## Decimals -/

theorem trim_trim (s : Text) : trim (trim s) = trim s := by
  have hform : ∀ u : Text, trim u = List.rdropWhile isWhitespace (u.dropWhile isWhitespace) := fun _ => rfl
  rw [hform (trim s), hform s, List.dropWhile_eq_self_iff.2, List.rdropWhile_idempotent]
  intro hlen hws
  obtain ⟨u, hu⟩ := List.rdropWhile_prefix isWhitespace (s.dropWhile isWhitespace)
  generalize List.rdropWhile isWhitespace (s.dropWhile isWhitespace) = r at hlen hws hu
  cases r with
  | nil => exact absurd hlen (Nat.lt_irrefl 0)
  | cons c r =>
      have hhead : (s.dropWhile isWhitespace).head? = some c := by
        rw [← hu]
        rfl
      have hnot := List.head?_dropWhile_not isWhitespace s
      rw [hhead] at hnot
      dsimp only at hnot
      rw [show isWhitespace c = true from hws] at hnot
      cases hnot

/-- The first character of a decimal is a digit or the point. -/
theorem Mantissa.head {m int frac : Text} (h : Mantissa false m int frac) :
    ∃ c u, m = c :: u ∧ (c.isDigit = true ∨ c = '.') := by
  have hpart : ∀ {s ds : Text}, Part false s ds → s = [] ∧ ds = [] ∨ ∃ c u, s = c :: u ∧ c.isDigit = true := by
    intro s ds h
    cases h with
    | empty => exact Or.inl ⟨rfl, rfl⟩
    | grouped h =>
        obtain ⟨c, u, rfl, hc⟩ := h.head
        exact Or.inr ⟨c, u, rfl, hc⟩
    | signed hl _ => cases hl
  cases h with
  | whole h hne =>
      rcases hpart h with ⟨-, hnil⟩ | ⟨c, u, rfl, hc⟩
      · exact absurd hnil hne
      · exact ⟨c, u, rfl, Or.inl hc⟩
  | point h _ _ =>
      rcases hpart h with ⟨rfl, -⟩ | ⟨c, u, rfl, hc⟩
      · exact ⟨'.', _, rfl, Or.inr rfl⟩
      · exact ⟨c, _, rfl, Or.inl hc⟩

theorem head_not_sign {c : Char} {u : Text} (h : c.isDigit = true ∨ c = '.') :
    ∀ d ∈ (c :: u).head?, d ≠ '+' ∧ d ≠ '-' := by
  intro d hd
  cases hd
  rcases h with h | rfl
  · exact not_sign_of_isDigit h
  · decide

theorem parseDecimal_spells {neg : Bool} {m e int frac : Text} {exp : Int} (htrim : trim s = s)
    (hs : Signed neg s (m ++ e)) (hm : Mantissa false m int frac) (he : Exponent false e exp) :
    if InI32 exp ∧ Fits int frac exp then
      ∃ n, parseDecimal s neg (m ++ e) = .ok n ∧
        n.ReadAs (digitsValue neg int frac exp) (frac.length - exp)
    else ∃ err, parseDecimal s neg (m ++ e) = .error err := by
  have hdigits := hm.ok_of_mem
  have hall : (int ++ frac).all Char.isDigit := List.all_eq_true.2 hdigits
  obtain ⟨hmant, hexp, hbig⟩ := he.read fun c hc => not_exp (hm.mem c hc)
  obtain ⟨c, u, hmc, hc⟩ := hm.head
  have hsplit : splitSign s = (neg, m ++ e) := by
    apply hs.splitSign_eq
    rw [hmc]
    exact head_not_sign hc
  unfold parseDecimal
  rw [hexp, hmant, hm.split]
  by_cases hr : InI32 exp
  · rw [if_pos hr] at hbig ⊢
    have hreading : BigReading s neg int frac exp := by
      unfold BigReading
      simp only [BigDec.parseDecimal, htrim, hsplit, hbig, hmant, hm.split, Bind.bind, Except.bind]
    have hspec := assemble_spec hdigits hr hreading
    simp only [Bind.bind, Except.bind, hall, if_true, hr, true_and]
    by_cases hfits : Fits int frac exp
    · rw [if_pos hfits] at hspec ⊢
      exact hspec
    · rw [if_neg hfits] at hspec ⊢
      exact ⟨_, hspec⟩
  · rw [if_neg hr, if_neg fun h => hr h.1]
    exact ⟨_, rfl⟩

theorem spells_of_parseDecimal {neg : Bool} {n : Numeric} (hs : Signed neg s t)
    (h : parseDecimal s neg t = .ok n) : ∃ lit, Spells true s lit := by
  unfold parseDecimal at h
  obtain ⟨exp, hexp, h⟩ := bind_eq_ok h
  obtain ⟨⟨int, frac⟩, hmant, h⟩ := bind_eq_ok h
  dsimp only at h
  split at h
  · rename_i hall
    have hmantissa := mantissa_of_split hmant (List.all_eq_true.1 hall)
    rcases splitAt_cases isExp t with hnone | ⟨a, c, b, rfl, hnone, hc⟩
    · rw [splitAt_of_forall hnone] at hmantissa
      exact ⟨_, .decimal (e := []) (by rw [List.append_nil]; exact hs) hmantissa .none⟩
    · rw [splitAt_append hnone hc] at hmantissa hexp
      exact ⟨_, .decimal hs hmantissa (exponent_of_read hc hexp)⟩
  · cases h

/-! ## Integers with a base -/

def basedFrom (base v : Nat) (digits : Text) : Nat := digits.foldl (fun v c => v * base + digitVal c) v

theorem le_basedFrom {base : Nat} (hb : 0 < base) (v : Nat) (digits : Text) : v ≤ basedFrom base v digits := by
  induction digits generalizing v with
  | nil => exact Nat.le_refl v
  | cons c digits ih =>
      have hmul := Nat.le_mul_of_pos_right v hb
      have hrest := ih (v * base + digitVal c)
      unfold basedFrom at hrest ⊢
      rw [List.foldl_cons]
      omega

theorem digitOk_separator (base : Nat) : digitOk base '_' = false := rfl

theorem basedDigits_spells {base : Nat} (hb : 0 < base) (s : Text) :
    (∀ saw v ds, Grouped (digitOk base) s ds → basedDigits base true saw v s
        = if basedFrom base v ds ≤ BigUint.i128Max then .ok (basedFrom base v ds) else .error .overflow) ∧
      ∀ v ds, v ≤ BigUint.i128Max → Follows (digitOk base) s ds → basedDigits base false true v s
        = if basedFrom base v ds ≤ BigUint.i128Max then .ok (basedFrom base v ds) else .error .overflow := by
  induction s with
  | nil =>
      refine ⟨fun saw v ds h => (nomatch h), fun v ds hv h => ?_⟩
      cases h with
      | done => rw [show basedFrom base v [] = v from rfl, if_pos hv]; rfl
      | digit h => exact nomatch h
  | cons c s ih =>
      obtain ⟨ihneed, ihfree⟩ := ih
      by_cases hsep : c = '_'
      · rw [hsep]
        refine ⟨fun saw v ds h => ?_, fun v ds hv h => ?_⟩
        · obtain ⟨d, t, heq, hd⟩ := h.head
          cases heq
          rw [digitOk_separator] at hd
          cases hd
        · rw [basedDigits, if_pos rfl, if_neg Bool.false_ne_true]
          exact ihneed true v ds ((follows_separator (digitOk_separator base)).1 h)
      · have hstep : ∀ need saw v ds, Grouped (digitOk base) (c :: s) ds → basedDigits base need saw v (c :: s)
            = if basedFrom base v ds ≤ BigUint.i128Max then .ok (basedFrom base v ds) else .error .overflow := by
          intro need saw v ds h
          have hc : digitOk base c = true := by
            obtain ⟨d, t, heq, hd⟩ := h.head
            cases heq
            exact hd
          obtain ⟨ds', rfl, hfollows⟩ := (grouped_cons hc).1 h
          have hfrom : basedFrom base v (c :: ds') = basedFrom base (v * base + digitVal c) ds' := rfl
          have hle := le_basedFrom hb (v * base + digitVal c) ds'
          rw [basedDigits, if_neg hsep, if_pos hc, hfrom]
          by_cases hover : v * base + digitVal c > BigUint.i128Max
          · rw [if_pos hover, if_neg (by omega)]
          · rw [if_neg hover, ihfree _ ds' (Nat.le_of_not_lt hover) hfollows]
        refine ⟨fun saw v ds h => hstep true saw v ds h, fun v ds hv h => ?_⟩
        cases h with
        | digit h => exact hstep false true v ds h
        | separator _ => exact absurd rfl hsep

theorem grouped_of_basedDigits {base : Nat} (s : Text) :
    (∀ saw v w, basedDigits base true saw v s = .ok w → ∃ ds, Grouped (digitOk base) s ds) ∧
      ∀ v w, basedDigits base false true v s = .ok w → ∃ ds, Follows (digitOk base) s ds := by
  induction s with
  | nil =>
      refine ⟨fun saw v w h => ?_, fun v w h => ⟨[], .done⟩⟩
      rw [basedDigits, Bool.or_true, if_pos rfl] at h
      cases h
  | cons c s ih =>
      obtain ⟨ihneed, ihfree⟩ := ih
      have hstep : ∀ need saw v w, c ≠ '_' → basedDigits base need saw v (c :: s) = .ok w →
          ∃ ds, Grouped (digitOk base) (c :: s) ds := by
        intro need saw v w hsep h
        rw [basedDigits, if_neg hsep] at h
        split at h
        · rename_i hc
          split at h
          · cases h
          · obtain ⟨ds, hds⟩ := ihfree _ _ h
            exact ⟨c :: ds, (grouped_cons hc).2 ⟨ds, rfl, hds⟩⟩
        · cases h
      by_cases hsep : c = '_'
      · rw [hsep]
        refine ⟨fun saw v w h => ?_, fun v w h => ?_⟩
        · rw [basedDigits, if_pos rfl, if_pos rfl] at h
          cases h
        · rw [basedDigits, if_pos rfl, if_neg Bool.false_ne_true] at h
          obtain ⟨ds, hds⟩ := ihneed _ _ _ h
          exact ⟨ds, .separator hds⟩
      · refine ⟨fun saw v w h => hstep _ _ _ _ hsep h, fun v w h => ?_⟩
        obtain ⟨ds, hds⟩ := hstep _ _ _ _ hsep h
        exact ⟨ds, .digit hds⟩

theorem basePrefix_iff {base : Nat} : basePrefix s = some (base, t) ↔ ∃ c, s = '0' :: c :: t ∧ baseOf c = some base := by
  constructor
  · intro h
    unfold basePrefix at h
    split at h
    · cases h
      exact ⟨'b', rfl, rfl⟩
    · cases h
      exact ⟨'B', rfl, rfl⟩
    · cases h
      exact ⟨'o', rfl, rfl⟩
    · cases h
      exact ⟨'O', rfl, rfl⟩
    · cases h
      exact ⟨'x', rfl, rfl⟩
    · cases h
      exact ⟨'X', rfl, rfl⟩
    · cases h
  · rintro ⟨c, rfl, hc⟩
    unfold baseOf at hc
    split at hc
    · rename_i h
      cases hc
      rcases h with rfl | rfl <;> rfl
    · split at hc
      · rename_i h
        cases hc
        rcases h with rfl | rfl <;> rfl
      · split at hc
        · rename_i h
          cases hc
          rcases h with rfl | rfl <;> rfl
        · cases hc

theorem baseOf_pos {base : Nat} (h : baseOf c = some base) : 0 < base := by
  unfold baseOf at h
  split at h
  · cases h
    decide
  · split at h
    · cases h
      decide
    · split at h
      · cases h
        decide
      · cases h

/-- A machine integer is a numeric of scale zero. -/
theorem builds_machine {neg : Bool} {v : Nat} (h : v ≤ BigUint.i128Max) :
    (new (signed neg v) 0).Builds ((signed neg v : Int) : ℚ) 0 := by
  have hread := (readAs_new (u := signed neg v) (s := 0) (by rw [natAbs_signed]; exact h) (by decide)).builds
  rw [scaled_scale_zero] at hread
  exact hread

theorem parseBased_spells {base : Nat} {neg : Bool} (hb : 0 < base) (hs : s = t ∨ s = '_' :: t)
    (h : Grouped (digitOk base) t ds) :
    if basedValue base ds ≤ BigUint.i128Max then
      ∃ n, parseBased s base neg = .ok n ∧ n.Builds (signed neg (basedValue base ds) : Int) 0
    else ∃ err, parseBased s base neg = .error err := by
  have hdrop : dropSeparator s = t := by
    rcases hs with rfl | rfl
    · obtain ⟨c, u, rfl, hc⟩ := h.head
      unfold dropSeparator
      split
      · rename_i heq
        cases heq
        rw [digitOk_separator] at hc
        cases hc
      · rfl
    · rfl
  have hspec := (basedDigits_spells hb t).1 false 0 ds h
  have hvalue : basedFrom base 0 ds = basedValue base ds := rfl
  unfold parseBased
  rw [hdrop, hspec, hvalue]
  by_cases hle : basedValue base ds ≤ BigUint.i128Max
  · rw [if_pos hle, if_pos hle]
    exact ⟨_, rfl, builds_machine hle⟩
  · rw [if_neg hle, if_neg hle]
    exact ⟨_, rfl⟩

theorem spells_of_parseBased {base : Nat} {neg : Bool} {n : Numeric} {x : Text} (hb : baseOf c = some base)
    (hs : Signed neg x ('0' :: c :: s)) (h : parseBased s base neg = .ok n) : ∃ lit, Spells true x lit := by
  unfold parseBased at h
  cases hd : basedDigits base true false 0 (dropSeparator s) with
  | error e =>
      rw [hd] at h
      cases h
  | ok v =>
      obtain ⟨ds, hds⟩ := (grouped_of_basedDigits _).1 _ _ _ hd
      unfold dropSeparator at hds
      split at hds
      · exact ⟨_, .separated hb hs hds⟩
      · exact ⟨_, .based hb hs hds⟩

/-! ## The parser and the grammar -/

theorem not_word {c d : Char} {u w : Text} (h : c.isDigit = true ∨ c = '.') (hd : d.isDigit = false ∧ d ≠ '.') :
    (c :: u).map Char.toLower ≠ d :: w := by
  intro heq
  rw [List.map_cons, List.cons.injEq] at heq
  rcases h with h | rfl
  · rw [toLower_digit h] at heq
    rw [← heq.1, h] at hd
    cases hd.1
  · exact hd.2 heq.1.symm

/-- A literal whose first character is a digit or the point is no special name. -/
theorem parse_number {neg : Bool} {u : Text} (hne : trim s ≠ []) (hs : Signed neg (trim s) (c :: u))
    (hc : c.isDigit = true ∨ c = '.') :
    parse s = match basePrefix (c :: u) with
      | some (base, digits) => parseBased digits base neg
      | none => parseDecimal (trim s) neg (c :: u) := by
  have hempty : (trim s).isEmpty = false := List.isEmpty_eq_false_iff.2 hne
  unfold parse
  dsimp only
  rw [hempty, hs.splitSign_eq (head_not_sign hc), if_neg Bool.false_ne_true]
  dsimp only
  rw [if_neg (show _ ≠ "nan".toList from not_word hc ⟨rfl, by decide⟩)]
  apply if_neg
  rintro (h | h)
  · exact not_word (w := ['n', 'f']) hc ⟨rfl, by decide⟩ h
  · exact not_word (w := ['n', 'f', 'i', 'n', 'i', 't', 'y']) hc ⟨rfl, by decide⟩ h

/-- No base letter stands in a decimal. -/
theorem basePrefix_decimal {m e int frac : Text} {exp : Int} (hm : Mantissa false m int frac)
    (he : Exponent false e exp) : basePrefix (m ++ e) = none := by
  cases hp : basePrefix (m ++ e) with
  | none => rfl
  | some p =>
      obtain ⟨base, t⟩ := p
      obtain ⟨c, heq, hc⟩ := basePrefix_iff.1 hp
      have hletter : ∀ d, baseOf d = some base → ¬(d.isDigit = true ∨ d = '_' ∨ d = '+' ∨ d = '.') ∧ isExp d = false := by
        intro d hd
        unfold baseOf at hd
        split at hd
        · rename_i h
          rcases h with rfl | rfl <;> decide
        · split at hd
          · rename_i h
            rcases h with rfl | rfl <;> decide
          · split at hd
            · rename_i h
              rcases h with rfl | rfl <;> decide
            · cases hd
      obtain ⟨hno, hnoexp⟩ := hletter c hc
      obtain ⟨d, u, rfl, -⟩ := hm.head
      rw [List.cons_append, List.cons.injEq] at heq
      cases u with
      | nil =>
          cases he with
          | none => exact nomatch heq.2
          | mark hmark _ _ =>
              rw [List.nil_append, List.cons.injEq] at heq
              rw [← heq.2.1, hmark] at hnoexp
              cases hnoexp
          | bare hl _ => cases hl
      | cons x u =>
          rw [List.cons_append, List.cons.injEq] at heq
          have hx := hm.mem x (List.mem_cons_of_mem _ List.mem_cons_self)
          rw [heq.2.1] at hx
          exact absurd hx hno

theorem word_head {d : Char} {w : Text} (h : s.map Char.toLower = d :: w) (hd : d ≠ '+' ∧ d ≠ '-') :
    s ≠ [] ∧ ∀ c ∈ s.head?, c ≠ '+' ∧ c ≠ '-' := by
  cases s with
  | nil => exact nomatch h
  | cons c s =>
      rw [List.map_cons, List.cons.injEq] at h
      refine ⟨List.cons_ne_nil c s, ?_⟩
      intro x hx
      cases hx
      constructor
      · rintro rfl
        exact hd.1 h.1.symm
      · rintro rfl
        exact hd.2 h.1.symm

theorem Signed.nonempty {neg : Bool} (h : Signed neg s t) (ht : t ≠ []) : s ≠ [] := by
  cases h with
  | none => exact ht
  | plus | minus => exact List.cons_ne_nil _ _

theorem parse_nan (h : (trim s).map Char.toLower = "nan".toList) : parse s = .ok nan := by
  obtain ⟨hne, hhead⟩ := word_head (d := 'n') (w := ['a', 'n']) h (by decide)
  have hplus : (trim s).head? ≠ some '+' := fun hc => (hhead '+' hc).1 rfl
  unfold parse
  dsimp only
  rw [List.isEmpty_eq_false_iff.2 hne, (Signed.none (trim s)).splitSign_eq hhead, if_neg Bool.false_ne_true]
  dsimp only
  rw [if_pos h, Bool.false_or, if_neg (by simpa using hplus)]

theorem parse_inf {neg : Bool} (hs : Signed neg (trim s) t)
    (h : t.map Char.toLower = "inf".toList ∨ t.map Char.toLower = "infinity".toList) :
    parse s = .ok (if neg then negInfinity else infinity) := by
  have hword : t ≠ [] ∧ ∀ c ∈ t.head?, c ≠ '+' ∧ c ≠ '-' := by
    rcases h with h | h
    · exact word_head (d := 'i') (w := ['n', 'f']) h (by decide)
    · exact word_head (d := 'i') (w := ['n', 'f', 'i', 'n', 'i', 't', 'y']) h (by decide)
  have hnan : t.map Char.toLower ≠ "nan".toList := by
    rcases h with h | h
    · rw [h]
      decide
    · rw [h]
      decide
  unfold parse
  dsimp only
  rw [List.isEmpty_eq_false_iff.2 (hs.nonempty hword.1), hs.splitSign_eq hword.2, if_neg Bool.false_ne_true]
  dsimp only
  rw [if_neg hnan, if_pos h]

/-- A literal is read as what it denotes when it is within the limits, and else it is refused. -/
theorem parse_spells {lit : Literal} (h : Spells false (trim s) lit) :
    (lit.Fits → ∃ n, parse s = .ok n ∧ lit.Means n) ∧ (¬lit.Fits → ∃ err, parse s = .error err) := by
  have hif : ∀ {p a b : Prop} [Decidable p], (if p then a else b) → (p → a) ∧ (¬p → b) := by
    intro p a b _ h
    by_cases hp : p
    · rw [if_pos hp] at h
      exact ⟨fun _ => h, fun hn => absurd hp hn⟩
    · rw [if_neg hp] at h
      exact ⟨fun hy => absurd hy hp, fun _ => h⟩
  cases h with
  | nan h => exact ⟨fun _ => ⟨nan, parse_nan h, rfl⟩, fun hn => absurd trivial hn⟩
  | inf hs h => exact ⟨fun _ => ⟨_, parse_inf hs h, rfl⟩, fun hn => absurd trivial hn⟩
  | @based neg _ t ds c base hb hs h =>
      rw [parse_number (hs.nonempty (List.cons_ne_nil _ _)) hs (Or.inl rfl), basePrefix_iff.2 ⟨c, rfl, hb⟩]
      have hspec := @parseBased_spells _ _ _ _ neg (baseOf_pos hb) (Or.inl rfl) h
      have hboth := hif hspec
      exact hboth
  | @separated neg _ t ds c base hb hs h =>
      rw [parse_number (hs.nonempty (List.cons_ne_nil _ _)) hs (Or.inl rfl), basePrefix_iff.2 ⟨c, rfl, hb⟩]
      have hspec := @parseBased_spells _ _ _ _ neg (baseOf_pos hb) (Or.inr rfl) h
      have hboth := hif hspec
      exact hboth
  | @decimal neg _ m e int frac exp hs hm he =>
      obtain ⟨hfit, hnot⟩ := hif (parseDecimal_spells (trim_trim s) hs hm he)
      have hprefix := basePrefix_decimal hm he
      obtain ⟨c, u, rfl, hc⟩ := hm.head
      have hnumber := parse_number (hs.nonempty (List.cons_ne_nil _ _)) hs hc
      rw [show c :: u.append e = c :: u ++ e from rfl, hprefix] at hnumber
      dsimp only at hnumber
      rw [hnumber]
      refine ⟨fun hfits => ?_, hnot⟩
      obtain ⟨n, hn, hread⟩ := hfit hfits
      exact ⟨n, hn, hread.builds⟩

/-- Nothing is accepted beyond the loose grammar. -/
theorem spells_of_parse {n : Numeric} (h : parse s = .ok n) : ∃ lit, Spells true (trim s) lit := by
  unfold parse at h
  dsimp only at h
  generalize trim s = t at h ⊢
  have hs := signed_splitSign t
  split at h
  · cases h
  · generalize (splitSign t).1 = neg at h hs
    generalize (splitSign t).2 = rest at h hs
    split at h
    · rename_i hnan
      split at h
      · cases h
      · rename_i hsign
        rw [Bool.or_eq_true, not_or, decide_eq_true_eq] at hsign
        refine ⟨.nan, .nan ?_⟩
        cases hs with
        | none => exact hnan
        | plus => exact absurd rfl hsign.2
        | minus => exact absurd rfl hsign.1
    · split at h
      · rename_i hinf
        exact ⟨_, .inf hs hinf⟩
      · cases hp : basePrefix rest with
        | some p =>
            obtain ⟨base, digits⟩ := p
            obtain ⟨c, rfl, hb⟩ := basePrefix_iff.1 hp
            rw [hp] at h
            exact spells_of_parseBased hb hs h
        | none =>
            rw [hp] at h
            exact spells_of_parseDecimal hs h

/-- Accepted by a slip: only the loose grammar has the text. -/
def Slips (s : Text) : Prop := (∃ lit, Spells true (trim s) lit) ∧ ¬∃ lit, Spells false (trim s) lit

/-- Where no slip is, the parser accepts the literals within the limits, with or without blanks around them,
and reads what they denote. -/
theorem parse_grammar (s : Text) (hslip : ¬Slips s) :
    (∀ n, parse s = .ok n → ∃ lit, Spells false (trim s) lit ∧ lit.Fits ∧ lit.Means n) ∧
      ∀ lit, Spells false (trim s) lit →
        (lit.Fits → ∃ n, parse s = .ok n ∧ lit.Means n) ∧ (¬lit.Fits → ∃ err, parse s = .error err) := by
  refine ⟨fun n hn => ?_, fun lit hlit => parse_spells hlit⟩
  have hstrict : ∃ lit, Spells false (trim s) lit := by
    by_contra hno
    exact hslip ⟨spells_of_parse hn, hno⟩
  obtain ⟨lit, hlit⟩ := hstrict
  obtain ⟨hfit, hnot⟩ := parse_spells hlit
  by_cases hf : lit.Fits
  · obtain ⟨r, hr, hmeans⟩ := hfit hf
    rw [hn] at hr
    cases hr
    exact ⟨lit, hlit, hf, hmeans⟩
  · obtain ⟨err, herr⟩ := hnot hf
    rw [hn] at herr
    cases herr

theorem spells_half : Spells false "1.50".toList (.decimal false ['1'] ['5', '0'] 0) :=
  .decimal (m := "1.50".toList) (e := []) (.none _)
    (.point (s := ['1']) (t := ['5', '0']) (.grouped (.last rfl)) (.grouped (.digit rfl (.last rfl)))
      (Or.inl (List.cons_ne_nil _ _))) .none

theorem parse_grammar_half :
    (∀ n, parse "1.50".toList = .ok n →
      ∃ lit, Spells false (trim "1.50".toList) lit ∧ lit.Fits ∧ lit.Means n) ∧
      ∀ lit, Spells false (trim "1.50".toList) lit →
        (lit.Fits → ∃ n, parse "1.50".toList = .ok n ∧ lit.Means n) ∧
        (¬lit.Fits → ∃ err, parse "1.50".toList = .error err) :=
  parse_grammar _ fun h => h.2 ⟨_, spells_half⟩

/-- A literal of the grammar past the limits is refused, and one with blanks before it is not. -/
theorem grammar_with_limits :
    Spells false "1e131072".toList (.decimal false ['1'] [] 131072) ∧
      parse "1e131072".toList = .error .overflow ∧ parse " 1".toList = .ok (new 1 0) := by
  refine ⟨?_, by decide, by decide⟩
  exact .decimal (m := ['1']) (e := "e131072".toList) (.none _) (.whole (.grouped (.last rfl)) (List.cons_ne_nil _ _))
    (.mark rfl (.none _)
      (.digit rfl (.digit rfl (.digit rfl (.digit rfl (.digit rfl (.last rfl)))))))

end Numeric

end Num
