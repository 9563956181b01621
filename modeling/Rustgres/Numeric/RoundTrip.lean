-- SUMMARY: Which numerics the parser reads back from their own text.
import Rustgres.Numeric.Reading
import Rustgres.Numeric.Hash

/-!
# Numerics Through Their Text

The parser reads the integer and the places of a text back, unless they are beyond its limits. The number it
makes has no negative scale, and a big mantissa exactly where no machine integer holds the mantissa.
-/

namespace Num

open Decimal Scaled

namespace Numeric

/-! ## Reading the text -/

/-- The characters of a number without an exponent. -/
def Plain (c : Char) : Prop := c.isDigit ∨ c = '.' ∨ c = '-'

theorem Plain.not_whitespace {c : Char} (h : Plain c) : isWhitespace c = false := by
  rcases h with h | rfl | rfl
  · obtain ⟨hlo, hhi⟩ := Char.isDigit_iff_toNat.1 h
    have hlo : 48 ≤ c.toNat := hlo
    have hhi : c.toNat ≤ 57 := hhi
    simp only [isWhitespace, Bool.or_eq_false_iff, Bool.and_eq_false_iff, decide_eq_false_iff_not]
    omega
  · rfl
  · rfl

theorem Plain.not_exp {c : Char} (h : Plain c) : isExp c = false := by
  rcases h with h | rfl | rfl
  · rw [isExp, Bool.or_eq_false_iff]
    constructor
    · rw [decide_eq_false_iff_not]
      rintro rfl
      cases h
    · rw [decide_eq_false_iff_not]
      rintro rfl
      cases h
  · rfl
  · rfl

theorem trim_eq_self {s : Text} (h : ∀ c ∈ s, Plain c) : trim s = s := by
  have hdrop : ∀ t : Text, (∀ c ∈ t, Plain c) → t.dropWhile isWhitespace = t := by
    intro t ht
    cases t with
    | nil => rfl
    | cons c t => rw [List.dropWhile_cons_of_neg (by simp [(ht c List.mem_cons_self).not_whitespace])]
  rw [trim, hdrop s h, hdrop s.reverse fun c hc => h c (List.mem_reverse.1 hc), List.reverse_reverse]

theorem splitAt_of_forall {p : Char → Bool} {s : Text} (h : ∀ c ∈ s, p c = false) :
    splitAt p s = (s, []) := by
  have hall : ∀ c ∈ s, (!p c) = true := fun c hc => by rw [h c hc]; rfl
  have htake := @List.takeWhile_append_of_pos _ _ s [] hall
  have hdrop := @List.dropWhile_append_of_pos _ _ s [] hall
  rw [List.append_nil, List.takeWhile_nil, List.append_nil] at htake
  rw [List.append_nil] at hdrop
  rw [splitAt, htake, hdrop]
  rfl

theorem splitAt_point {int : Text} (h : ∀ c ∈ int, c.isDigit) (frac : Text) :
    splitAt (· = '.') (spell int frac) = (int, frac) := by
  have hpoint : ∀ c ∈ int, decide (c = '.') = false := by
    intro c hc
    rw [decide_eq_false_iff_not]
    rintro rfl
    cases h _ hc
  cases frac with
  | nil => exact splitAt_of_forall hpoint
  | cons d frac =>
      have hall : ∀ c ∈ int, (!decide (c = '.')) = true := fun c hc => by rw [hpoint c hc]; rfl
      rw [spell_of_ne_nil (List.cons_ne_nil d frac), splitAt, List.takeWhile_append_of_pos hall,
        List.dropWhile_append_of_pos hall]
      simp

theorem stripSeparators_digits {s : Text} (h : ∀ c ∈ s, c.isDigit) {need saw : Bool}
    (hend : s = [] → need = false ∧ saw = true) : stripSeparators need saw s = some s := by
  induction s generalizing need saw with
  | nil =>
      obtain ⟨rfl, rfl⟩ := hend rfl
      rfl
  | cons c s ih =>
      have hc := h c List.mem_cons_self
      have hsep : c ≠ '_' := by
        rintro rfl
        cases hc
      rw [stripSeparators, if_neg hsep, if_pos hc, ih (fun c hc => h c (List.mem_cons_of_mem _ hc))
        fun _ => ⟨rfl, rfl⟩]
      rfl

theorem toLower_digit {c : Char} (h : c.isDigit) : c.toLower = c := by
  have hhi : c.toNat ≤ 57 := (Char.isDigit_iff_toNat.1 h).2
  unfold Char.toLower
  rw [dif_neg]
  rintro ⟨hlo, -⟩
  have hlo : 65 ≤ c.toNat := hlo
  omega

theorem splitSign_digits {s : Text} (h : ∀ c ∈ s.head?, c.isDigit) : splitSign s = (false, s) := by
  unfold splitSign
  split
  · cases h '-' rfl
  · cases h '+' rfl
  · rfl

theorem stripUnderscores_digits {s : Text} (h : ∀ c ∈ s, c.isDigit) :
    stripUnderscoresOptStrict s = some s := by
  cases s with
  | nil => rfl
  | cons c s =>
      have hsign : splitSign (c :: s) = (false, c :: s) := splitSign_digits fun d hd => by
        cases hd
        exact h c List.mem_cons_self
      rw [stripUnderscoresOptStrict, List.isEmpty_cons, if_neg Bool.false_ne_true,
        stripUnderscoresStrict, hsign]
      simp only
      rw [stripSeparators_digits h (by simp)]
      rfl

theorem splitMantissa_spell {int frac : Text} (hint : ∀ c ∈ int, c.isDigit) (hne : int ≠ [])
    (hfrac : ∀ c ∈ frac, c.isDigit) : splitMantissa (spell int frac) = .ok (int, frac) := by
  have hempty : int.isEmpty = false := by
    simpa using hne
  simp only [splitMantissa, splitAt_point hint]
  rw [stripUnderscores_digits hint, stripUnderscores_digits hfrac]
  simp only [orSyntax, Bind.bind, Except.bind, hempty, Bool.false_and, Bool.false_eq_true, if_false]

theorem plain_of_mem_spell {int frac : Text} (hint : ∀ c ∈ int, c.isDigit)
    (hfrac : ∀ c ∈ frac, c.isDigit) {c : Char} (hc : c ∈ spell int frac) : c.isDigit ∨ c = '.' := by
  unfold spell at hc
  split at hc
  · exact .inl (hint c hc)
  · rcases List.mem_append.1 hc with hc | hc
    · exact .inl (hint c hc)
    · rcases List.mem_cons.1 hc with rfl | hc
      · exact .inr rfl
      · exact .inl (hfrac c hc)

theorem plain_of_mem_signed {u : Int} {int frac : Text} (hint : ∀ c ∈ int, c.isDigit)
    (hfrac : ∀ c ∈ frac, c.isDigit) {c : Char} (hc : c ∈ signText u ++ spell int frac) : Plain c := by
  rcases List.mem_append.1 hc with hc | hc
  · unfold signText at hc
    split at hc
    · exact .inr (.inr (List.mem_singleton.1 hc))
    · cases hc
  · rcases plain_of_mem_spell hint hfrac hc with hc | hc
    · exact .inl hc
    · exact .inr (.inl hc)

theorem head_spell {int frac : Text} (hint : ∀ c ∈ int, c.isDigit) (hne : int ≠ []) :
    ∃ c s, spell int frac = c :: s ∧ c.isDigit := by
  cases int with
  | nil => exact absurd rfl hne
  | cons c int =>
      cases frac with
      | nil => exact ⟨c, int, rfl, hint c List.mem_cons_self⟩
      | cons d frac => exact ⟨c, int ++ '.' :: d :: frac, rfl, hint c List.mem_cons_self⟩

theorem splitSign_signed {u : Int} {c : Char} (hc : c.isDigit) (s : Text) :
    splitSign (signText u ++ c :: s) = (decide (u < 0), c :: s) := by
  unfold signText
  by_cases hu : u < 0
  · rw [if_pos hu, decide_eq_true hu]
    rfl
  · rw [if_neg hu, decide_eq_false hu]
    exact splitSign_digits fun d hd => by
      cases hd
      exact hc

theorem basePrefix_eq_none {s : Text} (h : ∀ c ∈ s, c.isDigit ∨ c = '.') : basePrefix s = none := by
  have hno : ∀ x, x.isDigit = false → x ≠ '.' → x ∉ s := by
    intro x hx hpoint hmem
    rcases h x hmem with hd | hd
    · rw [hx] at hd
      cases hd
    · exact hpoint hd
  unfold basePrefix
  split
  · exact absurd (by simp) (hno 'b' rfl (by decide))
  · exact absurd (by simp) (hno 'B' rfl (by decide))
  · exact absurd (by simp) (hno 'o' rfl (by decide))
  · exact absurd (by simp) (hno 'O' rfl (by decide))
  · exact absurd (by simp) (hno 'x' rfl (by decide))
  · exact absurd (by simp) (hno 'X' rfl (by decide))
  · rfl

/-- The text of a number is taken apart as it was put together. -/
theorem parse_signed {u : Int} {int frac : Text} (hint : ∀ c ∈ int, c.isDigit) (hne : int ≠ [])
    (hfrac : ∀ c ∈ frac, c.isDigit) :
    parse (signText u ++ spell int frac)
      = assemble (signText u ++ spell int frac) (decide (u < 0)) int frac 0 := by
  have hplain : ∀ c ∈ signText u ++ spell int frac, Plain c := fun c hc =>
    plain_of_mem_signed hint hfrac hc
  have hspell : ∀ c ∈ spell int frac, c.isDigit ∨ c = '.' := fun c hc =>
    plain_of_mem_spell hint hfrac hc
  have hexp : ∀ c ∈ spell int frac, isExp c = false := fun c hc =>
    (hplain c (List.mem_append_right _ hc)).not_exp
  obtain ⟨c, s, hhead, hc⟩ := @head_spell int frac hint hne
  have hword : ∀ d w, d.isDigit = false → (spell int frac).map Char.toLower ≠ d :: w := by
    intro d w hd hmap
    rw [hhead, List.map_cons, List.cons.injEq, toLower_digit hc] at hmap
    rw [← hmap.1, hc] at hd
    cases hd
  have hall : (int ++ frac).all Char.isDigit := by
    rw [List.all_eq_true]
    intro d hd
    rcases List.mem_append.1 hd with hd | hd
    · exact hint d hd
    · exact hfrac d hd
  have hsign : splitSign (signText u ++ spell int frac) = (decide (u < 0), spell int frac) := by
    rw [hhead]
    exact splitSign_signed hc s
  have hnotempty : (signText u ++ spell int frac).isEmpty = false := by
    rw [hhead]
    simp
  have hdecimal : parseDecimal (signText u ++ spell int frac) (decide (u < 0)) (spell int frac)
      = assemble (signText u ++ spell int frac) (decide (u < 0)) int frac 0 := by
    unfold parseDecimal
    rw [splitAt_of_forall hexp, splitMantissa_spell hint hne hfrac]
    simp only [readExp, List.isEmpty_nil, if_true, Bind.bind, Except.bind, hall]
  simp only [parse, trim_eq_self hplain, hnotempty, hsign, basePrefix_eq_none hspell, hdecimal,
    Bool.false_eq_true, if_false]
  rw [if_neg (show _ ≠ "nan".toList from hword 'n' ['a', 'n'] rfl), if_neg]
  rintro (h | h)
  · exact hword 'i' ['n', 'f'] rfl h
  · exact hword 'i' ['n', 'f', 'i', 'n', 'i', 't', 'y'] rfl h


theorem bigReading_signed {u : Int} {int frac : Text} (hint : ∀ c ∈ int, c.isDigit) (hne : int ≠ [])
    (hfrac : ∀ c ∈ frac, c.isDigit) :
    BigReading (signText u ++ spell int frac) (decide (u < 0)) int frac 0 := by
  have hplain : ∀ c ∈ signText u ++ spell int frac, Plain c := fun c hc =>
    plain_of_mem_signed hint hfrac hc
  have hexp : ∀ c ∈ spell int frac, isExp c = false := fun c hc =>
    (hplain c (List.mem_append_right _ hc)).not_exp
  have hany : (spell int frac).any isExp = false := List.any_eq_false.2 fun c hc => by
    rw [hexp c hc]
    exact Bool.false_ne_true
  obtain ⟨c, s, hhead, hc⟩ := @head_spell int frac hint hne
  have hsign : splitSign (signText u ++ spell int frac) = (decide (u < 0), spell int frac) := by
    rw [hhead]
    exact splitSign_signed hc s
  unfold BigReading
  simp only [BigDec.parseDecimal, trim_eq_self hplain, hsign, readBigExp, hany, splitAt_of_forall hexp,
    splitMantissa_spell hint hne hfrac, Bool.false_eq_true, if_false, Bind.bind, Except.bind]

/-! ## Reading a text back -/

/-- The text of an integer with places has no more digits than the parser takes. -/
def ShortText (u : Int) (places : Nat) : Prop := Fits (wholeDigits u.natAbs places) (fracDigits u.natAbs places) 0

instance (u : Int) (places : Nat) : Decidable (ShortText u places) := by
  unfold ShortText
  infer_instance

theorem signed_self' (u : Int) : signed (decide (u < 0)) u.natAbs = u := signed_self u

/-- An integer with places is read back from its text. -/
theorem parse_text (u : Int) (places : Nat) :
    if ShortText u places then
      ∃ n, parse (signText u ++ spell (wholeDigits u.natAbs places) (fracDigits u.natAbs places)) = .ok n ∧
        n.ReadAs (scaled u places) places
    else
      parse (signText u ++ spell (wholeDigits u.natAbs places) (fracDigits u.natAbs places)) = .error .overflow := by
  have hint : ∀ c ∈ wholeDigits u.natAbs places, c.isDigit := fun _ => isDigit_of_mem_wholeDigits
  have hfrac : ∀ c ∈ fracDigits u.natAbs places, c.isDigit := fun _ => isDigit_of_mem_fracDigits
  have hne := wholeDigits_ne_nil u.natAbs places
  have hall : ∀ c ∈ wholeDigits u.natAbs places ++ fracDigits u.natAbs places, c.isDigit := by
    rw [int_append_frac]
    exact fun _ => isDigit_of_mem_padded
  have hspec := assemble_spec hall (by decide) (bigReading_signed (u := u) hint hne hfrac)
  have hvalue : digitsValue (decide (u < 0)) (wholeDigits u.natAbs places) (fracDigits u.natAbs places) 0
      = scaled u places := by
    rw [digitsValue, int_append_frac, value_padded, length_fracDigits, signed_self', Int.sub_zero]
  rw [hvalue, length_fracDigits, Int.sub_zero] at hspec
  rw [parse_signed hint hne hfrac]
  exact hspec

/-! ## Kinds of mantissas -/

/-- The mantissa with no scale below zero. -/
def whole (n : Numeric) : Int := n.coef * 10 ^ (-n.scale).toNat

theorem coef_of_value {n r : Numeric} (hn : n.Wf) (hr : r.Wf) (hscale : 0 ≤ r.scale) (h : r.value = n.value) :
    r.coef = n.whole := by
  have hsame : r.scale = max n.scale 0 := by
    rcases Int.lt_trichotomy r.scale n.scale with hlt | heq | hgt
    · have hle := scale_nonpos hn h hlt
      omega
    · omega
    · have hle := scale_nonpos hr h.symm hgt
      omega
  rw [value, value, ← scaled_pad (show n.scale ≤ r.scale by omega), scaled_inj] at h
  rw [h, whole, hsame]
  congr 2
  omega

/-- A number read back has the same kind of mantissa unless the machine integer holds it no more. -/
theorem kind_of_value {n r : Numeric} (hn : n.Wf) (hr : r.Wf) (hscale : 0 ≤ r.scale) (h : r.value = n.value)
    (hsmall : r.big = none → r.unscaled.natAbs ≤ BigUint.i128Max) :
    r.big.isSome = n.big.isSome ↔ (n.big = none → n.whole.natAbs ≤ BigUint.i128Max) := by
  have hcoef := coef_of_value hn hr hscale h
  cases hrb : r.big with
  | none =>
      have hle := hsmall hrb
      rw [← coef_inline hrb, hcoef] at hle
      cases hnb : n.big with
      | none => exact ⟨fun _ _ => hle, fun _ => rfl⟩
      | some m =>
          have hlarge := hn.big_large m hnb
          have hmag := hn.toNat_mag
          have hgrow : n.coef.natAbs ≤ n.whole.natAbs := by
            rw [whole, natAbs_mul_pow]
            exact Nat.le_mul_of_pos_right _ (Nat.pow_pos (by decide))
          unfold mag at hmag
          rw [hnb] at hmag
          dsimp only at hmag
          omega
  | some m =>
      have hlarge := hr.big_large m hrb
      have hmag := hr.toNat_mag
      unfold mag at hmag
      rw [hrb] at hmag
      dsimp only at hmag
      rw [hcoef] at hmag
      cases hnb : n.big with
      | none =>
          constructor
          · intro hcon
            cases hcon
          · intro hcon
            have hle := hcon rfl
            omega
      | some k => exact ⟨fun _ hcon => (Option.some_ne_none k hcon).elim, fun _ => rfl⟩

/-! ## Round trips -/

/-- How many digits a text has behind the point. -/
def fractionDigits (s : Text) : Nat := (splitAt (· = '.') s).2.length

theorem fractionDigits_signed {u : Int} {int frac : Text} (hint : ∀ c ∈ int, c.isDigit) :
    fractionDigits (signText u ++ spell int frac) = frac.length := by
  have hdrop : (splitAt (· = '.') (signText u ++ spell int frac)).2 = (splitAt (· = '.') (spell int frac)).2 := by
    unfold signText
    split
    · rfl
    · rfl
  rw [fractionDigits, hdrop, splitAt_point hint]

/-- The text shows the display scale, and it is read back as an equal number with the same text. -/
def RoundTrips (n : Numeric) : Prop :=
  fractionDigits n.toText = n.dscale ∧
    ∃ r, parse n.toText = .ok r ∧ r.cmp n = .eq ∧ r.dscale = n.dscale ∧ r.toText = n.toText

/-- The text is short, the display scale is shown, and a machine mantissa is still one with its scale spelled
out. -/
def Printable (n : Numeric) : Prop :=
  if n.special = .finite then
    ShortText n.shifted n.places ∧ n.dscale = n.places ∧ (n.big = none → n.whole.natAbs ≤ BigUint.i128Max)
  else n.dscale = 0

instance (n : Numeric) : Decidable n.Printable := by
  unfold Printable
  infer_instance

/-- Equal numbers with the same digits shown have the same text. -/
theorem toText_congr {a b : Numeric} (ha : a.Wf) (hb : b.Wf) (hfa : a.special = .finite) (hfb : b.special = .finite)
    (hla : a.scale ≠ -2 ^ 31) (hlb : b.scale ≠ -2 ^ 31) (hvalue : a.value = b.value)
    (hplaces : a.places = b.places) : a.toText = b.toText := by
  have hshifted : a.shifted = b.shifted := by
    rw [ha.value_eq_shifted, hb.value_eq_shifted, hplaces, scaled_inj] at hvalue
    exact hvalue
  rw [toText_eq ha hfa hla, toText_eq hb hfb hlb, hshifted, hplaces]

theorem places_of_nonneg {n : Numeric} (h : 0 ≤ n.scale) : n.places = n.dscale := by
  rw [places, if_neg]
  rintro ⟨-, hs⟩
  omega

theorem roundTrips_finite {n : Numeric} (hwf : n.Wf) (hfin : n.special = .finite) (hlow : n.scale ≠ -2 ^ 31) :
    n.RoundTrips ↔ n.Printable := by
  have hcount : fractionDigits n.toText = n.places := by
    rw [toText_eq hwf hfin hlow, fractionDigits_signed fun _ => isDigit_of_mem_wholeDigits, length_fracDigits]
  have hparse := parse_text n.shifted n.places
  rw [← toText_eq hwf hfin hlow] at hparse
  unfold RoundTrips Printable
  rw [if_pos hfin, hcount]
  by_cases hshort : ShortText n.shifted n.places
  · rw [if_pos hshort, ← hwf.value_eq_shifted] at hparse
    obtain ⟨r, hr, hbuilds, hsmall, hscale⟩ := hparse
    have hnonneg := hscale (Int.natCast_nonneg _)
    have hdscale := hbuilds.dscale_eq
    rw [Int.toNat_natCast] at hdscale
    have hkind := kind_of_value hwf hbuilds.wf hnonneg hbuilds.value_eq hsmall
    have hcmp := cmp_eq_iff hbuilds.wf hwf hbuilds.finite hfin
    constructor
    · rintro ⟨hplaces, r', hr', heq, -, -⟩
      rw [hr] at hr'
      cases hr'
      exact ⟨hshort, hplaces.symm, hkind.1 (hcmp.1 heq).2⟩
    · rintro ⟨-, hplaces, hinline⟩
      refine ⟨hplaces.symm, r, hr, hcmp.2 ⟨hbuilds.value_eq, hkind.2 hinline⟩, by omega, ?_⟩
      have hrp := places_of_nonneg hnonneg
      exact toText_congr hbuilds.wf hwf hbuilds.finite hfin (by omega) hlow hbuilds.value_eq (by omega)
  · rw [if_neg hshort] at hparse
    constructor
    · rintro ⟨-, r, hr, -⟩
      rw [hparse] at hr
      cases hr
    · rintro ⟨hcon, -⟩
      exact absurd hcon hshort

/-- At the lowest scale the text leaves the zeros out. -/
theorem roundTrips_lowest {n : Numeric} (hwf : n.Wf) (hfin : n.special = .finite) (hlow : n.scale = -2 ^ 31) :
    ¬n.RoundTrips ∧ ¬n.Printable := by
  have hu : n.unscaled ≠ 0 := fun hz => by
    have hscale := hwf.zero_scale hz
    omega
  have hne : n.coef ≠ 0 := fun hz => hu (hwf.coef_eq_zero.1 hz)
  have hneg := hwf.coef_neg
  have hpos : 0 < n.coef.natAbs := Int.natAbs_pos.2 hne
  have hplaces : n.places = 0 := by
    rw [places, if_pos ⟨hu, by omega⟩]
  constructor
  · rintro ⟨-, r, hr, hcmp, -, -⟩
    have hsign : signText n.unscaled = signText n.coef := by
      simp only [signText, hneg]
    have htext : n.toText = signText n.coef ++ spell (wholeDigits n.coef.natAbs 0) (fracDigits n.coef.natAbs 0) := by
      have hspell := spell_whole hpos 0
      rw [pow_zero, Nat.mul_one] at hspell
      unfold toText
      rw [hfin]
      dsimp only
      rw [if_neg hu, if_pos (by omega), hlow, hsign, hwf.textDigits_eq, hspell, List.append_assoc]
      rfl
    have hparse := parse_text n.coef 0
    rw [← htext] at hparse
    split at hparse
    · obtain ⟨r', hr', hbuilds, -, -⟩ := hparse
      rw [hr] at hr'
      cases hr'
      have hvalue := ((cmp_eq_iff hbuilds.wf hwf hbuilds.finite hfin).1 hcmp).1
      have hpad := scaled_pad (u := n.coef) (show n.scale ≤ 0 by omega)
      rw [hbuilds.value_eq, value, ← hpad, Int.natCast_zero, scaled_inj] at hvalue
      have hone : (10 : Int) ^ (0 - n.scale).toNat = 1 := mul_left_cancel₀ hne (by rw [← hvalue, mul_one])
      exact (one_lt_pow₀ (by decide : (1 : Int) < 10) (by omega)).ne' hone
    · rw [hr] at hparse
      cases hparse
  · unfold Printable
    rw [if_pos hfin, hplaces]
    rintro ⟨⟨hint, -, -⟩, -⟩
    have hdigits := numDigits_mul_pow hpos (-n.scale).toNat
    have hshifted : n.shifted.natAbs = n.coef.natAbs * 10 ^ (-n.scale).toNat := by
      rw [shifted, hplaces, natAbs_mul_pow, Int.natCast_zero, Int.zero_sub]
    rw [hshifted, length_wholeDigits, toDigits_length (Nat.mul_pos hpos (Nat.pow_pos (by decide))), hdigits] at hint
    unfold maxIntDigits at hint
    omega

/-- A value that is not finite is read back as it is made. -/
theorem roundTrips_const {n k : Numeric} (hwf : n.Wf) (hk : k.Wf) (hsame : k.special = n.special)
    (hspecial : n.special ≠ .finite) (htext : n.toText = k.toText) (hparse : parse k.toText = .ok k)
    (hzero : k.dscale = 0) (hcount : fractionDigits k.toText = 0) : n.RoundTrips ↔ n.Printable := by
  unfold RoundTrips Printable
  rw [if_neg hspecial, htext, hcount]
  constructor
  · rintro ⟨hd, -⟩
    exact hd.symm
  · intro hd
    refine ⟨hd.symm, k, hparse, ?_, by rw [hzero, hd], rfl⟩
    have hdenote : k.denote = n.denote := by
      rw [denote, denote, hsame]
      cases hs : n.special with
      | finite => exact absurd hs hspecial
      | nan | posInf | negInf => rfl
    rw [(cmp_eq_denote_iff hk hwf).2 fun h => hspecial h.2.1, hdenote]
    exact compare_eq_iff_eq.2 rfl

theorem wf_special (s : NumericSpecial) : Wf ⟨0, 0, 0, s, none⟩ := {
  unscaled_range := (by decide : InI128 0)
  scale_range := (by decide : InI32 0)
  special_zero := fun _ => ⟨rfl, rfl, rfl⟩
  big_sign := fun m hm => (Option.some_ne_none m hm.symm).elim
  big_large := fun m hm => (Option.some_ne_none m hm.symm).elim
  big_digits := fun m hm => (Option.some_ne_none m hm.symm).elim
  zero_scale := fun _ => rfl
  stripped := fun hs => absurd hs (Int.lt_irrefl 0)
  shown := Int.le_refl 0 }

end Numeric

end Num