-- SUMMARY: jsonb order, equality, grouping keys and containment: where they agree.
import Rustgres.Lib.Orderings
import Rustgres.Lib.Utf8
import Rustgres.Json.Comparison

/-!
# The Laws of Comparison

The order is total, containment is reflexive and transitive, and equal values can replace one another. Grouping keys
read back as the document up to the form of its numbers, so they follow equality where the numbers' keys do.
-/

namespace Json

open Num Bytes Orderings

/-! ## Documents -/

@[elab_as_elim]
theorem JsonbVal.ind {P : JsonbVal → Prop} (null : P .null) (bool : ∀ b, P (.bool b)) (number : ∀ n, P (.number n))
    (str : ∀ s, P (.str s)) (array : ∀ elems, (∀ e ∈ elems, P e) → P (.array elems))
    (object : ∀ pairs, (∀ p ∈ pairs, P p.2) → P (.object pairs)) (v : JsonbVal) : P v :=
  @JsonbVal.rec P (fun l => ∀ e ∈ l, P e) (fun l => ∀ p ∈ l, P p.2) (fun p => P p.2) null bool number str array object
    (fun _ h => absurd h List.not_mem_nil) (fun _ _ he hl => List.forall_mem_cons.2 ⟨he, hl⟩)
    (fun _ h => absurd h List.not_mem_nil) (fun _ _ hp hl => List.forall_mem_cons.2 ⟨hp, hl⟩) (fun _ _ hv => hv) v

/-- Two documents of one kind. -/
inductive SameKind : JsonbVal → JsonbVal → Prop where
  | null : SameKind .null .null
  | bool (x y : Bool) : SameKind (.bool x) (.bool y)
  | number (x y : Numeric) : SameKind (.number x) (.number y)
  | str (x y : Text) : SameKind (.str x) (.str y)
  | array (x y : List JsonbVal) : SameKind (.array x) (.array y)
  | object (x y : List (Text × JsonbVal)) : SameKind (.object x) (.object y)

theorem sameKind_of_rank {a b : JsonbVal} (h : jsonbTypeRank a = jsonbTypeRank b) : SameKind a b := by
  cases a with
  | null | bool | number | str | array | object =>
      cases b with
      | null | bool | number | str | array | object =>
          first
          | constructor
          | cases h

mutual

/-- The same documents up to numbers that are related. -/
def Alike (r : Numeric → Numeric → Prop) : JsonbVal → JsonbVal → Prop
  | .null, .null => True
  | .bool x, .bool y => x = y
  | .number x, .number y => r x y
  | .str x, .str y => x = y
  | .array x, .array y => AlikeElems r x y
  | .object x, .object y => AlikePairs r x y
  | _, _ => False

def AlikeElems (r : Numeric → Numeric → Prop) : List JsonbVal → List JsonbVal → Prop
  | [], [] => True
  | a :: x, b :: y => Alike r a b ∧ AlikeElems r x y
  | _, _ => False

def AlikePairs (r : Numeric → Numeric → Prop) : List (Text × JsonbVal) → List (Text × JsonbVal) → Prop
  | [], [] => True
  | (k, a) :: x, (l, b) :: y => k = l ∧ Alike r a b ∧ AlikePairs r x y
  | _, _ => False

end

theorem alike_rank {r : Numeric → Numeric → Prop} {a b : JsonbVal} (h : Alike r a b) :
    jsonbTypeRank a = jsonbTypeRank b := by
  cases a with
  | null | bool | number | str | array | object =>
      cases b with
      | null | bool | number | str | array | object =>
          first
          | rfl
          | cases h

theorem canonicalElems_iff {elems : List JsonbVal} : CanonicalElems elems ↔ ∀ e ∈ elems, e.Canonical := by
  induction elems with
  | nil => simp [CanonicalElems]
  | cons e elems ih => rw [CanonicalElems, List.forall_mem_cons, ih]

theorem canonicalPairs_iff {pairs : List (Text × JsonbVal)} : CanonicalPairs pairs ↔ ∀ p ∈ pairs, p.2.Canonical := by
  induction pairs with
  | nil => simp [CanonicalPairs]
  | cons p pairs ih => rw [CanonicalPairs, List.forall_mem_cons, ih]

/-! ## The order -/

theorem utf8_inj {s t : Text} (h : utf8 s = utf8 t) : s = t :=
  String.ofList_injective (Utf8.bytes_inj h)

theorem compare_utf8 {s t : Text} : compare (utf8 s) (utf8 t) = .eq ↔ s = t := by
  rw [Std.LawfulEqCmp.compare_eq_iff_eq]
  exact ⟨utf8_inj, fun h => by rw [h]⟩

/-- What decides between values of one kind. -/
def cmpSame : JsonbVal → JsonbVal → Ordering
  | .str x, .str y => compare (utf8 x) (utf8 y)
  | .number x, .number y => x.cmp y
  | .bool x, .bool y => compare x y
  | .array x, .array y => (compare x.length y.length).then (cmpElems x y)
  | .object x, .object y => (compare x.length y.length).then (cmpPairs x y)
  | _, _ => .eq

theorem compare_then {m n : Nat} (o : Ordering) :
    (if m ≠ n then compare m n else o) = (compare m n).then o := by
  by_cases h : m = n
  · rw [if_neg (not_not.2 h), compare_eq_iff_eq.2 h]
    rfl
  · rw [if_pos h]
    rcases lt_trichotomy m n with hlt | heq | hgt
    · rw [compare_lt_iff_lt.2 hlt]
      rfl
    · exact absurd heq h
    · rw [compare_gt_iff_gt.2 hgt]
      rfl

theorem jsonbCmp_eq (a b : JsonbVal) :
    jsonbCmp a b = (compare (jsonbTypeRank a) (jsonbTypeRank b)).then (cmpSame a b) := by
  rw [← compare_then]
  by_cases h : jsonbTypeRank a = jsonbTypeRank b
  · rw [if_neg (not_not.2 h)]
    cases sameKind_of_rank h with
    | null | bool | number | str => simp [jsonbCmp, jsonbTypeRank, cmpSame]
    | array | object => simp [jsonbCmp, jsonbTypeRank, cmpSame, ← compare_then]
  · unfold jsonbCmp
    rw [if_pos h, if_pos h]

theorem swap_bytes {x y : List UInt8} : compare x y = (compare y x).swap := Std.OrientedCmp.eq_swap

theorem swap_bool {x y : Bool} : compare x y = (compare y x).swap := Std.OrientedCmp.eq_swap

theorem swap_compare {m n : Nat} : compare m n = (compare n m).swap := Std.OrientedCmp.eq_swap

theorem swap_elems {x y : List JsonbVal}
    (ih : ∀ a ∈ x, ∀ b, a.Canonical → b.Canonical → jsonbCmp b a = (jsonbCmp a b).swap) (hx : CanonicalElems x)
    (hy : CanonicalElems y) : cmpElems y x = (cmpElems x y).swap := by
  induction x generalizing y with
  | nil => cases y <;> rfl
  | cons a x ih' =>
      cases y with
      | nil => rfl
      | cons b y =>
          obtain ⟨ha, hrest⟩ := List.forall_mem_cons.1 ih
          rw [cmpElems, cmpElems, Ordering.swap_then, ha b hx.1 hy.1, ih' hrest hx.2 hy.2]

theorem swap_pairs {x y : List (Text × JsonbVal)}
    (ih : ∀ p ∈ x, ∀ b, p.2.Canonical → b.Canonical → jsonbCmp b p.2 = (jsonbCmp p.2 b).swap) (hx : CanonicalPairs x)
    (hy : CanonicalPairs y) : cmpPairs y x = (cmpPairs x y).swap := by
  induction x generalizing y with
  | nil => cases y <;> rfl
  | cons p x ih' =>
      cases y with
      | nil => rfl
      | cons q y =>
          obtain ⟨ha, hrest⟩ := List.forall_mem_cons.1 ih
          rw [cmpPairs, cmpPairs, Ordering.swap_then, Ordering.swap_then, ha q.2 hx.1 hy.1, ih' hrest hx.2 hy.2,
            swap_bytes]

theorem jsonbCmp_swap {a b : JsonbVal} (ha : a.Canonical) (hb : b.Canonical) :
    jsonbCmp b a = (jsonbCmp a b).swap := by
  induction a using JsonbVal.ind generalizing b with
  | null =>
      rw [jsonbCmp_eq, jsonbCmp_eq .null, Ordering.swap_then, swap_compare]
      cases b with
      | null | bool | number | str | array | object => rfl
  | bool x =>
      rw [jsonbCmp_eq, jsonbCmp_eq (.bool x), Ordering.swap_then, swap_compare]
      congr 1
      cases b with
      | bool y => exact swap_bool
      | null | number | str | array | object => rfl
  | number x =>
      rw [jsonbCmp_eq, jsonbCmp_eq (.number x), Ordering.swap_then, swap_compare]
      congr 1
      cases b with
      | number y => exact Numeric.cmp_swap ha hb
      | null | bool | str | array | object => rfl
  | str x =>
      rw [jsonbCmp_eq, jsonbCmp_eq (.str x), Ordering.swap_then, swap_compare]
      congr 1
      cases b with
      | str y => exact swap_bytes
      | null | bool | number | array | object => rfl
  | array x ih =>
      rw [jsonbCmp_eq, jsonbCmp_eq (.array x), Ordering.swap_then, swap_compare]
      congr 1
      cases b with
      | array y =>
          rw [cmpSame, cmpSame, Ordering.swap_then, swap_compare, swap_elems (fun a ha _ => ih a ha) ha hb]
      | null | bool | number | str | object => rfl
  | object x ih =>
      rw [jsonbCmp_eq, jsonbCmp_eq (.object x), Ordering.swap_then, swap_compare]
      congr 1
      cases b with
      | object y =>
          rw [cmpSame, cmpSame, Ordering.swap_then, swap_compare, swap_pairs (fun p hp _ => ih p hp) ha.2 hb.2]
      | null | bool | number | str | array => rfl

theorem jsonbCmp_self {a : JsonbVal} (ha : a.Canonical) : jsonbCmp a a = .eq := by
  have hswap := jsonbCmp_swap ha ha
  cases h : jsonbCmp a a with
  | eq => rfl
  | lt | gt =>
      rw [h] at hswap
      cases hswap

theorem consistent_elems {x y z : List JsonbVal}
    (ih : ∀ a ∈ x, ∀ b c, a.Canonical → b.Canonical → c.Canonical →
      Consistent (jsonbCmp a b) (jsonbCmp b c) (jsonbCmp a c))
    (hx : CanonicalElems x) (hy : CanonicalElems y) (hz : CanonicalElems z) (hxy : x.length = y.length)
    (hyz : y.length = z.length) : Consistent (cmpElems x y) (cmpElems y z) (cmpElems x z) := by
  induction x generalizing y z with
  | nil =>
      cases y with
      | cons => cases hxy
      | nil => exact .of_eq
  | cons a x ih' =>
      cases y with
      | nil => cases hxy
      | cons b y =>
          cases z with
          | nil => cases hyz
          | cons c z =>
              obtain ⟨ha, hrest⟩ := List.forall_mem_cons.1 ih
              rw [cmpElems, cmpElems, cmpElems]
              exact (ha b c hx.1 hy.1 hz.1).andThen fun _ _ =>
                ih' hrest hx.2 hy.2 hz.2 (Nat.succ.inj hxy) (Nat.succ.inj hyz)

theorem consistent_pairs {x y z : List (Text × JsonbVal)}
    (ih : ∀ p ∈ x, ∀ b c, p.2.Canonical → b.Canonical → c.Canonical →
      Consistent (jsonbCmp p.2 b) (jsonbCmp b c) (jsonbCmp p.2 c))
    (hx : CanonicalPairs x) (hy : CanonicalPairs y) (hz : CanonicalPairs z) (hxy : x.length = y.length)
    (hyz : y.length = z.length) : Consistent (cmpPairs x y) (cmpPairs y z) (cmpPairs x z) := by
  induction x generalizing y z with
  | nil =>
      cases y with
      | cons => cases hxy
      | nil => exact .of_eq
  | cons p x ih' =>
      cases y with
      | nil => cases hxy
      | cons q y =>
          cases z with
          | nil => cases hyz
          | cons r z =>
              obtain ⟨hp, hrest⟩ := List.forall_mem_cons.1 ih
              rw [cmpPairs, cmpPairs, cmpPairs]
              exact (Consistent.of_trans _ _ _).andThen fun _ _ =>
                (hp q.2 r.2 hx.1 hy.1 hz.1).andThen fun _ _ =>
                  ih' hrest hx.2 hy.2 hz.2 (Nat.succ.inj hxy) (Nat.succ.inj hyz)

theorem consistent_number {x y z : Numeric} (hx : x.Wf) (hy : y.Wf) (hz : z.Wf) :
    Consistent (x.cmp y) (y.cmp z) (x.cmp z) := by
  rw [Numeric.cmp_eq_position hx hy, Numeric.cmp_eq_position hy hz, Numeric.cmp_eq_position hx hz]
  exact .of_trans _ _ _

/-- It is enough to look at values of one kind. -/
theorem consistent_kind {a b c : JsonbVal}
    (h : SameKind a b → SameKind b c → Consistent (cmpSame a b) (cmpSame b c) (cmpSame a c)) :
    Consistent (jsonbCmp a b) (jsonbCmp b c) (jsonbCmp a c) := by
  rw [jsonbCmp_eq, jsonbCmp_eq b, jsonbCmp_eq a c]
  exact (Consistent.of_trans _ _ _).andThen fun hab hbc =>
    h (sameKind_of_rank (compare_eq_iff_eq.1 hab)) (sameKind_of_rank (compare_eq_iff_eq.1 hbc))

theorem jsonbCmp_consistent {a b c : JsonbVal} (ha : a.Canonical) (hb : b.Canonical) (hc : c.Canonical) :
    Consistent (jsonbCmp a b) (jsonbCmp b c) (jsonbCmp a c) := by
  induction a using JsonbVal.ind generalizing b c with
  | null =>
      refine consistent_kind fun hab hbc => ?_
      cases hab
      cases hbc
      exact .of_eq
  | bool x =>
      refine consistent_kind fun hab hbc => ?_
      cases hab
      cases hbc
      change Consistent (compare x _) (compare _ _) (compare x _)
      exact .of_trans _ _ _
  | number x =>
      refine consistent_kind fun hab hbc => ?_
      cases hab
      cases hbc
      exact consistent_number ha hb hc
  | str x =>
      refine consistent_kind fun hab hbc => ?_
      cases hab
      cases hbc
      change Consistent (compare (utf8 x) _) (compare _ _) (compare (utf8 x) _)
      exact .of_trans _ _ _
  | array x ih =>
      refine consistent_kind fun hab hbc => ?_
      cases hab
      cases hbc
      refine (Consistent.of_trans _ _ _).andThen fun hxy hyz => ?_
      exact consistent_elems (fun a hmem b c ha hb hc => ih a hmem ha hb hc) ha hb hc
        (compare_eq_iff_eq.1 hxy) (compare_eq_iff_eq.1 hyz)
  | object x ih =>
      refine consistent_kind fun hab hbc => ?_
      cases hab
      cases hbc
      refine (Consistent.of_trans _ _ _).andThen fun hxy hyz => ?_
      exact consistent_pairs (fun p hmem b c hp hb hc => ih p hmem hp hb hc) ha.2 hb.2 hc.2
        (compare_eq_iff_eq.1 hxy) (compare_eq_iff_eq.1 hyz)

/-! ## Equality -/

theorem alike_elems {r : Numeric → Numeric → Prop} {x y : List JsonbVal}
    (ih : ∀ a ∈ x, ∀ b, jsonbCmp a b = .eq ↔ Alike r a b) :
    x.length = y.length ∧ cmpElems x y = .eq ↔ AlikeElems r x y := by
  induction x generalizing y with
  | nil =>
      cases y with
      | nil => simp [cmpElems, AlikeElems]
      | cons b y => simp [AlikeElems]
  | cons a x ih' =>
      cases y with
      | nil => simp [AlikeElems]
      | cons b y =>
          obtain ⟨ha, hrest⟩ := List.forall_mem_cons.1 ih
          rw [cmpElems, AlikeElems, Ordering.then_eq_eq, ha b, ← ih' hrest, List.length_cons, List.length_cons,
            Nat.add_right_cancel_iff]
          tauto

theorem alike_pairs {r : Numeric → Numeric → Prop} {x y : List (Text × JsonbVal)}
    (ih : ∀ p ∈ x, ∀ b, jsonbCmp p.2 b = .eq ↔ Alike r p.2 b) :
    x.length = y.length ∧ cmpPairs x y = .eq ↔ AlikePairs r x y := by
  induction x generalizing y with
  | nil =>
      cases y with
      | nil => simp [cmpPairs, AlikePairs]
      | cons q y => simp [AlikePairs]
  | cons p x ih' =>
      cases y with
      | nil => simp [AlikePairs]
      | cons q y =>
          obtain ⟨hp, hrest⟩ := List.forall_mem_cons.1 ih
          rw [cmpPairs, AlikePairs, Ordering.then_eq_eq, Ordering.then_eq_eq, hp q.2, ← ih' hrest, compare_utf8,
            List.length_cons, List.length_cons, Nat.add_right_cancel_iff]
          tauto

theorem eq_iff_kind {r : Numeric → Numeric → Prop} {a b : JsonbVal}
    (h : SameKind a b → (cmpSame a b = .eq ↔ Alike r a b)) : jsonbCmp a b = .eq ↔ Alike r a b := by
  rw [jsonbCmp_eq, Ordering.then_eq_eq, compare_eq_iff_eq]
  constructor
  · rintro ⟨hrank, heq⟩
    exact (h (sameKind_of_rank hrank)).1 heq
  · intro halike
    have hrank := alike_rank halike
    exact ⟨hrank, (h (sameKind_of_rank hrank)).2 halike⟩

/-- Equal documents differ only in the form of equal numbers. -/
theorem jsonbCmp_eq_iff {a b : JsonbVal} : jsonbCmp a b = .eq ↔ Alike (fun x y => x.cmp y = .eq) a b := by
  induction a using JsonbVal.ind generalizing b with
  | null =>
      refine eq_iff_kind fun hab => ?_
      cases hab
      simp [cmpSame, Alike]
  | bool x =>
      refine eq_iff_kind fun hab => ?_
      cases hab
      rw [cmpSame, Alike, Std.LawfulEqCmp.compare_eq_iff_eq]
  | number x =>
      refine eq_iff_kind fun hab => ?_
      cases hab
      rw [cmpSame, Alike]
  | str x =>
      refine eq_iff_kind fun hab => ?_
      cases hab
      rw [cmpSame, Alike, compare_utf8]
  | array x ih =>
      refine eq_iff_kind fun hab => ?_
      cases hab
      rw [cmpSame, Alike, Ordering.then_eq_eq, compare_eq_iff_eq, alike_elems fun a ha b => ih a ha]
  | object x ih =>
      refine eq_iff_kind fun hab => ?_
      cases hab
      rw [cmpSame, Alike, Ordering.then_eq_eq, compare_eq_iff_eq, alike_pairs fun p hp b => ih p hp]

/-! ## Numbers -/

/-- The same number, with the mantissa held in the same way. -/
def SameValue (x y : Numeric) : Prop :=
  x.special = y.special ∧ x.value = y.value ∧ x.big.isSome = y.big.isSome

/-- The same mantissa at the same scale, scales below zero taken as zero. -/
def SameForm (x y : Numeric) : Prop :=
  x.special = y.special ∧ x.coef = y.coef ∧ max x.scale 0 = max y.scale 0

theorem special_same {x y : Numeric} (hx : x.Wf) (hy : y.Wf) (hs : x.special = y.special) (hf : x.special ≠ .finite) :
    x.cmp y = .eq ∧ x.hashKey = y.hashKey ∧ SameValue x y ∧ SameForm x y := by
  have hcoef : ∀ {n : Numeric}, n.Wf → n.special ≠ .finite → n.coef = 0 ∧ n.scale = 0 ∧ n.big = none := by
    intro n hn hf
    obtain ⟨hu, hscale, hbig⟩ := hn.special_zero hf
    exact ⟨by rw [Numeric.coef_inline hbig, hu], hscale, hbig⟩
  obtain ⟨hxc, hxs, hxb⟩ := hcoef hx hf
  obtain ⟨hyc, hys, hyb⟩ := hcoef hy (hs ▸ hf)
  refine ⟨?_, ?_, ⟨hs, ?_, by rw [hxb, hyb]⟩, hs, by rw [hxc, hyc], by rw [hxs, hys]⟩
  · unfold Numeric.cmp
    rw [← hs]
    cases h : x.special with
    | finite => exact absurd h hf
    | nan | posInf | negInf => rfl
  · rw [Numeric.hashKey, Numeric.hashKey, if_pos hf, if_pos (hs ▸ hf), hs]
  · rw [Numeric.value, Numeric.value, hxc, hyc, hxs, hys]

theorem cmp_iff_sameValue {x y : Numeric} (hx : x.Wf) (hy : y.Wf) : x.cmp y = .eq ↔ SameValue x y := by
  by_cases hs : x.special = y.special
  · by_cases hf : x.special = .finite
    · rw [Numeric.cmp_eq_iff hx hy hf (hs ▸ hf), SameValue]
      simp [hs]
    · obtain ⟨hcmp, -, hvalue, -⟩ := special_same hx hy hs hf
      simp [hcmp, hvalue]
  · have hcmp : x.cmp y ≠ .eq := fun h => hs (Numeric.special_of_cmp h)
    simp [hcmp, SameValue, hs]

theorem hashKey_iff_sameForm {x y : Numeric} (hx : x.Wf) (hy : y.Wf) : x.hashKey = y.hashKey ↔ SameForm x y := by
  by_cases hs : x.special = y.special
  · by_cases hf : x.special = .finite
    · rw [Numeric.hashKey_eq_iff hx hy hf (hs ▸ hf), SameForm]
      simp [hs]
    · obtain ⟨-, hkey, -, hform⟩ := special_same hx hy hs hf
      simp [hkey, hform]
  · have hkey : x.hashKey ≠ y.hashKey := fun h => hs (by rw [← Numeric.special_hashKey hx, ← Numeric.special_hashKey hy, h])
    simp [hkey, SameForm, hs]

/-- Relations that agree on the numbers of canonical documents. -/
theorem Alike.congr {r s : Numeric → Numeric → Prop} (h : ∀ x y, x.Wf → y.Wf → (r x y ↔ s x y)) {a b : JsonbVal}
    (ha : a.Canonical) (hb : b.Canonical) : Alike r a b ↔ Alike s a b := by
  induction a using JsonbVal.ind generalizing b with
  | null => cases b <;> rfl
  | bool x => cases b <;> rfl
  | number x =>
      cases b with
      | number y => exact h x y ha hb
      | null | bool | str | array | object => rfl
  | str x => cases b <;> rfl
  | array x ih =>
      cases b with
      | array y =>
          rw [Alike, Alike]
          rw [JsonbVal.Canonical] at ha hb
          induction x generalizing y with
          | nil => cases y <;> rfl
          | cons e x ih' =>
              cases y with
              | nil => rfl
              | cons f y =>
                  obtain ⟨he, hrest⟩ := List.forall_mem_cons.1 ih
                  rw [AlikeElems, AlikeElems, he ha.1 hb.1, ih' hrest ha.2 y hb.2]
      | null | bool | number | str | object => rfl
  | object x ih =>
      cases b with
      | object y =>
          rw [Alike, Alike]
          obtain ⟨-, ha⟩ := ha
          obtain ⟨-, hb⟩ := hb
          induction x generalizing y with
          | nil => cases y <;> rfl
          | cons p x ih' =>
              cases y with
              | nil => rfl
              | cons q y =>
                  obtain ⟨hp, hrest⟩ := List.forall_mem_cons.1 ih
                  rw [AlikePairs, AlikePairs, hp ha.1 hb.1, ih' hrest y ha.2 hb.2]
      | null | bool | number | str | array => rfl

/-! ## Grouping keys -/

theorem be_read {w m n : Nat} {r s : Bytes} (hm : m < 256 ^ w) (hn : n < 256 ^ w) (h : be w m ++ r = be w n ++ s) :
    m = n ∧ r = s := by
  obtain ⟨hbe, hrs⟩ := List.append_inj h (by rw [length_be, length_be])
  have hval := congrArg ofBe hbe
  rw [ofBe_be, ofBe_be, Nat.mod_eq_of_lt hm, Nat.mod_eq_of_lt hn] at hval
  exact ⟨hval, hrs⟩

theorem textBytes_read {s t : Text} {r q : Bytes} (hs : (utf8 s).length < 2 ^ 64) (ht : (utf8 t).length < 2 ^ 64)
    (h : textBytes s ++ r = textBytes t ++ q) : s = t ∧ r = q := by
  rw [textBytes, textBytes, List.append_assoc, List.append_assoc] at h
  obtain ⟨hlen, hrest⟩ := be_read (w := 8) hs ht h
  obtain ⟨hbytes, hrq⟩ := List.append_inj hrest hlen
  exact ⟨utf8_inj hbytes, hrq⟩

theorem length_digits {n : Numeric} (h : n.Wf) : (Nat.toDigits 10 n.coef.natAbs).length < 2 ^ 64 := by
  rcases Nat.eq_zero_or_pos n.coef.natAbs with hzero | hpos
  · rw [hzero]
    decide
  · rw [Decimal.toDigits_length hpos]
    obtain ⟨-, hscale⟩ := h.scale_range
    cases hb : n.big with
    | none =>
        have hrange := h.unscaled_range
        rw [Numeric.coef_inline hb]
        have hsmall : n.unscaled.natAbs < 10 ^ 39 := by
          unfold InI128 at hrange
          omega
        have hdigits := Decimal.numDigits_le_iff.2 hsmall
        omega
    | some m =>
        have hdigits := h.big_digits m hb
        have hmag : m.toNat = n.coef.natAbs := by
          rw [← h.toNat_mag, Numeric.mag, hb]
        rw [hmag] at hdigits
        unfold Numeric.maxIntDigits at hdigits
        omega

theorem digits_inj {m n : Nat} (h : (Nat.toDigits 10 m).map (fun c => UInt8.ofNat c.toNat)
    = (Nat.toDigits 10 n).map fun c => UInt8.ofNat c.toNat) : m = n := by
  have hback : ∀ k, ((Nat.toDigits 10 k).map fun c => UInt8.ofNat c.toNat).map (fun u => Char.ofNat u.toNat)
      = Nat.toDigits 10 k := by
    intro k
    rw [List.map_map]
    refine (List.map_congr_left fun c hc => ?_).trans (List.map_id _)
    have hdigit := Nat.isDigit_of_mem_toDigits (by decide) (by decide) hc
    have hsmall : c.toNat < 256 := by
      have hle := (Char.isDigit_iff_toNat.1 hdigit).2
      have hnine : '9'.toNat = 57 := rfl
      omega
    simp only [Function.comp_apply, UInt8.toNat_ofNat', Nat.mod_eq_of_lt hsmall, Char.ofNat_toNat, id]
  have heq := congrArg (List.map fun u : UInt8 => Char.ofNat u.toNat) h
  rw [hback, hback] at heq
  rw [← Nat.ofDigitChars_ten_toDigits (n := m), heq, Nat.ofDigitChars_ten_toDigits]

theorem magDigits_keyMag (m : Nat) : magDigits (Numeric.keyMag m) = Nat.toDigits 10 m := by
  unfold Numeric.keyMag
  split
  · rfl
  · rw [magDigits, BigUint.toDecimalString_eq, BigUint.toNat_fromU64]

theorem valueKeyNumeric_finite {n : Numeric} (h : n.Wf) (hf : n.special = .finite) :
    valueKeyNumeric n = 0 :: (if n.coef < 0 then 1 else 0) ::
      (digitBytes (Nat.toDigits 10 n.coef.natAbs) ++ be 4 (max n.scale 0).toNat) := by
  rw [valueKeyNumeric, Numeric.hashKey_finite h hf]
  simp only [specialByte, magDigits_keyMag, decide_eq_true_eq]

theorem special_of_key {x y : Numeric} {r s : Bytes} (hx : x.Wf) (hy : y.Wf)
    (h : valueKeyNumeric x ++ r = valueKeyNumeric y ++ s) : x.special = y.special := by
  rw [valueKeyNumeric, valueKeyNumeric, Numeric.special_hashKey hx, Numeric.special_hashKey hy] at h
  obtain ⟨hbyte, -⟩ := List.cons.inj h
  cases hsx : x.special with
  | finite | nan | posInf | negInf =>
      cases hsy : y.special with
      | finite | nan | posInf | negInf =>
          first
          | rfl
          | rw [hsx, hsy] at hbyte
            exact absurd hbyte (by decide)

/-- The bytes of a number end where its digits and its scale do. -/
theorem valueKeyNumeric_read {x y : Numeric} {r s : Bytes} (hx : x.Wf) (hy : y.Wf)
    (h : valueKeyNumeric x ++ r = valueKeyNumeric y ++ s) : x.hashKey = y.hashKey ∧ r = s := by
  have hs := special_of_key hx hy h
  by_cases hf : x.special = .finite
  · have hfy : y.special = .finite := hs ▸ hf
    rw [valueKeyNumeric_finite hx hf, valueKeyNumeric_finite hy hfy, List.cons_append, List.cons_append, List.cons_append,
      List.cons_append, digitBytes, digitBytes] at h
    obtain ⟨hsign, hrest⟩ := List.cons.inj (List.cons.inj h).2
    simp only [List.append_assoc] at hrest
    obtain ⟨hlen, hrest⟩ := be_read (w := 8) (length_digits hx) (length_digits hy) hrest
    obtain ⟨hdigits, hrest⟩ := List.append_inj hrest (by rw [List.length_map, List.length_map, hlen])
    have hscale : ∀ {n : Numeric}, n.Wf → (max n.scale 0).toNat < 256 ^ 4 := by
      intro n hn
      obtain ⟨-, hlt⟩ := hn.scale_range
      omega
    obtain ⟨hsc, hrs⟩ := be_read (w := 4) (hscale hx) (hscale hy) hrest
    refine ⟨?_, hrs⟩
    have habs := digits_inj hdigits
    rw [Numeric.hashKey_eq_iff hx hy hf hfy]
    refine ⟨?_, by omega⟩
    split at hsign
    · split at hsign
      · omega
      · exact absurd hsign (by decide)
    · split at hsign
      · exact absurd hsign (by decide)
      · omega
  · have hkey := (special_same hx hy hs hf).2.1
    rw [valueKeyNumeric, valueKeyNumeric, hkey] at h
    exact ⟨hkey, List.append_cancel_left h⟩

theorem valueKeyNumeric_congr {x y : Numeric} (h : x.hashKey = y.hashKey) : valueKeyNumeric x = valueKeyNumeric y := by
  rw [valueKeyNumeric, valueKeyNumeric, h]

theorem sameKind_of_key {a b : JsonbVal} {r s : Bytes} (h : jsonbSemanticKey a ++ r = jsonbSemanticKey b ++ s) :
    SameKind a b := by
  cases a with
  | null | bool | number | str | array | object =>
      cases b with
      | null | bool | number | str | array | object =>
          first
          | constructor
          | simp [jsonbSemanticKey] at h

/-- What a grouping key says of a document. -/
def KeyReads (a : JsonbVal) : Prop :=
  ∀ b r s, a.Canonical → b.Canonical → a.Sized → b.Sized → jsonbSemanticKey a ++ r = jsonbSemanticKey b ++ s →
    Alike (fun x y => x.hashKey = y.hashKey) a b ∧ r = s

theorem elemKeys_read {x y : List JsonbVal} {r s : Bytes} (ih : ∀ e ∈ x, KeyReads e) (hlen : x.length = y.length)
    (hx : CanonicalElems x) (hy : CanonicalElems y) (hsx : SizedElems x) (hsy : SizedElems y)
    (h : elemKeys x ++ r = elemKeys y ++ s) : AlikeElems (fun x y => x.hashKey = y.hashKey) x y ∧ r = s := by
  induction x generalizing y with
  | nil =>
      cases y with
      | nil => exact ⟨trivial, h⟩
      | cons => cases hlen
  | cons a x ih' =>
      cases y with
      | nil => cases hlen
      | cons b y =>
          obtain ⟨ha, hrest⟩ := List.forall_mem_cons.1 ih
          rw [elemKeys, elemKeys, List.append_assoc, List.append_assoc] at h
          obtain ⟨halike, htail⟩ := ha b _ _ hx.1 hy.1 hsx.1 hsy.1 h
          obtain ⟨hall, hrs⟩ := ih' hrest (Nat.succ.inj hlen) hx.2 hy.2 hsx.2 hsy.2 htail
          exact ⟨⟨halike, hall⟩, hrs⟩

theorem pairKeys_read {x y : List (Text × JsonbVal)} {r s : Bytes} (ih : ∀ p ∈ x, KeyReads p.2)
    (hlen : x.length = y.length) (hx : CanonicalPairs x) (hy : CanonicalPairs y) (hsx : SizedPairs x) (hsy : SizedPairs y)
    (h : pairKeys x ++ r = pairKeys y ++ s) : AlikePairs (fun x y => x.hashKey = y.hashKey) x y ∧ r = s := by
  induction x generalizing y with
  | nil =>
      cases y with
      | nil => exact ⟨trivial, h⟩
      | cons => cases hlen
  | cons p x ih' =>
      cases y with
      | nil => cases hlen
      | cons q y =>
          obtain ⟨hp, hrest⟩ := List.forall_mem_cons.1 ih
          obtain ⟨hkx, hvx, hsx⟩ := hsx
          obtain ⟨hky, hvy, hsy⟩ := hsy
          rw [pairKeys, pairKeys, List.append_assoc, List.append_assoc, List.append_assoc, List.append_assoc] at h
          obtain ⟨hkey, htail⟩ := textBytes_read hkx hky h
          obtain ⟨halike, htail⟩ := hp q.2 _ _ hx.1 hy.1 hvx hvy htail
          obtain ⟨hall, hrs⟩ := ih' hrest (Nat.succ.inj hlen) hx.2 hy.2 hsx hsy htail
          exact ⟨⟨hkey, halike, hall⟩, hrs⟩

theorem key_reads (a : JsonbVal) : KeyReads a := by
  induction a using JsonbVal.ind with
  | null =>
      intro b r s _ _ _ _ h
      cases sameKind_of_key h
      exact ⟨trivial, (List.cons.inj h).2⟩
  | bool x =>
      intro b r s _ _ _ _ h
      cases sameKind_of_key h with
      | bool _ y =>
          obtain ⟨hbit, hrs⟩ := List.cons.inj (List.cons.inj h).2
          refine ⟨?_, hrs⟩
          cases x <;> cases y <;> first | rfl | exact absurd hbit (by decide)
  | number x =>
      intro b r s ha hb _ _ h
      cases sameKind_of_key h
      exact valueKeyNumeric_read ha hb (List.cons.inj h).2
  | str x =>
      intro b r s _ _ hsa hsb h
      cases sameKind_of_key h
      exact textBytes_read hsa hsb (List.cons.inj h).2
  | array x ih =>
      intro b r s ha hb hsa hsb h
      cases sameKind_of_key h with
      | array _ y =>
          have htail : (be 8 x.length ++ elemKeys x) ++ r = (be 8 y.length ++ elemKeys y) ++ s := (List.cons.inj h).2
          rw [List.append_assoc, List.append_assoc] at htail
          obtain ⟨hlen, hrest⟩ := be_read (w := 8) hsa.1 hsb.1 htail
          exact elemKeys_read ih hlen ha hb hsa.2 hsb.2 hrest
  | object x ih =>
      intro b r s ha hb hsa hsb h
      cases sameKind_of_key h with
      | object _ y =>
          have htail : (be 8 x.length ++ pairKeys x) ++ r = (be 8 y.length ++ pairKeys y) ++ s := (List.cons.inj h).2
          rw [List.append_assoc, List.append_assoc] at htail
          obtain ⟨hlen, hrest⟩ := be_read (w := 8) hsa.1 hsb.1 htail
          exact pairKeys_read ih hlen ha.2 hb.2 hsa.2 hsb.2 hrest

theorem elemKeys_alike {r : Numeric → Numeric → Prop} {x y : List JsonbVal}
    (ih : ∀ e ∈ x, ∀ b, Alike r e b → jsonbSemanticKey e = jsonbSemanticKey b) (h : AlikeElems r x y) :
    x.length = y.length ∧ elemKeys x = elemKeys y := by
  induction x generalizing y with
  | nil =>
      cases y with
      | nil => exact ⟨rfl, rfl⟩
      | cons => cases h
  | cons a x ih' =>
      cases y with
      | nil => cases h
      | cons b y =>
          obtain ⟨ha, hrest⟩ := List.forall_mem_cons.1 ih
          obtain ⟨hlen, hkeys⟩ := ih' hrest h.2
          rw [List.length_cons, List.length_cons, elemKeys, elemKeys, ha b h.1, hlen, hkeys]
          exact ⟨rfl, rfl⟩

theorem pairKeys_alike {r : Numeric → Numeric → Prop} {x y : List (Text × JsonbVal)}
    (ih : ∀ p ∈ x, ∀ b, Alike r p.2 b → jsonbSemanticKey p.2 = jsonbSemanticKey b) (h : AlikePairs r x y) :
    x.length = y.length ∧ pairKeys x = pairKeys y := by
  induction x generalizing y with
  | nil =>
      cases y with
      | nil => exact ⟨rfl, rfl⟩
      | cons => cases h
  | cons p x ih' =>
      cases y with
      | nil => cases h
      | cons q y =>
          obtain ⟨hp, hrest⟩ := List.forall_mem_cons.1 ih
          obtain ⟨hkey, hvalue, hall⟩ := h
          obtain ⟨hlen, hkeys⟩ := ih' hrest hall
          rw [List.length_cons, List.length_cons, pairKeys, pairKeys, hp q.2 hvalue, hkey, hlen, hkeys]
          exact ⟨rfl, rfl⟩

theorem key_of_alike {a b : JsonbVal} (h : Alike (fun x y => x.hashKey = y.hashKey) a b) :
    jsonbSemanticKey a = jsonbSemanticKey b := by
  induction a using JsonbVal.ind generalizing b with
  | null =>
      cases sameKind_of_rank (alike_rank h)
      rfl
  | bool x =>
      cases sameKind_of_rank (alike_rank h)
      cases h
      rfl
  | number x =>
      cases sameKind_of_rank (alike_rank h)
      rw [jsonbSemanticKey, jsonbSemanticKey, valueKeyNumeric_congr h]
  | str x =>
      cases sameKind_of_rank (alike_rank h)
      cases h
      rfl
  | array x ih =>
      cases sameKind_of_rank (alike_rank h) with
      | array _ y =>
          obtain ⟨hlen, hkeys⟩ := elemKeys_alike (fun e he b => ih e he) h
          rw [jsonbSemanticKey, jsonbSemanticKey, hlen, hkeys]
  | object x ih =>
      cases sameKind_of_rank (alike_rank h) with
      | object _ y =>
          obtain ⟨hlen, hkeys⟩ := pairKeys_alike (fun p hp b => ih p hp) h
          rw [jsonbSemanticKey, jsonbSemanticKey, hlen, hkeys]

/-- Two documents have one grouping key when their numbers have one form. -/
theorem key_eq_iff {a b : JsonbVal} (ha : a.Canonical) (hb : b.Canonical) (hsa : a.Sized) (hsb : b.Sized) :
    jsonbSemanticKey a = jsonbSemanticKey b ↔ Alike SameForm a b := by
  rw [← Alike.congr (fun x y => hashKey_iff_sameForm) ha hb]
  constructor
  · intro h
    exact (key_reads a b [] [] ha hb hsa hsb (by rw [h])).1
  · exact key_of_alike

theorem eq_iff_sameValue {a b : JsonbVal} (ha : a.Canonical) (hb : b.Canonical) :
    jsonbCmp a b = .eq ↔ Alike SameValue a b := by
  rw [jsonbCmp_eq_iff, Alike.congr (fun x y => cmp_iff_sameValue) ha hb]

/-! ## Containment -/

theorem anyContains_iff {elems : List JsonbVal} {b : JsonbVal} :
    anyContains elems b = true ↔ ∃ e ∈ elems, jsonbContains e b = true := by
  induction elems with
  | nil => simp [anyContains]
  | cons e elems ih => rw [anyContains, Bool.or_eq_true, ih, List.exists_mem_cons_iff]

theorem containsField_iff {pairs : List (Text × JsonbVal)} {k : Text} {v : JsonbVal} :
    containsField pairs k v = true ↔ ∃ p, pairs.find? (fun p => p.1 = k) = some p ∧ jsonbContains p.2 v = true := by
  induction pairs with
  | nil => simp [containsField]
  | cons p pairs ih =>
      rw [containsField, List.find?_cons]
      by_cases h : p.1 = k
      · simp [h]
      · simp [h, ih]

theorem contains_objects {x y : List (Text × JsonbVal)} :
    jsonbContains (.object x) (.object y) = true ↔ ∀ p ∈ y, containsField x p.1 p.2 = true := by
  rw [jsonbContains, List.all_eq_true]

theorem contains_arrays {x y : List JsonbVal} :
    jsonbContains (.array x) (.array y) = true ↔ ∀ e ∈ y, ∃ f ∈ x, jsonbContains f e = true := by
  rw [jsonbContains, List.all_eq_true]
  simp only [anyContains_iff]

/-- Neither an array nor an object. -/
def JsonbVal.IsScalar : JsonbVal → Prop
  | .array _ => False
  | .object _ => False
  | _ => True

theorem scalar_or_container (a : JsonbVal) : a.IsScalar ∨ (∃ x, a = .array x) ∨ ∃ x, a = .object x := by
  cases a with
  | null | bool | number | str => exact .inl trivial
  | array x => exact .inr (.inl ⟨x, rfl⟩)
  | object x => exact .inr (.inr ⟨x, rfl⟩)

theorem contains_array_scalar {x : List JsonbVal} {b : JsonbVal} (hb : b.IsScalar) :
    jsonbContains (.array x) b = true ↔ ∃ e ∈ x, jsonbContains e b = true := by
  rw [← anyContains_iff]
  cases b with
  | null | bool | number | str => simp [jsonbContains]
  | array | object => cases hb

theorem contains_scalars {a b : JsonbVal} (ha : a.IsScalar) (hb : b.IsScalar) :
    jsonbContains a b = true ↔ jsonbCmp a b = .eq := by
  cases b with
  | null | bool | number | str =>
      cases a with
      | null | bool | number | str => simp [jsonbContains, jsonbEq]
      | array | object => cases ha
  | array | object => cases hb

/-- What contains another has its kind, or is an array with something that contains it. -/
theorem contains_cases {a b : JsonbVal} (h : jsonbContains a b = true) :
    (∃ x y, a = .object x ∧ b = .object y) ∨ (∃ x, a = .array x) ∨ (a.IsScalar ∧ b.IsScalar) := by
  cases a with
  | array x => exact .inr (.inl ⟨x, rfl⟩)
  | object x =>
      cases b with
      | object y => exact .inl ⟨x, y, rfl, rfl⟩
      | null | bool | number | str | array => simp [jsonbContains] at h
  | null | bool | number | str =>
      cases b with
      | null | bool | number | str => exact .inr (.inr ⟨trivial, trivial⟩)
      | array | object => simp [jsonbContains] at h

theorem find_pair {pairs : List (Text × JsonbVal)} (h : pairs.Pairwise fun p q => jsonbKeyCmp p.1 q.1 = .lt)
    {p : Text × JsonbVal} (hp : p ∈ pairs) : pairs.find? (fun q => q.1 = p.1) = some p := by
  induction pairs with
  | nil => cases hp
  | cons q pairs ih =>
      obtain ⟨hq, hrest⟩ := List.pairwise_cons.1 h
      rw [List.find?_cons]
      rcases List.mem_cons.1 hp with rfl | hmem
      · simp
      · have hne : q.1 ≠ p.1 := by
          intro heq
          have hlt := hq p hmem
          rw [heq, jsonbKeyCmp, if_pos rfl, compare_utf8.2 rfl] at hlt
          cases hlt
        simp only [hne, decide_false]
        exact ih hrest hmem

theorem contains_self_scalar {a : JsonbVal} (h : a.IsScalar) (ha : a.Canonical) : jsonbContains a a = true :=
  (contains_scalars h h).2 (jsonbCmp_self ha)

theorem contains_self {a : JsonbVal} (ha : a.Canonical) : jsonbContains a a = true := by
  induction a using JsonbVal.ind with
  | null => exact contains_self_scalar trivial ha
  | bool x => exact contains_self_scalar trivial ha
  | number x => exact contains_self_scalar trivial ha
  | str x => exact contains_self_scalar trivial ha
  | array x ih => exact contains_arrays.2 fun e he => ⟨e, he, ih e he (canonicalElems_iff.1 ha e he)⟩
  | object x ih =>
      exact contains_objects.2 fun p hp => containsField_iff.2
        ⟨p, find_pair ha.1 hp, ih p hp (canonicalPairs_iff.1 ha.2 p hp)⟩

/-- Between scalars containment is equality, which carries over. -/
theorem contains_trans_scalar {a b c : JsonbVal} (ha : a.Canonical) (hb : b.Canonical) (hc : c.Canonical)
    (has : a.IsScalar) (hab : jsonbContains a b = true) (hbc : jsonbContains b c = true) : jsonbContains a c = true := by
  rcases contains_cases hab with ⟨x, y, rfl, -⟩ | ⟨x, rfl⟩ | ⟨-, hbs⟩
  · cases has
  · cases has
  · rcases contains_cases hbc with ⟨x, y, rfl, -⟩ | ⟨x, rfl⟩ | ⟨-, hcs⟩
    · cases hbs
    · cases hbs
    · rw [contains_scalars has hbs] at hab
      rw [contains_scalars hbs hcs] at hbc
      rw [contains_scalars has hcs, (jsonbCmp_consistent ha hb hc).left hab]
      exact hbc

theorem contains_trans {a b c : JsonbVal} (ha : a.Canonical) (hb : b.Canonical) (hc : c.Canonical)
    (hab : jsonbContains a b = true) (hbc : jsonbContains b c = true) : jsonbContains a c = true := by
  induction a using JsonbVal.ind generalizing b c with
  | null => exact contains_trans_scalar ha hb hc trivial hab hbc
  | bool x => exact contains_trans_scalar ha hb hc trivial hab hbc
  | number x => exact contains_trans_scalar ha hb hc trivial hab hbc
  | str x => exact contains_trans_scalar ha hb hc trivial hab hbc
  | array x ih =>
      have hx := canonicalElems_iff.1 ha
      cases b with
      | array y =>
          have hy := canonicalElems_iff.1 hb
          rw [contains_arrays] at hab
          -- what an element of the second contains, an element of the first does
          have hstep : ∀ {d : JsonbVal}, d.Canonical → (∃ f ∈ y, jsonbContains f d = true) →
              ∃ e ∈ x, jsonbContains e d = true := by
            rintro d hd ⟨f, hf, hfd⟩
            obtain ⟨e, he, hef⟩ := hab f hf
            exact ⟨e, he, ih e he (hx e he) (hy f hf) hd hef hfd⟩
          rcases scalar_or_container c with hcs | ⟨z, rfl⟩ | ⟨z, rfl⟩
          · rw [contains_array_scalar hcs] at hbc ⊢
            exact hstep hc hbc
          · rw [contains_arrays] at hbc ⊢
            exact fun d hd => hstep (canonicalElems_iff.1 hc d hd) (hbc d hd)
          · simp [jsonbContains] at hbc
      | object y => simp [jsonbContains] at hab
      | null | bool | number | str =>
          rcases contains_cases hbc with ⟨_, _, hy, -⟩ | ⟨_, hy⟩ | ⟨hbs, hcs⟩
          · cases hy
          · cases hy
          · rw [contains_array_scalar hbs] at hab
            rw [contains_array_scalar hcs]
            obtain ⟨e, he, heb⟩ := hab
            exact ⟨e, he, ih e he (hx e he) hb hc heb hbc⟩
  | object x ih =>
      rcases contains_cases hab with ⟨x', y, hx, rfl⟩ | ⟨x', hx⟩ | ⟨hs, -⟩
      · cases hx
        rcases contains_cases hbc with ⟨y', z, hy, rfl⟩ | ⟨y', hy⟩ | ⟨hs, -⟩
        · cases hy
          rw [contains_objects] at hab hbc ⊢
          intro p hp
          obtain ⟨q, hq, hqp⟩ := containsField_iff.1 (hbc p hp)
          have hqy := List.mem_of_find?_eq_some hq
          have hkey : q.1 = p.1 := by simpa using List.find?_some hq
          obtain ⟨r, hr, hrq⟩ := containsField_iff.1 (hab q hqy)
          have hrx := List.mem_of_find?_eq_some hr
          rw [hkey] at hr
          exact containsField_iff.2 ⟨r, hr, ih r hrx (canonicalPairs_iff.1 ha.2 r hrx) (canonicalPairs_iff.1 hb.2 q hqy)
            (canonicalPairs_iff.1 hc.2 p hp) hrq hqp⟩
        · cases hy
        · cases hs
      · cases hx
      · cases hs

/-! ## Equal values for one another -/

theorem scalar_of_rank {a b : JsonbVal} (h : jsonbTypeRank a = jsonbTypeRank b) (ha : a.IsScalar) : b.IsScalar := by
  cases sameKind_of_rank h with
  | null | bool | number | str => trivial
  | array | object => cases ha

theorem rank_of_cmp {a b : JsonbVal} (h : jsonbCmp a b = .eq) : jsonbTypeRank a = jsonbTypeRank b :=
  alike_rank (jsonbCmp_eq_iff.1 h)

theorem elems_of_cmp {x y : List JsonbVal} (h : jsonbCmp (.array x) (.array y) = .eq) :
    List.Forall₂ (fun a b => jsonbCmp a b = .eq) x y := by
  have halike : AlikeElems (fun m n => m.cmp n = .eq) x y := jsonbCmp_eq_iff.1 h
  clear h
  induction x generalizing y with
  | nil =>
      cases y with
      | nil => exact .nil
      | cons => cases halike
  | cons a x ih =>
      cases y with
      | nil => cases halike
      | cons b y => exact .cons (jsonbCmp_eq_iff.2 halike.1) (ih halike.2)

theorem pairs_of_cmp {x y : List (Text × JsonbVal)} (h : jsonbCmp (.object x) (.object y) = .eq) :
    List.Forall₂ (fun p q => p.1 = q.1 ∧ jsonbCmp p.2 q.2 = .eq) x y := by
  have halike : AlikePairs (fun m n => m.cmp n = .eq) x y := jsonbCmp_eq_iff.1 h
  clear h
  induction x generalizing y with
  | nil =>
      cases y with
      | nil => exact .nil
      | cons => cases halike
  | cons p x ih =>
      cases y with
      | nil => cases halike
      | cons q y => exact .cons ⟨halike.1, jsonbCmp_eq_iff.2 halike.2.1⟩ (ih halike.2.2)

theorem anyContains_congr {x y : List JsonbVal} {v w : JsonbVal} {R : JsonbVal → JsonbVal → Prop}
    (ih : ∀ e ∈ x, ∀ f ∈ y, R e f → jsonbContains e v = jsonbContains f w) (h : List.Forall₂ R x y) :
    anyContains x v = anyContains y w := by
  induction h with
  | nil => rfl
  | cons hef _ ih' =>
      rw [anyContains, anyContains, ih _ List.mem_cons_self _ List.mem_cons_self hef,
        ih' fun e he f hf => ih e (List.mem_cons_of_mem _ he) f (List.mem_cons_of_mem _ hf)]

theorem containsField_congr {x y : List (Text × JsonbVal)} {k : Text} {v w : JsonbVal}
    {R : Text × JsonbVal → Text × JsonbVal → Prop} (hkey : ∀ p q, R p q → p.1 = q.1)
    (ih : ∀ p ∈ x, ∀ q ∈ y, R p q → jsonbContains p.2 v = jsonbContains q.2 w) (h : List.Forall₂ R x y) :
    containsField x k v = containsField y k w := by
  induction h with
  | nil => rfl
  | cons hpq _ ih' =>
      rw [containsField, containsField, ih _ List.mem_cons_self _ List.mem_cons_self hpq, hkey _ _ hpq,
        ih' fun p hp q hq => ih p (List.mem_cons_of_mem _ hp) q (List.mem_cons_of_mem _ hq)]

theorem all_congr {α : Type} {f g : α → Bool} {x y : List α} {R : α → α → Prop}
    (ih : ∀ a ∈ x, ∀ b ∈ y, R a b → f a = g b) (h : List.Forall₂ R x y) : x.all f = y.all g := by
  induction h with
  | nil => rfl
  | cons hab _ ih' =>
      rw [List.all_cons, List.all_cons, ih _ List.mem_cons_self _ List.mem_cons_self hab,
        ih' fun a ha b hb => ih a (List.mem_cons_of_mem _ ha) b (List.mem_cons_of_mem _ hb)]

theorem forall₂_refl {α : Type} (x : List α) : List.Forall₂ Eq x x := by
  rw [List.forall₂_eq_eq_eq]

theorem scalar_contains {a b : JsonbVal} (ha : a.IsScalar) (h : jsonbContains a b = true) : b.IsScalar := by
  rcases contains_cases h with ⟨_, _, rfl, -⟩ | ⟨_, rfl⟩ | ⟨-, hb⟩
  · cases ha
  · cases ha
  · exact hb

theorem contains_left_scalar {a b c : JsonbVal} (hs : a.IsScalar) (ha : a.Canonical) (hb : b.Canonical) (hc : c.Canonical)
    (h : jsonbCmp a b = .eq) : jsonbContains a c = jsonbContains b c := by
  have hsb := scalar_of_rank (rank_of_cmp h) hs
  rw [Bool.eq_iff_iff]
  by_cases hcs : c.IsScalar
  · rw [contains_scalars hs hcs, contains_scalars hsb hcs, (jsonbCmp_consistent ha hb hc).left h]
  · exact ⟨fun hcon => absurd (scalar_contains hs hcon) hcs, fun hcon => absurd (scalar_contains hsb hcon) hcs⟩

theorem contains_left {a b c : JsonbVal} (ha : a.Canonical) (hb : b.Canonical) (hc : c.Canonical)
    (h : jsonbCmp a b = .eq) : jsonbContains a c = jsonbContains b c := by
  induction a using JsonbVal.ind generalizing b c with
  | null => exact contains_left_scalar trivial ha hb hc h
  | bool x => exact contains_left_scalar trivial ha hb hc h
  | number x => exact contains_left_scalar trivial ha hb hc h
  | str x => exact contains_left_scalar trivial ha hb hc h
  | array x ih =>
      cases sameKind_of_rank (rank_of_cmp h) with
      | array _ y =>
          have hall := elems_of_cmp h
          have hany : ∀ {d : JsonbVal}, d.Canonical → anyContains x d = anyContains y d := fun hd =>
            anyContains_congr (fun e he f hf hef => ih e he (canonicalElems_iff.1 ha e he)
              (canonicalElems_iff.1 hb f hf) hd hef) hall
          cases c with
          | array z =>
              rw [jsonbContains, jsonbContains]
              exact all_congr (fun d hd e _ hde => by rw [← hde, hany (canonicalElems_iff.1 hc d hd)]) (forall₂_refl z)
          | object z => simp [jsonbContains]
          | null | bool | number | str => simp [jsonbContains, hany hc]
  | object x ih =>
      cases sameKind_of_rank (rank_of_cmp h) with
      | object _ y =>
          have hall := pairs_of_cmp h
          cases c with
          | object z =>
              rw [jsonbContains, jsonbContains]
              refine all_congr (fun p hp q _ hpq => ?_) (forall₂_refl z)
              rw [← hpq]
              exact containsField_congr (fun _ _ h => h.1) (fun s hs t ht hst => ih s hs (canonicalPairs_iff.1 ha.2 s hs)
                (canonicalPairs_iff.1 hb.2 t ht) (canonicalPairs_iff.1 hc.2 p hp) hst.2) hall
          | null | bool | number | str | array => simp [jsonbContains]

theorem contains_right_scalar {a b c : JsonbVal} (hs : c.IsScalar) (ha : a.Canonical) (hb : b.Canonical)
    (hc : c.Canonical) (h : jsonbCmp a b = .eq) : jsonbContains c a = jsonbContains c b := by
  rw [Bool.eq_iff_iff]
  by_cases has : a.IsScalar
  · have hbs := scalar_of_rank (rank_of_cmp h) has
    rw [contains_scalars hs has, contains_scalars hs hbs, (jsonbCmp_consistent hc ha hb).right h]
  · have hbs : ¬b.IsScalar := fun hb => has (scalar_of_rank (rank_of_cmp h).symm hb)
    exact ⟨fun hcon => absurd (scalar_contains hs hcon) has, fun hcon => absurd (scalar_contains hs hcon) hbs⟩

theorem contains_right {a b c : JsonbVal} (ha : a.Canonical) (hb : b.Canonical) (hc : c.Canonical)
    (h : jsonbCmp a b = .eq) : jsonbContains c a = jsonbContains c b := by
  induction c using JsonbVal.ind generalizing a b with
  | null => exact contains_right_scalar trivial ha hb hc h
  | bool x => exact contains_right_scalar trivial ha hb hc h
  | number x => exact contains_right_scalar trivial ha hb hc h
  | str x => exact contains_right_scalar trivial ha hb hc h
  | array z ih =>
      have hany : ∀ {a b : JsonbVal}, a.Canonical → b.Canonical → jsonbCmp a b = .eq →
          anyContains z a = anyContains z b := fun ha hb h =>
        anyContains_congr (fun e he f _ hef => by rw [← hef, ih e he ha hb (canonicalElems_iff.1 hc e he) h]) (forall₂_refl z)
      have hpair := hany ha hb h
      cases sameKind_of_rank (rank_of_cmp h) with
      | array x y =>
          rw [jsonbContains, jsonbContains]
          exact all_congr (fun e he f hf hef => hany (canonicalElems_iff.1 ha e he) (canonicalElems_iff.1 hb f hf) hef)
            (elems_of_cmp h)
      | object x y => simp [jsonbContains]
      | null | bool | number | str => simp [jsonbContains, hpair]
  | object z ih =>
      cases sameKind_of_rank (rank_of_cmp h) with
      | object x y =>
          rw [jsonbContains, jsonbContains]
          refine all_congr (fun p hp q hq hpq => ?_) (pairs_of_cmp h)
          rw [hpq.1]
          refine containsField_congr (fun _ _ h => by rw [h]) (fun s hs t _ hst => ?_) (forall₂_refl z)
          rw [← hst]
          exact ih s hs (canonicalPairs_iff.1 ha.2 p hp) (canonicalPairs_iff.1 hb.2 q hq)
            (canonicalPairs_iff.1 hc.2 s hs) hpq.2
      | null | bool | number | str | array => simp [jsonbContains]

theorem exists_congr {a b : JsonbVal} (h : jsonbCmp a b = .eq) (key : Text) : jsonbExists a key = jsonbExists b key := by
  cases sameKind_of_rank (rank_of_cmp h) with
  | null | bool | number | str => rfl
  | object x y =>
      have hall := pairs_of_cmp h
      rw [jsonbExists, jsonbExists]
      clear h
      induction hall with
      | nil => rfl
      | cons hpq _ ih => rw [List.any_cons, List.any_cons, hpq.1, ih]
  | array x y =>
      have hall := elems_of_cmp h
      rw [jsonbExists, jsonbExists]
      clear h
      induction hall with
      | nil => rfl
      | cons hef _ ih =>
          rw [List.any_cons, List.any_cons, ih]
          congr 1
          cases sameKind_of_rank (rank_of_cmp hef) with
          | str s t =>
              have hst : s = t := jsonbCmp_eq_iff.1 hef
              rw [hst]
          | null | bool | number | array | object => rfl

/-! ## The laws -/

/-- The order, equality, the grouping keys, containment and the existence of keys fit together. -/
structure Coherent (a b c : JsonbVal) : Prop where
  refl : jsonbCmp a a = .eq
  swap : jsonbCmp b a = (jsonbCmp a b).swap
  trans : jsonbCmp a b ≠ .gt → jsonbCmp b c ≠ .gt → jsonbCmp a c ≠ .gt
  key : jsonbCmp a b = .eq ↔ jsonbSemanticKey a = jsonbSemanticKey b
  contains_refl : jsonbContains a a = true
  contains_trans : jsonbContains a b = true → jsonbContains b c = true → jsonbContains a c = true
  contains_left : jsonbCmp a b = .eq → jsonbContains a c = jsonbContains b c
  contains_right : jsonbCmp a b = .eq → jsonbContains c a = jsonbContains c b
  exists_eq : jsonbCmp a b = .eq → ∀ key, jsonbExists a key = jsonbExists b key

/-- They do, unless the numbers of two documents that are otherwise the same all have one value and not all one form, or
all one form and not all one value. -/
theorem coherent_iff (a b c : JsonbVal) (ha : a.Canonical) (hb : b.Canonical) (hc : c.Canonical) (hsa : a.Sized)
    (hsb : b.Sized) : Coherent a b c ↔ (Alike SameValue a b ↔ Alike SameForm a b) := by
  constructor
  · intro h
    rw [← eq_iff_sameValue ha hb, ← key_eq_iff ha hb hsa hsb]
    exact h.key
  · intro h
    exact {
      refl := jsonbCmp_self ha
      swap := jsonbCmp_swap ha hb
      trans := (jsonbCmp_consistent ha hb hc).le_trans
      key := by rw [eq_iff_sameValue ha hb, key_eq_iff ha hb hsa hsb, h]
      contains_refl := contains_self ha
      contains_trans := contains_trans ha hb hc
      contains_left := contains_left ha hb hc
      contains_right := contains_right ha hb hc
      exists_eq := exists_congr }

theorem coherent_iff_hundred :
    Coherent (.number (.new 1 (-2))) (.number (.new 100 0)) .null
      ↔ (Alike SameValue (.number (.new 1 (-2))) (.number (.new 100 0))
        ↔ Alike SameForm (.number (.new 1 (-2))) (.number (.new 100 0))) :=
  coherent_iff (.number (.new 1 (-2))) (.number (.new 100 0)) .null (Numeric.wf_new (by decide) (by decide))
    (Numeric.wf_new (by decide) (by decide)) trivial trivial trivial

/-- The documents `1e2` and `100` are equal and have two grouping keys; `1e2` and `1` differ and have one. -/
theorem incoherent_hundred :
    parseJsonb "1e2".toList = .ok (.number (.new 1 (-2))) ∧ parseJsonb "100".toList = .ok (.number (.new 100 0)) ∧
      ¬Coherent (.number (.new 1 (-2))) (.number (.new 100 0)) .null ∧
      ¬Coherent (.number (.new 1 (-2))) (.number (.new 1 0)) .null := by
  refine ⟨rfl, rfl, fun h => ?_, fun h => ?_⟩
  · exact absurd (h.key.1 (by decide)) (by decide)
  · exact absurd (h.key.2 (by decide)) (by decide)

end Json
