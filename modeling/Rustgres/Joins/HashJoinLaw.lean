-- SUMMARY: When a hash join gives the rows of the nested loop: no pair that joins has keys that hash apart.
import Rustgres.Joins.HashJoin
import Rustgres.Joins.LateralLaw
import Rustgres.Values.KeyOrderLaw

/-!
# The Law of Hash Joins

A pair that joins has equal key columns. It is found where their hash keys are equal too, which they are but for numerics
of two scales, and for a timestamp beside one with a time zone.
-/

namespace Joins

open Encoding (Value ColType)
open Values Orderings

/-! ## Exact numbers -/

theorem exact_cases {v : Value} (h : isExactNumeric v = true) :
    (∃ i, v = .smallInt i) ∨ (∃ i, v = .int i) ∨ (∃ i, v = .bigInt i) ∨ ∃ n, v = .numeric n := by
  cases v with
  | smallInt i => exact .inl ⟨i, rfl⟩
  | int i => exact .inr (.inl ⟨i, rfl⟩)
  | bigInt i => exact .inr (.inr (.inl ⟨i, rfl⟩))
  | numeric n => exact .inr (.inr (.inr ⟨n, rfl⟩))
  | _ => cases h

section

variable (C : Casts)

/-- An exact number as a numeric. -/
def numOf (v : Value) : Num.Numeric := toNum (exactNumeric (keyOrders C) v)

theorem cmpOrdering_exact {x y : Value} (hx : isExactNumeric x = true) (hy : isExactNumeric y = true) :
    cmpOrdering C x y = .ok (some (numbersCmp C x y)) := by
  have hnumber : (isNumber x && isNumber y) = true := by
    unfold isNumber
    rw [hx, hy]
    rfl
  rcases exact_cases hx with ⟨i, rfl⟩ | ⟨i, rfl⟩ | ⟨i, rfl⟩ | ⟨m, rfl⟩
  all_goals
    rcases exact_cases hy with ⟨j, rfl⟩ | ⟨j, rfl⟩ | ⟨j, rfl⟩ | ⟨n, rfl⟩
    all_goals
      unfold cmpOrdering scalarCmp
      exact if_pos hnumber

theorem evalEq_exact {x y : Value} (hx : isExactNumeric x = true) (hy : isExactNumeric y = true) :
    evalEq C x y = flatEq C x y := by
  rcases exact_cases hx with ⟨i, rfl⟩ | ⟨i, rfl⟩ | ⟨i, rfl⟩ | ⟨m, rfl⟩
  all_goals
    rcases exact_cases hy with ⟨j, rfl⟩ | ⟨j, rfl⟩ | ⟨j, rfl⟩ | ⟨n, rfl⟩
    all_goals rfl

/-- Numerics are well-formed, and bit strings have the bytes they need. -/
def WfCell : Value → Prop
  | .numeric n => (toNum n).Wf
  | .bitString b => b.bytes.length = (b.bitlen.toNat + 7) / 8
  | _ => True

theorem toNum_numericOfInt (i : Int) : toNum (numericOfInt i) = Num.Numeric.new i 0 := by
  unfold Num.Numeric.new
  by_cases hi : i = 0
  · rw [if_pos hi, hi]
    rfl
  · rw [if_neg hi, if_pos (le_refl 0)]
    rfl

theorem numOf_of_i64 {v : Value} {i : Int} (h : exactAsI64 v = some i) : numOf C v = Num.Numeric.new i 0 := by
  rw [← toNum_numericOfInt]
  cases v with
  | smallInt j | int j | bigInt j =>
      cases h
      rfl
  | _ => cases h

theorem i64_of_exact {v : Value} {i : Int} (h : exactAsI64 v = some i) : -2 ^ 63 ≤ i ∧ i < 2 ^ 63 := by
  cases v with
  | smallInt j =>
      cases h
      have hlo := Int16.le_toInt j
      have hhi := Int16.toInt_lt j
      omega
  | int j =>
      cases h
      exact toInt_i64_bounds j
  | bigInt j =>
      cases h
      exact toInt_i64_bounds j
  | _ => cases h

theorem wf_numOf {v : Value} (h : isExactNumeric v = true) (hw : WfCell v) : (numOf C v).Wf := by
  cases hi : exactAsI64 v with
  | some i =>
      have hb := i64_of_exact hi
      rw [numOf_of_i64 C hi]
      refine Num.Numeric.wf_new ?_ (by decide)
      unfold Num.InI128
      omega
  | none =>
      rcases exact_cases h with ⟨i, rfl⟩ | ⟨i, rfl⟩ | ⟨i, rfl⟩ | ⟨n, rfl⟩
      · cases hi
      · cases hi
      · cases hi
      · exact hw

/-- Exact numbers that are equal compare as equal numerics. -/
theorem cmp_numOf {x y : Value} (hx : isExactNumeric x = true) (hy : isExactNumeric y = true) (hwx : WfCell x)
    (h : SqlEq C x y) : (numOf C x).cmp (numOf C y) = .eq := by
  unfold SqlEq at h
  rw [evalEq_exact C hx hy] at h
  unfold flatEq at h
  split at h
  · have hnan : isNanVal x = true ∧ isNanVal y = true := by simpa using h
    rcases exact_cases hx with ⟨i, rfl⟩ | ⟨i, rfl⟩ | ⟨i, rfl⟩ | ⟨m, rfl⟩
    · cases hnan.1
    · cases hnan.1
    · cases hnan.1
    · rcases exact_cases hy with ⟨i, rfl⟩ | ⟨i, rfl⟩ | ⟨i, rfl⟩ | ⟨n, rfl⟩
      · cases hnan.2
      · cases hnan.2
      · cases hnan.2
      · exact numericCmp_nan (of_decide_eq_true hnan.1) (of_decide_eq_true hnan.2)
  · rw [cmpOrdering_exact C hx hy] at h
    have hcmp : numbersCmp C x y = .eq := by simpa [Except.map] using h
    unfold numbersCmp at hcmp
    rw [hx, hy] at hcmp
    split at hcmp
    · split at hcmp
      · rename_i a b ha hb
        have hab : a = b := compare_eq_iff_eq.1 hcmp
        rw [numOf_of_i64 C ha, numOf_of_i64 C hb, hab]
        have hwf := wf_numOf C hx hwx
        rw [numOf_of_i64 C ha, hab] at hwf
        exact Num.Numeric.cmp_self hwf
      · exact hcmp
    · rename_i hfalse
      exact absurd rfl hfalse

/-- The scale of an exact number. -/
def scaleOf (v : Value) : Int := (numOf C v).scale

theorem hashKeyPart_exactNum {v : Value} {p : HashKeyPart} (h : hashKeyPart v .exactNum = some p) :
    isExactNumeric v = true ∧ p = .exactNum (numOf C v).hashKey := by
  cases v with
  | smallInt i | int i | bigInt i =>
      cases h
      exact ⟨rfl, by rw [numOf_of_i64 C rfl]⟩
  | numeric n =>
      cases h
      exact ⟨rfl, rfl⟩
  | _ => cases h

/-! ## Floats -/

theorem float_cases {v : Value} (h : isFloat v = true) : (∃ f, v = .float4 f) ∨ ∃ f, v = .float f := by
  cases v with
  | float4 f => exact .inl ⟨f, rfl⟩
  | float f => exact .inr ⟨f, rfl⟩
  | _ => cases h

/-- The bits of a float, as a double one. -/
def bitsOf : Value → UInt64
  | .float4 f => widenF32 f
  | .float f => f
  | _ => 0

theorem floatVal_eq {v : Value} (h : isFloat v = true) : floatVal (keyOrders C) v = bitsOf v := by
  rcases float_cases h with ⟨f, rfl⟩ | ⟨f, rfl⟩
  · rfl
  · rfl

theorem isNanVal_eq {v : Value} (h : isFloat v = true) : isNanVal v = isNanBits (bitsOf v) := by
  rcases float_cases h with ⟨f, rfl⟩ | ⟨f, rfl⟩
  · rfl
  · rfl

theorem cmpOrdering_floats {x y : Value} (hx : isFloat x = true) (hy : isFloat y = true) :
    cmpOrdering C x y = .ok (some (pgFloatOrd (bitsOf x) (bitsOf y))) := by
  have hnumber : (isNumber x && isNumber y) = true := by
    unfold isNumber
    rw [hx, hy, Bool.or_true, Bool.or_true]
    rfl
  have hexact : ¬(isExactNumeric x && isExactNumeric y) = true := by
    rcases float_cases hx with ⟨f, rfl⟩ | ⟨f, rfl⟩
    · exact Bool.false_ne_true
    · exact Bool.false_ne_true
  have hcmp : numbersCmp C x y = pgFloatOrd (bitsOf x) (bitsOf y) := by
    unfold numbersCmp
    rw [if_neg hexact, if_pos hx, if_pos hy, floatVal_eq C hx, floatVal_eq C hy]
  rw [← hcmp]
  rcases float_cases hx with ⟨f, rfl⟩ | ⟨f, rfl⟩
  all_goals
    rcases float_cases hy with ⟨g, rfl⟩ | ⟨g, rfl⟩
    all_goals
      unfold cmpOrdering scalarCmp
      exact if_pos hnumber

theorem canonFloatKey_of_eq {f g : UInt64} (hf : isNanBits f = false) (hg : isNanBits g = false)
    (h : pgFloatOrd f g = .eq) : canonFloatKey f = canonFloatKey g := by
  unfold pgFloatOrd at h
  rw [hf, hg, if_neg Bool.false_ne_true, if_neg Bool.false_ne_true, compare_eq_iff_eq] at h
  have hfl := f.toNat_lt
  have hgl := g.toNat_lt
  unfold signedBits at h
  unfold canonFloatKey
  rw [hf, hg, if_neg Bool.false_ne_true, if_neg Bool.false_ne_true]
  by_cases hzero : f.toNat % 2 ^ 63 = 0
  · have hzero' : g.toNat % 2 ^ 63 = 0 := by
      split at h <;> split at h <;> omega
    rw [if_pos hzero, if_pos hzero']
  · have hsame : f = g := by
      rw [← UInt64.toNat_inj]
      split at h <;> split at h <;> omega
    rw [hsame]

theorem canonFloatKey_of_sqlEq {x y : Value} (hx : isFloat x = true) (hy : isFloat y = true) (h : SqlEq C x y) :
    canonFloatKey (bitsOf x) = canonFloatKey (bitsOf y) := by
  have heval : evalEq C x y = flatEq C x y := by
    rcases float_cases hx with ⟨f, rfl⟩ | ⟨f, rfl⟩
    all_goals
      rcases float_cases hy with ⟨g, rfl⟩ | ⟨g, rfl⟩
      all_goals rfl
  unfold SqlEq at h
  rw [heval] at h
  unfold flatEq at h
  rw [isNanVal_eq hx, isNanVal_eq hy] at h
  split at h
  · have hnan : isNanBits (bitsOf x) = true ∧ isNanBits (bitsOf y) = true := by simpa using h
    unfold canonFloatKey
    rw [if_pos hnan.1, if_pos hnan.2]
  · rename_i hnan
    rw [cmpOrdering_floats C hx hy] at h
    have hcmp : pgFloatOrd (bitsOf x) (bitsOf y) = .eq := by simpa [Except.map] using h
    have hnot : isNanBits (bitsOf x) = false ∧ isNanBits (bitsOf y) = false := by simpa using hnan
    exact canonFloatKey_of_eq hnot.1 hnot.2 hcmp

theorem hashKeyPart_float {v : Value} {p : HashKeyPart} (h : hashKeyPart v .float = some p) :
    isFloat v = true ∧ p = .float (canonFloatKey (bitsOf v)) := by
  cases v with
  | float4 f | float f =>
      cases h
      exact ⟨rfl, rfl⟩
  | _ => cases h

/-! ## Other types -/

theorem eq_of_textCmp {a b : List Char} (h : textCmp a b = .eq) : a = b := by
  have hmap : a.map Char.toNat = b.map Char.toNat := Std.LawfulEqCmp.eq_of_compare h
  exact List.map_injective_iff.2 (fun c d hcd => Char.toNat_inj.1 hcd) hmap

theorem eq_of_bytesCmp {a b : Bytes} (h : bytesCmp a b = .eq) : a = b := by
  have hmap : a.map UInt8.toNat = b.map UInt8.toNat := Std.LawfulEqCmp.eq_of_compare h
  exact List.map_injective_iff.2 (fun c d hcd => UInt8.toNat_inj.1 hcd) hmap

theorem bool_of_toNat {a b : Bool} (h : a.toNat = b.toNat) : a = b := by
  cases a with
  | false =>
      cases b with
      | false => rfl
      | true => cases h
  | true =>
      cases b with
      | false => cases h
      | true => rfl

/-- Bit strings with the bytes they need are equal only if they are the same. -/
theorem eq_of_bitCmp {a b : Encoding.BitString} (ha : WfCell (.bitString a)) (hb : WfCell (.bitString b))
    (h : bitCmp a b = .eq) : a = b := by
  unfold bitCmp at h
  rw [Ordering.then_eq_eq, compare_eq_iff_eq] at h
  have hbits : a.bitlen = b.bitlen := UInt32.toNat_inj.1 h.2
  have hlen : a.bytes.length = b.bytes.length := by
    rw [show a.bytes.length = _ from ha, show b.bytes.length = _ from hb, hbits]
  have hbytes := eq_of_bytesCmp h.1
  rw [hlen, min_self, List.take_length, ← hlen, List.take_length] at hbytes
  obtain ⟨al, ab⟩ := a
  obtain ⟨bl, bb⟩ := b
  cases hbits
  cases hbytes
  rfl

/-! ## Equal values and their key parts -/

/-- Values that may be equal with key parts that are not: exact numbers of two scales, and a timestamp that a time zone
moves beside one with a time zone. -/
def Apart (x y : Value) : Prop :=
  match x, y with
  | .timestamp t, .timestamptz _ => C.timestampAsTimestamptz t ≠ t
  | .timestamptz _, .timestamp t => C.timestampAsTimestamptz t ≠ t
  | x, y => isExactNumeric x = true ∧ isExactNumeric y = true ∧ scaleOf C x ≠ scaleOf C y

theorem apart_exact {x y : Value} (hx : isExactNumeric x = true) (hy : isExactNumeric y = true) :
    Apart C x y ↔ scaleOf C x ≠ scaleOf C y := by
  rcases exact_cases hx with ⟨i, rfl⟩ | ⟨i, rfl⟩ | ⟨i, rfl⟩ | ⟨m, rfl⟩
  all_goals exact ⟨fun h => h.2.2, fun h => ⟨hx, hy, h⟩⟩

theorem eq_of_sqlEq {x y : Value} {o : Ordering} (heval : evalEq C x y = .ok (some (o = .eq))) (h : SqlEq C x y) :
    o = .eq := (sqlEq_of_eval C heval).1 h

/-- Beside exact numbers and timestamps no values are apart. -/
theorem not_apart_of_family {x y : Value} {fam : HashFam} {p : HashKeyPart} (hfam : fam ≠ .exactNum) (hts : fam ≠ .ts)
    (hp : hashKeyPart x fam = some p) : ¬Apart C x y := by
  intro hapart
  cases x with
  | smallInt _ | int _ | bigInt _ | numeric _ =>
      cases fam with
      | exactNum => exact hfam rfl
      | _ => cases hp
  | timestamp _ | timestamptz _ =>
      cases fam with
      | ts => exact hts rfl
      | _ => cases hp
  | _ => cases hapart.1

/-- Equal values of another family have one key part. -/
theorem part_eq_of_family {x y : Value} {fam : HashFam} {p q : HashKeyPart} (hfam : fam ≠ .exactNum) (hts : fam ≠ .ts)
    (hp : hashKeyPart x fam = some p) (hq : hashKeyPart y fam = some q) (hwx : WfCell x) (hwy : WfCell y)
    (h : SqlEq C x y) : p = q := by
  cases fam with
  | exactNum => exact absurd rfl hfam
  | ts => exact absurd rfl hts
  | float =>
      obtain ⟨hx, rfl⟩ := hashKeyPart_float hp
      obtain ⟨hy, rfl⟩ := hashKeyPart_float hq
      rw [canonFloatKey_of_sqlEq C hx hy h]
  | text =>
      cases x with
      | text s =>
          cases y with
          | text t =>
              cases hp
              cases hq
              have hst : s = t := String.toList_inj.1 (eq_of_textCmp (eq_of_sqlEq C rfl h))
              rw [hst]
          | _ => cases hq
      | _ => cases hp
  | bpChar =>
      cases x with
      | bpChar s =>
          cases y with
          | bpChar t =>
              cases hp
              cases hq
              have hst : rtrimSpaces s = rtrimSpaces t := eq_of_textCmp (eq_of_sqlEq C rfl h)
              rw [hst]
          | _ => cases hq
      | _ => cases hp
  | bool =>
      cases x with
      | bool a =>
          cases y with
          | bool b =>
              cases hp
              cases hq
              have hab : a = b := bool_of_toNat (compare_eq_iff_eq.1 (eq_of_sqlEq C rfl h))
              rw [hab]
          | _ => cases hq
      | _ => cases hp
  | date =>
      cases x with
      | date a =>
          cases y with
          | date b =>
              cases hp
              cases hq
              have hab : a = b := Int32.toInt_inj.1 (compare_eq_iff_eq.1 (eq_of_sqlEq C rfl h))
              rw [hab]
          | _ => cases hq
      | _ => cases hp
  | bytea =>
      cases x with
      | bytea a =>
          cases y with
          | bytea b =>
              cases hp
              cases hq
              have hab : a = b := eq_of_bytesCmp (eq_of_sqlEq C rfl h)
              rw [hab]
          | _ => cases hq
      | _ => cases hp
  | bit =>
      cases x with
      | bitString a =>
          cases y with
          | bitString b =>
              cases hp
              cases hq
              have hab : a = b := eq_of_bitCmp hwx hwy (eq_of_sqlEq C rfl h)
              rw [hab]
          | _ => cases hq
      | _ => cases hp
  | uuid =>
      cases x with
      | uuid a =>
          cases y with
          | uuid b =>
              cases hp
              cases hq
              have hab : a.1 = b.1 := eq_of_bytesCmp (eq_of_sqlEq C rfl h)
              rw [hab]
          | _ => cases hq
      | _ => cases hp
  | char =>
      cases x with
      | singleChar a =>
          cases y with
          | singleChar b =>
              cases hp
              cases hq
              have hab : a = b := UInt8.toNat_inj.1 (compare_eq_iff_eq.1 (eq_of_sqlEq C rfl h))
              rw [hab]
          | _ => cases hq
      | _ => cases hp
  | pgLsn =>
      -- There is no equality of these.
      cases x with
      | pgLsn a =>
          cases y with
          | pgLsn b => exact absurd h error_ne_ok
          | _ => cases hq
      | _ => cases hp
  | tid =>
      cases x with
      | tid a b =>
          cases y with
          | tid c d => exact absurd h error_ne_ok
          | _ => cases hq
      | _ => cases hp

/-- A timestamp and one with a time zone are compared where the time zone moves the first. -/
theorem part_eq_ts {x y : Value} {p q : HashKeyPart} (hp : hashKeyPart x .ts = some p) (hq : hashKeyPart y .ts = some q)
    (h : SqlEq C x y) : p = q ↔ ¬Apart C x y := by
  cases x with
  | timestamp t =>
      cases y with
      | timestamp u =>
          cases hp
          cases hq
          have htu : t = u := Int64.toInt_inj.1 (compare_eq_iff_eq.1 (eq_of_sqlEq C rfl h))
          exact iff_of_true (by rw [htu]) fun hapart => Bool.false_ne_true hapart.1
      | timestamptz z =>
          cases hp
          cases hq
          have htz := Int64.toInt_inj.1 (compare_eq_iff_eq.1 (eq_of_sqlEq C rfl h))
          rw [HashKeyPart.ts.injEq, ← htz]
          exact ⟨fun heq hapart => hapart heq.symm, fun hapart => (not_not.1 hapart).symm⟩
      | _ => cases hq
  | timestamptz z =>
      cases y with
      | timestamp t =>
          cases hp
          cases hq
          have htz := Int64.toInt_inj.1 (compare_eq_iff_eq.1 (eq_of_sqlEq C rfl h))
          rw [HashKeyPart.ts.injEq, htz]
          exact ⟨fun heq hapart => hapart heq, fun hapart => not_not.1 hapart⟩
      | timestamptz u =>
          cases hp
          cases hq
          have hzu : z = u := Int64.toInt_inj.1 (compare_eq_iff_eq.1 (eq_of_sqlEq C rfl h))
          exact iff_of_true (by rw [hzu]) fun hapart => Bool.false_ne_true hapart.1
      | _ => cases hq
  | _ => cases hp

theorem part_eq_exactNum {x y : Value} {p q : HashKeyPart} (hp : hashKeyPart x .exactNum = some p)
    (hq : hashKeyPart y .exactNum = some q) (hwx : WfCell x) (hwy : WfCell y) (h : SqlEq C x y) :
    p = q ↔ ¬Apart C x y := by
  obtain ⟨hx, rfl⟩ := hashKeyPart_exactNum C hp
  obtain ⟨hy, rfl⟩ := hashKeyPart_exactNum C hq
  have hcmp := cmp_numOf C hx hy hwx h
  rw [HashKeyPart.exactNum.injEq, apart_exact C hx hy, not_not]
  exact Num.Numeric.hashKey_iff_scale (wf_numOf C hx hwx) (wf_numOf C hy hwy) hcmp

/-- Equal values of one family have one key part, unless they are apart. -/
theorem part_eq_iff {x y : Value} {fam : HashFam} {p q : HashKeyPart} (hp : hashKeyPart x fam = some p)
    (hq : hashKeyPart y fam = some q) (hwx : WfCell x) (hwy : WfCell y) (h : SqlEq C x y) :
    p = q ↔ ¬Apart C x y := by
  by_cases hfam : fam = .exactNum
  · subst hfam
    exact part_eq_exactNum C hp hq hwx hwy h
  · by_cases hts : fam = .ts
    · subst hts
      exact part_eq_ts C hp hq h
    · exact iff_of_true (part_eq_of_family C hfam hts hp hq hwx hwy h) (not_apart_of_family C hfam hts hp)

theorem Apart.comm {x y : Value} : Apart C x y → Apart C y x := by
  intro h
  by_cases hx : isExactNumeric x = true
  · have hy : isExactNumeric y = true := by
      rcases exact_cases hx with ⟨i, rfl⟩ | ⟨i, rfl⟩ | ⟨i, rfl⟩ | ⟨m, rfl⟩
      all_goals exact h.2.1
    exact (apart_exact C hy hx).2 fun heq => (apart_exact C hx hy).1 h heq.symm
  · cases x with
    | timestamp t =>
        cases y with
        | timestamptz z => exact h
        | _ => exact absurd h.1 hx
    | timestamptz z =>
        cases y with
        | timestamp t => exact h
        | _ => exact absurd h.1 hx
    | _ => exact absurd h.1 hx

end

/-! ## A condition that is true -/

section

variable {E : Type} (ev : Evaluator E) {frames : List (Frame Value)}

theorem bool3_eq_true {b : Option Bool} (h : bool3 b = .bool true) : b = some true := by
  cases b with
  | none => cases h
  | some b =>
      cases h
      rfl

theorem asBool3_eq_true {v : Value} (h : asBool3 v = .ok (some true)) : v = .bool true := by
  cases v with
  | bool b =>
      cases h
      rfl
  | _ => cases h

theorem checkBool_eq_true {v : Value} {what : String} (h : checkBool v what = .ok true) : v = .bool true := by
  cases v with
  | bool b =>
      cases h
      rfl
  | _ => cases h

/-- Every conjunct of a true condition is true. -/
theorem true_conjunct {e : JoinExpr E} (h : evalExpr ev frames e = .ok (.bool true)) :
    ∀ c ∈ splitConjuncts e, evalExpr ev frames c = .ok (.bool true) := by
  induction e with
  | and left right ihl ihr =>
      rw [evalExpr] at h
      obtain ⟨va, hva, h⟩ := Loops.bind_eq_ok h
      obtain ⟨vb, hvb, h⟩ := Loops.bind_eq_ok h
      obtain ⟨a, ha, h⟩ := Loops.bind_eq_ok h
      obtain ⟨b, hb, h⟩ := Loops.bind_eq_ok h
      obtain ⟨rfl, rfl⟩ := Views.and3_eq_true.1 (bool3_eq_true (Except.ok.inj h))
      rw [asBool3_eq_true ha] at hva
      rw [asBool3_eq_true hb] at hvb
      intro c hc
      rcases List.mem_append.1 hc with hc | hc
      · exact ihr hvb c hc
      · exact ihl hva c hc
  | resolvedCol | cmp | other =>
      intro c hc
      rw [List.mem_singleton.1 hc]
      exact h

theorem not_byName {t : ColType} {fam : HashFam} (h : hashFamily t = some fam) : comparesByName (some t) = false := by
  cases t with
  | regclass | name => cases h
  | _ => rfl

theorem sideColumns_cases {nOuter li ri : Nat} {c : JoinExpr E} (h : sideColumns nOuter c = some (li, ri)) :
    c = .cmp .eq (.resolvedCol nOuter li) (.resolvedCol (nOuter + 1) ri) ∨
      c = .cmp .eq (.resolvedCol (nOuter + 1) ri) (.resolvedCol nOuter li) := by
  unfold sideColumns at h
  split at h
  · split at h
    · rename_i hf
      cases h
      rw [hf.1, hf.2]
      exact .inl rfl
    · split at h
      · rename_i hf
        cases h
        rw [hf.1, hf.2]
        exact .inr rfl
      · cases h
  · cases h

theorem conjunctKey_cases {nOuter : Nat} {lschema rschema : List QCol} {c : JoinExpr E} {k : JoinKey}
    (h : conjunctKey nOuter lschema rschema c = some k) :
    sideColumns nOuter c = some (k.left, k.right) ∧
      ∃ lt rt, lschema[k.left]? = some lt ∧ rschema[k.right]? = some rt ∧ hashFamily lt.ty = some k.fam ∧
        hashFamily rt.ty = some k.fam := by
  unfold conjunctKey at h
  split at h
  · cases h
  · rename_i li ri hside
    split at h
    · rename_i lt rt hlt hrt
      split at h
      · rename_i lfam rfam hlfam hrfam
        split at h
        · rename_i hfam
          cases h
          exact ⟨hside, lt, rt, hlt, hrt, hlfam, hfam ▸ hrfam⟩
        · cases h
      · cases h
    · cases h

theorem hashJoinKeys_mem {pred : JoinExpr E} {nOuter : Nat} {lschema rschema : List QCol} {keys : List JoinKey}
    (h : hashJoinKeys pred nOuter lschema rschema = some keys) {k : JoinKey} (hk : k ∈ keys) :
    ∃ c ∈ splitConjuncts pred, conjunctKey nOuter lschema rschema c = some k := by
  unfold hashJoinKeys at h
  split at h
  · cases h
  · rename_i hkeys
    cases h
    exact List.mem_filterMap.1 hk

/-- An equality of two columns that are not compared by what they name. -/
theorem eval_columns {fl li fr ri : Nat} {f g : Frame Value} {lt rt : QCol} {fam : HashFam} (hf : frames[fl]? = some f)
    (hg : frames[fr]? = some g) (hl : f.schema[li]? = some lt) (hr : g.schema[ri]? = some rt)
    (hlfam : hashFamily lt.ty = some fam) (hrfam : hashFamily rt.ty = some fam)
    (h : evalExpr ev frames (.cmp .eq (.resolvedCol fl li) (.resolvedCol fr ri)) = .ok (.bool true)) :
    SqlEq ev.casts (f.row.getD li .null) (g.row.getD ri .null) := by
  have hname : comparesByName (exprType ev frames (.resolvedCol fl li)) = false := by
    rw [exprType, hf, Option.bind_some, hl]
    exact not_byName hlfam
  have hname' : comparesByName (exprType ev frames (.resolvedCol fr ri)) = false := by
    rw [exprType, hg, Option.bind_some, hr]
    exact not_byName hrfam
  have hcoerce : coerceOperands ev frames (.resolvedCol fl li) (.resolvedCol fr ri) (f.row.getD li .null)
      (g.row.getD ri .null) = .ok (f.row.getD li .null, g.row.getD ri .null) := by
    unfold coerceOperands
    rw [hname, hname', Bool.or_false, if_neg Bool.false_ne_true, ite_self]
  have heval : (evalEq ev.casts (f.row.getD li .null) (g.row.getD ri .null)).map bool3 = .ok (.bool true) := by
    rw [evalExpr, evalExpr, evalExpr, hf, hg] at h
    simp only [Option.map_some, Option.getD_some, bind, Except.bind, hcoerce] at h
    exact h
  unfold SqlEq
  cases hres : evalEq ev.casts (f.row.getD li .null) (g.row.getD ri .null) with
  | error e =>
      rw [hres] at heval
      cases heval
  | ok b =>
      rw [hres] at heval
      rw [bool3_eq_true (Except.ok.inj heval)]

variable {J : HashSpec E} {keys : List JoinKey}

/-- The columns of a key are equal in a pair that joins. -/
theorem sqlEq_of_join {l r : QRow Value} (hkeys : hashJoinKeys J.pred J.outer.length J.lschema J.rschema = some keys)
    (h : J.evalOn ev l r = .ok true) {k : JoinKey} (hk : k ∈ keys) :
    SqlEq ev.casts (l.cells.getD k.left .null) (r.cells.getD k.right .null) ∨
      SqlEq ev.casts (r.cells.getD k.right .null) (l.cells.getD k.left .null) := by
  unfold HashSpec.evalOn at h
  obtain ⟨v, hv, h⟩ := Loops.bind_eq_ok h
  rw [checkBool_eq_true h] at hv
  obtain ⟨c, hc, hkey⟩ := hashJoinKeys_mem hkeys hk
  have htrue := true_conjunct ev hv c hc
  obtain ⟨hside, lt, rt, hlt, hrt, hlfam, hrfam⟩ := conjunctKey_cases hkey
  have hleft : (J.outer ++ [⟨J.lschema, l.cells⟩, ⟨J.rschema, r.cells⟩])[J.outer.length]? = some ⟨J.lschema, l.cells⟩ := by
    simp
  have hright :
      (J.outer ++ [⟨J.lschema, l.cells⟩, ⟨J.rschema, r.cells⟩])[J.outer.length + 1]? = some ⟨J.rschema, r.cells⟩ := by
    simp
  rcases sideColumns_cases hside with rfl | rfl
  · exact .inl (eval_columns ev hleft hright hlt hrt hlfam hrfam htrue)
  · exact .inr (eval_columns ev hright hleft hrt hlt hrfam hlfam htrue)

/-! ## Keys of rows -/

/-- The fields of a row and the parts of its key. -/
def PartsOf (row : List Value) (fields : List (Nat × HashFam)) (parts : List HashKeyPart) : Prop :=
  List.Forall₂ (fun f p => hashKeyPart (row.getD f.1 .null) f.2 = some p) fields parts

theorem rowKey_cons_of_ne {row : List Value} {i : Nat} {fam : HashFam} {rest : List (Nat × HashFam)}
    (h : row.getD i .null ≠ .null) :
    rowKey row ((i, fam) :: rest) =
      match hashKeyPart (row.getD i .null) fam with
      | none => .unfit
      | some p =>
        match rowKey row rest with
        | .key parts => .key (p :: parts)
        | o => o := by
  rw [rowKey]
  split
  · rename_i hnull
    exact absurd hnull h
  · rfl

theorem rowKey_key {row : List Value} {fields : List (Nat × HashFam)} {parts : List HashKeyPart}
    (h : rowKey row fields = .key parts) : PartsOf row fields parts := by
  induction fields generalizing parts with
  | nil =>
      cases h
      exact .nil
  | cons f rest ih =>
      obtain ⟨i, fam⟩ := f
      by_cases hnull : row.getD i .null = .null
      · rw [rowKey, hnull] at h
        cases h
      · rw [rowKey_cons_of_ne hnull] at h
        split at h
        · cases h
        · rename_i p hp
          split at h
          · rename_i parts hparts
            cases h
            exact .cons hp (ih hparts)
          · rename_i hno
            exact absurd h (hno parts)

theorem rowKey_null {row : List Value} {fields : List (Nat × HashFam)} (h : rowKey row fields = .null) :
    ∃ f ∈ fields, row.getD f.1 .null = .null := by
  induction fields with
  | nil => cases h
  | cons f rest ih =>
      obtain ⟨i, fam⟩ := f
      by_cases hnull : row.getD i .null = .null
      · exact ⟨_, List.mem_cons_self, hnull⟩
      · rw [rowKey_cons_of_ne hnull] at h
        split at h
        · cases h
        · split at h
          · cases h
          · obtain ⟨f, hf, hnull⟩ := ih h
            exact ⟨f, List.mem_cons_of_mem _ hf, hnull⟩

theorem wf_getD {row : List Value} (h : ∀ v ∈ row, WfCell v) (i : Nat) : WfCell (row.getD i .null) := by
  rw [List.getD_eq_getElem?_getD]
  cases hv : row[i]? with
  | none => trivial
  | some v => exact h v (List.mem_of_getElem? hv)

/-- Keys of rows that are equal in every column are one key where no column is apart. -/
theorem parts_eq_iff {C : Casts} {l r : List Value} {ks : List JoinKey} {ps qs : List HashKeyPart}
    (hl : ∀ v ∈ l, WfCell v) (hr : ∀ v ∈ r, WfCell v) (hp : PartsOf l (ks.map fun k => (k.left, k.fam)) ps)
    (hq : PartsOf r (ks.map fun k => (k.right, k.fam)) qs)
    (heq : ∀ k ∈ ks, SqlEq C (l.getD k.left .null) (r.getD k.right .null) ∨
      SqlEq C (r.getD k.right .null) (l.getD k.left .null)) :
    ps = qs ↔ ∀ k ∈ ks, ¬Apart C (l.getD k.left .null) (r.getD k.right .null) := by
  induction ks generalizing ps qs with
  | nil =>
      cases hp
      cases hq
      exact iff_of_true rfl fun k hk => absurd hk List.not_mem_nil
  | cons k ks ih =>
      rw [List.map_cons] at hp hq
      obtain ⟨p, ps, hpk, hps, rfl⟩ := List.forall₂_cons_left_iff.1 hp
      obtain ⟨q, qs, hqk, hqs, rfl⟩ := List.forall₂_cons_left_iff.1 hq
      have hfirst : p = q ↔ ¬Apart C (l.getD k.left .null) (r.getD k.right .null) := by
        rcases heq k List.mem_cons_self with h | h
        · exact part_eq_iff C hpk hqk (wf_getD hl k.left) (wf_getD hr k.right) h
        · rw [eq_comm, part_eq_iff C hqk hpk (wf_getD hr k.right) (wf_getD hl k.left) h]
          exact not_congr ⟨Apart.comm C, Apart.comm C⟩
      rw [List.cons.injEq, hfirst, ih hps hqs fun k' hk' => heq k' (List.mem_cons_of_mem k hk'), List.forall_mem_cons]

/-- Both rows have a key, and it is the same one. -/
def sameKey (ks : List JoinKey) (l r : QRow Value) : Bool :=
  match leftKey ks l with
  | .key parts => rightKey ks r = .key parts
  | _ => false

/-- A pair that joins is found by its key if and only if no key column of it is apart. -/
theorem sameKey_iff {l r : QRow Value} (hkeys : hashJoinKeys J.pred J.outer.length J.lschema J.rschema = some keys)
    (hl : ∀ v ∈ l.cells, WfCell v) (hr : ∀ v ∈ r.cells, WfCell v) (hfitl : leftKey keys l ≠ .unfit)
    (hfitr : rightKey keys r ≠ .unfit) (h : J.evalOn ev l r = .ok true) :
    sameKey keys l r = true ↔
      ∀ k ∈ keys, ¬Apart ev.casts (l.cells.getD k.left .null) (r.cells.getD k.right .null) := by
  have heq : ∀ k ∈ keys, SqlEq ev.casts (l.cells.getD k.left .null) (r.cells.getD k.right .null) ∨
      SqlEq ev.casts (r.cells.getD k.right .null) (l.cells.getD k.left .null) := fun k hk =>
    sqlEq_of_join ev hkeys h hk
  cases hlk : leftKey keys l with
  | unfit => exact absurd hlk hfitl
  | null =>
      obtain ⟨f, hf, hnull⟩ := rowKey_null hlk
      obtain ⟨k, hk, rfl⟩ := List.mem_map.1 hf
      rcases heq k hk with h | h
      · rw [hnull] at h
        exact absurd h (null_not_sqlEq ev.casts)
      · rw [hnull] at h
        exact absurd h (not_sqlEq_null ev.casts)
  | key ps =>
      cases hrk : rightKey keys r with
      | unfit => exact absurd hrk hfitr
      | null =>
          obtain ⟨f, hf, hnull⟩ := rowKey_null hrk
          obtain ⟨k, hk, rfl⟩ := List.mem_map.1 hf
          rcases heq k hk with h | h
          · rw [hnull] at h
            exact absurd h (not_sqlEq_null ev.casts)
          · rw [hnull] at h
            exact absurd h (null_not_sqlEq ev.casts)
      | key qs =>
          unfold sameKey
          rw [hlk]
          simp only [hrk, decide_eq_true_eq, RowKey.key.injEq]
          rw [eq_comm]
          exact parts_eq_iff hl hr (rowKey_key hlk) (rowKey_key hrk) heq

end

/-! ## The rows of both joins -/

section

variable {α β γ : Type}

theorem sublist_filter_and {found kept : β → Bool} {ys : List β} :
    (ys.filter fun y => found y && kept y).Sublist (ys.filter kept) :=
  List.monotone_filter_right ys fun _ hy => (Bool.and_eq_true_iff.1 hy).2

theorem filter_and_eq_iff {found kept : β → Bool} {ys : List β} :
    (ys.filter fun y => found y && kept y) = ys.filter kept ↔ ∀ y ∈ ys, kept y = true → found y = true := by
  constructor
  · intro heq y hy hk
    have hmem : y ∈ ys.filter fun y => found y && kept y := by
      rw [heq]
      exact List.mem_filter.2 ⟨hy, hk⟩
    exact (Bool.and_eq_true_iff.1 (List.mem_filter.1 hmem).2).1
  · intro h
    refine List.filter_congr fun y hy => ?_
    rw [Bool.eq_iff_iff, Bool.and_eq_true_iff]
    exact ⟨And.right, fun hk => ⟨h y hy hk, hk⟩⟩

/-- Fewer pairs are the same pairs only if every pair that is kept is found. -/
theorem flatMap_filter_eq_iff {found kept : α → β → Bool} {f : α → β → γ} {xs : List α} {ys : List β} :
    (xs.flatMap fun x => (ys.filter fun y => found x y && kept x y).map (f x)) =
        (xs.flatMap fun x => (ys.filter (kept x)).map (f x)) ↔
      ∀ x ∈ xs, ∀ y ∈ ys, kept x y = true → found x y = true := by
  have hsub : ∀ x, (ys.filter fun y => found x y && kept x y).length ≤ (ys.filter (kept x)).length := fun x =>
    sublist_filter_and.length_le
  constructor
  · intro heq
    -- no part is longer than its counterpart, so all are as long if the whole is
    have hlen := congrArg List.length heq
    clear heq
    induction xs with
    | nil => exact fun x hx => absurd hx List.not_mem_nil
    | cons x xs ih =>
        simp only [List.flatMap_cons, List.length_append, List.length_map] at hlen
        have htail : (xs.flatMap fun x => (ys.filter fun y => found x y && kept x y).map (f x)).length ≤
            (xs.flatMap fun x => (ys.filter (kept x)).map (f x)).length := by
          rw [List.length_flatMap, List.length_flatMap]
          refine List.sum_le_sum fun x _ => ?_
          rw [List.length_map, List.length_map]
          exact hsub x
        have hhead := hsub x
        have hsame : (ys.filter fun y => found x y && kept x y) = ys.filter (kept x) :=
          sublist_filter_and.eq_of_length (by omega)
        exact List.forall_mem_cons.2 ⟨filter_and_eq_iff.1 hsame, ih (by omega)⟩
  · intro h
    refine List.flatMap_congr fun x hx => ?_
    rw [filter_and_eq_iff.2 (h x hx)]

end

section

variable {E : Type} (ev : Evaluator E) {J : HashSpec E} {keys : List JoinKey}

/-- The bucket of a key has the right rows with this key, in their order. -/
theorem bucket_eq {rrows : List (QRow Value)} {table : List (List HashKeyPart × QRow Value)}
    (h : buildTable keys rrows = some table) (key : List HashKeyPart) :
    bucket table key = rrows.filter fun r => rightKey keys r = .key key := by
  induction rrows generalizing table with
  | nil =>
      cases h
      rfl
  | cons r rrows ih =>
      rw [buildTable] at h
      cases hrk : rightKey keys r with
      | unfit =>
          rw [hrk] at h
          cases h
      | null =>
          rw [hrk] at h
          rw [List.filter_cons_of_neg (by simp [hrk])]
          exact ih h
      | key k =>
          rw [hrk] at h
          obtain ⟨rest, hrest, rfl⟩ := Option.map_eq_some_iff.1 h
          have htail := ih hrest
          unfold bucket at htail ⊢
          by_cases hk : k = key
          · rw [List.filter_cons_of_pos (by simp [hk]), List.map_cons, htail,
              List.filter_cons_of_pos (by simp [hrk, hk])]
          · rw [List.filter_cons_of_neg (by simp [hk]), htail, List.filter_cons_of_neg (by simp [hrk, hk])]

theorem buildTable_none {rrows : List (QRow Value)} :
    buildTable keys rrows = none ↔ ∃ r ∈ rrows, rightKey keys r = .unfit := by
  induction rrows with
  | nil => simp [buildTable]
  | cons r rrows ih =>
      rw [buildTable, List.exists_mem_cons_iff]
      cases hrk : rightKey keys r with
      | unfit => simp
      | null => simp [ih]
      | key k => simp [ih]

theorem scanBucket_eq {l : QRow Value} {rows : List (QRow Value)}
    (h : ∀ r ∈ rows, ∃ k, J.evalOn ev l r = .ok k) :
    scanBucket ev J l rows = .ok ((rows.filter (kept (J.evalOn ev) l)).map (J.combine l)) := by
  induction rows with
  | nil => rfl
  | cons r rows ih =>
      obtain ⟨k, hk⟩ := h r List.mem_cons_self
      rw [scanBucket, hk, ih fun r' hr' => h r' (List.mem_cons_of_mem r hr')]
      have hkept := kept_ok hk
      cases k with
      | false =>
          rw [List.filter_cons_of_neg (by simp [hkept])]
          rfl
      | true =>
          rw [List.filter_cons_of_pos hkept]
          rfl

/-- The rows that a left row finds by its key. -/
def foundRows (ks : List JoinKey) (rrows : List (QRow Value)) (l : QRow Value) : List (QRow Value) :=
  (rrows.filter fun r => sameKey ks l r && kept (J.evalOn ev) l r).map (J.combine l)

theorem foundRows_of_key {l : QRow Value} {rrows : List (QRow Value)} {parts : List HashKeyPart}
    (h : leftKey keys l = .key parts) :
    foundRows ev (J := J) keys rrows l =
      ((rrows.filter fun r => rightKey keys r = .key parts).filter (kept (J.evalOn ev) l)).map (J.combine l) := by
  unfold foundRows
  rw [List.filter_filter]
  congr 1
  refine List.filter_congr fun r _ => ?_
  unfold sameKey
  rw [h, Bool.and_comm]

theorem foundRows_of_null {l : QRow Value} {rrows : List (QRow Value)} (h : leftKey keys l = .null) :
    foundRows ev (J := J) keys rrows l = [] := by
  unfold foundRows
  rw [List.filter_eq_nil_iff.2 fun r _ => ?_]
  · rfl
  · unfold sameKey
    rw [h]
    exact Bool.false_ne_true

/-- Where no condition fails, the probe finds the rows of each left row in turn, or a left row that is unfit. -/
theorem probe_eq {lrows rrows : List (QRow Value)} {table : List (List HashKeyPart × QRow Value)}
    (htable : buildTable keys rrows = some table)
    (h : ∀ l ∈ lrows, ∀ r ∈ rrows, ∃ k, J.evalOn ev l r = .ok k) :
    (probe ev J keys table lrows = .ok none ∧ ∃ l ∈ lrows, leftKey keys l = .unfit) ∨
      (probe ev J keys table lrows = .ok (some (lrows.flatMap (foundRows ev (J := J) keys rrows))) ∧
        ∀ l ∈ lrows, leftKey keys l ≠ .unfit) := by
  induction lrows with
  | nil => exact .inr ⟨rfl, fun l hl => absurd hl List.not_mem_nil⟩
  | cons l lrows ih =>
      have htail := ih fun l' hl' => h l' (List.mem_cons_of_mem l hl')
      rw [probe, List.exists_mem_cons_iff, List.forall_mem_cons, List.flatMap_cons]
      cases hlk : leftKey keys l with
      | unfit => exact .inl ⟨rfl, .inl rfl⟩
      | null =>
          rw [foundRows_of_null ev hlk, List.nil_append]
          rcases htail with ⟨hprobe, hunfit⟩ | ⟨hprobe, hfit⟩
          · exact .inl ⟨hprobe, .inr hunfit⟩
          · exact .inr ⟨hprobe, RowKey.noConfusion, hfit⟩
      | key parts =>
          have hbucket : scanBucket ev J l (bucket table parts) = .ok (foundRows ev (J := J) keys rrows l) := by
            rw [bucket_eq htable, foundRows_of_key ev hlk]
            exact scanBucket_eq ev fun r hr => h l List.mem_cons_self r (List.mem_filter.1 hr).1
          simp only [hbucket, bind, Except.bind]
          rcases htail with ⟨hprobe, hunfit⟩ | ⟨hprobe, hfit⟩
          · rw [hprobe]
            exact .inl ⟨rfl, .inr hunfit⟩
          · rw [hprobe]
            exact .inr ⟨rfl, RowKey.noConfusion, hfit⟩

theorem innerLoop_ok {nullR : QRow Value} {lrows rrows rows : List (QRow Value)}
    (h : innerLoop ev J nullR lrows rrows = .ok rows) :
    (∀ l ∈ lrows, ∀ r ∈ rrows, ∃ k, J.evalOn ev l r = .ok k) ∧
      rows = lrows.flatMap fun l => (rrows.filter (kept (J.evalOn ev) l)).map (J.combine l) := by
  unfold innerLoop at h
  rw [joinLoop_eq] at h
  cases hcheck : checkPairs (J.evalOn ev) lrows rrows with
  | error e =>
      rw [hcheck] at h
      cases h
  | ok u =>
      rw [hcheck] at h
      cases h
      refine ⟨checkPairs_ok.1 hcheck, List.flatMap_congr fun l _ => ?_⟩
      unfold leftRows preserveLeft
      rw [Bool.and_false, if_neg Bool.false_ne_true, List.append_nil]

end

/-- Conditions on columns only. -/
def columnEvaluator : Evaluator Empty where
  casts := plainCasts
  other e _ := e.elim
  otherType e _ := e.elim
  cmp _ a b := .error (noOperator a b)
  coerceNamed _ _ _ a b := .ok (a, b)

/-- A join of an integer and a numeric column, on `a.x = b.y`. -/
def numberJoin : HashSpec Empty where
  outer := []
  lschema := [⟨"a", "x", .int, false, 0⟩]
  rschema := [⟨"b", "y", .numeric none, false, 0⟩]
  layout := ⟨[], [.left 0, .right 0], [⟨"a", "x", .int, false, 0⟩, ⟨"b", "y", .numeric none, false, 0⟩]⟩
  pred := .cmp .eq (.resolvedCol 0 0) (.resolvedCol 1 0)

/-- A hundred, as `1e2` is read. -/
def hundred : Value := .numeric ⟨1, -2, 0, .finite, none⟩

theorem wf_hundred : WfCell hundred :=
  show (Num.Numeric.new 1 (-2)).Wf from Num.Numeric.wf_new (by decide) (by decide)

end Joins
