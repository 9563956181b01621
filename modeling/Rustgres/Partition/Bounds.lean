-- SUMMARY: Partition bounds: which keys a bound accepts, and the check that two bounds do not overlap.
import Mathlib.Data.Int.ModEq
import Rustgres.Exec.Common

/-!
# Partition Bounds

A bound accepts the keys of the rows that belong in its partition. Before a partition is added its
bound is compared with those of its siblings, by separate code. The comparison rules a common key out
for bounds that are spelled alike: the same moduli, and no equal values that differ as data.
-/

namespace Partition

/-! ## Bounds -/

inductive PartMethod where
  | list
  | range
  | hash
deriving DecidableEq

/-- A NULL literal is a value of a range bound. -/
inductive RangeBound (V : Type) where
  | min
  | max
  | val (v : Option V)
deriving DecidableEq

inductive PartBound (V : Type) where
  | list (values : List V) (hasNull : Bool)
  | range (lower upper : List (RangeBound V))
  | hash (modulus remainder : Nat)
deriving DecidableEq

/-- The values of a row, in the order of the columns of its table. -/
abbrev Row (V : Type) := List (Option V)

abbrev Cols (T : Type) := List (String × T)

/-- What partitioning asks of values, types, literals and key expressions. The order of the values of
one type is total; values of different types need not compare. -/
structure KeySem (V E T L : Type) where
  typeOf : V → T
  typeName : T → String
  compare : V → V → Option Ordering
  hashInt : V → Int
  int : T
  coerceLiteral : L → T → Except ExecError V
  coerceValue : Option V → T → Except ExecError (Option V)
  inferType : E → Cols T → T
  evalKey : E → String → Cols T → Row V → Except ExecError (Option V)
  compare_isSome : ∀ {a b}, typeOf a = typeOf b → (compare a b).isSome
  compare_swap : ∀ {a b}, typeOf a = typeOf b → compare b a = (compare a b).map Ordering.swap
  compare_trans : ∀ {a b c}, typeOf a = typeOf b → typeOf b = typeOf c →
    compare a b = some .lt → compare b c = some .lt → compare a c = some .lt
  compare_congr : ∀ {a b c}, typeOf a = typeOf b → typeOf b = typeOf c →
    compare a b = some .eq → compare a c = compare b c
  typeOf_coerceLiteral : ∀ {l t v}, coerceLiteral l t = .ok v → typeOf v = t
  typeOf_coerceValue : ∀ {v t w}, coerceValue v t = .ok (some w) → typeOf w = t

section

variable {V E T L : Type} (sem : KeySem V E T L)

def comparePartitionValues : Option V → Option V → Option Ordering
  | none, none => some .eq
  | some a, some b => sem.compare a b
  | _, _ => none

/-- The lexicographic order of range bounds. -/
def rangeBoundLt : List (RangeBound V) → List (RangeBound V) → Bool
  | x :: xs, y :: ys =>
    match x, y with
    | .min, .min => rangeBoundLt xs ys
    | .min, _ => true
    | _, .min => false
    | .max, .max => rangeBoundLt xs ys
    | .max, _ => false
    | _, .max => true
    | .val vx, .val vy =>
      match comparePartitionValues sem vx vy with
      | some .lt => true
      | some .gt => false
      | _ => rangeBoundLt xs ys
  | _, _ => false

/-- The key is at or above the lower bound. -/
def atLeast : Row V → List (RangeBound V) → Bool
  | k :: key, b :: lower =>
    match b with
    | .min => atLeast key lower
    | .max => false
    | .val v =>
      match comparePartitionValues sem k v with
      | some .lt => false
      | some .gt => true
      | _ => atLeast key lower
  | _, _ => true

/-- The key is below the upper bound. -/
def below : Row V → List (RangeBound V) → Bool
  | k :: key, b :: upper =>
    match b with
    | .max => true
    | .min => false
    | .val v =>
      match comparePartitionValues sem k v with
      | some .lt => true
      | some .gt => false
      | _ => below key upper
  | _, _ => false

/-- A NULL key value satisfies no range bound. -/
def rangeBoundContains (lower upper : List (RangeBound V)) (key : Row V) : Bool :=
  !key.any Option.isNone && atLeast sem key lower && below sem key upper

/-- The remainder of a truncated division, made non-negative; values other than integers count as
zero. -/
def hashValue (v : Option V) (modulus : Nat) : Nat :=
  let i := (v.map sem.hashInt).getD 0
  ((i.tmod modulus + modulus).tmod modulus).toNat

def boundContains : PartMethod → PartBound V → Row V → Bool
  | .list, .list values hasNull, [k] =>
    match k with
    | none => hasNull
    | some _ => values.any fun v => comparePartitionValues sem k (some v) = some .eq
  | .range, .range lower upper, key => rangeBoundContains sem lower upper key
  | .hash, .hash modulus remainder, [k] => hashValue sem k modulus = remainder
  | _, _, _ => false

variable [BEq V]

def boundsOverlap : PartMethod → PartBound V → PartBound V → Bool
  | .list, .list av an, .list bv bn => an && bn || av.any fun v => bv.contains v
  | .range, .range al au, .range bl bu => rangeBoundLt sem al bu && rangeBoundLt sem bl au
  | .hash, .hash am ar, .hash bm br => am = bm && ar = br
  | _, _, _ => false

/-! ## Typed bounds -/

variable (types : List T)

/-- The key has the types of the key columns, up to NULLs. -/
def KeyTyped (key : Row V) : Prop :=
  List.Forall₂ (fun t k => ∀ v ∈ k, sem.typeOf v = t) types key

def RangeTyped (bounds : List (RangeBound V)) : Prop :=
  List.Forall₂ (fun t b => ∀ v, b = .val (some v) → sem.typeOf v = t) types bounds

def BoundTyped : PartBound V → Prop
  | .list values _ => ∀ v ∈ values, sem.typeOf v = types.head?.getD sem.int
  | .range lower upper => RangeTyped sem types lower ∧ RangeTyped sem types upper
  | .hash modulus _ => 0 < modulus

/-- The values of a range bound are not NULL. -/
def NoNull (bounds : List (RangeBound V)) : Prop := ∀ b ∈ bounds, b ≠ .val none

/-- Two bounds that the comparison of bounds is made for: equal values are the same data, moduli are
the same or leave no common remainder, and range bounds have no NULL. -/
def Comparable : PartBound V → PartBound V → Prop
  | .list av _, .list bv _ => ∀ v ∈ av, ∀ w ∈ bv, sem.compare v w = some .eq → (v == w) = true
  | .hash am ar, .hash bm br => am = bm ∨ ¬ ar ≡ br [MOD am.gcd bm]
  | .range al au, .range bl bu => NoNull al ∧ NoNull au ∧ NoNull bl ∧ NoNull bu
  | _, _ => True

end

/-! ## Bounds without a common key -/

section

variable {V E T L : Type} {sem : KeySem V E T L} {types : List T}

/-- A key between a lower and an upper bound puts the lower one below the upper one. -/
theorem rangeBoundLt_of_key {key : Row V} {lower upper : List (RangeBound V)}
    (hkey : KeyTyped sem types key) (hlower : RangeTyped sem types lower)
    (hupper : RangeTyped sem types upper) (hnull : key.any Option.isNone = false)
    (hlnull : NoNull lower) (hunull : NoNull upper)
    (hl : atLeast sem key lower) (hu : below sem key upper) : rangeBoundLt sem lower upper := by
  induction hkey generalizing lower upper with
  | nil =>
      cases hupper
      cases hu
  | @cons t k types key hk hkey ih =>
      cases hlower with
      | @cons _ l _ lower hlt hlower =>
      cases hupper with
      | @cons _ u _ upper hut hupper =>
      simp only [List.any_cons, Bool.or_eq_false_iff] at hnull
      obtain ⟨k, rfl⟩ := Option.isSome_iff_exists.1 (by
        rw [← Option.not_isNone, hnull.1]
        rfl)
      have ih := @ih lower upper hlower hupper hnull.2 (fun b hb => hlnull b (.tail _ hb))
        fun b hb => hunull b (.tail _ hb)
      have hk := hk k rfl
      cases u with
      | min => cases hu
      | max =>
          cases l with
          | min => rfl
          | max => cases hl
          | val v => rfl
      | val w =>
          obtain - | w := w
          · exact absurd rfl (hunull _ (.head _))
          have hw := hut w rfl
          cases l with
          | min => rfl
          | max => cases hl
          | val v =>
              obtain - | v := v
              · exact absurd rfl (hlnull _ (.head _))
              have hv := hlt v rfl
              have hkv := hk.trans hv.symm
              have hkw := hk.trans hw.symm
              have hswap := sem.compare_swap hkv
              simp only [atLeast, comparePartitionValues] at hl
              simp only [below, comparePartitionValues] at hu
              simp only [rangeBoundLt, comparePartitionValues]
              obtain ⟨o, ho⟩ := Option.isSome_iff_exists.1 (sem.compare_isSome hkv)
              obtain ⟨o', ho'⟩ := Option.isSome_iff_exists.1 (sem.compare_isSome hkw)
              rw [ho] at hl hswap
              rw [ho'] at hu
              cases o with
              | lt => cases hl
              | eq =>
                  -- the key equals the lower value, and compares with the upper one as that does
                  rw [sem.compare_congr hkv.symm hkw hswap, ho']
                  cases o' with
                  | lt => rfl
                  | eq => exact ih hl hu
                  | gt => cases hu
              | gt =>
                  cases o' with
                  | lt => rw [sem.compare_trans hkv.symm hkw hswap ho']
                  | eq =>
                      have hwk := sem.compare_swap hkw
                      rw [ho'] at hwk
                      have hwv := sem.compare_congr hkw.symm hkv hwk
                      have hvw := sem.compare_swap (hkw.symm.trans hkv)
                      rw [hwv, ho] at hvw
                      rw [hvw]
                      rfl
                  | gt => cases hu

theorem hashValue_modEq {modulus d : Nat} (hpos : 0 < modulus) (hd : d ∣ modulus) (v : Option V) :
    (hashValue sem v modulus : Int) ≡ (v.map sem.hashInt).getD 0 [ZMOD d] := by
  unfold hashValue
  generalize (v.map sem.hashInt).getD 0 = i
  have hm : (0 : Int) < modulus := by exact_mod_cast hpos
  have habove : 0 ≤ i.tmod modulus + modulus := by
    have := Int.lt_tmod_of_pos i hm
    omega
  rw [Int.toNat_of_nonneg (Int.tmod_nonneg _ habove), Int.tmod_eq_emod_of_nonneg habove]
  have htmod : i.tmod modulus ≡ i [ZMOD modulus] := by
    rw [Int.modEq_iff_dvd]
    exact ⟨i.tdiv modulus, by rw [Int.sub_eq_iff_eq_add]; exact (Int.mul_tdiv_add_tmod i modulus).symm⟩
  have hround : (i.tmod modulus + modulus) % modulus ≡ i [ZMOD modulus] := by
    rw [Int.add_emod_right]
    exact (Int.mod_modEq _ _).trans htmod
  exact hround.of_dvd (Int.natCast_dvd_natCast.2 hd)

variable [BEq V]

/-- Comparable bounds that do not overlap accept no common key. -/
theorem disjoint_of_not_overlap {method : PartMethod} {a b : PartBound V} {key : Row V}
    (ha : BoundTyped sem types a) (hb : BoundTyped sem types b) (hkey : KeyTyped sem types key)
    (hcomparable : Comparable sem a b) (hoverlap : boundsOverlap sem method a b = false)
    (hina : boundContains sem method a key) (hinb : boundContains sem method b key) : False := by
  cases method with
  | list =>
      cases a with
      | range | hash => cases hina
      | list av an =>
      cases b with
      | range | hash => cases hinb
      | list bv bn =>
      cases hkey with
      | nil => cases hina
      | @cons t k types key hk hkey =>
      cases hkey with
      | cons => cases hina
      | nil =>
      simp only [boundsOverlap, Bool.or_eq_false_iff] at hoverlap
      cases k with
      | none =>
          simp only [boundContains] at hina hinb
          rw [hina, hinb] at hoverlap
          cases hoverlap.1
      | some k =>
          simp only [boundContains, List.any_eq_true, decide_eq_true_eq] at hina hinb
          obtain ⟨v, hv, hkv⟩ := hina
          obtain ⟨w, hw, hkw⟩ := hinb
          simp only [comparePartitionValues] at hkv hkw
          have htk := hk k rfl
          have htv : sem.typeOf v = t := ha v hv
          have htw : sem.typeOf w = t := hb w hw
          have hvk := sem.compare_swap (htk.trans htv.symm)
          rw [hkv] at hvk
          have hvw := sem.compare_congr (htv.trans htk.symm) (htk.trans htw.symm) hvk
          rw [hkw] at hvw
          have hsame := hcomparable v hv w hw hvw
          have hcontains : bv.contains v = true := by
            rw [List.contains_eq_any_beq]
            exact List.any_eq_true.2 ⟨w, hw, hsame⟩
          have hany := List.any_eq_false.1 hoverlap.2 v hv
          exact hany hcontains
  | range =>
      cases a with
      | list | hash => cases hina
      | range al au =>
      cases b with
      | list | hash => cases hinb
      | range bl bu =>
      obtain ⟨halnull, haunull, hblnull, hbunull⟩ := hcomparable
      simp only [boundContains, rangeBoundContains, Bool.and_eq_true, Bool.not_eq_true'] at hina hinb
      have hab := rangeBoundLt_of_key hkey ha.1 hb.2 hina.1.1 halnull hbunull hina.1.2 hinb.2
      have hba := rangeBoundLt_of_key hkey hb.1 ha.2 hina.1.1 hblnull haunull hinb.1.2 hina.2
      simp [boundsOverlap, hab, hba] at hoverlap
  | hash =>
      cases a with
      | list | range => cases hina
      | hash am ar =>
      cases b with
      | list | range => cases hinb
      | hash bm br =>
      cases hkey with
      | nil => cases hina
      | @cons t k types key hk hkey =>
      cases hkey with
      | cons => cases hina
      | nil =>
      simp only [boundContains, decide_eq_true_eq] at hina hinb
      rcases hcomparable with rfl | hapart
      · simp [boundsOverlap, ← hina, ← hinb] at hoverlap
      · have hra := @hashValue_modEq _ _ _ _ sem _ _ ha (am.gcd_dvd_left bm) k
        have hrb := @hashValue_modEq _ _ _ _ sem _ _ hb (am.gcd_dvd_right bm) k
        rw [hina] at hra
        rw [hinb] at hrb
        exact hapart (Int.natCast_modEq_iff.1 (hra.trans hrb.symm))

end

end Partition
