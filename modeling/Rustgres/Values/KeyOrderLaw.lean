-- SUMMARY: Keys of an index are in a total order that agrees with equality, for the column types that have an arm.
import Rustgres.Values.Equality
import Rustgres.Lib.Orderings
import Rustgres.Numeric.Hash

/-!
# The Law of Index Keys

A composite key compares column by column. For most types of a column the comparison is a total order whose equal keys are
the equal ones of `=`. Types without an arm of their own compare by their tag, so all their values are one key.
-/

namespace Values

open Encoding (Value Numeric NumericSpecial RangeElem ArrayElem RangeVal MultiVal)
open Orderings

/-! ## Columns -/

/-- The type of a key column. -/
inductive KeyType where
  | smallInt | int | bigInt | float4 | float | numeric | text | bpChar | singleChar | bool | date | timestamp
  | timestamptz | time | timeTz | interval | bytea | uuid | bitString | pgLsn | jsonb | jsonpath
  | range (elem : RangeElem)
  | multirange (elem : RangeElem)
  | tsVector | tsQuery | record
  | array (elem : ArrayElem)
  | tid
deriving DecidableEq

/-- A key column, with the direction and the placement of NULL it was declared with. -/
structure KeyColumn where
  type : KeyType
  desc : Bool
  nullsFirst : Bool

/-- A bound of a range. -/
def IsBound (elem : RangeElem) (v : Value) : Prop :=
  match elem with
  | .int4 => ∃ i, v = .int i
  | .int8 => ∃ i, v = .bigInt i
  | .int2 => ∃ i, v = .smallInt i
  | .num => ∃ n, v = .numeric n ∧ (toNum n).Wf
  | .date => ∃ d, v = .date d
  | .ts => ∃ t, v = .timestamp t
  | .tstz => ∃ t, v = .timestamptz t
  | .text => ∃ s, v = .text s
  | .float8 => ∃ f, v = .float f

def IsRange (elem : RangeElem) (r : RangeVal Value) : Prop :=
  r.elem = elem ∧ (∀ v ∈ r.lo, IsBound elem v) ∧ ∀ v ∈ r.hi, IsBound elem v

/-- A document as it is stored. -/
def IsJsonb (s : String) : Prop := ∃ v : Json.JsonbVal, v.Canonical ∧ s.toList = v.render

/-- The values of a type, without NULL. -/
def KeyType.Holds (type : KeyType) (v : Value) : Prop :=
  match type with
  | .smallInt => ∃ i, v = .smallInt i
  | .int => ∃ i, v = .int i
  | .bigInt => ∃ i, v = .bigInt i
  | .float4 => ∃ f, v = .float4 f
  | .float => ∃ f, v = .float f
  | .numeric => ∃ n, v = .numeric n ∧ (toNum n).Wf
  | .text => ∃ s, v = .text s
  | .bpChar => ∃ s, v = .bpChar s
  | .singleChar => ∃ b, v = .singleChar b
  | .bool => ∃ b, v = .bool b
  | .date => ∃ d, v = .date d
  | .timestamp => ∃ t, v = .timestamp t
  | .timestamptz => ∃ t, v = .timestamptz t
  | .time => ∃ t, v = .time t
  | .timeTz => ∃ t o, v = .timeTz t o
  | .interval => ∃ iv, v = .interval iv
  | .bytea => ∃ b, v = .bytea b
  | .uuid => ∃ u, v = .uuid u
  | .bitString => ∃ b, v = .bitString b
  | .pgLsn => ∃ l, v = .pgLsn l
  | .jsonb => ∃ s, v = .jsonb s ∧ IsJsonb s
  | .jsonpath => ∃ s, v = .jsonpath s
  | .range elem => ∃ r, v = .range r ∧ IsRange elem r
  | .multirange elem => ∃ m, v = .multirange m ∧ m.elem = elem ∧ ∀ r ∈ m.ranges, IsRange elem r
  | .tsVector => ∃ x, v = .tsVector x
  | .tsQuery => ∃ q, v = .tsQuery q
  | .record => ∃ fields, v = .record fields
  | .array elem => ∃ dims lower elems, v = .array elem dims lower elems
  | .tid => ∃ b o, v = .tid b o

/-- What a column may hold. -/
def KeyColumn.Holds (c : KeyColumn) (v : Value) : Prop := v = .null ∨ c.type.Holds v

/-- The types with an arm that is an order: all with an arm of their own but floats and documents. -/
def KeyType.HasOrder : KeyType → Bool
  | .smallInt | .int | .bigInt | .numeric | .text | .bpChar | .singleChar | .bool | .date | .timestamp | .timestamptz
  | .bytea | .uuid | .range _ | .multirange _ => true
  | _ => false

/-! ## Composite keys -/

section

variable (C : Casts)

/-- The direction of a column and its placement of NULL take no part. -/
def indexKeyOrd (a b : List Value) : Ordering :=
  match a, b with
  | [x], [y] => indexKeyCmp (keyOrders C) x y
  | a, b =>
    (((a.zip b).map fun p => indexKeyCmp (keyOrders C) p.1 p.2).find? (· ≠ .eq)).getD (compare a.length b.length)

/-- Two cells are the same: both NULL, or `=` is true. -/
def SameCell (a b : Value) : Prop := (a = .null ∧ b = .null) ∨ SqlEq C a b

/-- A key has a value for each column. -/
def IsKey (cols : List KeyColumn) (key : List Value) : Prop := List.Forall₂ KeyColumn.Holds cols key

/-- Keys of these columns are in a total order, and equal where all their cells are. -/
structure LawfulKeys (cols : List KeyColumn) : Prop where
  refl : ∀ x, IsKey cols x → indexKeyOrd C x x = .eq
  antisymm : ∀ x y, IsKey cols x → IsKey cols y → indexKeyOrd C y x = (indexKeyOrd C x y).swap
  trans : ∀ x y z, IsKey cols x → IsKey cols y → IsKey cols z → indexKeyOrd C x y ≠ .gt → indexKeyOrd C y z ≠ .gt →
    indexKeyOrd C x z ≠ .gt
  equal : ∀ x y, IsKey cols x → IsKey cols y → (indexKeyOrd C x y = .eq ↔ List.Forall₂ (SameCell C) x y)

/-! ## Bounds and ranges -/

theorem pgFloatOrd_key (a b : UInt64) :
    pgFloatOrd a b = compare (if isNanBits a then ⊤ else (signedBits a : WithTop Int))
      (if isNanBits b then ⊤ else (signedBits b : WithTop Int)) := by
  unfold pgFloatOrd
  cases ha : isNanBits a with
  | false =>
      cases hb : isNanBits b with
      | false =>
          rw [if_neg Bool.false_ne_true, if_neg Bool.false_ne_true, if_neg Bool.false_ne_true,
            if_neg Bool.false_ne_true]
          rcases lt_trichotomy (signedBits a) (signedBits b) with h | h | h
          · rw [compare_lt_iff_lt.2 h, eq_comm, compare_lt_iff_lt]
            exact WithTop.coe_lt_coe.2 h
          · rw [h, compare_eq_iff_eq.2 rfl, eq_comm, compare_eq_iff_eq]
          · rw [compare_gt_iff_gt.2 h, eq_comm, compare_gt_iff_gt]
            exact WithTop.coe_lt_coe.2 h
      | true =>
          rw [if_neg Bool.false_ne_true, if_pos rfl, if_neg Bool.false_ne_true, if_pos rfl, eq_comm,
            compare_lt_iff_lt]
          exact WithTop.coe_lt_top _
  | true =>
      cases hb : isNanBits b with
      | false =>
          rw [if_pos rfl, if_neg Bool.false_ne_true, if_pos rfl, if_neg Bool.false_ne_true, eq_comm,
            compare_gt_iff_gt]
          exact WithTop.coe_lt_top _
      | true => rw [if_pos rfl, if_pos rfl, if_pos rfl, if_pos rfl, compare_eq_iff_eq.2 rfl]

theorem lawful_pgFloatOrd : LawfulOn (fun _ => True) pgFloatOrd :=
  LawfulOn.of_key (fun a => if isNanBits a then ⊤ else (signedBits a : WithTop Int)) fun {a b} _ _ =>
    pgFloatOrd_key a b

theorem lawful_compare {α : Type} (f : α → Int) : LawfulOn (fun _ => True) fun a b => compare (f a) (f b) :=
  LawfulOn.of_key f fun _ _ => rfl

theorem lawful_numericCmp : LawfulOn (fun n => (toNum n).Wf) numericCmp :=
  (LawfulOn.of_key Num.Numeric.position fun ha hb => Num.Numeric.cmp_eq_position ha hb).comap toNum fun h => h

theorem lawful_textCmp : LawfulOn (fun _ => True) textCmp :=
  LawfulOn.of_transCmp.comap (List.map Char.toNat) fun _ => trivial

theorem lawful_bytesCmp : LawfulOn (fun _ => True) bytesCmp :=
  LawfulOn.of_transCmp.comap (List.map UInt8.toNat) fun _ => trivial

theorem lawful_boundCmp (elem : RangeElem) : LawfulOn (IsBound elem) (boundCmp C) := by
  cases elem with
  | int4 => exact LawfulOn.of_range Value.int (lawful_compare Int64.toInt) fun h => h
  | int8 => exact LawfulOn.of_range Value.bigInt (lawful_compare Int64.toInt) fun h => h
  | int2 => exact LawfulOn.of_range Value.smallInt (lawful_compare Int16.toInt) fun h => h
  | num => exact LawfulOn.of_image Value.numeric lawful_numericCmp fun h => h
  | date => exact LawfulOn.of_range Value.date (lawful_compare Int32.toInt) fun h => h
  | ts => exact LawfulOn.of_range Value.timestamp (lawful_compare Int64.toInt) fun h => h
  | tstz => exact LawfulOn.of_range Value.timestamptz (lawful_compare Int64.toInt) fun h => h
  | text =>
      exact LawfulOn.of_range Value.text (lawful_textCmp.comap String.toList fun h => h) fun h => h
  | float8 => exact LawfulOn.of_range Value.float lawful_pgFloatOrd fun h => h

/-- Bounds with a flag compare by value, and then by the flag. -/
def flaggedCmp (a b : Value × Bool) : Ordering := (boundCmp C a.1 b.1).then (compare a.2 b.2)

theorem lawful_flaggedCmp (elem : RangeElem) : LawfulOn (fun p => IsBound elem p.1) (flaggedCmp C) :=
  ((lawful_boundCmp C elem).comap Prod.fst fun h => h).andThen ((LawfulOn.of_transCmp (α := Bool)).comap Prod.snd fun _ => trivial)

theorem loCmp_eq (a b : RangeVal Value) :
    loCmp C a b = noneFirst (flaggedCmp C) (a.lo.map fun v => (v, !a.loInc)) (b.lo.map fun v => (v, !b.loInc)) := by
  unfold loCmp flaggedCmp
  cases a.lo with
  | none =>
      cases b.lo with
      | none => rfl
      | some v => rfl
  | some u =>
      cases b.lo with
      | none => rfl
      | some v =>
          cases h : boundCmp C u v with
          | lt => simp [noneFirst, h]
          | gt => simp [noneFirst, h]
          | eq =>
              cases a.loInc with
              | false =>
                  cases b.loInc with
                  | false => simp [noneFirst, h]
                  | true =>
                      simp [noneFirst, h]
                      rfl
              | true =>
                  cases b.loInc with
                  | false =>
                      simp [noneFirst, h]
                      rfl
                  | true => simp [noneFirst, h]

theorem hiCmp_eq (a b : RangeVal Value) :
    hiCmp C a b = noneLast (flaggedCmp C) (a.hi.map fun v => (v, a.hiInc)) (b.hi.map fun v => (v, b.hiInc)) := by
  unfold hiCmp flaggedCmp
  cases a.hi with
  | none =>
      cases b.hi with
      | none => rfl
      | some v => rfl
  | some u =>
      cases b.hi with
      | none => rfl
      | some v =>
          cases h : boundCmp C u v with
          | lt => simp [noneLast, h]
          | gt => simp [noneLast, h]
          | eq =>
              cases a.hiInc with
              | false =>
                  cases b.hiInc with
                  | false => simp [noneLast, h]
                  | true =>
                      simp [noneLast, h]
                      rfl
              | true =>
                  cases b.hiInc with
                  | false =>
                      simp [noneLast, h]
                      rfl
                  | true => simp [noneLast, h]

theorem flagged_of_isBound {elem : RangeElem} {o : Option Value} {inc : Bool} (h : ∀ v ∈ o, IsBound elem v) :
    ∀ p ∈ o.map fun v => (v, inc), IsBound elem p.1 := by
  intro p hp
  obtain ⟨v, hv, rfl⟩ := Option.map_eq_some_iff.1 hp
  exact h v hv

theorem lawful_rangeCmp (elem : RangeElem) : LawfulOn (IsRange elem) (rangeCmp C) := by
  have hlo : LawfulOn (IsRange elem) (loCmp C) :=
    ((lawful_flaggedCmp C elem).noneFirst.comap (fun r : RangeVal Value => r.lo.map fun v => (v, !r.loInc))
      fun h => flagged_of_isBound h.2.1).congr fun {a b} _ _ => loCmp_eq C a b
  have hhi : LawfulOn (IsRange elem) (hiCmp C) :=
    ((lawful_flaggedCmp C elem).noneLast.comap (fun r : RangeVal Value => r.hi.map fun v => (v, r.hiInc))
      fun h => flagged_of_isBound h.2.2).congr fun {a b} _ _ => hiCmp_eq C a b
  have hbounds := (hlo.andThen hhi).noneFirst
  refine (hbounds.comap (fun r : RangeVal Value => if r.empty then none else some r) ?_).congr ?_
  · intro r hr s hs
    split at hs
    · cases hs
    · cases hs
      exact hr
  · intro a b _ _
    unfold rangeCmp
    cases a.empty with
    | false =>
        cases b.empty with
        | false => rfl
        | true => rfl
    | true =>
        cases b.empty with
        | false => rfl
        | true => rfl

theorem lawful_multirangeCmp (elem : RangeElem) :
    LawfulOn (fun m => m.elem = elem ∧ ∀ r ∈ m.ranges, IsRange elem r) (multirangeCmp C) := by
  have hlex := LawfulOn.lex fun _ => lawful_rangeCmp C elem
  refine (hlex.comap (fun m : MultiVal Value => m.ranges) fun h => placed_const h.2).congr fun {a b} _ _ => ?_
  exact find_eq_lexCmp (rangeCmp C) a.ranges b.ranges

/-! ## Cells -/

/-- The order of the cells of a type without NULL. -/
theorem lawful_holds {type : KeyType} (h : type.HasOrder = true) :
    LawfulOn type.Holds (indexKeyCmp (keyOrders C)) := by
  cases type with
  | smallInt => exact LawfulOn.of_range Value.smallInt (lawful_compare Int16.toInt) fun h => h
  | int => exact LawfulOn.of_range Value.int (lawful_compare Int64.toInt) fun h => h
  | bigInt => exact LawfulOn.of_range Value.bigInt (lawful_compare Int64.toInt) fun h => h
  | numeric => exact LawfulOn.of_image Value.numeric lawful_numericCmp fun h => h
  | text => exact LawfulOn.of_range Value.text (lawful_textCmp.comap String.toList fun h => h) fun h => h
  | bpChar => exact LawfulOn.of_range Value.bpChar (lawful_textCmp.comap rtrimSpaces fun h => h) fun h => h
  | singleChar =>
      refine LawfulOn.of_range Value.singleChar ?_ fun h => h
      exact LawfulOn.of_key UInt8.toNat fun _ _ => rfl
  | bool =>
      refine LawfulOn.of_range Value.bool ?_ fun h => h
      exact LawfulOn.of_key Bool.toNat fun _ _ => rfl
  | date => exact LawfulOn.of_range Value.date (lawful_compare Int32.toInt) fun h => h
  | timestamp => exact LawfulOn.of_range Value.timestamp (lawful_compare Int64.toInt) fun h => h
  | timestamptz => exact LawfulOn.of_range Value.timestamptz (lawful_compare Int64.toInt) fun h => h
  | bytea => exact LawfulOn.of_range Value.bytea lawful_bytesCmp fun h => h
  | uuid => exact LawfulOn.of_range Value.uuid (lawful_bytesCmp.comap Subtype.val fun h => h) fun h => h
  | range elem => exact LawfulOn.of_image Value.range (lawful_rangeCmp C elem) fun h => h
  | multirange elem => exact LawfulOn.of_image Value.multirange (lawful_multirangeCmp C elem) fun h => h
  | float4 | float | time | timeTz | interval | bitString | pgLsn | jsonb | jsonpath | tsVector | tsQuery | record
  | array | tid => cases h

/-- A cell that is not NULL. -/
def cell : Value → Option Value
  | .null => none
  | v => some v

theorem cell_of_ne {v : Value} (h : v ≠ .null) : cell v = some v := by
  cases v with
  | null => exact absurd rfl h
  | _ => rfl

theorem indexKeyCmp_null_left (K : KeyOrders) {v : Value} (h : v ≠ .null) : indexKeyCmp K .null v = .gt := by
  cases v with
  | null => exact absurd rfl h
  | _ => rfl

theorem indexKeyCmp_null_right (K : KeyOrders) {v : Value} (h : v ≠ .null) : indexKeyCmp K v .null = .lt := by
  cases v with
  | null => exact absurd rfl h
  | _ => rfl

theorem indexKeyCmp_cell (K : KeyOrders) (a b : Value) :
    indexKeyCmp K a b = noneLast (indexKeyCmp K) (cell a) (cell b) := by
  by_cases ha : a = .null
  · subst ha
    by_cases hb : b = .null
    · subst hb
      rfl
    · rw [indexKeyCmp_null_left K hb, cell_of_ne hb]
      rfl
  · by_cases hb : b = .null
    · subst hb
      rw [indexKeyCmp_null_right K ha, cell_of_ne ha]
      rfl
    · rw [cell_of_ne ha, cell_of_ne hb]
      rfl

theorem KeyType.Holds.ne_null {type : KeyType} {v : Value} (h : type.Holds v) : v ≠ .null := by
  rintro rfl
  cases type with
  | timeTz | tid =>
      obtain ⟨x, y, h⟩ := h
      cases h
  | array =>
      obtain ⟨x, y, z, h⟩ := h
      cases h
  | numeric | jsonb | range | multirange =>
      obtain ⟨x, h, h'⟩ := h
      cases h
  | _ =>
      obtain ⟨x, h⟩ := h
      cases h

theorem lawful_column {c : KeyColumn} (h : c.type.HasOrder = true) :
    LawfulOn c.Holds (indexKeyCmp (keyOrders C)) := by
  refine ((lawful_holds C h).noneLast.comap cell fun {v} hv => ?_).congr fun {a b} _ _ => indexKeyCmp_cell _ a b
  rcases hv with rfl | hv
  · intro w hw
    cases hw
  · intro w hw
    rw [cell_of_ne hv.ne_null] at hw
    cases hw
    exact hv

/-! ## Equal cells -/

theorem sqlEq_of_eval {a b : Value} {o : Ordering} (h : evalEq C a b = .ok (some (o = .eq))) :
    SqlEq C a b ↔ o = .eq := by
  unfold SqlEq
  rw [h]
  simp

theorem numSpecial_inj {s t : NumericSpecial} (h : numSpecial s = numSpecial t) : s = t := by
  cases s with
  | finite | nan | posInf | negInf =>
      cases t with
      | finite | nan | posInf | negInf => first | rfl | cases h

theorem numericCmp_nan {m n : Numeric} (hm : m.special = .nan) (hn : n.special = .nan) : numericCmp m n = .eq := by
  unfold numericCmp Num.Numeric.cmp toNum
  rw [hm, hn]
  rfl

theorem special_of_numericCmp {m n : Numeric} (h : numericCmp m n = .eq) : m.special = n.special :=
  numSpecial_inj (Num.Numeric.special_of_cmp h)

theorem cmpOrdering_null_left (v : Value) : cmpOrdering C .null v = .ok none := rfl

theorem cmpOrdering_null_right (v : Value) : cmpOrdering C v .null = .ok none := by
  cases v with
  | _ => rfl

theorem flatEq_null_left (v : Value) : flatEq C .null v ≠ .ok (some true) := by
  unfold flatEq
  rw [cmpOrdering_null_left]
  cases isNanVal v with
  | false => simp [isNanVal, Except.map]
  | true => simp [isNanVal]

theorem flatEq_null_right (v : Value) : flatEq C v .null ≠ .ok (some true) := by
  unfold flatEq
  rw [cmpOrdering_null_right]
  cases isNanVal v with
  | false => simp [isNanVal, Except.map]
  | true => simp [isNanVal]

theorem null_not_sqlEq {v : Value} : ¬SqlEq C .null v := by
  unfold SqlEq
  cases v with
  | array => simp [evalEq]
  | _ => exact flatEq_null_left C _

theorem not_sqlEq_null {v : Value} : ¬SqlEq C v .null := by
  unfold SqlEq
  cases v with
  | array => simp [evalEq]
  | _ => exact flatEq_null_right C _

theorem sqlEq_numeric {m n : Numeric} : SqlEq C (.numeric m) (.numeric n) ↔ numericCmp m n = .eq := by
  have heval : evalEq C (.numeric m) (.numeric n) =
      if m.special = .nan || n.special = .nan then .ok (some (m.special = .nan && n.special = .nan))
      else .ok (some (numericCmp m n = .eq)) := rfl
  by_cases hm : m.special = .nan
  · by_cases hn : n.special = .nan
    · have hcmp := numericCmp_nan hm hn
      unfold SqlEq
      rw [heval]
      simp [hm, hn, hcmp]
    · have hcmp : numericCmp m n ≠ .eq := fun h => hn (special_of_numericCmp h ▸ hm)
      unfold SqlEq
      rw [heval]
      simp [hm, hn, hcmp]
  · by_cases hn : n.special = .nan
    · have hcmp : numericCmp m n ≠ .eq := fun h => hm ((special_of_numericCmp h).trans hn)
      unfold SqlEq
      rw [heval]
      simp [hm, hn, hcmp]
    · exact sqlEq_of_eval C (by rw [heval]; simp [hm, hn])

theorem sqlEq_range {elem : RangeElem} {r t : RangeVal Value} (hr : IsRange elem r) (ht : IsRange elem t) :
    SqlEq C (.range r) (.range t) ↔ rangeCmp C r t = .eq := by
  apply sqlEq_of_eval
  show (if r.elem = t.elem then _ else _ : Except ExecError (Option Ordering)).map _ = _
  rw [if_pos (hr.1.trans ht.1.symm)]
  rfl

theorem sqlEq_multirange {elem : RangeElem} {m n : MultiVal Value} (hm : m.elem = elem) (hn : n.elem = elem) :
    SqlEq C (.multirange m) (.multirange n) ↔ multirangeCmp C m n = .eq := by
  apply sqlEq_of_eval
  show (if m.elem = n.elem then _ else _ : Except ExecError (Option Ordering)).map _ = _
  rw [if_pos (hm.trans hn.symm)]
  rfl

/-- In a type with an order, equal keys are the equal values. -/
theorem key_eq_iff_sqlEq {type : KeyType} (h : type.HasOrder = true) {a b : Value} (ha : type.Holds a)
    (hb : type.Holds b) : indexKeyCmp (keyOrders C) a b = .eq ↔ SqlEq C a b := by
  cases type with
  | numeric =>
      obtain ⟨m, rfl, -⟩ := ha
      obtain ⟨n, rfl, -⟩ := hb
      exact (sqlEq_numeric C).symm
  | range elem =>
      obtain ⟨r, rfl, hr⟩ := ha
      obtain ⟨t, rfl, ht⟩ := hb
      exact (sqlEq_range C hr ht).symm
  | multirange elem =>
      obtain ⟨m, rfl, hm, -⟩ := ha
      obtain ⟨n, rfl, hn, -⟩ := hb
      exact (sqlEq_multirange C hm hn).symm
  | smallInt | int | bigInt | text | bpChar | singleChar | bool | date | timestamp | timestamptz | bytea | uuid =>
      obtain ⟨x, rfl⟩ := ha
      obtain ⟨y, rfl⟩ := hb
      exact (sqlEq_of_eval C rfl).symm
  | float4 | float | time | timeTz | interval | bitString | pgLsn | jsonb | jsonpath | tsVector | tsQuery | record
  | array | tid => cases h

/-! ## Types without an order -/

/-- An array nested so often. -/
def nest : Nat → Json.JsonbVal
  | 0 => .array []
  | n + 1 => .array [nest n]

theorem canonical_nest (n : Nat) : (nest n).Canonical := by
  induction n with
  | zero => exact trivial
  | succ n ih => exact ⟨ih, trivial⟩

theorem render_nest (n : Nat) : ∃ t, (nest n).render = List.replicate (n + 1) '[' ++ t := by
  induction n with
  | zero => exact ⟨[']'], rfl⟩
  | succ n ih =>
      obtain ⟨t, ht⟩ := ih
      refine ⟨t ++ [']'], ?_⟩
      have hstep : (nest (n + 1)).render = '[' :: (([] ++ (nest n).render ++ []) ++ [']']) := rfl
      rw [hstep, ht, List.replicate_succ (n := n + 1)]
      simp

/-- One level more than there are left. -/
theorem parseValue_deep (n : Nat) (t : List Char) :
    Json.parseValue n (List.replicate (n + 1) '[' ++ t) = none := by
  induction n generalizing t with
  | zero => rfl
  | succ n ih =>
      have hrest : List.replicate (n + 2) '[' ++ t = '[' :: '[' :: (List.replicate n '[' ++ t) := rfl
      have hinner : Json.parseValue n ('[' :: (List.replicate n '[' ++ t)) = none := ih t
      rw [hrest]
      show (Scanner.loop (Json.arrayStep (Json.parseValue n)) _ ('[' :: (List.replicate n '[' ++ t))).map _ = none
      unfold Scanner.loop Json.arrayStep
      rw [hinner]
      rfl

theorem parseJsonb_deep {s : List Char} (t : List Char)
    (hs : s = List.replicate (Json.maxJsonDepth + 1) '[' ++ t) :
    Json.parseJsonb s = .error (Json.invalidJsonb s) := by
  have hskip : Json.skipWs s = s := by
    subst hs
    rfl
  have hnone : Json.parseJson s = none := by
    unfold Json.parseJson
    rw [hskip, hs, parseValue_deep]
  unfold Json.parseJsonb
  rw [hnone]

/-- A stored document that is nested more deeply than the parser goes. -/
theorem exists_unparsed : ∃ s, IsJsonb s ∧ Json.parseJsonb s.toList = .error (Json.invalidJsonb s.toList) := by
  obtain ⟨t, ht⟩ := render_nest Json.maxJsonDepth
  have hlist : (String.ofList (nest Json.maxJsonDepth).render).toList = (nest Json.maxJsonDepth).render :=
    String.toList_ofList
  exact ⟨_, ⟨_, canonical_nest _, hlist⟩, parseJsonb_deep t (hlist.trans ht)⟩

theorem jsonbKeyOrder_error {x y : String} {e : ExecError} (h : Json.parseJsonb x.toList = .error e) :
    jsonbKeyOrder x y = textCmp x.toList y.toList := by
  unfold jsonbKeyOrder
  rw [h]

theorem evalEq_jsonb_error {x y : String} {e : ExecError} (h : Json.parseJsonb x.toList = .error e) :
    evalEq C (.jsonb x) (.jsonb y) = .error e := by
  unfold evalEq flatEq cmpOrdering scalarCmp
  dsimp only
  rw [h]
  rfl

theorem flatEq_of_cmp {v w : Value} {o : Ordering} (hnan : (isNanVal v || isNanVal w) = false)
    (hcmp : cmpOrdering C v w = .ok (some o)) : flatEq C v w = .ok (some (o = .eq)) := by
  unfold flatEq
  rw [hnan, hcmp]
  rfl

theorem cmpOrdering_float (f g : UInt64) : cmpOrdering C (.float f) (.float g) = .ok (some (pgFloatOrd f g)) := by
  have hnumber : (isNumber (.float f) && isNumber (.float g)) = true := rfl
  unfold cmpOrdering scalarCmp
  dsimp only
  rw [if_pos hnumber]
  rfl

theorem cmpOrdering_float4 (f g : UInt32) :
    cmpOrdering C (.float4 f) (.float4 g) = .ok (some (pgFloatOrd (widenF32 f) (widenF32 g))) := by
  have hnumber : (isNumber (.float4 f) && isNumber (.float4 g)) = true := rfl
  have hfloat : ∀ x, isFloat (.float4 x) = true := fun _ => rfl
  have hval : ∀ x, floatVal (keyOrders C) (.float4 x) = widenF32 x := fun _ => rfl
  have hexact : ¬(isExactNumeric (.float4 f) && isExactNumeric (.float4 g)) = true := Bool.false_ne_true
  unfold cmpOrdering scalarCmp
  dsimp only
  rw [if_pos hnumber]
  unfold numbersCmp
  rw [if_neg hexact, if_pos (hfloat f), if_pos (hfloat g), hval, hval]

/-- Two values where the keys and `=` do not say the same. -/
def Disagree (v w : Value) : Prop := ¬(indexKeyCmp (keyOrders C) v w = .eq ↔ SqlEq C v w)

/-- One key for values that are not equal. -/
theorem Disagree.of_collision {v w : Value} (hkey : indexKeyCmp (keyOrders C) v w = .eq)
    (heq : evalEq C v w ≠ .ok (some true)) : Disagree C v w := fun h => heq (h.1 hkey)

/-- Two keys for values that are equal. -/
theorem Disagree.of_split {v w : Value} (hkey : indexKeyCmp (keyOrders C) v w ≠ .eq)
    (heq : evalEq C v w = .ok (some true)) : Disagree C v w := fun h => hkey (h.2 heq)

theorem error_ne_ok {ε α : Type} {e : ε} {a : α} : (Except.error e : Except ε α) ≠ .ok a := by
  intro h
  cases h

theorem ok_false_ne : (Except.ok (some false) : Except ExecError (Option Bool)) ≠ .ok (some true) := by
  intro h
  cases h

/-- Every type without an order has two values its keys are wrong about. -/
theorem disagree_of_no_order {type : KeyType} (h : type.HasOrder = false) :
    ∃ v w, type.Holds v ∧ type.Holds w ∧ Disagree C v w := by
  cases type with
  | float4 =>
      -- Minus zero and zero.
      refine ⟨.float4 0x80000000, .float4 0, ⟨_, rfl⟩, ⟨_, rfl⟩, .of_split C ?_ ?_⟩
      · show totalCmp (widenF32 0x80000000) (widenF32 0) ≠ .eq
        decide
      · have hzero : pgFloatOrd (widenF32 0x80000000) (widenF32 0) = .eq := by decide
        exact (flatEq_of_cmp C (by decide) (cmpOrdering_float4 C _ _)).trans (by rw [hzero]; rfl)
  | float =>
      refine ⟨.float 0x8000000000000000, .float 0, ⟨_, rfl⟩, ⟨_, rfl⟩, .of_split C ?_ ?_⟩
      · show totalCmp 0x8000000000000000 0 ≠ .eq
        decide
      · have hzero : pgFloatOrd 0x8000000000000000 0 = .eq := by decide
        exact (flatEq_of_cmp C (by decide) (cmpOrdering_float C _ _)).trans (by rw [hzero]; rfl)
  | time => exact ⟨.time 0, .time 1, ⟨_, rfl⟩, ⟨_, rfl⟩, .of_collision C rfl ok_false_ne⟩
  | timeTz => exact ⟨.timeTz 0 0, .timeTz 1 0, ⟨_, _, rfl⟩, ⟨_, _, rfl⟩, .of_collision C rfl ok_false_ne⟩
  | interval =>
      exact ⟨.interval ⟨0, 0, 0⟩, .interval ⟨0, 0, 1⟩, ⟨_, rfl⟩, ⟨_, rfl⟩, .of_collision C rfl ok_false_ne⟩
  | bitString =>
      exact ⟨.bitString ⟨1, [0]⟩, .bitString ⟨1, [128]⟩, ⟨_, rfl⟩, ⟨_, rfl⟩, .of_collision C rfl ok_false_ne⟩
  | pgLsn => exact ⟨.pgLsn 0, .pgLsn 0, ⟨_, rfl⟩, ⟨_, rfl⟩, .of_collision C rfl error_ne_ok⟩
  | jsonpath => exact ⟨.jsonpath "$", .jsonpath "$", ⟨_, rfl⟩, ⟨_, rfl⟩, .of_collision C rfl error_ne_ok⟩
  | tid => exact ⟨.tid 0 1, .tid 0 1, ⟨_, _, rfl⟩, ⟨_, _, rfl⟩, .of_collision C rfl error_ne_ok⟩
  | tsVector =>
      exact ⟨.tsVector ⟨[]⟩, .tsVector ⟨[("a", [])]⟩, ⟨_, rfl⟩, ⟨_, rfl⟩, .of_collision C rfl ok_false_ne⟩
  | tsQuery =>
      exact ⟨.tsQuery ⟨none⟩, .tsQuery ⟨some (.val "a" 0 false 0)⟩, ⟨_, rfl⟩, ⟨_, rfl⟩,
        .of_collision C rfl ok_false_ne⟩
  | record =>
      exact ⟨.record [("f", .bool true)], .record [("f", .bool false)], ⟨_, rfl⟩, ⟨_, rfl⟩,
        .of_collision C rfl ok_false_ne⟩
  | array elem =>
      -- The array of one NULL and the empty array.
      exact ⟨.array elem [1] [1] [.null], .array elem [] [] [], ⟨_, _, _, rfl⟩, ⟨_, _, _, rfl⟩,
        .of_collision C rfl ok_false_ne⟩
  | jsonb =>
      obtain ⟨s, hs, hparse⟩ := exists_unparsed
      refine ⟨.jsonb s, .jsonb s, ⟨_, rfl, hs⟩, ⟨_, rfl, hs⟩, .of_collision C ?_ ?_⟩
      · exact (jsonbKeyOrder_error hparse).trans (lawful_textCmp.refl trivial)
      · rw [evalEq_jsonb_error C hparse]
        exact error_ne_ok
  | smallInt | int | bigInt | numeric | text | bpChar | singleChar | bool | date | timestamp | timestamptz | bytea
  | uuid | range | multirange => cases h

/-! ## Keys -/

/-- A single column is compared at once, with the same result. -/
theorem indexKeyOrd_eq (x y : List Value) : indexKeyOrd C x y = lexCmp (indexKeyCmp (keyOrders C)) x y := by
  rw [← find_eq_lexCmp]
  unfold indexKeyOrd
  split
  · rename_i a b
    cases h : indexKeyCmp (keyOrders C) a b with
    | lt => simp [h]
    | gt => simp [h]
    | eq => simp [h]
  · rfl

/-- What the columns admit at a place. -/
def Admits (cols : List KeyColumn) (i : Nat) (v : Value) : Prop := ∃ c, cols[i]? = some c ∧ c.Holds v

theorem placed_of_isKey {cols : List KeyColumn} {key : List Value} (h : IsKey cols key) : Placed (Admits cols) key := by
  unfold IsKey at h
  induction h with
  | nil => trivial
  | cons hv _ ih => exact ⟨⟨_, rfl, hv⟩, ih⟩

theorem lawful_admits {cols : List KeyColumn} (h : ∀ c ∈ cols, c.type.HasOrder = true) (i : Nat) :
    LawfulOn (Admits cols i) (indexKeyCmp (keyOrders C)) := by
  cases hc : cols[i]? with
  | none =>
      have hempty : ∀ {v}, ¬Admits cols i v := by
        rintro v ⟨c, hc', -⟩
        rw [hc] at hc'
        cases hc'
      exact ⟨fun ha => absurd ha hempty, fun ha => absurd ha hempty, fun ha => absurd ha hempty⟩
  | some c =>
      refine ((lawful_column C (h c (List.mem_of_getElem? hc))).comap id fun {v} hv => ?_)
      obtain ⟨c', hc', hv⟩ := hv
      rw [hc] at hc'
      cases hc'
      exact hv

theorem sameCell_iff {c : KeyColumn} (h : c.type.HasOrder = true) {a b : Value} (ha : c.Holds a) (hb : c.Holds b) :
    indexKeyCmp (keyOrders C) a b = .eq ↔ SameCell C a b := by
  unfold SameCell
  rcases ha with rfl | ha
  · rcases hb with rfl | hb
    · exact ⟨fun _ => .inl ⟨rfl, rfl⟩, fun _ => rfl⟩
    · rw [indexKeyCmp_null_left _ hb.ne_null]
      refine ⟨fun h => absurd h gt_ne_eq, fun h => ?_⟩
      rcases h with ⟨-, h⟩ | h
      · exact absurd h hb.ne_null
      · exact absurd h (null_not_sqlEq C)
  · rcases hb with rfl | hb
    · rw [indexKeyCmp_null_right _ ha.ne_null]
      refine ⟨fun h => absurd h lt_ne_eq, fun h => ?_⟩
      rcases h with ⟨h, -⟩ | h
      · exact absurd h ha.ne_null
      · exact absurd h (not_sqlEq_null C)
    · rw [key_eq_iff_sqlEq C h ha hb]
      exact ⟨.inr, fun hsame => hsame.resolve_left fun hnull => ha.ne_null hnull.1⟩

theorem lawfulKeys_of_order {cols : List KeyColumn} (h : ∀ c ∈ cols, c.type.HasOrder = true) : LawfulKeys C cols := by
  have hlex := LawfulOn.lex (lawful_admits C h)
  refine ⟨fun x hx => ?_, fun x y hx hy => ?_, fun x y z hx hy hz => ?_, fun x y hx hy => ?_⟩
  · rw [indexKeyOrd_eq]
    exact hlex.refl (placed_of_isKey hx)
  · rw [indexKeyOrd_eq, indexKeyOrd_eq]
    exact hlex.swap (placed_of_isKey hx) (placed_of_isKey hy)
  · rw [indexKeyOrd_eq, indexKeyOrd_eq, indexKeyOrd_eq]
    exact (hlex.consistent (placed_of_isKey hx) (placed_of_isKey hy) (placed_of_isKey hz)).le_trans
  · rw [indexKeyOrd_eq]
    refine lexCmp_eq_iff (fun i {a b} ha hb => ?_) (placed_of_isKey hx) (placed_of_isKey hy)
    obtain ⟨c, hc, ha⟩ := ha
    obtain ⟨c', hc', hb⟩ := hb
    rw [hc] at hc'
    cases hc'
    exact sameCell_iff C (h c (List.mem_of_getElem? hc)) ha hb

/-- The key with one value at the place of a column, and NULL elsewhere. -/
def keyAt (before after : List KeyColumn) (v : Value) : List Value :=
  before.map (fun _ => .null) ++ v :: after.map fun _ => .null

theorem isKey_keyAt {before after : List KeyColumn} {c : KeyColumn} {v : Value} (h : c.type.Holds v) :
    IsKey (before ++ c :: after) (keyAt before after v) := by
  have hnulls : ∀ cols : List KeyColumn, List.Forall₂ KeyColumn.Holds cols (cols.map fun _ => Value.null) := by
    intro cols
    induction cols with
    | nil => exact .nil
    | cons c cols ih => exact .cons (.inl rfl) ih
  exact List.rel_append (hnulls before) (.cons (.inr h) (hnulls after))

theorem indexKeyOrd_keyAt (before after : List KeyColumn) (v w : Value) :
    indexKeyOrd C (keyAt before after v) (keyAt before after w) = indexKeyCmp (keyOrders C) v w := by
  have hnulls : ∀ cols : List KeyColumn, lexCmp (indexKeyCmp (keyOrders C)) (cols.map fun _ => Value.null)
      (cols.map fun _ => Value.null) = .eq := by
    intro cols
    induction cols with
    | nil => rfl
    | cons c cols ih => exact ih
  rw [indexKeyOrd_eq]
  unfold keyAt
  induction before with
  | nil =>
      show (indexKeyCmp (keyOrders C) v w).then _ = _
      rw [hnulls after, Ordering.then_eq]
  | cons c before ih => exact ih

theorem sameCells_keyAt (before after : List KeyColumn) (v w : Value) :
    List.Forall₂ (SameCell C) (keyAt before after v) (keyAt before after w) ↔ SameCell C v w := by
  have hnulls : ∀ cols : List KeyColumn, List.Forall₂ (SameCell C) (cols.map fun _ => Value.null)
      (cols.map fun _ => Value.null) := by
    intro cols
    induction cols with
    | nil => exact .nil
    | cons c cols ih => exact .cons (.inl ⟨rfl, rfl⟩) ih
  unfold keyAt
  induction before with
  | nil => exact ⟨fun h => (List.forall₂_cons.1 h).1, fun h => .cons h (hnulls after)⟩
  | cons c before ih => exact ⟨fun h => ih.1 (List.forall₂_cons.1 h).2, fun h => .cons (.inl ⟨rfl, rfl⟩) (ih.2 h)⟩

/-- Keys are lawful exactly where every column is of a type with an arm of its own that is no float and no document. -/
theorem index_keys_lawful (cols : List KeyColumn) : LawfulKeys C cols ↔ ∀ c ∈ cols, c.type.HasOrder = true := by
  refine ⟨fun hlaw c hc => ?_, lawfulKeys_of_order C⟩
  cases horder : c.type.HasOrder with
  | true => rfl
  | false =>
      obtain ⟨v, w, hv, hw, hdis⟩ := disagree_of_no_order C horder
      obtain ⟨before, after, rfl⟩ := List.append_of_mem hc
      have heq := hlaw.equal _ _ (@isKey_keyAt before after _ _ hv) (isKey_keyAt hw)
      rw [indexKeyOrd_keyAt, sameCells_keyAt] at heq
      refine absurd ?_ hdis
      rw [heq]
      exact ⟨fun hsame => hsame.resolve_left fun hnull => hv.ne_null hnull.1, .inr⟩

end

/-- A session in UTC that casts nothing. -/
def plainCasts : Casts where
  intToF64 _ := 0
  numericToF64 _ := 0
  timestampAsTimestamptz t := t
  toText _ := ""
  castElem _ v := .ok v
  mixedCmp a b := .error (noOperator a b)

/-- Ten and eleven o'clock are one key, and minus zero and zero are two. -/
theorem times_collide :
    indexKeyOrd plainCasts [.time 36000000000] [.time 39600000000] = .eq ∧
      evalEq plainCasts (.time 36000000000) (.time 39600000000) = .ok (some false) ∧
      indexKeyOrd plainCasts [.float 0x8000000000000000] [.float 0] = .lt ∧
      SqlEq plainCasts (.float 0x8000000000000000) (.float 0) ∧ ¬LawfulKeys plainCasts [⟨.time, false, false⟩] := by
  refine ⟨rfl, rfl, by decide, ?_, fun h => ?_⟩
  · exact (flatEq_of_cmp plainCasts (by decide) (cmpOrdering_float plainCasts _ _)).trans (by decide)
  · have heq := h.equal [.time 36000000000] [.time 39600000000] (.cons (.inr ⟨_, rfl⟩) .nil)
      (.cons (.inr ⟨_, rfl⟩) .nil)
    have hsame := (List.forall₂_cons.1 (heq.1 rfl)).1
    rcases hsame with ⟨hnull, -⟩ | hsame
    · cases hnull
    · exact ok_false_ne hsame

end Values
