-- SUMMARY: The format of column types and cell values, and which of them are read back.
import Rustgres.Encoding.Types

/-!
# Column Types and Values

Each starts with a tag byte. The tags stand twice, in the writer and in the reader, and so do the
OIDs of the array types: once for column types and once for values.
-/

open Codecs

namespace Encoding

/-! ## Codes -/

namespace RangeElem

def code : RangeElem → UInt8
  | int4 => 0
  | int8 => 1
  | num => 2
  | date => 3
  | ts => 4
  | tstz => 5
  | int2 => 6
  | text => 7
  | float8 => 8

def fromCode (c : UInt8) : Option RangeElem :=
  match c.toNat with
  | 0 => some int4
  | 1 => some int8
  | 2 => some num
  | 3 => some date
  | 4 => some ts
  | 5 => some tstz
  | 6 => some int2
  | 7 => some text
  | 8 => some float8
  | _ => none

@[simp]
theorem fromCode_code (e : RangeElem) : fromCode e.code = some e := by
  cases e <;> rfl

end RangeElem

/-- The OID of the array type over an element. -/
def ArrayElem.arrayOid : ArrayElem → UInt32
  | bool => 1000
  | bytea => 1001
  | singleChar => 1002
  | name => 1003
  | smallInt => 1005
  | int => 1007
  | text => 1009
  | char => 1014
  | varchar => 1015
  | bigInt => 1016
  | float4 => 1021
  | float => 1022
  | date => 1182
  | timestamp => 1115
  | timestamptz => 1185
  | time => 1183
  | timeTz => 1270
  | interval => 1187
  | numeric => 1231
  | uuid => 2951
  | regclass => 2206
  | json => 199
  | record => 2287
  | pgLsn => 3221
  | xid => 1011
  | tid => 1010
  | tsVector => 3616
  | tsQuery => 3645
  | bit => 1561

/-! ## Column types -/

def Enc.colType : ColType → Bytes
  | .int => [0]
  | .float => [1]
  | .text => [2]
  | .bool => [3]
  | .smallInt => [4]
  | .bigInt => [5]
  | .float4 => [6]
  | .numeric none => [7]
  | .numeric (some (p, s)) => 18 :: (Put.i32 p.toInt32 ++ Put.i32 s)
  | .date => [8]
  | .timestamp => [9]
  | .timestamptz => [10]
  | .bytea => [11]
  | .uuid => [12]
  | .char n => 13 :: Put.i32 (n.getD (-1))
  | .varchar n => 14 :: Put.i32 (n.getD (-1))
  | .singleChar => [15]
  | .regclass => [16]
  | .regproc => [36]
  | .oid => [37]
  | .inet => [38]
  | .name => [17]
  | .pgLsn => [19]
  | .record => [20]
  | .composite => [23]
  | .json => [21]
  | .jsonb => [27]
  | .jsonpath => [28]
  | .time => [29]
  | .timeTz => [30]
  | .interval => [31]
  | .range e => [32, e.code]
  | .multirange e => [33, e.code]
  | .tsVector => [34]
  | .tsQuery => [35]
  | .xid => [24]
  | .bit => [25]
  | .tid => [26]
  | .array elem => 22 :: Put.u32 elem.arrayOid

namespace Dec

open Reader

def unknownElem (oid : UInt32) : String := "unknown array element OID " ++ toString oid

/-- The array types of columns. -/
def columnElem (oid : UInt32) : Reader ArrayElem :=
  match oid.toNat with
  | 1000 => return .bool
  | 1001 => return .bytea
  | 1002 => return .singleChar
  | 1003 => return .name
  | 1005 => return .smallInt
  | 1007 => return .int
  | 1009 => return .text
  | 1014 => return .char
  | 1015 => return .varchar
  | 1016 => return .bigInt
  | 1021 => return .float4
  | 1022 => return .float
  | 1182 => return .date
  | 1115 => return .timestamp
  | 1185 => return .timestamptz
  | 1183 => return .time
  | 1270 => return .timeTz
  | 1187 => return .interval
  | 1231 => return .numeric
  | 2951 => return .uuid
  | 2206 => return .regclass
  | 199 => return .json
  | 2287 => return .record
  | 3221 => return .pgLsn
  | 1011 => return .xid
  | 1561 => return .bit
  | 3616 => return .tsVector
  | 3645 => return .tsQuery
  | _ => fail (unknownElem oid)

/-- The array types of values. -/
def arrayElemOf (oid : UInt32) : Reader ArrayElem :=
  match oid.toNat with
  | 1000 => return .bool
  | 1001 => return .bytea
  | 1002 => return .singleChar
  | 1003 => return .name
  | 1005 => return .smallInt
  | 1007 => return .int
  | 1009 => return .text
  | 1014 => return .char
  | 1015 => return .varchar
  | 1016 => return .bigInt
  | 1021 => return .float4
  | 1022 => return .float
  | 1182 => return .date
  | 1115 => return .timestamp
  | 1185 => return .timestamptz
  | 1183 => return .time
  | 1270 => return .timeTz
  | 1187 => return .interval
  | 1231 => return .numeric
  | 2951 => return .uuid
  | 2206 => return .regclass
  | 199 => return .json
  | 2287 => return .record
  | 3221 => return .pgLsn
  | 1561 => return .bit
  | 1010 => return .tid
  | 1011 => return .xid
  | 3616 => return .tsVector
  | 3645 => return .tsQuery
  | _ => fail (unknownElem oid)

def arrayElem : Reader ArrayElem := do
  let oid ← u32
  arrayElemOf oid

def rangeElem : Reader RangeElem := do
  let c ← u8
  match RangeElem.fromCode c with
  | some e => return e
  | none => fail ("unknown range elem " ++ toString c)

/-- A negative length is no length. -/
def typmod : Reader (Option Int32) := do
  let n ← i32
  return if n < 0 then none else some n

def colTypeOf (tag : UInt8) : Reader ColType :=
  match tag.toNat with
  | 0 => return .int
  | 1 => return .float
  | 2 => return .text
  | 3 => return .bool
  | 4 => return .smallInt
  | 5 => return .bigInt
  | 6 => return .float4
  | 7 => return .numeric none
  | 8 => return .date
  | 9 => return .timestamp
  | 10 => return .timestamptz
  | 11 => return .bytea
  | 12 => return .uuid
  | 13 => return .char (← typmod)
  | 14 => return .varchar (← typmod)
  | 15 => return .singleChar
  | 16 => return .regclass
  | 17 => return .name
  | 18 => do
    let p ← i32
    let s ← i32
    return .numeric (some (p.toUInt32, s))
  | 19 => return .pgLsn
  | 20 => return .record
  | 21 => return .json
  | 22 => do
    let oid ← u32
    let elem ← columnElem oid
    return .array elem
  | 23 => return .composite
  | 24 => return .xid
  | 25 => return .bit
  | 26 => return .tid
  | 27 => return .jsonb
  | 28 => return .jsonpath
  | 29 => return .time
  | 30 => return .timeTz
  | 31 => return .interval
  | 32 => return .range (← rangeElem)
  | 33 => return .multirange (← rangeElem)
  | 34 => return .tsVector
  | 35 => return .tsQuery
  | 36 => return .regproc
  | 37 => return .oid
  | 38 => return .inet
  | _ => fail ("unknown column type " ++ toString tag)

def colType : Reader ColType := do
  let tag ← u8
  colTypeOf tag

end Dec

/-- Lengths are not negative, and a column is no array of tuple identifiers. -/
def ColType.Storable : ColType → Prop
  | .char (some n) | .varchar (some n) => 0 ≤ n
  | .array elem => elem ≠ .tid
  | _ => True

@[simp]
theorem Enc.one_le_length_colType (t : ColType) : 1 ≤ (Enc.colType t).length := by
  fun_cases Enc.colType t <;> simp

section

variable {v : Nat}

theorem Dec.readsBack_rangeElem (e : RangeElem) :
    ReadsBack v Dec.rangeElem [e.code] e True := by
  apply ReadsBack.tag
  rw [RangeElem.fromCode_code]
  exact ReadsBack.pure e

theorem Dec.readsBack_typmod (n : Option Int32) :
    ReadsBack v Dec.typmod (Put.i32 (n.getD (-1))) n (∀ k ∈ n, 0 ≤ k) := by
  have hread := (ReadsBack.i32 (v := v) (n.getD (-1))).last_always
    (f := fun k : Int32 => if k < 0 then none else some k)
  constructor
  · intro hs hn pre post
    have hsame : (if n.getD (-1) < 0 then none else some (n.getD (-1))) = n := by
      cases n with
      | none => rfl
      | some k =>
          have hk : ¬ k < 0 := Int32.not_lt.2 (hn k rfl)
          simp [hk]
    have h := hread.of hs trivial pre post
    rwa [hsame] at h
  · intro hs hn pre post d h
    have h' := hread.of hs trivial pre post
    rw [Dec.typmod] at h
    rw [h'] at h
    have hsame := (Prod.mk.inj (Except.ok.inj h)).1
    apply hn
    intro k hk
    cases hk
    by_contra hneg
    simp [Int32.not_le.1 hneg] at hsame

theorem Dec.readsBack_columnElem (e : ArrayElem) :
    ReadsBack v (Reader.u32 >>= Dec.columnElem) (Put.u32 e.arrayOid) e (e ≠ .tid) := by
  by_cases htid : e = .tid
  · subst htid
    constructor
    · intro _ h
      exact absurd rfl h
    · intro hs _ pre post d h
      rw [Reader.bind_of_ok ((ReadsBack.u32 (v := v) _).of hs trivial pre post)] at h
      cases h
  · have hread : Dec.columnElem e.arrayOid = pure e := by
      cases e with
      | tid => exact absurd rfl htid
      | _ => rfl
    have h := (ReadsBack.u32 (v := v) e.arrayOid).bind (k := Dec.columnElem)
      (hread ▸ ReadsBack.pure e)
    rw [List.append_nil] at h
    exact h.congr (by simp [htid])

theorem Dec.readsBack_arrayElem (e : ArrayElem) :
    ReadsBack v Dec.arrayElem (Put.u32 e.arrayOid) e True := by
  have hread : Dec.arrayElemOf e.arrayOid = pure e := by
    cases e <;> rfl
  have h := (ReadsBack.u32 (v := v) e.arrayOid).bind (k := Dec.arrayElemOf)
    (hread ▸ ReadsBack.pure e)
  rwa [List.append_nil] at h

theorem Dec.readsBack_colType (t : ColType) :
    ReadsBack v Dec.colType (Enc.colType t) t t.Storable := by
  cases t with
  | numeric typmod =>
      cases typmod with
      | none => exact ReadsBack.tag (ReadsBack.pure _)
      | some m =>
          apply ReadsBack.tag
          apply (ReadsBack.i32 m.1.toInt32).bind
          exact (ReadsBack.i32 m.2).last_always
  | char n =>
      refine (ReadsBack.tag ((readsBack_typmod n).last fun _ h => ColType.char.inj h)).congr ?_
      cases n <;> simp [ColType.Storable]
  | varchar n =>
      refine (ReadsBack.tag ((readsBack_typmod n).last fun _ h => ColType.varchar.inj h)).congr ?_
      cases n <;> simp [ColType.Storable]
  | range e => exact ReadsBack.tag (readsBack_rangeElem e).last_always
  | multirange e => exact ReadsBack.tag (readsBack_rangeElem e).last_always
  | array elem =>
      have h := (readsBack_columnElem (v := v) elem).last (f := ColType.array)
        fun _ h => ColType.array.inj h
      rw [bind_assoc] at h
      exact ReadsBack.tag h
  | _ => exact ReadsBack.tag (ReadsBack.pure _)

end

/-! ## Values -/

variable {E : Type} (T : TextForms E)

mutual

def Enc.value : Value → Bytes
  | .null => [0]
  | .int i => 1 :: Put.i64 i
  | .float bits => 2 :: Put.u64 bits
  | .text s => 3 :: Put.str s
  | .bool b => 4 :: Put.bool b
  | .smallInt i => 5 :: Put.i16 i
  | .bigInt i => 6 :: Put.i64 i
  | .float4 bits => 7 :: Put.u32 bits
  | .numeric n => 8 :: Put.str (T.numericToText n)
  | .date d => 9 :: Put.i32 d
  | .timestamp m => 10 :: Put.i64 m
  | .timestamptz m => 11 :: Put.i64 m
  | .bytea b => 12 :: Put.blob b
  | .uuid u => 13 :: u.1
  | .bpChar s => 14 :: Put.str s
  | .singleChar b => 15 :: Put.u8 b
  | .pgLsn lsn => 16 :: Put.u64 lsn
  | .array elem dims lower elems =>
    17 :: (Put.u32 elem.arrayOid ++ (Put.len dims.length ++ (dims.flatMap Put.i32 ++
      (lower.flatMap Put.i32 ++ (Put.len elems.length ++ Enc.values elems)))))
  | .record fields => 18 :: (Put.len fields.length ++ Enc.fields fields)
  | .bitString b => 19 :: (Put.u32 b.bitlen ++ Put.blob b.bytes)
  | .tid b o => 20 :: (Put.u32 b ++ Put.u32 o)
  | .jsonb s => 21 :: Put.str s
  | .jsonpath s => 22 :: Put.str s
  | .time t => 23 :: Put.i64 t
  | .timeTz t off => 24 :: (Put.i64 t ++ Put.i32 off)
  | .interval iv => 25 :: (Put.i32 iv.months ++ (Put.i32 iv.days ++ Put.i64 iv.micros))
  | .range r => 26 :: r.elem.code :: (Put.str (r.name.getD "") ++ Put.str (T.rangeToText r))
  | .multirange m =>
    27 :: m.elem.code :: (Put.str (m.name.getD "") ++ Put.str (T.multirangeToText m))
  | .tsVector v => 28 :: Put.str (T.tsvectorToText v)
  | .tsQuery q => 29 :: Put.str (T.tsqueryToText q)

def Enc.values : List Value → Bytes
  | [] => []
  | v :: vs => Enc.value v ++ Enc.values vs

def Enc.fields : List (String × Value) → Bytes
  | [] => []
  | (name, val) :: fs => (Put.str name ++ Enc.value val) ++ Enc.fields fs

end

namespace Dec

open Reader

/-- The name of a range type; builtin types have none. -/
def typeName (name : String) : Option String := if name.isEmpty then none else some name

/-- What follows the tag of a value; `value` reads the elements of arrays and the fields of
records. -/
def valueOf (value : Reader Value) (tag : UInt8) : Reader Value :=
  match tag.toNat with
  | 0 => return .null
  | 1 => return .int (← i64)
  | 2 => return .float (← u64)
  | 3 => return .text (← str)
  | 4 => return .bool (← bool)
  | 5 => return .smallInt (← i16)
  | 6 => return .bigInt (← i64)
  | 7 => return .float4 (← u32)
  | 8 => do
    let s ← str
    .numeric <$> parsed "bad numeric in WAL: " (T.parseNumeric s)
  | 9 => return .date (← i32)
  | 10 => return .timestamp (← i64)
  | 11 => return .timestamptz (← i64)
  | 12 => return .bytea (← blob)
  | 13 => return .uuid (← block 16)
  | 14 => return .bpChar (← str)
  | 15 => return .singleChar (← u8)
  | 16 => return .pgLsn (← u64)
  | 17 => do
    let elem ← arrayElem
    let ndim ← uint 4
    let dims ← times ndim i32
    let lower ← times ndim i32
    let elems ← list value
    return .array elem dims lower elems
  | 18 => do
    let fields ← list do
      let name ← str
      let val ← value
      return (name, val)
    return .record fields
  | 19 => do
    let bitlen ← u32
    let bytes ← blob
    return .bitString ⟨bitlen, bytes⟩
  | 20 => do
    let b ← u32
    let o ← u32
    return .tid b o
  | 21 => return .jsonb (← str)
  | 22 => return .jsonpath (← str)
  | 23 => return .time (← i64)
  | 24 => do
    let t ← i64
    let off ← i32
    return .timeTz t off
  | 25 => do
    let months ← i32
    let days ← i32
    let micros ← i64
    return .interval ⟨months, days, micros⟩
  | 26 => do
    let elem ← rangeElem
    let name ← str
    let text ← str
    .range <$> parsed "bad range in WAL: " (T.parseRange elem (typeName name) text)
  | 27 => do
    let elem ← rangeElem
    let name ← str
    let text ← str
    .multirange <$> parsed "bad multirange in WAL: " (T.parseMultirange elem (typeName name) text)
  | 28 => do
    let text ← str
    .tsVector <$> parsed "bad tsvector in WAL: " (T.parseTsvector text)
  | 29 => do
    let text ← str
    .tsQuery <$> parsed "bad tsquery in WAL: " (T.parseTsquery text)
  | _ => fail ("unknown value tag " ++ toString tag)

/-- A value, with room for `stack` nested calls. -/
def value : Nat → Reader Value
  | 0 => raise .stackOverflow
  | stack + 1 => do
    let tag ← u8
    valueOf T (value stack) tag

end Dec

/-- The value is read back with room for `stack` nested calls: each text parses to the value it
stands for, and an array has as many lower bounds as dimensions. -/
@[grind =]
def Value.Storable : Nat → Value → Prop
  | 0, _ => False
  | _ + 1, .numeric n => T.parseNumeric (T.numericToText n) = .ok n
  | _ + 1, .range r =>
    T.parseRange r.elem (Dec.typeName (r.name.getD "")) (T.rangeToText r) = .ok r
  | _ + 1, .multirange m =>
    T.parseMultirange m.elem (Dec.typeName (m.name.getD "")) (T.multirangeToText m) = .ok m
  | _ + 1, .tsVector v => T.parseTsvector (T.tsvectorToText v) = .ok v
  | _ + 1, .tsQuery q => T.parseTsquery (T.tsqueryToText q) = .ok q
  | stack + 1, .array _ dims lower elems =>
    lower.length = dims.length ∧ ∀ e ∈ elems, e.Storable stack
  | stack + 1, .record fields => ∀ f ∈ fields, f.2.Storable stack
  | _ + 1, _ => True

variable {T}

@[simp]
theorem Enc.values_eq (vs : List Value) : Enc.values T vs = vs.flatMap (Enc.value T) := by
  induction vs with
  | nil => rfl
  | cons v vs ih => rw [Enc.values, ih, List.flatMap_cons]

@[simp]
theorem Enc.fields_eq (fs : List (String × Value)) :
    Enc.fields T fs = fs.flatMap fun f => Put.str f.1 ++ Enc.value T f.2 := by
  induction fs with
  | nil => rfl
  | cons f fs ih => rw [Enc.fields, ih, List.flatMap_cons]

@[simp]
theorem Enc.one_le_length_value (val : Value) : 1 ≤ (Enc.value T val).length := by
  cases val <;> simp [Enc.value]

variable {v : Nat}

/-- The lower bounds of an array that was read go with its dimensions. -/
private def Value.Squared : Value → Prop
  | .array _ dims lower _ => lower.length = dims.length
  | _ => True

private theorem Dec.readsBack_arrayValue {stack : Nat}
    (ih : ∀ val, ReadsBack v (Dec.value T stack) (Enc.value T val) val (val.Storable T stack))
    (elem : ArrayElem) (dims lower : List Int32) (elems : List Value) :
    ReadsBack v (Dec.value T (stack + 1)) (Enc.value T (.array elem dims lower elems))
      (.array elem dims lower elems) ((Value.array elem dims lower elems).Storable T (stack + 1)) := by
  apply ReadsBack.tag
  apply ReadsBack.of_returns (R := Value.Squared)
  · apply Reader.Returns.bind
    intro elem
    apply Reader.Returns.bind
    intro ndim
    refine (Reader.Returns.times ndim Reader.i32).bind_of fun dims hdims => ?_
    refine (Reader.Returns.times ndim Reader.i32).bind_of fun lower hlower => ?_
    apply Reader.Returns.bind
    intro elems
    exact Reader.Returns.pure (hlower.trans hdims.symm)
  · intro hsquare
    replace hsquare : lower.length = dims.length := hsquare
    apply ReadsBack.short
    intro hs
    have hdims : dims.length < 2 ^ 32 := by
      have := Put.length_le_flatMap (e := Put.i32) (l := dims) (by simp)
      simp only [List.length_append] at hs
      omega
    have hlower := ReadsBack.times (v := v) (l := lower) fun n _ => ReadsBack.i32 n
    rw [hsquare] at hlower
    apply (Dec.readsBack_arrayElem elem).bind
    apply (ReadsBack.len hdims).bind
    apply ((ReadsBack.times fun n _ => ReadsBack.i32 n).congr (by simp)).bind
    apply (hlower.congr (by simp)).bind
    rw [Enc.values_eq]
    exact (ReadsBack.list (by simp) fun e _ => ih e).last fun x h => (Value.array.inj h).2.2.2

private theorem Dec.readsBack_recordValue {stack : Nat}
    (ih : ∀ val, ReadsBack v (Dec.value T stack) (Enc.value T val) val (val.Storable T stack))
    (fields : List (String × Value)) :
    ReadsBack v (Dec.value T (stack + 1)) (Enc.value T (.record fields)) (.record fields)
      ((Value.record fields).Storable T (stack + 1)) := by
  apply ReadsBack.tag
  rw [Enc.fields_eq]
  refine (ReadsBack.list (e := fun f : String × Value => Put.str f.1 ++ Enc.value T f.2) ?_
    fun f _ => ?_).last fun x h => Value.record.inj h
  · simp
    omega
  · apply (ReadsBack.str f.1).bind
    exact (ih f.2).last fun x h => (Prod.mk.inj h).2

/-- A value is read back when it is storable, and not otherwise. -/
theorem Dec.readsBack_value (stack : Nat) (val : Value) :
    ReadsBack v (Dec.value T stack) (Enc.value T val) val (val.Storable T stack) := by
  induction stack generalizing val with
  | zero =>
      constructor
      · intro _ h
        exact absurd h (by simp [Value.Storable])
      · intro _ _ pre post d h
        cases h
  | succ stack ih =>
      cases val with
      | null => exact ReadsBack.tag (ReadsBack.pure _)
      | int i => exact ReadsBack.tag (ReadsBack.i64 i).last_always
      | float bits => exact ReadsBack.tag (ReadsBack.u64 bits).last_always
      | text s => exact ReadsBack.tag (ReadsBack.str s).last_always
      | bool b => exact ReadsBack.tag (ReadsBack.bool b).last_always
      | smallInt i => exact ReadsBack.tag (ReadsBack.i16 i).last_always
      | bigInt i => exact ReadsBack.tag (ReadsBack.i64 i).last_always
      | float4 bits => exact ReadsBack.tag (ReadsBack.u32 bits).last_always
      | numeric n => exact ReadsBack.tag (ReadsBack.text fun x h => Value.numeric.inj h)
      | date d => exact ReadsBack.tag (ReadsBack.i32 d).last_always
      | timestamp m => exact ReadsBack.tag (ReadsBack.i64 m).last_always
      | timestamptz m => exact ReadsBack.tag (ReadsBack.i64 m).last_always
      | bytea b => exact ReadsBack.tag (ReadsBack.blob b).last_always
      | uuid u => exact ReadsBack.tag (ReadsBack.block u).last_always
      | bpChar s => exact ReadsBack.tag (ReadsBack.str s).last_always
      | singleChar b => exact ReadsBack.tag (ReadsBack.u8 b).last_always
      | pgLsn lsn => exact ReadsBack.tag (ReadsBack.u64 lsn).last_always
      | array elem dims lower elems => exact readsBack_arrayValue ih elem dims lower elems
      | record fields => exact readsBack_recordValue ih fields
      | bitString b =>
          apply ReadsBack.tag
          apply (ReadsBack.u32 b.bitlen).bind
          exact (ReadsBack.blob b.bytes).last_always
      | tid b o =>
          apply ReadsBack.tag
          apply (ReadsBack.u32 b).bind
          exact (ReadsBack.u32 o).last_always
      | jsonb s => exact ReadsBack.tag (ReadsBack.str s).last_always
      | jsonpath s => exact ReadsBack.tag (ReadsBack.str s).last_always
      | time t => exact ReadsBack.tag (ReadsBack.i64 t).last_always
      | timeTz t off =>
          apply ReadsBack.tag
          apply (ReadsBack.i64 t).bind
          exact (ReadsBack.i32 off).last_always
      | interval iv =>
          apply ReadsBack.tag
          apply (ReadsBack.i32 iv.months).bind
          apply (ReadsBack.i32 iv.days).bind
          exact (ReadsBack.i64 iv.micros).last_always
      | range r =>
          apply ReadsBack.tag
          apply (Dec.readsBack_rangeElem r.elem).bind
          apply (ReadsBack.str (r.name.getD "")).bind
          exact ReadsBack.text fun x h => Value.range.inj h
      | multirange m =>
          apply ReadsBack.tag
          apply (Dec.readsBack_rangeElem m.elem).bind
          apply (ReadsBack.str (m.name.getD "")).bind
          exact ReadsBack.text fun x h => Value.multirange.inj h
      | tsVector w => exact ReadsBack.tag (ReadsBack.text fun x h => Value.tsVector.inj h)
      | tsQuery q => exact ReadsBack.tag (ReadsBack.text fun x h => Value.tsQuery.inj h)

end Encoding
