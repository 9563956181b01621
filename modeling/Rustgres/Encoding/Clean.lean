-- SUMMARY: On every byte string the decoder stops with a reported error, unless a text parser faults.
import Rustgres.Encoding.RoundTrip

/-!
# Errors of the Decoder

Whatever the bytes are, a reader stops with a reported error or moves forward. Only the parsers of
the texts could fault, and a value that is nested deeper than the stack allows.
-/

open Codecs

namespace Encoding

variable {E : Type} {T : TextForms E}

/-- No parser faults on the text. -/
structure TextForms.Safe (T : TextForms E) (s : String) : Prop where
  numeric : Reports (T.parseNumeric s)
  range : ∀ elem name, Reports (T.parseRange elem name s)
  multirange : ∀ elem name, Reports (T.parseMultirange elem name s)
  tsvector : Reports (T.parseTsvector s)
  tsquery : Reports (T.parseTsquery s)

namespace Dec

variable {n stack : Nat}

/-! ## Types and values -/

theorem clean_columnElem (oid : UInt32) : Clean T.Safe n (Dec.columnElem oid) := by
  unfold Dec.columnElem
  split <;> first | exact Clean.pure _ | exact Clean.fail _

theorem clean_arrayElem : Clean T.Safe n Dec.arrayElem := by
  refine Clean.u32.bind fun oid => ?_
  unfold Dec.arrayElemOf
  split <;> first | exact Clean.pure _ | exact Clean.fail _

theorem clean_rangeElem : Clean T.Safe n Dec.rangeElem := by
  refine Clean.u8.bind fun c => ?_
  split
  · exact Clean.pure _
  · exact Clean.fail _

theorem clean_typmod : Clean T.Safe n Dec.typmod := Clean.i32.bind fun _ => Clean.pure _

theorem clean_colType : Clean T.Safe n Dec.colType := by
  refine Clean.u8.bind fun tag => ?_
  unfold Dec.colTypeOf
  split <;> first
    | exact Clean.pure _
    | exact Clean.fail _
    | exact Clean.bind clean_typmod fun _ => Clean.pure _
    | exact Clean.bind clean_rangeElem fun _ => Clean.pure _
    | exact Clean.u32.bind fun oid => (clean_columnElem oid).bind fun _ => Clean.pure _
    | exact Clean.i32.bind fun _ => Clean.i32.bind fun _ => Clean.pure _

/-- Reading a value takes no more nested calls than there are bytes. -/
theorem clean_value (h : n < stack) : Clean T.Safe n (Dec.value T stack) := by
  induction n using Nat.strong_induction_on generalizing stack with
  | _ n ih =>
      obtain ⟨stack, rfl⟩ : ∃ k, stack = k + 1 := ⟨stack - 1, by omega⟩
      apply Clean.tag
      intro m hm tag
      have hvalue : Clean T.Safe m (Dec.value T stack) := ih m hm (by omega)
      have hfield : Clean T.Safe m (do
          let name ← Reader.str
          let val ← Dec.value T stack
          return (name, val)) := Clean.str.bind fun _ => hvalue.bind fun _ => Clean.pure _
      unfold Dec.valueOf
      split
      case h_9 => exact Clean.text fun s hs => hs.numeric
      case h_18 =>
        exact Clean.bind clean_arrayElem fun _ => (Clean.uint 4).bind fun ndim =>
          (Clean.i32.times ndim).bind fun _ => (Clean.i32.times ndim).bind fun _ =>
            hvalue.list.bind fun _ => Clean.pure _
      case h_27 =>
        exact Clean.bind clean_rangeElem fun elem => Clean.str.bind fun name =>
          Clean.text fun s hs => hs.range elem (Dec.typeName name)
      case h_28 =>
        exact Clean.bind clean_rangeElem fun elem => Clean.str.bind fun name =>
          Clean.text fun s hs => hs.multirange elem (Dec.typeName name)
      case h_29 => exact Clean.text fun s hs => hs.tsvector
      case h_30 => exact Clean.text fun s hs => hs.tsquery
      all_goals first
        | exact Clean.pure _
        | exact Clean.fail _
        | exact Clean.bool.bind fun _ => Clean.pure _
        | exact Clean.u8.bind fun _ => Clean.pure _
        | exact Clean.i16.bind fun _ => Clean.pure _
        | exact Clean.i32.bind fun _ => Clean.pure _
        | exact Clean.u32.bind fun _ => Clean.pure _
        | exact Clean.i64.bind fun _ => Clean.pure _
        | exact Clean.u64.bind fun _ => Clean.pure _
        | exact Clean.str.bind fun _ => Clean.pure _
        | exact Clean.blob.bind fun _ => Clean.pure _
        | exact (Clean.block 16).bind fun _ => Clean.pure _
        | exact hfield.list.bind fun _ => Clean.pure _
        | exact Clean.u32.bind fun _ => Clean.blob.bind fun _ => Clean.pure _
        | exact Clean.u32.bind fun _ => Clean.u32.bind fun _ => Clean.pure _
        | exact Clean.i64.bind fun _ => Clean.i32.bind fun _ => Clean.pure _
        | exact Clean.i32.bind fun _ => Clean.i32.bind fun _ => Clean.i64.bind fun _ => Clean.pure _

/-! ## Parts -/

theorem clean_toastMeta : Clean T.Safe n Dec.toastMeta :=
  Clean.u32.bind fun _ => Clean.u8.bind fun _ => Clean.pure _

theorem clean_walRow (h : n < stack) : Clean T.Safe n (Dec.walRow T stack) :=
  Clean.u64.bind fun _ => Clean.u64.bind fun _ => (Clean.uint 4).bind fun nv =>
    ((clean_value h).times nv).bind fun _ => (Clean.u32.times nv).bind fun _ =>
      (Clean.list clean_toastMeta).bind fun _ => Clean.pure _

theorem clean_rangeBound (h : n < stack) : Clean T.Safe n (Dec.rangeBound T stack) := by
  refine Clean.u8.label.bind fun tag => ?_
  split
  · exact Clean.pure _
  · exact Clean.pure _
  · exact (clean_value h).label.bind fun _ => Clean.pure _
  · exact Clean.reported _

theorem clean_partMethod : Clean T.Safe n Dec.partMethod := by
  refine Clean.u8.bind fun tag => ?_
  split <;> first | exact Clean.pure _ | exact Clean.fail _

theorem clean_partKey : Clean T.Safe n (Dec.partKey T) :=
  Clean.u64.bind fun _ => Clean.str.opt.bind fun _ => Clean.pure _

theorem clean_partBound (h : n < stack) : Clean T.Safe n (Dec.partBound T stack) := by
  refine Clean.u8.bind fun tag => ?_
  split
  · exact (clean_value h).list.bind fun _ => Clean.bool.bind fun _ => Clean.pure _
  · exact (clean_rangeBound h).list.bind fun _ => (clean_rangeBound h).list.bind fun _ =>
      Clean.pure _
  · exact Clean.u32.bind fun _ => Clean.u32.bind fun _ => Clean.pure _
  · exact Clean.fail _

theorem clean_partition (h : n < stack) : Clean T.Safe n (Dec.partition T stack) :=
  Clean.opt <| Clean.bind clean_partMethod fun _ => (Clean.list clean_partKey).bind fun _ =>
    (clean_partBound h).opt.bind fun _ => Clean.bool.bind fun _ => Clean.str.opt.bind fun _ =>
      Clean.str.list.bind fun _ => Clean.bool.bind fun _ => Clean.pure _

theorem clean_acl : Clean T.Safe n Dec.acl :=
  Clean.str.bind fun _ => Clean.u32.bind fun _ => Clean.u32.since.bind fun _ =>
    Clean.str.since.bind fun _ => Clean.pure _

theorem clean_colAcl : Clean T.Safe n Dec.colAcl :=
  Clean.str.bind fun _ => Clean.u32.bind fun _ => Clean.str.list.bind fun _ =>
    Clean.u32.since.bind fun _ => Clean.str.since.bind fun _ => Clean.pure _

theorem clean_defaultAcl : Clean T.Safe n Dec.defaultAcl :=
  Clean.str.bind fun _ => Clean.u8.bind fun _ => Clean.str.bind fun _ => Clean.u32.bind fun _ =>
    Clean.str.since.bind fun _ => Clean.pure _

theorem clean_verifier : Clean T.Safe n Dec.verifier := by
  refine Clean.u8.bind fun tag => ?_
  split
  · exact Clean.pure _
  · exact Clean.u32.bind fun _ => Clean.blob.bind fun _ => (Clean.block 32).bind fun _ =>
      (Clean.block 32).bind fun _ => Clean.pure _
  · exact Clean.fail _

theorem clean_membership : Clean T.Safe n Dec.membership :=
  Clean.str.bind fun _ => Clean.str.bind fun _ => Clean.bool.since.bind fun _ =>
    Clean.bool.since.bind fun _ => Clean.bool.since.bind fun _ => Clean.pure _

theorem clean_walRole : Clean T.Safe n Dec.walRole :=
  Clean.bind clean_verifier fun _ => Clean.bool.bind fun _ => Clean.bool.bind fun _ =>
    Clean.i32.bind fun _ => (Clean.list clean_membership).bind fun _ => Clean.str.opt.bind fun _ =>
      Clean.bool.since.bind fun _ => Clean.bool.since.bind fun _ => Clean.bool.since.bind fun _ =>
        Clean.bool.since.bind fun _ => Clean.bool.since.bind fun _ => Clean.pure _

theorem clean_owner : Clean T.Safe n Dec.owner :=
  Clean.str.bind fun _ => Clean.str.bind fun _ => Clean.u64.opt.bind fun _ => Clean.pure _

theorem clean_sequence : Clean T.Safe n Dec.sequence :=
  Clean.str.bind fun _ => Clean.u8.bind fun _ => Clean.i64.bind fun _ => Clean.i64.bind fun _ =>
    Clean.i64.bind fun _ => Clean.i64.bind fun _ => Clean.bool.bind fun _ =>
      Clean.i64.bind fun _ => Clean.i64.bind fun _ => Clean.bool.bind fun _ =>
        Clean.bool.bind fun _ => Clean.str.bind fun _ => (Clean.list clean_acl).bind fun _ =>
          (Clean.opt clean_owner).bind fun _ => Clean.pure _

theorem clean_columns : Clean T.Safe n Dec.columns :=
  Clean.list <| Clean.str.bind fun _ => Clean.bind clean_colType fun _ => Clean.pure _

theorem clean_bitTypmods : Clean T.Safe n Dec.bitTypmods :=
  Clean.list <| Clean.opt <| Clean.i32.bind fun _ => Clean.bool.bind fun _ => Clean.pure _

theorem clean_compositeField : Clean T.Safe n Dec.compositeField :=
  Clean.str.bind fun _ => Clean.bind clean_colType fun _ => Clean.str.opt.bind fun _ => Clean.pure _

theorem clean_domain : Clean T.Safe n Dec.domain :=
  Clean.bind clean_colType fun _ => Clean.str.opt.bind fun _ => Clean.str.opt.bind fun _ =>
    Clean.bool.bind fun _ => Clean.str.bind fun _ => Clean.str.bind fun _ => Clean.pure _

theorem clean_operDef : Clean T.Safe n Dec.operDef :=
  Clean.str.bind fun _ => Clean.str.opt.bind fun _ => Clean.str.opt.bind fun _ =>
    Clean.str.opt.bind fun _ => Clean.str.opt.bind fun _ => Clean.bool.bind fun _ =>
      Clean.bool.bind fun _ => Clean.pure _

theorem clean_tableSpec : Clean T.Safe n Dec.tableSpec :=
  Clean.str.bind fun _ => Clean.str.list.opt.bind fun _ => Clean.str.opt.bind fun _ =>
    Clean.pure _

theorem clean_publication : Clean T.Safe n Dec.publication :=
  Clean.u32.bind fun _ => Clean.str.opt.bind fun _ => Clean.str.bind fun _ =>
    Clean.bool.bind fun _ => Clean.bool.bind fun _ => Clean.str.list.bind fun _ =>
      Clean.str.list.bind fun _ => Clean.str.list.bind fun _ => Clean.bool.bind fun _ =>
        Clean.bool.bind fun _ => Clean.bool.bind fun _ => Clean.bool.bind fun _ =>
          Clean.bool.bind fun _ => Clean.str.bind fun _ => (Clean.list clean_tableSpec).bind fun _ =>
            Clean.pure _

/-! ## Records -/

theorem clean_createTable (h : n < stack) : Clean T.Safe n (Dec.createTable T stack) :=
  Clean.str.bind fun _ => Clean.bind clean_columns fun _ => Clean.str.bind fun _ =>
    Clean.str.bind fun _ => (Clean.list clean_acl).bind fun _ => (Clean.list clean_colAcl).bind fun _ =>
      Clean.u32.bind fun _ => Clean.u32.bind fun _ => Clean.u8.list.bind fun _ =>
        Clean.str.opt.list.bind fun _ => Clean.str.opt.list.bind fun _ =>
          Clean.bool.list.bind fun _ => Clean.str.list.bind fun _ => Clean.i16.list.bind fun _ =>
            Clean.i16.bind fun _ => Clean.u8.bind fun _ => Clean.u64.bind fun _ =>
              (clean_partition h).since.bind fun _ => (Clean.since clean_bitTypmods).bind fun _ =>
                Clean.pure _

theorem clean_alterTable (h : n < stack) : Clean T.Safe n (Dec.alterTable T stack) :=
  Clean.str.bind fun _ => Clean.bind clean_columns fun _ => Clean.str.bind fun _ =>
    Clean.bool.bind fun _ => Clean.str.bind fun _ => (Clean.list clean_acl).bind fun _ =>
      (Clean.list clean_colAcl).bind fun _ => Clean.u32.bind fun _ => Clean.u32.bind fun _ =>
        Clean.u32.bind fun _ => Clean.u8.list.bind fun _ => Clean.u8.list.bind fun _ =>
          Clean.str.opt.list.bind fun _ => Clean.str.opt.list.bind fun _ =>
            Clean.bool.list.bind fun _ => Clean.str.list.bind fun _ =>
              Clean.i16.list.bind fun _ => Clean.i16.bind fun _ => Clean.u8.bind fun _ =>
                Clean.u32.bind fun _ => (Clean.list clean_toastMeta).bind fun _ => Clean.u64.bind fun _ =>
                  (clean_partition h).since.bind fun _ => (Clean.since clean_bitTypmods).bind fun _ =>
                    Clean.pure _

theorem clean_createIndex : Clean T.Safe n (Dec.createIndex : Reader (WalRecord E)) :=
  Clean.str.bind fun _ => Clean.str.bind fun _ => Clean.str.list.bind fun _ =>
    Clean.bool.bind fun _ => Clean.bool.bind fun _ => Clean.bool.list.bind fun _ =>
      Clean.bool.list.bind fun _ => Clean.str.opt.list.bind fun _ => Clean.str.opt.bind fun _ =>
        Clean.u64.bind fun _ => Clean.str.opt.list.since.bind fun _ =>
          Clean.str.opt.list.since.bind fun _ => Clean.bool.since.bind fun _ => Clean.pure _

theorem clean_createView : Clean T.Safe n (Dec.createView : Reader (WalRecord E)) :=
  Clean.str.bind fun _ => Clean.str.bind fun _ => Clean.str.list.bind fun _ =>
    Clean.str.list.bind fun _ => Clean.str.bind fun _ => Clean.u64.bind fun _ =>
      Clean.bool.since.bind fun _ => Clean.u8.map.since.bind fun _ =>
        Clean.str.since.bind fun _ => Clean.pure _

theorem clean_rangeDef : Clean T.Safe n Dec.rangeDef :=
  Clean.u8.bind fun _ => Clean.bool.bind fun _ => Clean.pure _

theorem clean_createType : Clean T.Safe n (Dec.createType : Reader (WalRecord E)) :=
  Clean.str.bind fun _ => Clean.str.opt.bind fun _ => (Clean.list clean_compositeField).opt.bind fun _ =>
    (Clean.opt clean_domain).bind fun _ => Clean.u64.bind fun _ => (Clean.opt clean_rangeDef).since.bind fun _ =>
      Clean.pure _

theorem clean_tableCol : Clean T.Safe n Dec.tableCol :=
  Clean.str.bind fun _ => Clean.str.bind fun _ => Clean.pure _

theorem clean_createFunction : Clean T.Safe n (Dec.createFunction : Reader (WalRecord E)) :=
  Clean.str.bind fun _ => Clean.str.opt.list.bind fun _ => Clean.str.list.bind fun _ =>
    Clean.str.bind fun _ => Clean.bool.bind fun _ => Clean.u8.bind fun _ => Clean.str.bind fun _ =>
      Clean.u8.bind fun _ => Clean.bool.bind fun _ => Clean.bool.since.bind fun _ =>
        Clean.bool.since.bind fun _ => (Clean.list clean_tableCol).since.bind fun _ =>
          Clean.u64.bind fun _ => Clean.u8.list.since.bind fun _ => Clean.pure _

theorem clean_named (record : String → UInt64 → WalRecord E) :
    Clean T.Safe n (Dec.named record) :=
  Clean.str.bind fun _ => Clean.u64.bind fun _ => Clean.pure _

/-- Every record is read to its end or refused with an error. -/
theorem clean_record (h : n < stack) : Clean T.Safe n (Dec.record T stack) := by
  refine Clean.u8.bind fun tag => ?_
  unfold Dec.recordOf
  split
  · exact clean_createTable h
  · exact Clean.str.bind fun _ => (clean_walRow h).list.bind fun _ => Clean.pure _
  · exact clean_named _
  · exact Clean.str.bind fun _ => (clean_walRow h).list.bind fun _ => Clean.u64.bind fun _ =>
      Clean.pure _
  · exact clean_createIndex
  · exact clean_named _
  · exact clean_alterTable h
  · exact clean_createView
  · exact clean_named _
  · exact Clean.str.bind fun _ => Clean.bind clean_sequence fun _ => Clean.u64.bind fun _ =>
      Clean.pure _
  · exact clean_named _
  · exact Clean.str.bind fun _ => Clean.bind clean_sequence fun _ => Clean.u64.bind fun _ =>
      Clean.pure _
  · exact Clean.str.bind fun _ => Clean.i64.bind fun _ => Clean.bool.bind fun _ => Clean.pure _
  · exact Clean.str.bind fun _ => Clean.bind clean_walRole fun _ => Clean.u64.bind fun _ =>
      Clean.pure _
  · exact clean_named _
  · exact Clean.str.bind fun _ => Clean.bind clean_walRole fun _ => Clean.u64.bind fun _ =>
      Clean.pure _
  · exact (Clean.list clean_acl).bind fun _ => Clean.u64.bind fun _ => Clean.pure _
  · exact Clean.str.bind fun _ => (clean_walRow h).list.bind fun _ =>
      (clean_walRow h).list.bind fun _ => Clean.u64.bind fun _ => Clean.pure _
  · exact Clean.str.bind fun _ => Clean.str.bind fun _ => Clean.str.bind fun _ =>
      Clean.u64.bind fun _ => Clean.pure _
  · exact Clean.str.bind fun _ => Clean.pure _
  · exact Clean.str.bind fun _ => Clean.u64.bind fun _ => Clean.u64.bind fun _ => Clean.pure _
  · exact clean_createType
  · exact clean_named _
  · exact clean_createFunction
  · exact Clean.str.bind fun _ => Clean.str.list.bind fun _ => Clean.u8.list.since.bind fun _ =>
      Clean.u64.bind fun _ => Clean.pure _
  · exact Clean.str.bind fun _ => (Clean.list clean_operDef).bind fun _ => Clean.u64.bind fun _ =>
      Clean.pure _
  · exact clean_named _
  · exact Clean.str.bind fun _ => Clean.u32.bind fun _ => Clean.u64.bind fun _ => Clean.pure _
  · exact (Clean.list clean_defaultAcl).bind fun _ => Clean.u64.bind fun _ => Clean.pure _
  · exact Clean.str.bind fun _ => Clean.bind clean_publication fun _ => Clean.u64.bind fun _ =>
      Clean.pure _
  · exact clean_named _
  · exact Clean.str.bind fun _ => Clean.bind clean_publication fun _ => Clean.u64.bind fun _ =>
      Clean.pure _
  · exact Clean.str.bind fun _ => Clean.str.bind fun _ => Clean.u64.bind fun _ => Clean.pure _
  · exact Clean.fail _

end Dec

end Encoding
