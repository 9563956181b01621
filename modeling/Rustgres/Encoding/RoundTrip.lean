-- SUMMARY: Exactly the storable records are read back, one by one and in sequence.
import Rustgres.Encoding.Records
import Rustgres.Wal.Frame

/-!
# Round Trips

Every part of a record that is always read back, then the records: at the current version a record
comes back from its bytes if it is storable, and not otherwise.
-/

open Codecs

namespace Encoding

variable {E : Type} {T : TextForms E} {v stack : Nat}

@[simp]
theorem Enc.one_le_length_record (r : WalRecord E) : 1 ≤ (Enc.record T r).length := by
  cases r <;> simp [Enc.record]

namespace Dec

/-! ## Tables -/

theorem readsBack_attnums (l : List Int16) :
    ReadsBack v (Reader.list Reader.i16) (Put.list Put.i16 l) l True :=
  ReadsBack.list_always (by simp) fun n _ => ReadsBack.i16 n

theorem readsBack_toastInfo (l : List (UInt32 × UInt8)) :
    ReadsBack v (Reader.list Dec.toastMeta) (Put.list Enc.toastMeta l) l True :=
  ReadsBack.list_always (by simp) fun m _ => readsBack_toastMeta m

theorem readsBack_createTable (hv : 33 ≤ v) (t : CreateTable E) :
    ReadsBack v (Dec.createTable T stack) (Enc.createTable T t) (.createTable t)
      ((WalRecord.createTable t).Storable T stack) := by
  have hpartition := (ReadsBack.since (k := 21) (o := none) (by omega)
    (@readsBack_partition _ T v stack t.partition)).part
      (k := fun partition => Reader.since 23 [] Dec.bitTypmods >>= fun bitTypmods =>
        pure (WalRecord.createTable { t with partition, bitTypmods }))
      ((ReadsBack.since (by omega) (readsBack_bitTypmods t.bitTypmods)).field (ReadsBack.done _))
      fun _ => Reader.Returns.bind fun _ => Reader.Returns.pure fun h =>
        congrArg CreateTable.partition (WalRecord.createTable.inj h)
  apply (ReadsBack.str t.name).field
  refine ((readsBack_columns t.columns).part
    ((ReadsBack.str t.constraints).field
    ((ReadsBack.str t.owner).field
    ((readsBack_acls (by omega) t.acl).field
    ((readsBack_colAcls (by omega) t.colAcl).field
    ((ReadsBack.u32 t.oid).field
    ((ReadsBack.u32 t.toastRelid).field
    ((readsBack_bytes t.colCompression).field
    ((readsBack_optStrs t.compositeTypes).field
    ((readsBack_optStrs t.domainTypes).field
    ((readsBack_bools t.domainElem).field
    ((readsBack_strs t.inherits).field
    ((readsBack_attnums t.attnums).field
    ((ReadsBack.i16 t.nextAttnum).field
    ((ReadsBack.u8 t.fillfactor).field
    ((ReadsBack.u64 t.xmin).field hpartition))))))))))))))) ?_).congr
      (by simp [WalRecord.Storable])
  intro columns
  iterate 17 refine Reader.Returns.bind fun _ => ?_
  exact Reader.Returns.pure fun h => congrArg CreateTable.columns (WalRecord.createTable.inj h)

theorem readsBack_alterTable (hv : 33 ≤ v) (t : AlterTable E) :
    ReadsBack v (Dec.alterTable T stack) (Enc.alterTable T t) (.alterTable t)
      ((WalRecord.alterTable t).Storable T stack) := by
  have hpartition := (ReadsBack.since (k := 21) (o := none) (by omega)
    (@readsBack_partition _ T v stack t.partition)).part
      (k := fun partition => Reader.since 23 [] Dec.bitTypmods >>= fun bitTypmods =>
        pure (WalRecord.alterTable { t with partition, bitTypmods }))
      ((ReadsBack.since (by omega) (readsBack_bitTypmods t.bitTypmods)).field (ReadsBack.done _))
      fun _ => Reader.Returns.bind fun _ => Reader.Returns.pure fun h =>
        congrArg AlterTable.partition (WalRecord.alterTable.inj h)
  apply (ReadsBack.str t.name).field
  refine ((readsBack_columns t.columns).part
    ((ReadsBack.str t.constraints).field
    ((ReadsBack.bool t.copyRows).field
    ((ReadsBack.str t.owner).field
    ((readsBack_acls (by omega) t.acl).field
    ((readsBack_colAcls (by omega) t.colAcl).field
    ((ReadsBack.u32 t.oid).field
    ((ReadsBack.u32 t.toastRelid).field
    ((ReadsBack.u32 t.toastTarget).field
    ((readsBack_bytes t.colStorage).field
    ((readsBack_bytes t.colCompression).field
    ((readsBack_optStrs t.compositeTypes).field
    ((readsBack_optStrs t.domainTypes).field
    ((readsBack_bools t.domainElem).field
    ((readsBack_strs t.inherits).field
    ((readsBack_attnums t.attnums).field
    ((ReadsBack.i16 t.nextAttnum).field
    ((ReadsBack.u8 t.fillfactor).field
    ((ReadsBack.u32 t.nextValueId).field
    ((readsBack_toastInfo t.toastInfo).field
    ((ReadsBack.u64 t.xmin).field hpartition)))))))))))))))))))) ?_).congr
      (by simp [WalRecord.Storable])
  intro columns
  iterate 22 refine Reader.Returns.bind fun _ => ?_
  exact Reader.Returns.pure fun h => congrArg AlterTable.columns (WalRecord.alterTable.inj h)

/-! ## Indexes, views, types and functions -/

theorem readsBack_createIndex (hv : 33 ≤ v) (ix : CreateIndex) :
    ReadsBack v (Dec.createIndex : Reader (WalRecord E)) (Enc.createIndex ix) (.createIndex ix)
      True := by
  apply (ReadsBack.str ix.name).field
  apply (ReadsBack.str ix.table).field
  apply (readsBack_strs ix.columns).field
  apply (ReadsBack.bool ix.unique).field
  apply (ReadsBack.bool ix.internal).field
  apply (readsBack_bools ix.desc).field
  apply (readsBack_bools ix.nullsFirst).field
  apply (readsBack_optStrs ix.exprs).field
  apply (readsBack_optStr ix.predicate).field
  apply (ReadsBack.u64 ix.xmin).field
  apply (ReadsBack.since (by omega) (readsBack_optStrs ix.collates)).field
  apply (ReadsBack.since (by omega) (readsBack_optStrs ix.opclasses)).field
  apply (ReadsBack.since (by omega) (ReadsBack.bool ix.nullsNotDistinct)).field
  exact ReadsBack.done _

theorem readsBack_checkOption (o : CheckOption) :
    ReadsBack v (CheckOption.fromU8 <$> Reader.u8) (Put.u8 o.toU8) o True := by
  have h := (ReadsBack.u8 (v := v) o.toU8).map_always (f := CheckOption.fromU8)
  cases o <;> exact h

theorem readsBack_createView (hv : 33 ≤ v) (w : CreateView) :
    ReadsBack v (Dec.createView : Reader (WalRecord E)) (Enc.createView w) (.createView w)
      True := by
  apply (ReadsBack.str w.name).field
  apply (ReadsBack.str w.query).field
  apply (readsBack_strs w.colAliases).field
  apply (readsBack_strs w.deps).field
  apply (ReadsBack.str w.owner).field
  apply (ReadsBack.u64 w.xmin).field
  apply (ReadsBack.since (by omega) (ReadsBack.bool w.securityInvoker)).field
  apply (ReadsBack.since (by omega) (readsBack_checkOption w.checkOption)).field
  apply (ReadsBack.since hv (ReadsBack.str w.triggers)).field
  exact ReadsBack.done _

theorem readsBack_rangeDef (r : UInt8 × Bool) :
    ReadsBack v Dec.rangeDef (Enc.rangeDef r) r True := by
  apply (ReadsBack.u8 r.1).field
  apply (ReadsBack.bool r.2).field
  exact ReadsBack.done r

theorem readsBack_createType (hv : 33 ≤ v) (t : CreateType) :
    ReadsBack v (Dec.createType : Reader (WalRecord E)) (Enc.createType t) (.createType t)
      t.Storable := by
  have hfields (fields : List (String × ColType × Option String)) :=
    ReadsBack.list (v := v) (l := fields) (e := Enc.compositeField) (by simp) fun f _ =>
      readsBack_compositeField f
  have hcomposite := ReadsBack.opt (v := v) (o := t.composite) fun fields _ => hfields fields
  have hdomain := (ReadsBack.opt (v := v) (o := t.domain) fun d _ => readsBack_domain d).part
    (k := fun domain => Reader.u64 >>= fun xmin =>
      Reader.since 22 none (Reader.opt Dec.rangeDef) >>= fun range =>
        pure (WalRecord.createType ⟨t.name, t.likeBase, t.composite, domain, range, xmin⟩ :
          WalRecord E))
    ((ReadsBack.u64 t.xmin).field ((ReadsBack.since (by omega)
      (ReadsBack.opt_always fun r _ => readsBack_rangeDef r)).field (ReadsBack.done _)))
    fun _ => Reader.Returns.bind fun _ => Reader.Returns.bind fun _ => Reader.Returns.pure fun h =>
      congrArg CreateType.domain (WalRecord.createType.inj h)
  apply (ReadsBack.str t.name).field
  apply (readsBack_optStr t.likeBase).field
  refine (hcomposite.part hdomain ?_).congr (by simp [CreateType.Storable])
  intro composite
  iterate 3 refine Reader.Returns.bind fun _ => ?_
  exact Reader.Returns.pure fun h => congrArg CreateType.composite (WalRecord.createType.inj h)

theorem readsBack_tableCol (c : String × String) :
    ReadsBack v Dec.tableCol (Enc.tableCol c) c True := by
  apply (ReadsBack.str c.1).field
  apply (ReadsBack.str c.2).field
  exact ReadsBack.done c

theorem readsBack_createFunction (hv : 33 ≤ v) (f : CreateFunction) :
    ReadsBack v (Dec.createFunction : Reader (WalRecord E)) (Enc.createFunction f)
      (.createFunction f) True := by
  have hcols := ReadsBack.list_always (v := v) (l := f.tableCols) (e := Enc.tableCol)
    (by simp [Enc.tableCol]; omega) fun c _ => readsBack_tableCol c
  apply (ReadsBack.str f.name).field
  apply (readsBack_optStrs f.argNames).field
  apply (readsBack_strs f.argTypes).field
  apply (ReadsBack.str f.retType).field
  apply (ReadsBack.bool f.returnsSet).field
  apply (ReadsBack.u8 f.lang).field
  apply (ReadsBack.str f.body).field
  apply (ReadsBack.u8 f.volatility).field
  apply (ReadsBack.bool f.strict).field
  apply (ReadsBack.since (by omega) (ReadsBack.bool f.securityDefiner)).field
  apply (ReadsBack.since (by omega) (ReadsBack.bool f.isProcedure)).field
  apply (ReadsBack.since (by omega) hcols).field
  apply (ReadsBack.u64 f.xmin).field
  apply (ReadsBack.since (by omega) (readsBack_bytes f.argModes)).field
  exact ReadsBack.done _

/-! ## Records -/

theorem readsBack_named (record : String → UInt64 → WalRecord E) (name : String) (xid : UInt64) :
    ReadsBack v (Dec.named record) [Put.str name, Put.u64 xid].flatten (record name xid) True := by
  apply (ReadsBack.str name).field
  apply (ReadsBack.u64 xid).field
  exact ReadsBack.done _

theorem readsBack_rows (rows : List WalRow) :
    ReadsBack v (Reader.list (Dec.walRow T stack)) (Put.list (Enc.walRow T) rows) rows
      (∀ r ∈ rows, r.Storable T stack) :=
  ReadsBack.list (by simp) fun r _ => readsBack_walRow r

theorem deletedRows_eq {ids : List UInt64} {oldRows : List WalRow}
    (h : oldRows.map (·.id) = ids) :
    Enc.deletedRows T ids oldRows = Put.list (Enc.walRow T) oldRows := by
  subst h
  have hzip : ((oldRows.map (·.id)).zip oldRows).flatMap
      (fun p => Enc.walRow T { p.2 with id := p.1 }) = oldRows.flatMap (Enc.walRow T) := by
    induction oldRows with
    | nil => rfl
    | cons r rows ih => simp only [List.map_cons, List.zip_cons_cons, List.flatMap_cons, ih]
  rw [Enc.deletedRows, hzip, List.length_map, Put.list]

/-- The ids of a `DELETE` that was read are those of its rows. -/
private def IdsBeside : WalRecord E → Prop
  | .deleteRows _ ids oldRows _ => oldRows.map (·.id) = ids
  | _ => True

theorem readsBack_deleteRows (table : String) (ids : List UInt64) (oldRows : List WalRow)
    (xmax : UInt64) :
    ReadsBack v (Dec.record T stack) (Enc.record T (.deleteRows table ids oldRows xmax))
      (.deleteRows table ids oldRows xmax)
      ((WalRecord.deleteRows table ids oldRows xmax : WalRecord E).Storable T stack) := by
  apply ReadsBack.tag
  apply ReadsBack.of_returns (R := IdsBeside)
  · refine Reader.Returns.bind fun table => Reader.Returns.bind fun rows =>
      Reader.Returns.bind fun xmax => ?_
    exact Reader.Returns.pure rfl
  · intro hids
    replace hids : oldRows.map (·.id) = ids := hids
    subst hids
    rw [deletedRows_eq rfl]
    have hxmax := (ReadsBack.u64 (v := v) xmax).field
      (k := fun xmax => pure (WalRecord.deleteRows table (oldRows.map (·.id)) oldRows xmax :
        WalRecord E)) (ReadsBack.done _)
    apply (ReadsBack.str table).field
    refine ((readsBack_rows oldRows).part hxmax ?_).congr (by simp)
    intro rows
    refine Reader.Returns.bind fun xmax => ?_
    exact Reader.Returns.pure fun h => (WalRecord.deleteRows.inj h).2.2.1

theorem readsBack_updateRows (table : String) (old new : List WalRow) (xmax : UInt64) :
    ReadsBack v (Dec.record T stack) (Enc.record T (.updateRows table old new xmax))
      (.updateRows table old new xmax)
      ((WalRecord.updateRows table old new xmax : WalRecord E).Storable T stack) := by
  have hnew := (@readsBack_rows _ T v stack new).part
    (k := fun new => Reader.u64 >>= fun xmax =>
      pure (WalRecord.updateRows table old new xmax : WalRecord E))
    ((ReadsBack.u64 xmax).field (ReadsBack.done _))
    fun _ => Reader.Returns.bind fun _ => Reader.Returns.pure fun h =>
      (WalRecord.updateRows.inj h).2.2.1
  apply ReadsBack.tag
  apply (ReadsBack.str table).field
  refine ((readsBack_rows old).part hnew ?_).congr (by simp [WalRecord.Storable])
  intro old
  refine Reader.Returns.bind fun new => Reader.Returns.bind fun xmax => ?_
  exact Reader.Returns.pure fun h => (WalRecord.updateRows.inj h).2.1

/-- A record is read back when it is storable, and not otherwise. -/
theorem readsBack_record (hv : 33 ≤ v) (r : WalRecord E) :
    ReadsBack v (Dec.record T stack) (Enc.record T r) r (r.Storable T stack) := by
  cases r with
  | createTable t => exact ReadsBack.tag (readsBack_createTable hv t)
  | insertRows table rows =>
      apply ReadsBack.tag
      apply (ReadsBack.str table).field
      refine ((readsBack_rows rows).part (ReadsBack.done (WalRecord.insertRows table rows))
        ?_).congr (by simp [WalRecord.Storable])
      intro rows
      exact Reader.Returns.pure fun h => (WalRecord.insertRows.inj h).2
  | dropTable name xmax => exact ReadsBack.tag (readsBack_named _ name xmax)
  | deleteRows table ids oldRows xmax => exact readsBack_deleteRows table ids oldRows xmax
  | updateRows table old new xmax => exact readsBack_updateRows table old new xmax
  | createIndex ix => exact ReadsBack.tag (readsBack_createIndex hv ix)
  | dropIndex name xmax => exact ReadsBack.tag (readsBack_named _ name xmax)
  | alterTable t => exact ReadsBack.tag (readsBack_alterTable hv t)
  | createView w => exact ReadsBack.tag (readsBack_createView hv w)
  | dropView name xmax => exact ReadsBack.tag (readsBack_named _ name xmax)
  | alterViewTriggers name triggers xmin =>
      apply ReadsBack.tag
      apply (ReadsBack.str name).field
      apply (ReadsBack.str triggers).field
      apply (ReadsBack.u64 xmin).field
      exact ReadsBack.done _
  | createSequence name seq xmin =>
      apply ReadsBack.tag
      apply (ReadsBack.str name).field
      apply (readsBack_sequence (by omega) seq).field
      apply (ReadsBack.u64 xmin).field
      exact ReadsBack.done _
  | dropSequence name xmax => exact ReadsBack.tag (readsBack_named _ name xmax)
  | alterSequence name seq xmin =>
      apply ReadsBack.tag
      apply (ReadsBack.str name).field
      apply (readsBack_sequence (by omega) seq).field
      apply (ReadsBack.u64 xmin).field
      exact ReadsBack.done _
  | seqAdvance name lastValue isCalled =>
      apply ReadsBack.tag
      apply (ReadsBack.str name).field
      apply (ReadsBack.i64 lastValue).field
      apply (ReadsBack.bool isCalled).field
      exact ReadsBack.done _
  | createRole name role xmin =>
      apply ReadsBack.tag
      apply (ReadsBack.str name).field
      apply (readsBack_walRole (by omega) role).field
      apply (ReadsBack.u64 xmin).field
      exact ReadsBack.done _
  | dropRole name xmax => exact ReadsBack.tag (readsBack_named _ name xmax)
  | alterRole name role xmin =>
      apply ReadsBack.tag
      apply (ReadsBack.str name).field
      apply (readsBack_walRole (by omega) role).field
      apply (ReadsBack.u64 xmin).field
      exact ReadsBack.done _
  | dbAcl acl xmin =>
      apply ReadsBack.tag
      apply (readsBack_acls (by omega) acl).field
      apply (ReadsBack.u64 xmin).field
      exact ReadsBack.done _
  | defaultAcls rules xmin =>
      apply ReadsBack.tag
      apply (ReadsBack.list_always (by simp) fun r _ =>
        readsBack_defaultAcl (by omega) r).field
      apply (ReadsBack.u64 xmin).field
      exact ReadsBack.done _
  | replSlotCreate name plugin slotType restartLsn =>
      apply ReadsBack.tag
      apply (ReadsBack.str name).field
      apply (ReadsBack.str plugin).field
      apply (ReadsBack.str slotType).field
      apply (ReadsBack.u64 restartLsn).field
      exact ReadsBack.done _
  | replSlotDrop name =>
      apply ReadsBack.tag
      apply (ReadsBack.str name).field
      exact ReadsBack.done _
  | replSlotFlush name restartLsn confirmedFlushLsn =>
      apply ReadsBack.tag
      apply (ReadsBack.str name).field
      apply (ReadsBack.u64 restartLsn).field
      apply (ReadsBack.u64 confirmedFlushLsn).field
      exact ReadsBack.done _
  | createType t => exact ReadsBack.tag (readsBack_createType hv t)
  | dropType name xmax => exact ReadsBack.tag (readsBack_named _ name xmax)
  | createFunction f => exact ReadsBack.tag (readsBack_createFunction hv f)
  | dropFunction name argTypes argModes xmax =>
      apply ReadsBack.tag
      apply (ReadsBack.str name).field
      apply (readsBack_strs argTypes).field
      apply (ReadsBack.since (by omega) (readsBack_bytes argModes)).field
      apply (ReadsBack.u64 xmax).field
      exact ReadsBack.done _
  | createOperator name defs xmin =>
      apply ReadsBack.tag
      apply (ReadsBack.str name).field
      apply (ReadsBack.list_always (by simp) fun d _ => readsBack_operDef d).field
      apply (ReadsBack.u64 xmin).field
      exact ReadsBack.done _
  | dropOperator name xmax => exact ReadsBack.tag (readsBack_named _ name xmax)
  | setToastRelid name toastRelid xmin =>
      apply ReadsBack.tag
      apply (ReadsBack.str name).field
      apply (ReadsBack.u32 toastRelid).field
      apply (ReadsBack.u64 xmin).field
      exact ReadsBack.done _
  | createPublication name pub xmin =>
      apply ReadsBack.tag
      apply (ReadsBack.str name).field
      apply (readsBack_publication pub).field
      apply (ReadsBack.u64 xmin).field
      exact ReadsBack.done _
  | alterPublication name pub xmin =>
      apply ReadsBack.tag
      apply (ReadsBack.str name).field
      apply (readsBack_publication pub).field
      apply (ReadsBack.u64 xmin).field
      exact ReadsBack.done _
  | dropPublication name xmax => exact ReadsBack.tag (readsBack_named _ name xmax)

end Dec

end Encoding
