-- SUMMARY: The format of the logical records, and which records are read back.
import Rustgres.Encoding.Parts

/-!
# Records

A record is a tag byte and its fields. Fields that came with a later version of the format are read
only from logs of that version on.
-/

open Codecs

namespace Encoding

variable {E : Type} (T : TextForms E)

/-! ## Writing -/

def Enc.createTable (t : CreateTable E) : Bytes :=
  [Put.str t.name, Enc.columns t.columns, Put.str t.constraints, Put.str t.owner,
    Put.list Enc.acl t.acl, Put.list Enc.colAcl t.colAcl, Put.u32 t.oid, Put.u32 t.toastRelid,
    Put.list Put.u8 t.colCompression, Put.list (Put.opt Put.str) t.compositeTypes,
    Put.list (Put.opt Put.str) t.domainTypes, Put.list Put.bool t.domainElem,
    Put.list Put.str t.inherits, Put.list Put.i16 t.attnums, Put.i16 t.nextAttnum,
    Put.u8 t.fillfactor, Put.u64 t.xmin, Enc.partition T t.partition,
    Enc.bitTypmods t.bitTypmods].flatten

def Enc.alterTable (t : AlterTable E) : Bytes :=
  [Put.str t.name, Enc.columns t.columns, Put.str t.constraints, Put.bool t.copyRows,
    Put.str t.owner, Put.list Enc.acl t.acl, Put.list Enc.colAcl t.colAcl, Put.u32 t.oid,
    Put.u32 t.toastRelid, Put.u32 t.toastTarget, Put.list Put.u8 t.colStorage,
    Put.list Put.u8 t.colCompression, Put.list (Put.opt Put.str) t.compositeTypes,
    Put.list (Put.opt Put.str) t.domainTypes, Put.list Put.bool t.domainElem,
    Put.list Put.str t.inherits, Put.list Put.i16 t.attnums, Put.i16 t.nextAttnum,
    Put.u8 t.fillfactor, Put.u32 t.nextValueId, Put.list Enc.toastMeta t.toastInfo,
    Put.u64 t.xmin, Enc.partition T t.partition, Enc.bitTypmods t.bitTypmods].flatten

def Enc.createIndex (ix : CreateIndex) : Bytes :=
  [Put.str ix.name, Put.str ix.table, Put.list Put.str ix.columns, Put.bool ix.unique,
    Put.bool ix.internal, Put.list Put.bool ix.desc, Put.list Put.bool ix.nullsFirst,
    Put.list (Put.opt Put.str) ix.exprs, Put.opt Put.str ix.predicate, Put.u64 ix.xmin,
    Put.list (Put.opt Put.str) ix.collates, Put.list (Put.opt Put.str) ix.opclasses,
    Put.bool ix.nullsNotDistinct].flatten

def CheckOption.toU8 : CheckOption → UInt8
  | none => 0
  | cascaded => 1
  | «local» => 2

def Enc.createView (w : CreateView) : Bytes :=
  [Put.str w.name, Put.str w.query, Put.list Put.str w.colAliases, Put.list Put.str w.deps,
    Put.str w.owner, Put.u64 w.xmin, Put.bool w.securityInvoker, Put.u8 w.checkOption.toU8,
    Put.str w.triggers].flatten

def Enc.rangeDef (r : UInt8 × Bool) : Bytes := [Put.u8 r.1, Put.bool r.2].flatten

def Enc.createType (t : CreateType) : Bytes :=
  [Put.str t.name, Put.opt Put.str t.likeBase, Put.opt (Put.list Enc.compositeField) t.composite,
    Put.opt Enc.domain t.domain, Put.u64 t.xmin, Put.opt Enc.rangeDef t.range].flatten

def Enc.tableCol (c : String × String) : Bytes := [Put.str c.1, Put.str c.2].flatten

def Enc.createFunction (f : CreateFunction) : Bytes :=
  [Put.str f.name, Put.list (Put.opt Put.str) f.argNames, Put.list Put.str f.argTypes,
    Put.str f.retType, Put.bool f.returnsSet, Put.u8 f.lang, Put.str f.body, Put.u8 f.volatility,
    Put.bool f.strict, Put.bool f.securityDefiner, Put.bool f.isProcedure,
    Put.list Enc.tableCol f.tableCols, Put.u64 f.xmin, Put.list Put.u8 f.argModes].flatten

/-- The deleted rows are written with the ids beside them, as far as both go. -/
def Enc.deletedRows (ids : List UInt64) (oldRows : List WalRow) : Bytes :=
  Put.len ids.length ++ (ids.zip oldRows).flatMap fun p => Enc.walRow T { p.2 with id := p.1 }

def Enc.record : WalRecord E → Bytes
  | .createTable t => 1 :: Enc.createTable T t
  | .insertRows table rows => 2 :: [Put.str table, Put.list (Enc.walRow T) rows].flatten
  | .dropTable name xmax => 3 :: [Put.str name, Put.u64 xmax].flatten
  | .deleteRows table ids oldRows xmax =>
    4 :: [Put.str table, Enc.deletedRows T ids oldRows, Put.u64 xmax].flatten
  | .updateRows table old new xmax =>
    18 :: [Put.str table, Put.list (Enc.walRow T) old, Put.list (Enc.walRow T) new,
      Put.u64 xmax].flatten
  | .createIndex ix => 5 :: Enc.createIndex ix
  | .dropIndex name xmax => 6 :: [Put.str name, Put.u64 xmax].flatten
  | .alterTable t => 7 :: Enc.alterTable T t
  | .createView w => 8 :: Enc.createView w
  | .dropView name xmax => 9 :: [Put.str name, Put.u64 xmax].flatten
  | .alterViewTriggers name triggers xmin =>
    34 :: [Put.str name, Put.str triggers, Put.u64 xmin].flatten
  | .createSequence name seq xmin => 10 :: [Put.str name, Enc.sequence seq, Put.u64 xmin].flatten
  | .dropSequence name xmax => 11 :: [Put.str name, Put.u64 xmax].flatten
  | .alterSequence name seq xmin => 12 :: [Put.str name, Enc.sequence seq, Put.u64 xmin].flatten
  | .seqAdvance name lastValue isCalled =>
    13 :: [Put.str name, Put.i64 lastValue, Put.bool isCalled].flatten
  | .createRole name role xmin => 14 :: [Put.str name, Enc.walRole role, Put.u64 xmin].flatten
  | .dropRole name xmax => 15 :: [Put.str name, Put.u64 xmax].flatten
  | .alterRole name role xmin => 16 :: [Put.str name, Enc.walRole role, Put.u64 xmin].flatten
  | .dbAcl acl xmin => 17 :: [Put.list Enc.acl acl, Put.u64 xmin].flatten
  | .defaultAcls rules xmin => 30 :: [Put.list Enc.defaultAcl rules, Put.u64 xmin].flatten
  | .replSlotCreate name plugin slotType restartLsn =>
    19 :: [Put.str name, Put.str plugin, Put.str slotType, Put.u64 restartLsn].flatten
  | .replSlotDrop name => 20 :: [Put.str name].flatten
  | .replSlotFlush name restartLsn confirmedFlushLsn =>
    21 :: [Put.str name, Put.u64 restartLsn, Put.u64 confirmedFlushLsn].flatten
  | .createType t => 22 :: Enc.createType t
  | .dropType name xmax => 23 :: [Put.str name, Put.u64 xmax].flatten
  | .createFunction f => 24 :: Enc.createFunction f
  | .dropFunction name argTypes argModes xmax =>
    25 :: [Put.str name, Put.list Put.str argTypes, Put.list Put.u8 argModes,
      Put.u64 xmax].flatten
  | .createOperator name defs xmin =>
    26 :: [Put.str name, Put.list Enc.operDef defs, Put.u64 xmin].flatten
  | .dropOperator name xmax => 27 :: [Put.str name, Put.u64 xmax].flatten
  | .setToastRelid name toastRelid xmin =>
    28 :: [Put.str name, Put.u32 toastRelid, Put.u64 xmin].flatten
  | .createPublication name pub xmin =>
    31 :: [Put.str name, Enc.publication pub, Put.u64 xmin].flatten
  | .alterPublication name pub xmin =>
    33 :: [Put.str name, Enc.publication pub, Put.u64 xmin].flatten
  | .dropPublication name xmax => 32 :: [Put.str name, Put.u64 xmax].flatten

/-! ## Reading -/

def CheckOption.fromU8 (b : UInt8) : CheckOption :=
  match b.toNat with
  | 0 => none
  | 2 => «local»
  | _ => cascaded

namespace Dec

open Reader

def createTable (stack : Nat) : Reader (WalRecord E) := do
  let name ← str
  let columns ← columns
  let constraints ← str
  let owner ← str
  let acl ← list acl
  let colAcl ← list colAcl
  let oid ← u32
  let toastRelid ← u32
  let colCompression ← list u8
  let compositeTypes ← list (opt str)
  let domainTypes ← list (opt str)
  let domainElem ← list bool
  let inherits ← list str
  let attnums ← list i16
  let nextAttnum ← i16
  let fillfactor ← u8
  let xmin ← u64
  let partition ← since 21 none (partition T stack)
  let bitTypmods ← since 23 [] bitTypmods
  return .createTable ⟨name, columns, constraints, owner, acl, colAcl, oid, toastRelid,
    colCompression, compositeTypes, domainTypes, domainElem, inherits, attnums, nextAttnum,
    fillfactor, partition, bitTypmods, xmin⟩

def alterTable (stack : Nat) : Reader (WalRecord E) := do
  let name ← str
  let columns ← columns
  let constraints ← str
  let copyRows ← bool
  let owner ← str
  let acl ← list acl
  let colAcl ← list colAcl
  let oid ← u32
  let toastRelid ← u32
  let toastTarget ← u32
  let colStorage ← list u8
  let colCompression ← list u8
  let compositeTypes ← list (opt str)
  let domainTypes ← list (opt str)
  let domainElem ← list bool
  let inherits ← list str
  let attnums ← list i16
  let nextAttnum ← i16
  let fillfactor ← u8
  let nextValueId ← u32
  let toastInfo ← list toastMeta
  let xmin ← u64
  let partition ← since 21 none (partition T stack)
  let bitTypmods ← since 23 [] bitTypmods
  return .alterTable ⟨name, columns, constraints, copyRows, owner, acl, colAcl, oid, toastRelid,
    toastTarget, colStorage, colCompression, compositeTypes, domainTypes, domainElem, inherits,
    attnums, nextAttnum, fillfactor, nextValueId, toastInfo, partition, bitTypmods, xmin⟩

def createIndex : Reader (WalRecord E) := do
  let name ← str
  let table ← str
  let columns ← list str
  let unique ← bool
  let internal ← bool
  let desc ← list bool
  let nullsFirst ← list bool
  let exprs ← list (opt str)
  let predicate ← opt str
  let xmin ← u64
  let collates ← since 28 [] (list (opt str))
  let opclasses ← since 28 [] (list (opt str))
  let nullsNotDistinct ← since 30 false bool
  return .createIndex ⟨name, table, columns, unique, internal, desc, nullsFirst, exprs, predicate,
    collates, opclasses, nullsNotDistinct, xmin⟩

def createView : Reader (WalRecord E) := do
  let name ← str
  let query ← str
  let colAliases ← list str
  let deps ← list str
  let owner ← str
  let xmin ← u64
  let securityInvoker ← since 25 false bool
  let checkOption ← since 25 CheckOption.none (CheckOption.fromU8 <$> u8)
  let triggers ← since 33 "" str
  return .createView ⟨name, query, colAliases, deps, owner, securityInvoker, checkOption, triggers,
    xmin⟩

def rangeDef : Reader (UInt8 × Bool) := do
  let code ← u8
  let multi ← bool
  return (code, multi)

def createType : Reader (WalRecord E) := do
  let name ← str
  let likeBase ← opt str
  let composite ← opt (list compositeField)
  let domain ← opt domain
  let xmin ← u64
  let range ← since 22 none (opt rangeDef)
  return .createType ⟨name, likeBase, composite, domain, range, xmin⟩

def tableCol : Reader (String × String) := do
  let cn ← str
  let ct ← str
  return (cn, ct)

def createFunction : Reader (WalRecord E) := do
  let name ← str
  let argNames ← list (opt str)
  let argTypes ← list str
  let retType ← str
  let returnsSet ← bool
  let lang ← u8
  let body ← str
  let volatility ← u8
  let strict ← bool
  let securityDefiner ← since 26 false bool
  let isProcedure ← since 26 false bool
  let tableCols ← since 29 [] (list tableCol)
  let xmin ← u64
  let argModes ← since 31 [] (list u8)
  return .createFunction ⟨name, argNames, argTypes, retType, returnsSet, lang, body, volatility,
    strict, securityDefiner, isProcedure, tableCols, argModes, xmin⟩

/-- The records of a name and a transaction id. -/
def named (record : String → UInt64 → WalRecord E) : Reader (WalRecord E) := do
  let name ← str
  let xid ← u64
  return record name xid

/-- What follows the tag of a record. -/
def recordOf (stack : Nat) (tag : UInt8) : Reader (WalRecord E) :=
  match tag.toNat with
  | 1 => createTable T stack
  | 2 => do
    let table ← str
    let rows ← list (walRow T stack)
    return .insertRows table rows
  | 3 => named .dropTable
  | 4 => do
    let table ← str
    let rows ← list (walRow T stack)
    let xmax ← u64
    return .deleteRows table (rows.map (·.id)) rows xmax
  | 5 => createIndex
  | 6 => named .dropIndex
  | 7 => alterTable T stack
  | 8 => createView
  | 9 => named .dropView
  | 10 => do
    let name ← str
    let seq ← sequence
    let xmin ← u64
    return .createSequence name seq xmin
  | 11 => named .dropSequence
  | 12 => do
    let name ← str
    let seq ← sequence
    let xmin ← u64
    return .alterSequence name seq xmin
  | 13 => do
    let name ← str
    let lastValue ← i64
    let isCalled ← bool
    return .seqAdvance name lastValue isCalled
  | 14 => do
    let name ← str
    let role ← walRole
    let xmin ← u64
    return .createRole name role xmin
  | 15 => named .dropRole
  | 16 => do
    let name ← str
    let role ← walRole
    let xmin ← u64
    return .alterRole name role xmin
  | 17 => do
    let acl ← list acl
    let xmin ← u64
    return .dbAcl acl xmin
  | 18 => do
    let table ← str
    let old ← list (walRow T stack)
    let new ← list (walRow T stack)
    let xmax ← u64
    return .updateRows table old new xmax
  | 19 => do
    let name ← str
    let plugin ← str
    let slotType ← str
    let restartLsn ← u64
    return .replSlotCreate name plugin slotType restartLsn
  | 20 => return .replSlotDrop (← str)
  | 21 => do
    let name ← str
    let restartLsn ← u64
    let confirmedFlushLsn ← u64
    return .replSlotFlush name restartLsn confirmedFlushLsn
  | 22 => createType
  | 23 => named .dropType
  | 24 => createFunction
  | 25 => do
    let name ← str
    let argTypes ← list str
    let argModes ← since 32 [] (list u8)
    let xmax ← u64
    return .dropFunction name argTypes argModes xmax
  | 26 => do
    let name ← str
    let defs ← list operDef
    let xmin ← u64
    return .createOperator name defs xmin
  | 27 => named .dropOperator
  | 28 => do
    let name ← str
    let toastRelid ← u32
    let xmin ← u64
    return .setToastRelid name toastRelid xmin
  | 30 => do
    let rules ← list defaultAcl
    let xmin ← u64
    return .defaultAcls rules xmin
  | 31 => do
    let name ← str
    let pub ← publication
    let xmin ← u64
    return .createPublication name pub xmin
  | 32 => named .dropPublication
  | 33 => do
    let name ← str
    let pub ← publication
    let xmin ← u64
    return .alterPublication name pub xmin
  | 34 => do
    let name ← str
    let triggers ← str
    let xmin ← u64
    return .alterViewTriggers name triggers xmin
  | _ => fail ("unknown record tag " ++ toString tag)

def record (stack : Nat) : Reader (WalRecord E) := do
  let tag ← u8
  recordOf T stack tag

end Dec

/-! ## What is read back -/

def CreateType.Storable (t : CreateType) : Prop :=
  (∀ fields ∈ t.composite, ∀ f ∈ fields, f.2.1.Storable) ∧ ∀ d ∈ t.domain, d.Storable

/-- The record is read back: its column types, rows and partition metadata are, and the rows of a
`DELETE` carry the ids beside them. -/
def WalRecord.Storable (stack : Nat) : WalRecord E → Prop
  | createTable t => Columns.Storable t.columns ∧ ∀ i ∈ t.partition, i.Storable T stack
  | alterTable t => Columns.Storable t.columns ∧ ∀ i ∈ t.partition, i.Storable T stack
  | insertRows _ rows => ∀ r ∈ rows, r.Storable T stack
  | deleteRows _ ids oldRows _ => oldRows.map (·.id) = ids ∧ ∀ r ∈ oldRows, r.Storable T stack
  | updateRows _ old new _ => (∀ r ∈ old, r.Storable T stack) ∧ ∀ r ∈ new, r.Storable T stack
  | createType t => t.Storable
  | _ => True

end Encoding
