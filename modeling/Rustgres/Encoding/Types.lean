-- SUMMARY: The values, column types and records of the write-ahead log.
import Rustgres.Lib.Codecs

/-!
# What the Log Holds

Cell values, column types and the logical records, with the fields they carry in the log. Floats are
their bits. Expressions of partition keys are of any type `E`.
-/

open Codecs

namespace Encoding

/-! ## Column types -/

/-- The subtype of a range or multirange type. -/
inductive RangeElem where
  | int4 | int8 | int2 | num | date | ts | tstz | text | float8
deriving DecidableEq, Repr

/-- The element type of an array. -/
inductive ArrayElem where
  | bool | bytea | singleChar | name | smallInt | int | text | char | varchar | bigInt | float4
  | float | date | timestamp | timestamptz | time | timeTz | interval | numeric | uuid | regclass
  | json | record | pgLsn | xid | bit | tid | tsVector | tsQuery
deriving DecidableEq, Repr

inductive ColType where
  | int | bigInt | smallInt | float | float4
  | numeric (typmod : Option (UInt32 × Int32))
  | text
  | char (typmod : Option Int32)
  | varchar (typmod : Option Int32)
  | singleChar | bool | date | timestamp | timestamptz | time | timeTz | interval | bytea | bit
  | uuid | regclass | regproc | oid | inet | name | pgLsn | xid | tid | record | composite | json
  | jsonb | jsonpath
  | range (elem : RangeElem)
  | multirange (elem : RangeElem)
  | tsVector | tsQuery
  | array (elem : ArrayElem)
deriving DecidableEq, Repr

/-! ## Values -/

inductive NumericSpecial where
  | finite | nan | posInf | negInf
deriving DecidableEq, Repr

/-- `unscaled * 10 ^ -scale`; a mantissa that does not fit is in `big`. -/
structure Numeric where
  unscaled : Int
  scale : Int32
  dscale : Int32
  special : NumericSpecial
  big : Option Nat
deriving DecidableEq, Repr

structure BitString where
  bitlen : UInt32
  bytes : Bytes
deriving DecidableEq, Repr

structure Interval where
  months : Int32
  days : Int32
  micros : Int64
deriving DecidableEq

structure TsVectorVal where
  entries : List (String × List (UInt16 × UInt8))
deriving DecidableEq, Repr

inductive TsQueryNode where
  | val (text : String) (weight : UInt8) (pfx : Bool) (id : UInt32)
  | stop
  | not (node : TsQueryNode)
  | and (left right : TsQueryNode)
  | or (left right : TsQueryNode)
  | phrase (left right : TsQueryNode) (distance : UInt16)
deriving DecidableEq, Repr

structure TsQueryVal where
  root : Option TsQueryNode
deriving DecidableEq, Repr

/-- A range with bounds in `V`; a missing bound is infinite, a missing name is the builtin type. -/
structure RangeVal (V : Type) where
  elem : RangeElem
  name : Option String
  empty : Bool
  lo : Option V
  loInc : Bool
  hi : Option V
  hiInc : Bool

structure MultiVal (V : Type) where
  elem : RangeElem
  name : Option String
  ranges : List (RangeVal V)

/-- A string of exactly `n` bytes. -/
abbrev Block (n : Nat) := { b : Bytes // b.length = n }

/-- A cell value. -/
inductive Value where
  | smallInt (i : Int16)
  | int (i : Int64)
  | bigInt (i : Int64)
  | float4 (bits : UInt32)
  | float (bits : UInt64)
  | numeric (n : Numeric)
  | text (s : String)
  | bpChar (s : String)
  | singleChar (b : UInt8)
  | bool (b : Bool)
  | date (days : Int32)
  | timestamp (micros : Int64)
  | timestamptz (micros : Int64)
  | time (micros : Int64)
  | timeTz (micros : Int64) (offset : Int32)
  | interval (iv : Interval)
  | bytea (b : Bytes)
  | uuid (u : Block 16)
  | bitString (b : BitString)
  | pgLsn (lsn : UInt64)
  | jsonb (s : String)
  | jsonpath (s : String)
  | range (r : RangeVal Value)
  | multirange (m : MultiVal Value)
  | tsVector (v : TsVectorVal)
  | tsQuery (q : TsQueryVal)
  | record (fields : List (String × Value))
  | array (elem : ArrayElem) (dims lower : List Int32) (elems : List Value)
  | tid (block offset : UInt32)
  | null

/-! ## Partitions -/

inductive PartMethod where
  | range | list | hash
deriving DecidableEq, Repr

inductive RangeBound where
  | min | max
  | val (v : Value)

inductive PartBound where
  | list (values : List Value) (hasNull : Bool)
  | range (lower upper : List RangeBound)
  | hash (modulus remainder : UInt32)

/-- A column of a partition key, or an expression in its place. -/
structure PartKey (E : Type) where
  col : UInt64
  expr : Option E

structure PartitionInfo (E : Type) where
  method : PartMethod
  key : List (PartKey E)
  bound : Option PartBound
  isDefault : Bool
  parent : Option String
  children : List String
  isPartitioned : Bool

/-! ## Parts of records -/

/-- A row version. -/
structure WalRow where
  id : UInt64
  xmin : UInt64
  values : List Value
  toast : List UInt32
  toastMeta : List (UInt32 × UInt8)

structure WalAcl where
  role : String
  privs : UInt32
  grantOption : UInt32
  grantor : String

structure WalColAcl where
  role : String
  privs : UInt32
  columns : List String
  grantOption : UInt32
  grantor : String

structure WalVerifier where
  iterations : UInt32
  salt : Bytes
  storedKey : Block 32
  serverKey : Block 32

structure WalMembership where
  role : String
  grantor : String
  admin : Bool
  inherit : Bool
  set : Bool

structure WalRole where
  password : Option WalVerifier
  canLogin : Bool
  superuser : Bool
  connlimit : Int32
  memberships : List WalMembership
  validUntil : Option String
  bypassrls : Bool
  inherit : Bool
  createrole : Bool
  createdb : Bool
  replication : Bool

structure WalDefaultAcl where
  creator : String
  kind : UInt8
  grantee : String
  privs : UInt32
  schema : String

structure WalSequence where
  name : String
  seqType : UInt8
  start : Int64
  increment : Int64
  minValue : Int64
  maxValue : Int64
  cycle : Bool
  cache : Int64
  current : Int64
  currentIsSet : Bool
  isCalled : Bool
  owner : String
  acl : List WalAcl
  ownedBy : Option (String × String × Option UInt64)

structure WalDomain where
  base : ColType
  baseNamed : Option String
  baseDomain : Option String
  checks : String
  notNull : Bool
  default : String

structure WalOperDef where
  procedure : String
  leftarg : Option String
  rightarg : Option String
  commutator : Option String
  negator : Option String
  hashes : Bool
  merges : Bool

structure WalPublication where
  oid : UInt32
  comment : Option String
  owner : String
  allTables : Bool
  allSequences : Bool
  exceptTables : List String
  tables : List String
  schemas : List String
  pubinsert : Bool
  pubupdate : Bool
  pubdelete : Bool
  pubtruncate : Bool
  viaPartitionRoot : Bool
  publishGeneratedColumns : String
  specs : List (String × Option (List String) × Option String)

inductive CheckOption where
  | none | local | cascaded
deriving DecidableEq, Repr

/-- The columns of a table with their types. -/
abbrev Columns := List (String × ColType)

/-- The declared bit length of a column, and whether it varies. -/
abbrev BitTypmods := List (Option (Int32 × Bool))

structure CreateTable (E : Type) where
  name : String
  columns : Columns
  constraints : String
  owner : String
  acl : List WalAcl
  colAcl : List WalColAcl
  oid : UInt32
  toastRelid : UInt32
  colCompression : Bytes
  compositeTypes : List (Option String)
  domainTypes : List (Option String)
  domainElem : List Bool
  inherits : List String
  attnums : List Int16
  nextAttnum : Int16
  fillfactor : UInt8
  partition : Option (PartitionInfo E)
  bitTypmods : BitTypmods
  xmin : UInt64

structure AlterTable (E : Type) where
  name : String
  columns : Columns
  constraints : String
  copyRows : Bool
  owner : String
  acl : List WalAcl
  colAcl : List WalColAcl
  oid : UInt32
  toastRelid : UInt32
  toastTarget : UInt32
  colStorage : Bytes
  colCompression : Bytes
  compositeTypes : List (Option String)
  domainTypes : List (Option String)
  domainElem : List Bool
  inherits : List String
  attnums : List Int16
  nextAttnum : Int16
  fillfactor : UInt8
  nextValueId : UInt32
  toastInfo : List (UInt32 × UInt8)
  partition : Option (PartitionInfo E)
  bitTypmods : BitTypmods
  xmin : UInt64

structure CreateIndex where
  name : String
  table : String
  columns : List String
  unique : Bool
  internal : Bool
  desc : List Bool
  nullsFirst : List Bool
  exprs : List (Option String)
  predicate : Option String
  collates : List (Option String)
  opclasses : List (Option String)
  nullsNotDistinct : Bool
  xmin : UInt64

structure CreateView where
  name : String
  query : String
  colAliases : List String
  deps : List String
  owner : String
  securityInvoker : Bool
  checkOption : CheckOption
  triggers : String
  xmin : UInt64

structure CreateType where
  name : String
  likeBase : Option String
  composite : Option (List (String × ColType × Option String))
  domain : Option WalDomain
  range : Option (UInt8 × Bool)
  xmin : UInt64

structure CreateFunction where
  name : String
  argNames : List (Option String)
  argTypes : List String
  retType : String
  returnsSet : Bool
  lang : UInt8
  body : String
  volatility : UInt8
  strict : Bool
  securityDefiner : Bool
  isProcedure : Bool
  tableCols : List (String × String)
  argModes : Bytes
  xmin : UInt64

/-! ## Records -/

inductive WalRecord (E : Type) where
  | createTable (t : CreateTable E)
  | insertRows (table : String) (rows : List WalRow)
  | dropTable (name : String) (xmax : UInt64)
  | deleteRows (table : String) (ids : List UInt64) (oldRows : List WalRow) (xmax : UInt64)
  | updateRows (table : String) (old new : List WalRow) (xmax : UInt64)
  | createIndex (ix : CreateIndex)
  | dropIndex (name : String) (xmax : UInt64)
  | alterTable (t : AlterTable E)
  | createView (v : CreateView)
  | dropView (name : String) (xmax : UInt64)
  | alterViewTriggers (name triggers : String) (xmin : UInt64)
  | createSequence (name : String) (seq : WalSequence) (xmin : UInt64)
  | dropSequence (name : String) (xmax : UInt64)
  | alterSequence (name : String) (seq : WalSequence) (xmin : UInt64)
  | seqAdvance (name : String) (lastValue : Int64) (isCalled : Bool)
  | createRole (name : String) (role : WalRole) (xmin : UInt64)
  | dropRole (name : String) (xmax : UInt64)
  | alterRole (name : String) (role : WalRole) (xmin : UInt64)
  | dbAcl (acl : List WalAcl) (xmin : UInt64)
  | defaultAcls (rules : List WalDefaultAcl) (xmin : UInt64)
  | replSlotCreate (name plugin slotType : String) (restartLsn : UInt64)
  | replSlotDrop (name : String)
  | replSlotFlush (name : String) (restartLsn confirmedFlushLsn : UInt64)
  | createType (t : CreateType)
  | dropType (name : String) (xmax : UInt64)
  | createFunction (f : CreateFunction)
  | dropFunction (name : String) (argTypes : List String) (argModes : Bytes) (xmax : UInt64)
  | createOperator (name : String) (defs : List WalOperDef) (xmin : UInt64)
  | dropOperator (name : String) (xmax : UInt64)
  | setToastRelid (name : String) (toastRelid : UInt32) (xmin : UInt64)
  | createPublication (name : String) (pub : WalPublication) (xmin : UInt64)
  | alterPublication (name : String) (pub : WalPublication) (xmin : UInt64)
  | dropPublication (name : String) (xmax : UInt64)

/-! ## Texts -/

/-- The text functions of the values that are logged as text, and their parsers. -/
structure TextForms (E : Type) where
  numericToText : Numeric → String
  parseNumeric : String → Except Fault Numeric
  rangeToText : RangeVal Value → String
  parseRange : RangeElem → Option String → String → Except Fault (RangeVal Value)
  multirangeToText : MultiVal Value → String
  parseMultirange : RangeElem → Option String → String → Except Fault (MultiVal Value)
  tsvectorToText : TsVectorVal → String
  parseTsvector : String → Except Fault TsVectorVal
  tsqueryToText : TsQueryVal → String
  parseTsquery : String → Except Fault TsQueryVal
  exprToText : E → String
  parsePartitionExpr : String → Option E

end Encoding
