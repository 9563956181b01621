-- SUMMARY: The database and the engine: lookups, row surgery, index maintenance, unique checks.
import Mathlib.Data.List.Sort
import Rustgres.Storage.Index

/-!
# The Database

Tables, indexes and sequences by name, and the operations that statements, undo and VACUUM are made
of. A table or sequence name has a list of versions; of an index there is one.
-/

/-- The parameters of a sequence. -/
structure SeqParams where
  start : Int
  increment : Int
  minValue : Int
  maxValue : Int
  cycle : Bool
  cache : Int
deriving DecidableEq, Repr

/-- One version of a sequence. `current` is the last value, returned again if it is not called. -/
structure Sequence where
  params : SeqParams
  current : Option Int
  isCalled : Bool
  createdXmin : Xid
  droppedXmax : Xid
deriving DecidableEq, Repr

def SeqVisible (s : Sequence) (snap : Snapshot) (own : Xid) : Prop :=
  StampVisible s.createdXmin s.droppedXmax snap [own]

instance (s : Sequence) (snap : Snapshot) (own : Xid) : Decidable (SeqVisible s snap own) :=
  inferInstanceAs (Decidable (StampVisible ..))

/-- A type in the registry; a shell type has no definition yet. -/
structure ShellType where
  definition : Option String
deriving DecidableEq, Repr

structure Database (V K : Type) where
  tables : Dict String (List (Table V))
  indexes : Dict String (Index K)
  sequences : Dict String (List Sequence)
  types : Dict String ShellType

/-- A table version: its name and its place in the list of the name's versions. -/
abbrev Loc := String × Nat

namespace Database

variable {V K : Type} (db : Database V K)

/-! ## Lookups -/

/-- The position of the first version of `name` that the reader sees. -/
def visiblePos (name : String) (snap : Snapshot) (owns : List Xid) : Option Nat :=
  (db.tables.lookup name).bind (·.findIdx? fun t => TableVisible t snap owns)

def tableAt (loc : Loc) : Option (Table V) :=
  (db.tables.lookup loc.1).bind (·[loc.2]?)

/-- The first version of `name` that the reader sees. -/
def findTable (name : String) (snap : Snapshot) (owns : List Xid) : Option (Table V) :=
  (db.visiblePos name snap owns).bind fun pos => db.tableAt (name, pos)

def modifyAt (loc : Loc) (f : Table V → Table V) : Database V K :=
  { db with tables := db.tables.update loc.1 (·.modify loc.2 f) }

/-- Change the first version of `name` that the reader sees (`find_table_mut`). -/
def modifyTable (name : String) (snap : Snapshot) (owns : List Xid) (f : Table V → Table V) :
    Database V K :=
  match db.visiblePos name snap owns with
  | some pos => db.modifyAt (name, pos) f
  | none => db

/-- The first table version that stores a row version with this id. -/
def rowHome (id : RowId) : Option Loc :=
  db.tables.entries.findSome? fun e =>
    (e.2.findIdx? fun t => (t.rowPos id).isSome).map fun pos => (e.1, pos)

/-- The stored row versions, by place. -/
def rowAt (loc : Loc) (id : RowId) : Option (RowVersion V) :=
  (db.tableAt loc).bind (·.row? id)

/-- Any row version with this id, wherever it is. -/
def findRowVersion (id : RowId) : Option (RowVersion V) :=
  (db.rowHome id).bind fun loc => db.rowAt loc id

/-- Write the `xmax` of the row version with this id. -/
def setRowXmax (id : RowId) (x : Xid) : Database V K :=
  match db.rowHome id with
  | some loc => db.modifyAt loc (·.setXmax id x)
  | none => db

/-- Remove the row version `id` if its creator is one of `owns`, and return its values. -/
def removeOwnVersion (id : RowId) (owns : List Xid) : Option (List V × Database V K) := do
  let loc ← db.rowHome id
  let t ← db.tableAt loc
  let pos ← t.rowPos id
  let v ← t.rows[pos]?
  if v.xmin ∈ owns then some (v.values, db.modifyAt loc (·.swapRemoveVersion pos)) else none

def findSequence (name : String) (snap : Snapshot) (own : Xid) : Option Sequence :=
  (db.sequences.lookup name).bind (·.find? fun s => SeqVisible s snap own)

/-- The index called `name`, if the reader sees it. -/
def findIndex (name : String) (snap : Snapshot) (owns : List Xid) : Option (Index K) :=
  (db.indexes.lookup name).filter fun ix => IndexVisible ix.defn snap owns

/-- The indexes of `table` that the reader sees, by name. -/
def visibleIndexesFor (table : String) (snap : Snapshot) (owns : List Xid) : List (Index K) :=
  (db.indexes.values.filter fun ix => ix.defn.table = table ∧ IndexVisible ix.defn snap owns).mergeSort
    fun a b => a.defn.name ≤ b.defn.name

/-! ## Index maintenance -/

variable [DecidableEq K] [SqlValue V K]

/-- Change the indexes of `table` that are not dropped and have entries. -/
def modifyLiveIndexes (table : String) (f : Index K → Index K) : Database V K :=
  { db with indexes := db.indexes.mapValues fun _ ix => if ix.Live table then f ix else ix }

/-- Insert the entries of one row version, whoever may see it. -/
def indexInsertRow (table : String) (id : RowId) (values : List V) : Database V K :=
  db.modifyLiveIndexes table fun ix => ix.insert (ix.keyFor values) id

/-- The variant of WAL replay passes over an index whose columns do not fit the row. -/
def indexInsertRowReplay (table : String) (id : RowId) (values : List V) : Database V K :=
  db.modifyLiveIndexes table fun ix =>
    if ∀ c ∈ ix.defn.cols, c < values.length then ix.insert (ix.keyFor values) id else ix

/-- Remove the entries of a row version that disappears. -/
def indexRemoveRow (table : String) (id : RowId) (values : List V) : Database V K :=
  db.modifyLiveIndexes table fun ix => ix.remove (ix.keyFor values) id

/-! ## Unique checks -/

/-- The row version `id` conflicts with a key of the reader: it is in the table, not deleted by
the reader, and its own or visible. -/
def AliveFor (t : Table V) (id : RowId) (snap : Snapshot) (owns : List Xid) : Prop :=
  ∃ r ∈ t.row? id, r.xmax ∉ owns ∧ (r.xmin ∈ owns ∨ RowVisible r snap owns)

instance (t : Table V) (id : RowId) (snap : Snapshot) (owns : List Xid) :
    Decidable (AliveFor t id snap owns) :=
  inferInstanceAs (Decidable (∃ r ∈ t.row? id, _))

/-- The unique indexes that `values`, in place of the rows `exclude`, would violate. -/
def uniqueViolationsAllMulti (table : String) (values : List V) (exclude : List RowId)
    (snap : Snapshot) (owns : List Xid) : List String :=
  match db.findTable table snap owns with
  | none => []
  | some t =>
    (db.visibleIndexesFor table snap owns).filterMap fun ix =>
      let key := ix.keyFor values
      if ix.defn.unique ∧ ix.defn.plannerUsable ∧ (ix.defn.nullsNotDistinct ∨ !key.hasNull V) ∧
          ∃ id ∈ ix.tree key, id ∉ exclude ∧ AliveFor t id snap owns then
        some ix.defn.name
      else none

/-- The recheck of a commit: the unique index that the inserted row `ownRowId` would violate
together with a row that another transaction has committed. -/
def committedUniqueViolation (txns : TxnManager) (table : String) (values : List V)
    (ownRowId : RowId) (owns : List Xid) : Option String :=
  let fresh := txns.takeSnapshot
  match db.findTable table fresh owns with
  | none => none
  | some t =>
    (db.visibleIndexesFor table fresh owns).findSome? fun ix =>
      let key := ix.keyFor values
      if ix.defn.unique ∧ ix.defn.plannerUsable ∧ (ix.defn.nullsNotDistinct ∨ !key.hasNull V) ∧
          ∃ id ∈ ix.tree key, id ≠ ownRowId ∧
            ∃ r ∈ t.row? id, r.xmin ∉ owns ∧ RowVisible r fresh owns then
        some ix.defn.name
      else none

end Database

/-! ## The engine -/

/-- The database, the transaction manager, and the sequences advanced by the statement under
way. -/
structure Engine (V K : Type) where
  db : Database V K
  txns : TxnManager
  seqAdvanced : List String

/-- Drop the versions that `dead` holds of, and rebuild the index if there were any. -/
def Table.reap {V : Type} (t : Table V) (dead : RowVersion V → Bool) : Table V :=
  let rows := t.rows.filter fun v => !dead v
  if rows.length < t.rows.length then { t with rows }.rebuildRowIndex else t

namespace Engine

variable {V K : Type} [DecidableEq K] [SqlValue V K] (eng : Engine V K)

/-- The versions of the tables called `name` that nobody can see any more. -/
def deadRows (name : String) : List (RowVersion V) :=
  ((eng.db.tables.lookup name).getD []).flatMap fun t =>
    t.rows.filter fun v => eng.txns.DeadToAll v.xmin v.xmax

/-- Remove the dead row versions of one table name, and then their index entries. -/
def vacuumTable (name : String) : Engine V K :=
  let db : Database V K :=
    { eng.db with
      tables := eng.db.tables.update name fun ts =>
        ts.map fun t => t.reap fun v => eng.txns.DeadToAll v.xmin v.xmax }
  { eng with
    db := (eng.deadRows name).foldl (fun db v => db.indexRemoveRow name v.id v.values) db }

end Engine
