-- SUMMARY: The write log of a transaction, and the undo of its operations.
import Rustgres.Storage.Database

/-!
# The Write Log

A transaction logs every change it makes. The log is what an abort undoes, newest first, and what
a commit writes to the WAL. An undo applies only if the version is still the transaction's own.
-/

/-- One logged change, with what its undo needs. -/
inductive WriteOp (V K : Type) where
  | insertRow (table : String) (rowId : RowId)
  | deleteRow (table : String) (rowId : RowId) (prevXmax : Xid)
  | updateRow (table : String) (oldId newId : RowId) (prevXmax : Xid) (oldValues : List V)
  | createTable (name : String)
  | dropTable (name : String) (prevXmax : Xid)
  | alterTable (name : String) (prev : Table V) (renamedTo : Option String) (rewriteRows : Bool)
  | createIndex (name : String)
  | dropIndex (name : String) (index : Index K)
  | createType (name : String) (prev : Option ShellType)
  | dropType (name : String) (prev : Option ShellType)
  | createSequence (name : String)
  | dropSequence (name : String) (seq : Sequence)
  | alterSequence (name : String) (prev : Sequence)
  /-- Marks an advance for the WAL; nothing undoes it. -/
  | seqAdvance (name : String)

/-- Put back the version list of a name; an empty list is no entry. -/
def Dict.insertVersions {α : Type} (d : Dict String (List α)) (name : String) (vs : List α) :
    Dict String (List α) :=
  if vs.isEmpty then d.erase name else d.insert name vs

/-- Restore an unversioned entry. -/
def Dict.restore {α : Type} (d : Dict String α) (name : String) : Option α → Dict String α
  | some prev => d.insert name prev
  | none => d.erase name

namespace Database

variable {V K : Type} [DecidableEq K] [SqlValue V K] (db : Database V K)

/-- Remove an inserted version that is still ours, with its index entries. -/
def undoInsert (owns : List Xid) (table : String) (rowId : RowId) : Database V K :=
  match db.removeOwnVersion rowId owns with
  | some (values, db) => db.indexRemoveRow table rowId values
  | none => db

/-- Put back the `xmax` of a version whose deletion is still ours. -/
def undoDelete (owns : List Xid) (rowId : RowId) (prevXmax : Xid) : Database V K :=
  match db.findRowVersion rowId with
  | some v => if v.xmax ∈ owns then db.setRowXmax rowId prevXmax else db
  | none => db

/-- Every index on a table whose rewrite is undone gets its entries from the restored rows. -/
def rebuildIndexes (name : String) (renamedTo : Option String) (rows : List (RowVersion V)) :
    Database V K :=
  { db with
    indexes := db.indexes.mapValues fun _ ix =>
      if (ix.defn.table = name ∨ renamedTo = some ix.defn.table) ∧ ix.defn.droppedXmax = 0 ∧
          ix.defn.plannerUsable then
        rows.foldl (fun ix r => ix.insert (ix.keyFor r.values) r.id) (Index.new ix.defn)
      else ix }

def undoWriteOp (owns : List Xid) : WriteOp V K → Database V K
  | .insertRow table rowId => db.undoInsert owns table rowId
  | .deleteRow _ rowId prevXmax => db.undoDelete owns rowId prevXmax
  | .updateRow table oldId newId prevXmax _ =>
    (db.undoInsert owns table newId).undoDelete owns oldId prevXmax
  | .createTable name =>
    match db.tables.lookup name with
    | some versions =>
      { db with
        tables := db.tables.insertVersions name
          (swapRemoveFirst (fun t => t.createdXmin ∈ owns) versions) }
    | none => db
  | .dropTable name prevXmax =>
    { db with
      tables := db.tables.update name
        (modifyFirst (fun t => t.droppedXmax ∈ owns) fun t => { t with droppedXmax := prevXmax }) }
  | .alterTable name prev renamedTo rewriteRows =>
    let target := renamedTo.getD name
    let tables := match db.tables.lookup target with
      | some versions =>
        db.tables.insertVersions target (versions.filter fun t => t.createdXmin ∉ owns)
      | none => db.tables
    let tables := tables.insert name ((tables.lookup name).getD [] ++ [prev])
    let db := { db with tables }
    if rewriteRows then db.rebuildIndexes name renamedTo prev.rows else db
  | .createIndex name =>
    match db.indexes.lookup name with
    | some ix =>
      if ix.defn.createdXmin ∈ owns then { db with indexes := db.indexes.erase name } else db
    | none => db
  | .dropIndex name index =>
    match db.indexes.lookup name with
    | some ix =>
      if ix.defn.droppedXmax ∈ owns then { db with indexes := db.indexes.insert name index }
      else db
    | none => db
  | .createType name prev => { db with types := db.types.restore name prev }
  | .dropType name prev => { db with types := db.types.restore name prev }
  | .createSequence name =>
    match db.sequences.lookup name with
    | some versions =>
      { db with
        sequences := db.sequences.insertVersions name
          (versions.filter fun s => s.createdXmin ∉ owns) }
    | none => db
  | .dropSequence name seq =>
    match db.sequences.lookup name with
    | some versions =>
      if versions.any fun s => s.createdXmin = seq.createdXmin ∧ s.droppedXmax ∈ owns then
        { db with
          sequences := db.sequences.update name
            (modifyFirst (fun s => s.createdXmin = seq.createdXmin)
              fun _ => { seq with droppedXmax := 0 }) }
      else db
    | none => db
  | .alterSequence name prev =>
    match db.sequences.lookup name with
    | some versions =>
      let versions := versions.filter fun s => s.createdXmin ∉ owns
      let restored :=
        if versions.any fun s => s.createdXmin = prev.createdXmin then
          modifyFirst (fun s => s.createdXmin = prev.createdXmin) (fun _ => prev) versions
        else versions ++ [prev]
      { db with sequences := db.sequences.insert name restored }
    | none => db
  | .seqAdvance _ => db

end Database

namespace Engine

variable {V K : Type} [DecidableEq K] [SqlValue V K]

def undoWriteOp (eng : Engine V K) (owns : List Xid) (op : WriteOp V K) : Engine V K :=
  { eng with db := eng.db.undoWriteOp owns op }

/-- Undo every change, newest first. -/
def undoAll (eng : Engine V K) (owns : List Xid) (writes : List (WriteOp V K)) : Engine V K :=
  writes.reverse.foldl (fun eng op => eng.undoWriteOp owns op) eng

end Engine
