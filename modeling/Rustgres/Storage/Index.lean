-- SUMMARY: Secondary indexes: definitions, keys and entries.
import Rustgres.Lib.ListOps
import Rustgres.Storage.Table

/-!
# Indexes

An index maps keys to the ids of the row versions that have them, whoever may see these versions.
-/

/-- The key parts of a row. A part is `none` past the end of the row, where the server panics. -/
abbrev IndexKey (K : Type) := List (Option K)

/-- The definition of an index, stamped like a table version. An expression or partial index is
not `plannerUsable`: it has no entries. -/
structure IndexDef where
  name : String
  table : String
  cols : List Nat
  colNames : List String
  unique : Bool
  createdXmin : Xid
  droppedXmax : Xid
  plannerUsable : Bool
  nullsNotDistinct : Bool
deriving DecidableEq, Repr

structure Index (K : Type) where
  defn : IndexDef
  tree : IndexKey K → List RowId

def IndexVisible (d : IndexDef) (snap : Snapshot) (owns : List Xid) : Prop :=
  StampVisible d.createdXmin d.droppedXmax snap owns

instance (d : IndexDef) (snap : Snapshot) (owns : List Xid) : Decidable (IndexVisible d snap owns) :=
  inferInstanceAs (Decidable (StampVisible ..))

variable {V K : Type} [DecidableEq K] [SqlValue V K]

omit [DecidableEq K] in
/-- The key of `values` under the columns `cols`. -/
def rowKey (cols : List Nat) (values : List V) : IndexKey K :=
  cols.map fun c => values[c]?.map SqlValue.key

/-- NULL key parts never conflict, unless the index says so. -/
def IndexKey.hasNull (V : Type) [SqlValue V K] (key : IndexKey K) : Bool :=
  key.any fun part => part.any (SqlValue.isNull V)

namespace Index

variable (ix : Index K)

/-- An index without entries. -/
def new (d : IndexDef) : Index K := ⟨d, fun _ => []⟩

def keyFor (values : List V) : IndexKey K := rowKey ix.defn.cols values

def insert (key : IndexKey K) (rowId : RowId) : Index K :=
  { ix with tree := Function.update ix.tree key (ix.tree key ++ [rowId]) }

/-- Remove one entry. A key without entries is no key any more. -/
def remove (key : IndexKey K) (rowId : RowId) : Index K :=
  { ix with tree := Function.update ix.tree key (swapRemoveFirst (· = rowId) (ix.tree key)) }

/-- The index is maintained by writes to its table. -/
def Live (table : String) : Prop :=
  ix.defn.table = table ∧ ix.defn.droppedXmax = 0 ∧ ix.defn.plannerUsable

instance (table : String) : Decidable (ix.Live table) :=
  inferInstanceAs (Decidable (_ ∧ _ ∧ _))

end Index
