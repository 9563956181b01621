-- SUMMARY: Partitioned tables: keys of rows, the way down to a leaf, and the bounds on the way up.
import Rustgres.Partition.Bounds

/-!
# Routing

Tables name their parent and their children. A row is carried between tables by the names of their
columns, and each table evaluates its own key. The recursion has fuel; it runs out where the code
does not terminate.
-/

namespace Partition

variable {V E T L : Type}

/-! ## Tables -/

inductive PartKey (E : Type) where
  | col (idx : Nat)
  | expr (e : E)

/-- `bound` is relative to the parent. A table that is itself partitioned holds no rows, even
without children. -/
structure PartitionInfo (V E : Type) where
  method : PartMethod
  key : List (PartKey E)
  bound : Option (PartBound V)
  isDefault : Bool
  parent : Option String
  children : List String
  isPartitioned : Bool

/-- The values of the row are of the types of the columns, up to NULLs. -/
def RowTyped (sem : KeySem V E T L) (cols : Cols T) (row : Row V) : Prop :=
  List.Forall₂ (fun c v => ∀ w ∈ v, sem.typeOf w = c.2) cols row

/-- What a table does to its rows: generated columns, and `BEFORE` row triggers, which may change a
row or drop it. -/
structure Hooks (sem : KeySem V E T L) (cols : Cols T) where
  generate : Row V → Except ExecError (Row V)
  beforeInsert : Row V → Except ExecError (Option (Row V))
  beforeUpdate : Row V → Row V → Except ExecError (Option (Row V))
  generate_typed : ∀ row new, RowTyped sem cols row → generate row = .ok new → RowTyped sem cols new
  beforeInsert_typed : ∀ row new, RowTyped sem cols row → beforeInsert row = .ok (some new) →
    RowTyped sem cols new
  beforeUpdate_typed : ∀ old row new, RowTyped sem cols row → beforeUpdate old row = .ok (some new) →
    RowTyped sem cols new

/-- No generated columns and no triggers. -/
def Hooks.none (sem : KeySem V E T L) (cols : Cols T) : Hooks sem cols where
  generate row := .ok row
  beforeInsert row := .ok (some row)
  beforeUpdate _ row := .ok (some row)
  generate_typed _ _ h e := by
    cases e
    exact h
  beforeInsert_typed _ _ h e := by
    cases e
    exact h
  beforeUpdate_typed _ _ _ h e := by
    cases e
    exact h

structure Table (sem : KeySem V E T L) where
  columns : Cols T
  nodup : (columns.map Prod.fst).Nodup
  hooks : Hooks sem columns
  partition : Option (PartitionInfo V E)
  rows : List (Row V)

/-- The tables that the session sees. -/
abbrev Db (sem : KeySem V E T L) := String → Option (Table sem)

variable {sem : KeySem V E T L}

def Db.put (db : Db sem) (name : String) (t : Table sem) : Db sem :=
  Function.update db name (some t)

/-! ## Errors -/

/-- The connection is lost where the code unwraps a missing value. -/
def panicked : ExecError := execError "XX000" "called unwrap on a None value"

def stackExceeded : ExecError := execError "54001" "stack depth limit exceeded"

def noPartition (table : String) : ExecError :=
  execError "23514" ("no partition of relation \"" ++ table ++ "\" found for row")

def violatesPartition (table : String) : ExecError :=
  execError "23514" ("new row for relation \"" ++ table ++ "\" violates partition constraint")

/-! ## Rows of other tables -/

/-- The value of the named column, or NULL. -/
def valueOf (cols : Cols T) (row : Row V) (name : String) : Option V :=
  (cols.findIdx? fun c => c.1 = name).bind fun i => (row[i]?).join

/-- The row in the order of other columns, by name. -/
def remapRow (fromCols toCols : Cols T) (row : Row V) : Row V :=
  toCols.map fun c => valueOf fromCols row c.1

def PartKey.eval (sem : KeySem V E T L) (table : String) (cols : Cols T) (row : Row V) :
    PartKey E → Except ExecError (Option V)
  | .col idx => .ok (row[idx]?).join
  | .expr e => sem.evalKey e table cols row

def evalTablePartKey (sem : KeySem V E T L) (table : String) (pinfo : PartitionInfo V E)
    (cols : Cols T) (row : Row V) : Except ExecError (Row V) :=
  pinfo.key.mapM (PartKey.eval sem table cols row)

/-! ## The way down -/

variable (db : Db sem)

def partitionOf (name : String) : Option (PartitionInfo V E) := do
  let t ← db name
  t.partition

/-- A child with its own bound accepts the key. -/
def explicitAccepts (pinfo : PartitionInfo V E) (key : Row V) (child : String) : Bool :=
  match partitionOf db child with
  | some cinfo => !cinfo.isDefault && cinfo.bound.any fun b => boundContains sem pinfo.method b key
  | none => false

def explicitSiblingAccepts (pinfo : PartitionInfo V E) (except : String) (key : Row V) : Bool :=
  pinfo.children.any fun child => child ≠ except && explicitAccepts db pinfo key child

/-- The child accepts the key: by its bound, or as the default partition that takes what no sibling
accepts. -/
def accepts (pinfo : PartitionInfo V E) (key : Row V) (child : String)
    (cinfo : PartitionInfo V E) : Bool :=
  if cinfo.isDefault then !explicitSiblingAccepts db pinfo child key
  else cinfo.bound.any fun b => boundContains sem pinfo.method b key

/-- The first child of the pass that accepts the key. -/
def findChild (pinfo : PartitionInfo V E) (key : Row V) (defaultPass : Bool) : Option String :=
  pinfo.children.find? fun child =>
    (partitionOf db child).any fun cinfo =>
      cinfo.isDefault = defaultPass && accepts db pinfo key child cinfo

def findPartitionLeaf : Nat → String → PartitionInfo V E → Cols T → Row V → Except ExecError String
  | 0, _, _, _, _ => .error stackExceeded
  | fuel + 1, table, pinfo, cols, row => do
    let key ← evalTablePartKey sem table pinfo cols row
    match (findChild db pinfo key false).orElse fun _ => findChild db pinfo key true with
    | none => .error (noPartition table)
    | some child =>
      match db child with
      | none => .error panicked
      | some ct =>
        match ct.partition with
        | none => .error panicked
        | some cinfo =>
          if cinfo.children.isEmpty then
            if cinfo.isPartitioned then .error (noPartition child) else .ok child
          else findPartitionLeaf fuel child cinfo ct.columns (remapRow cols ct.columns row)

/-! ## The way up -/

/-- The row satisfies the bound of the current table and of all above it. -/
def checkBounds (leaf : String) :
    Nat → String → PartitionInfo V E → Cols T → Row V → Except ExecError Unit
  | 0, _, _, _, _ => .error stackExceeded
  | fuel + 1, cur, pinfo, cols, row =>
    match pinfo.parent with
    | none => .error panicked
    | some parent =>
      match db parent with
      | none => .error panicked
      | some pt =>
        match pt.partition with
        | none => .error panicked
        | some ppinfo => do
          let prow := remapRow cols pt.columns row
          let key ← evalTablePartKey sem parent ppinfo pt.columns prow
          if accepts db ppinfo key cur pinfo then
            match ppinfo.parent with
            | none => .ok ()
            | some _ => checkBounds leaf fuel parent ppinfo pt.columns prow
          else .error (violatesPartition leaf)

def checkLeafBound (fuel : Nat) (leaf : String) (pinfo : PartitionInfo V E) (cols : Cols T)
    (row : Row V) : Except ExecError Unit :=
  checkBounds db leaf fuel leaf pinfo cols row

/-- Where the new image of a row goes: a leaf cannot give it away, an intermediate table keeps it
below itself. -/
def routeDmlDestination (fuel : Nat) (table : String) (pinfo : PartitionInfo V E) (cols : Cols T)
    (row : Row V) : Except ExecError String :=
  if pinfo.bound.isSome && pinfo.children.isEmpty && !pinfo.isPartitioned then do
    checkLeafBound db fuel table pinfo cols row
    return table
  else if pinfo.bound.isSome then do
    checkLeafBound db fuel table pinfo cols row
    findPartitionLeaf db fuel table pinfo cols row
  else findPartitionLeaf db fuel table pinfo cols row

end Partition
