-- SUMMARY: INSERT, COPY and UPDATE on partitioned tables, and the statements of a session.
import Rustgres.Partition.Ddl

/-!
# Rows of Partitioned Tables

Inserted rows are routed to leaves, whose own triggers may still change them, and are checked there.
An update checks and routes the new image of each row before its generated columns are computed and
the triggers fire.
-/

namespace Partition

variable {V E T L : Type} {sem : KeySem V E T L}

/-! ## INSERT -/

/-- The values of a VALUES row, converted to the types of the columns. -/
def coerceRow (sem : KeySem V E T L) : Cols T → Row V → Except ExecError (Row V)
  | [], [] => .ok []
  | c :: cols, v :: row => do
    let v ← sem.coerceValue v c.2
    let row ← coerceRow sem cols row
    return v :: row
  | [], _ :: _ => .error (execError "42601" "INSERT has more expressions than target columns")
  | _ :: _, [] => .error (execError "42601" "INSERT has more target columns than expressions")

/-- The rows that a row trigger lets through. -/
def fireRows (fire : Row V → Except ExecError (Option (Row V))) (rows : List (Row V)) :
    Except ExecError (List (Row V)) := do
  let fired ← rows.mapM fire
  return fired.filterMap id

/-- A routed row after the triggers of its leaf, checked against the bounds again. -/
def fireLeaf (db : Db sem) (fuel : Nat) (routed : String × Row V) :
    Except ExecError (Option (String × Row V)) :=
  match db routed.1 with
  | none => .error panicked
  | some lt =>
    match lt.partition with
    | none => .error panicked
    | some linfo => do
      match ← lt.hooks.beforeInsert routed.2 with
      | none => return none
      | some row =>
        checkLeafBound db fuel routed.1 linfo lt.columns row
        return some (routed.1, row)

def routeRow (db : Db sem) (fuel : Nat) (table : String) (pinfo : PartitionInfo V E) (cols : Cols T)
    (row : Row V) : Except ExecError (String × Row V) := do
  let leaf ← findPartitionLeaf db fuel table pinfo cols row
  match db leaf with
  | none => .error panicked
  | some lt => return (leaf, remapRow cols lt.columns row)

/-- Rows for a partition must be in its bounds. -/
def checkTarget (db : Db sem) (fuel : Nat) (table : String) (pinfo : PartitionInfo V E)
    (cols : Cols T) (rows : List (Row V)) : Except ExecError Unit :=
  if pinfo.bound.isSome then rows.forM (checkLeafBound db fuel table pinfo cols) else .ok ()

/-- Every row with the table that stores it. -/
def routePartitionInserts (db : Db sem) (fuel : Nat) (table : String) (t : Table sem)
    (rows : List (Row V)) : Except ExecError (List (String × Row V)) :=
  match t.partition with
  | none => .ok (rows.map (table, ·))
  | some pinfo =>
    if pinfo.bound.isSome && pinfo.isPartitioned && pinfo.children.isEmpty then
      .error (noPartition table)
    else do
      checkTarget db fuel table pinfo t.columns rows
      if pinfo.bound.isSome && pinfo.children.isEmpty then return rows.map (table, ·)
      else
        let routed ← rows.mapM (routeRow db fuel table pinfo t.columns)
        let fired ← routed.mapM (fireLeaf db fuel)
        return fired.filterMap id

def storeRow (db : Db sem) (stored : String × Row V) : Db sem :=
  match db stored.1 with
  | none => db
  | some t => db.put stored.1 { t with rows := t.rows ++ [stored.2] }

def execInsert (db : Db sem) (fuel : Nat) (table : String) (values : List (Row V)) :
    Except ExecError (Db sem) :=
  match db table with
  | none => .error (relationMissing table)
  | some t => do
    let built ← values.mapM fun row => do
      let row ← coerceRow sem t.columns row
      t.hooks.generate row
    let rows ← fireRows t.hooks.beforeInsert built
    let routed ← routePartitionInserts db fuel table t rows
    return routed.foldl storeRow db

/-- COPY goes through the full INSERT path. -/
def copyFromRows (db : Db sem) (fuel : Nat) (table : String) (rows : List (Row V)) :
    Except ExecError (Db sem) :=
  execInsert db fuel table rows

/-! ## UPDATE -/

/-- Conditions and values are functions of the row, in the order of the columns of the target. -/
structure UpdateStmt (V : Type) where
  where_ : Row V → Except ExecError Bool
  sets : List (String × (Row V → Except ExecError (Option V)))

/-- The leaves below the tables of the stack. -/
def collectPartitionLeaves (db : Db sem) : Nat → List String → Except ExecError (List String)
  | 0, _ => .error stackExceeded
  | _ + 1, [] => .ok []
  | fuel + 1, name :: stack =>
    match db name with
    | none => collectPartitionLeaves db fuel stack
    | some t =>
      match t.partition with
      | none => do
        let leaves ← collectPartitionLeaves db fuel stack
        return name :: leaves
      | some pinfo =>
        if pinfo.children.isEmpty then
          if pinfo.isPartitioned then collectPartitionLeaves db fuel stack
          else do
            let leaves ← collectPartitionLeaves db fuel stack
            return name :: leaves
        else collectPartitionLeaves db fuel (pinfo.children.reverse ++ stack)

/-- The tables that an update of the table scans, with their columns. -/
def scannedLeaves (db : Db sem) (fuel : Nat) (table : String) (t : Table sem) :
    Except ExecError (List (String × Cols T)) :=
  match t.partition with
  | none => .ok [(table, t.columns)]
  | some _ => do
    let names ← collectPartitionLeaves db fuel [table]
    let leaves := names.filterMap fun name => (db name).map fun lt => (name, lt.columns)
    return if leaves.isEmpty then [(table, t.columns)] else leaves

/-- Assign one column, the value read from the old row. -/
def assignColumn (sem : KeySem V E T L) (cols : Cols T) (old : Row V) (new : Row V)
    (set : String × (Row V → Except ExecError (Option V))) : Except ExecError (Row V) :=
  match cols.findIdx? (·.1 = set.1) with
  | none => .error (execError "42703" ("column \"" ++ set.1 ++ "\" does not exist"))
  | some i =>
    match cols[i]? with
    | none => .error panicked
    | some c => do
      let v ← set.2 old
      let v ← sem.coerceValue v c.2
      return new.set i v

/-- What becomes of a scanned row. -/
inductive Planned (V : Type) where
  | keep
  | inPlace (new : Row V)
  | move (dst : String) (new : Row V)

/-- The table that gets the new image of a row, with the columns the scan found for it. -/
def destination (db : Db sem) (fuel : Nat) (table : String) (t : Table sem)
    (leaves : List (String × Cols T)) (leaf : String × Cols T) (new : Row V) :
    Except ExecError (String × Cols T) :=
  match t.partition with
  | none => .ok leaf
  | some pinfo => do
    let name ← routeDmlDestination db fuel table pinfo t.columns new
    return (name, ((leaves.find? (·.1 = name)).map Prod.snd).getD t.columns)

/-- The new image in the order of its destination, with its generated columns. -/
def planImage (db : Db sem) (fuel : Nat) (table : String) (t : Table sem)
    (leaves : List (String × Cols T)) (leaf : String × Cols T) (new : Row V) :
    Except ExecError (String × Row V) := do
  let dst ← destination db fuel table t leaves leaf new
  match db dst.1 with
  | none => .error panicked
  | some dt => do
    let image ← dt.hooks.generate (remapRow t.columns dst.2 new)
    return (dst.1, image)

def planRow (db : Db sem) (fuel : Nat) (table : String) (t : Table sem) (stmt : UpdateStmt V)
    (leaves : List (String × Cols T)) (leaf : String × Cols T) (old : Row V) :
    Except ExecError (Planned V) := do
  let values := if leaf.1 = table then old else remapRow leaf.2 t.columns old
  let hit ← stmt.where_ values
  if hit then
    let new ← stmt.sets.foldlM (assignColumn sem t.columns values) values
    let (dst, image) ← planImage db fuel table t leaves leaf new
    return if dst = leaf.1 then .inPlace image else .move dst image
  else return .keep

/-- `BEFORE UPDATE` triggers fire for rows that stay, unless the target has partitions below it. -/
def fireUpdate (t lt : Table sem) (old : Row V) : Planned V → Except ExecError (Planned V)
  | .inPlace new =>
    if t.partition.any fun pinfo => pinfo.isPartitioned && !pinfo.children.isEmpty then
      .ok (.inPlace new)
    else do
      match ← lt.hooks.beforeUpdate old new with
      | some new => return .inPlace new
      | none => return .keep
  | planned => .ok planned

/-- The rows of a leaf after the update, and the rows that leave it. -/
def stayed : Row V × Planned V → Option (Row V)
  | (old, .keep) => some old
  | (_, .inPlace new) => some new
  | (_, .move _ _) => none

def moved : Row V × Planned V → Option (String × Row V)
  | (_, .move dst new) => some (dst, new)
  | _ => none

def planLeaf (db : Db sem) (fuel : Nat) (table : String) (t : Table sem) (stmt : UpdateStmt V)
    (leaves : List (String × Cols T)) (leaf : String × Cols T) :
    Except ExecError (String × List (Row V × Planned V)) :=
  match db leaf.1 with
  | none => .error panicked
  | some lt => do
    let planned ← lt.rows.mapM fun old => do
      let p ← planRow db fuel table t stmt leaves leaf old
      let p ← fireUpdate t lt old p
      return (old, p)
    return (leaf.1, planned)

def applyLeaf (db : Db sem) (plan : String × List (Row V × Planned V)) : Db sem :=
  match db plan.1 with
  | none => db
  | some t => db.put plan.1 { t with rows := plan.2.filterMap stayed }

def execUpdate (db : Db sem) (fuel : Nat) (table : String) (stmt : UpdateStmt V) :
    Except ExecError (Db sem) :=
  match db table with
  | none => .error (relationMissing table)
  | some t => do
    let leaves ← scannedLeaves db fuel table t
    let plans ← leaves.mapM (planLeaf db fuel table t stmt leaves)
    let moves := plans.flatMap fun plan => plan.2.filterMap moved
    return moves.foldl storeRow (plans.foldl applyLeaf db)

/-! ## Statements -/

inductive Stmt (sem : KeySem V E T L) where
  | createTable (name : String) (cols : Cols T)
      (partitionBy : Option (PartMethod × List (PartitionKeyDef E)))
  | createPartitionOf (name parent : String) (bound : PartBoundDef L) (method : PartMethod)
      (keys : List (PartitionKeyDef E))
  | attach (parent child : String) (bound : PartBoundDef L)
  | detach (parent child : String)
  | hooks (table : String) (hooks : (cols : Cols T) → Hooks sem cols)
  | insert (table : String) (values : List (Row V))
  | copy (table : String) (values : List (Row V))
  | update (table : String) (stmt : UpdateStmt V)

/-- Give the table other triggers and generated columns. -/
def setHooks (db : Db sem) (table : String) (hooks : (cols : Cols T) → Hooks sem cols) :
    Except ExecError (Db sem) :=
  match db table with
  | none => .error (relationMissing table)
  | some t => .ok (db.put table { t with hooks := hooks t.columns })

def exec [BEq V] [DecidableEq T] (db : Db sem) (fuel : Nat) : Stmt sem → Except ExecError (Db sem)
  | .createTable name cols partitionBy => createTable db name cols partitionBy
  | .createPartitionOf name parent bound method keys =>
    createPartitionOf db name parent bound method keys
  | .attach parent child bound => attachPartition db parent child bound
  | .detach parent child => detachPartition db parent child
  | .hooks table hooks => setHooks db table hooks
  | .insert table values => execInsert db fuel table values
  | .copy table values => copyFromRows db fuel table values
  | .update table stmt => execUpdate db fuel table stmt

end Partition
