-- SUMMARY: INSERT, UPDATE, DELETE, TRUNCATE and SELECT ... FOR UPDATE.
import Rustgres.Exec.Common

/-!
# Row Statements

Each statement plans on the rows it sees, checks for conflicts, and changes the table only when its
checks have passed. Concurrent writers do not wait for each other: a mark of a running transaction
is written over.
-/

variable {V K : Type}

/-- A `SET` list: the columns and their new values, from the old row. -/
abbrev SetList (V : Type) := List (Nat × (List V → V))

/-- A row statement. Expressions are functions of the row; the candidate rows of an INSERT are
evaluated already, and the tables of a TRUNCATE expanded. -/
inductive RowStmt (V : Type) where
  | insert (table : String) (rows : List (List V))
  | update (table : String) (where_ : List V → Bool) (sets : SetList V)
  | delete (table : String) (where_ : List V → Bool)
  | truncate (tables : List String)
  | select (table : String)
  | selectForUpdate (table : String) (where_ : List V → Bool)

/-- The new row of an UPDATE. -/
def SetList.apply (sets : SetList V) (old : List V) : List V :=
  sets.foldl (fun new s => new.set s.1 (s.2 old)) old

theorem SetList.length_apply (sets : SetList V) (old : List V) :
    (sets.apply old).length = old.length := by
  suffices h : ∀ new : List V,
      (sets.foldl (fun new s => new.set s.1 (s.2 old)) new).length = new.length from h old
  intro new
  induction sets generalizing new with
  | nil => rfl
  | cons s sets ih => simp [ih]

section Checks

variable (eng : Engine V K) (ctx : StmtCtx)

def lockError (table : String) : ExecError :=
  execError "40001" ("could not obtain lock on row in relation \"" ++ table ++ "\"")

def uniqueViolationErr (index : String) : ExecError :=
  execError "23505" ("duplicate key value violates unique constraint \"" ++ index ++ "\"")

def checkRowLock (table : String) (id : RowId) : Except ExecError Unit :=
  match eng.txns.rowLockHolder id with
  | some h => if h ≠ ctx.own ∧ h ∈ eng.txns.active then .error (lockError table) else .ok ()
  | none => .ok ()

/-- A version that was deleted after our snapshot is a conflict, except under READ COMMITTED, which
never sees one. The mark of a running transaction is none. -/
def checkWriteConflict (xmax : Xid) : Except ExecError Unit :=
  if xmax = 0 then .ok ()
  else if eng.txns.XidCommitted xmax then
    match ctx.level with
    | .readCommitted => .ok ()
    | _ => .error (execError "40001" "could not serialize access due to concurrent update")
  else .ok ()

def visibleRows (t : Table V) : List (RowVersion V) :=
  t.rows.filter fun r => RowVisible r ctx.snap ctx.allXids

/-- The rows to change, in table order. Every visible row is checked for a write conflict, and a
row that satisfies the `WHERE` clause for a lock. -/
def planRows (table : String) (where_ : List V → Bool) :
    List (RowVersion V) → Except ExecError (List (RowVersion V))
  | [] => .ok []
  | r :: rs => do
    checkWriteConflict eng ctx r.xmax
    if where_ r.values then
      checkRowLock eng ctx table r.id
      let plan ← planRows table where_ rs
      return r :: plan
    else planRows table where_ rs

end Checks

section Unique

variable [DecidableEq K] [SqlValue V K] (eng : Engine V K) (ctx : StmtCtx)

/-- The unique indexes that the statement sees. -/
def uniqueIndexes (table : String) : List (Index K) :=
  (eng.db.visibleIndexesFor table ctx.snap ctx.allXids).filter fun ix =>
    ix.defn.unique ∧ ix.defn.plannerUsable

/-- Two rows of one statement have the same key of `ix`. -/
def pairConflict (ix : Index K) (values values' : List V) : Prop :=
  (ix.defn.nullsNotDistinct ∨ !(ix.keyFor values).hasNull V) ∧ ix.keyFor values = ix.keyFor values'

instance (ix : Index K) (values values' : List V) : Decidable (pairConflict ix values values') :=
  inferInstanceAs (Decidable (_ ∧ _))

/-- The first unique index under which `values` conflicts with an earlier row of the statement. -/
def seenConflict (table : String) (seen : List (List V)) (values : List V) : Option String :=
  (uniqueIndexes eng ctx table).findSome? fun ix =>
    if ∃ values' ∈ seen, pairConflict ix values values' then some ix.defn.name else none

/-- Every candidate row is checked against the earlier ones and against the indexes. -/
def checkInsertUnique (table : String) (seen : List (List V)) :
    List (List V) → Except ExecError Unit
  | [] => .ok ()
  | values :: rows =>
    match seenConflict eng ctx table seen values with
    | some name => .error (uniqueViolationErr name)
    | none =>
      match eng.db.uniqueViolationsAllMulti table values [] ctx.snap ctx.allXids with
      | name :: _ => .error (uniqueViolationErr name)
      | [] => checkInsertUnique table (seen ++ [values]) rows

/-- The new rows of an UPDATE are checked against each other. -/
def checkUpdateUniquePairs (table : String) (seen : List (List V)) :
    List (List V) → Except ExecError Unit
  | [] => .ok ()
  | values :: rows =>
    match seenConflict eng ctx table seen values with
    | some name => .error (uniqueViolationErr name)
    | none => checkUpdateUniquePairs table (seen ++ [values]) rows

/-- The new rows of an UPDATE are checked against the indexes, without the rows they replace. -/
def checkUpdateUnique (table : String) (exclude : List RowId) :
    List (List V) → Except ExecError Unit
  | [] => .ok ()
  | values :: rows =>
    match eng.db.uniqueViolationsAllMulti table values exclude ctx.snap ctx.allXids with
    | name :: _ => .error (uniqueViolationErr name)
    | [] => checkUpdateUnique table exclude rows

end Unique

section Apply

variable [DecidableEq K] [SqlValue V K] (eng : Engine V K) (ctx : StmtCtx)

/-- `n` fresh row ids. -/
def Engine.allocRowIds (n : Nat) : List RowId × Engine V K :=
  (List.range' eng.txns.nextRowId n,
    { eng with txns := { eng.txns with nextRowId := eng.txns.nextRowId + n } })

/-- The INSERTs, UPDATEs and DELETEs change the table version that the statement sees. -/
def Engine.modifyTable (table : String) (f : Table V → Table V) : Engine V K :=
  { eng with db := eng.db.modifyTable table ctx.snap ctx.allXids f }

/-- Enter versions into the indexes. -/
def Engine.indexRows (table : String) (rows : List (RowId × List V)) : Engine V K :=
  { eng with db := rows.foldl (fun db r => db.indexInsertRow table r.1 r.2) eng.db }

def Table.pushRows (x : Xid) (t : Table V) (rows : List (RowId × List V)) : Table V :=
  rows.foldl (fun t r => t.pushVersion (.plain r.1 r.2 x)) t

def Table.markRows (x : Xid) (t : Table V) (rows : List (RowVersion V)) : Table V :=
  rows.foldl (fun t r => t.setXmax r.id x) t

/-- Mark each old version and push the new one. -/
def Table.replaceRows (x : Xid) (t : Table V) (rows : List (RowVersion V × RowId × List V)) :
    Table V :=
  rows.foldl (fun t r => (t.setXmax r.1.id x).pushVersion (.plain r.2.1 r.2.2 x)) t

def applyRowInserts (table : String) (inserts : List (RowId × List V)) : ExecOut V K :=
  let eng := eng.modifyTable ctx table (·.pushRows ctx.writeXid inserts)
  ⟨eng.indexRows table inserts, inserts.map fun r => .insertRow table r.1, none⟩

def applyRowDeletes (table : String) (plan : List (RowVersion V)) : ExecOut V K :=
  ⟨eng.modifyTable ctx table (·.markRows ctx.writeXid plan),
    plan.map fun r => .deleteRow table r.id r.xmax, none⟩

def applyRowUpdates (table : String) (plan : List (RowVersion V × RowId × List V)) :
    ExecOut V K :=
  let eng := eng.modifyTable ctx table (·.replaceRows ctx.writeXid plan)
  ⟨eng.indexRows table (plan.map Prod.snd),
    plan.map fun r => .updateRow table r.1.id r.2.1 r.1.xmax r.1.values, none⟩

def execInsert (table : String) (rows : List (List V)) : ExecOut V K :=
  match eng.db.findTable table ctx.snap ctx.allXids with
  | none => .fail eng (relationMissing table)
  | some t =>
    if ∃ values ∈ rows, values.length ≠ t.columns.length then
      .fail eng (execError "42601" "INSERT has more expressions than target columns")
    else
      match checkInsertUnique eng ctx table [] rows with
      | .error e => .fail eng e
      | .ok () =>
        let (ids, eng) := eng.allocRowIds rows.length
        applyRowInserts eng ctx table (ids.zip rows)

def execUpdate (table : String) (where_ : List V → Bool) (sets : SetList V) : ExecOut V K :=
  match eng.db.findTable table ctx.snap ctx.allXids with
  | none => .fail eng (relationMissing table)
  | some t =>
    match planRows eng ctx table where_ (visibleRows ctx t) with
    | .error e => .fail eng e
    | .ok plan =>
      let new := plan.map fun r => sets.apply r.values
      let checks := do
        checkUpdateUnique eng ctx table (plan.map RowVersion.id) new
        checkUpdateUniquePairs eng ctx table [] new
      match checks with
      | .error e => .fail eng e
      | .ok () =>
        let (ids, eng) := eng.allocRowIds plan.length
        applyRowUpdates eng ctx table (plan.zip (ids.zip new))

def execDelete (table : String) (where_ : List V → Bool) : ExecOut V K :=
  match eng.db.findTable table ctx.snap ctx.allXids with
  | none => .fail eng (relationMissing table)
  | some t =>
    match planRows eng ctx table where_ (visibleRows ctx t) with
    | .error e => .fail eng e
    | .ok plan => applyRowDeletes eng ctx table plan

/-- The tables are emptied one after the other; a conflict leaves the earlier ones emptied. -/
def truncateTables : Engine V K → List String → ExecOut V K
  | eng, [] => ⟨eng, [], none⟩
  | eng, table :: tables =>
    match (execDelete eng ctx table fun _ => true) with
    | ⟨eng, writes, some e⟩ => ⟨eng, writes, some e⟩
    | ⟨eng, writes, none⟩ =>
      let out := truncateTables eng tables
      ⟨out.eng, writes ++ out.writes, out.error⟩

/-- Every table is looked up before any is emptied. -/
def execTruncate (tables : List String) : ExecOut V K :=
  match tables.find? fun t => (eng.db.findTable t ctx.snap ctx.allXids).isNone with
  | some t => .fail eng (relationMissing t)
  | none => truncateTables ctx eng tables

/-- Lock rows one after the other; a conflict leaves the earlier locks taken. -/
def acquireRowLocks (table : String) : Engine V K → List RowId → ExecOut V K
  | eng, [] => ⟨eng, [], none⟩
  | eng, id :: ids =>
    match eng.txns.tryRowLock id ctx.own with
    | .error _ => ⟨eng, [], some (lockError table)⟩
    | .ok txns => acquireRowLocks table { eng with txns } ids

/-- A read changes nothing; what it sees are the visible rows. -/
def execSelect (table : String) : ExecOut V K :=
  match eng.db.findTable table ctx.snap ctx.allXids with
  | none => .fail eng (relationMissing table)
  | some _ => ⟨eng, [], none⟩

def execSelectForUpdate (table : String) (where_ : List V → Bool) : ExecOut V K :=
  match eng.db.findTable table ctx.snap ctx.allXids with
  | none => .fail eng (relationMissing table)
  | some t =>
    let ids := ((visibleRows ctx t).filter fun r => where_ r.values).map RowVersion.id
    acquireRowLocks ctx table eng ids

def RowStmt.exec (stmt : RowStmt V) : ExecOut V K :=
  match stmt with
  | .insert table rows => execInsert eng ctx table rows
  | .update table where_ sets => execUpdate eng ctx table where_ sets
  | .delete table where_ => execDelete eng ctx table where_
  | .truncate tables => execTruncate eng ctx tables
  | .select table => execSelect eng ctx table
  | .selectForUpdate table where_ => execSelectForUpdate eng ctx table where_

end Apply
