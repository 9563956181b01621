-- SUMMARY: CREATE INDEX and DROP INDEX.
import Rustgres.Exec.Common

/-!
# Index Statements

A new index gets an entry for every stored version of its table, whoever may see it. A dropped one
is only marked: it keeps the entries it had, and the log keeps a copy of it.
-/

variable {V K : Type}

inductive IndexStmt where
  /-- A partial index has a `WHERE` predicate. -/
  | create (name table : String) (columns : List String) (unique nullsNotDistinct isPartial : Bool)
  | drop (names : List String)
deriving DecidableEq, Repr

section

variable [DecidableEq K] [SqlValue V K] (eng : Engine V K) (ctx : StmtCtx)

/-- An entry that could still become visible: it counts unless its version is gone or was deleted
by another transaction that has ended. -/
def LiveEntry (t : Table V) (id : RowId) : Prop :=
  ∃ r ∈ t.row? id, ¬ (r.xmax ≠ 0 ∧ r.xmax ≠ ctx.own ∧ eng.txns.XidCommitted r.xmax)

instance (t : Table V) (id : RowId) : Decidable (LiveEntry eng ctx t id) :=
  inferInstanceAs (Decidable (∃ r ∈ t.row? id, _))

omit [DecidableEq K] in
/-- The entries of a key that rules out a second one. -/
def keyConflict (ix : Index K) (t : Table V) (key : IndexKey K) : Prop :=
  (ix.defn.nullsNotDistinct ∨ !key.hasNull V) ∧
    2 ≤ ((ix.tree key).filter fun id => LiveEntry eng ctx t id).length

instance (ix : Index K) (t : Table V) (key : IndexKey K) :
    Decidable (keyConflict eng ctx ix t key) :=
  inferInstanceAs (Decidable (_ ∧ _))

/-- The entries of every stored version. -/
def Index.build (ix : Index K) (rows : List (RowVersion V)) : Index K :=
  rows.foldl (fun ix r => ix.insert (ix.keyFor r.values) r.id) ix

def createIndexOn (d : IndexDef) (t : Table V) : ExecOut V K :=
  let ix := Index.new d
  let ix := if d.plannerUsable then ix.build t.rows else ix
  if d.plannerUsable ∧ d.unique ∧ ∃ r ∈ t.rows, keyConflict eng ctx ix t (ix.keyFor r.values) then
    .fail eng (execError "23505"
      ("duplicate key value violates unique constraint \"" ++ d.name ++ "\""))
  else
    ⟨{ eng with db := { eng.db with indexes := eng.db.indexes.insert d.name ix } },
      [.createIndex d.name], none⟩

def columnMissing (table col : String) : ExecError :=
  execError "42703" ("column \"" ++ col ++ "\" of relation \"" ++ table ++ "\" does not exist")

def execCreateIndex (name table : String) (columns : List String)
    (unique nullsNotDistinct isPartial : Bool) : ExecOut V K :=
  if (eng.db.findIndex name ctx.snap ctx.allXids).isSome then
    .fail eng (execError "42P07" ("relation \"" ++ name ++ "\" already exists"))
  else
    match eng.db.findTable table ctx.snap ctx.allXids with
    | none => .fail eng (relationMissing table)
    | some t =>
      match columns.find? (· ∉ t.columns) with
      | some col => .fail eng (columnMissing table col)
      | none =>
        if columns = [] then
          .fail eng (execError "42601" "syntax error: index requires at least one column")
        else
          createIndexOn eng ctx
            { name, table, cols := columns.map t.columns.idxOf, colNames := columns, unique
              createdXmin := ctx.writeXid, droppedXmax := 0
              plannerUsable := !isPartial, nullsNotDistinct } t

def indexMissing (name : String) : ExecError :=
  execError "42P01" ("index \"" ++ name ++ "\" does not exist")

/-- Mark the index as dropped. -/
def execDropOneIndex (name : String) : ExecOut V K :=
  match eng.db.findIndex name ctx.snap ctx.allXids with
  | none => .fail eng (indexMissing name)
  | some ix =>
    let indexes := eng.db.indexes.update name fun ix =>
      { ix with defn := { ix.defn with droppedXmax := ctx.own } }
    ⟨{ eng with db := { eng.db with indexes } }, [.dropIndex name ix], none⟩

def dropIndexes : Engine V K → List String → ExecOut V K
  | eng, [] => ⟨eng, [], none⟩
  | eng, name :: names =>
    match execDropOneIndex eng ctx name with
    | ⟨eng, writes, some e⟩ => ⟨eng, writes, some e⟩
    | ⟨eng, writes, none⟩ =>
      let out := dropIndexes eng names
      ⟨out.eng, writes ++ out.writes, out.error⟩

/-- Every name is looked up before any index is dropped. -/
def execDropIndex (names : List String) : ExecOut V K :=
  match names.find? fun n => (eng.db.findIndex n ctx.snap ctx.allXids).isNone with
  | some name => .fail eng (indexMissing name)
  | none => dropIndexes ctx eng names

def IndexStmt.exec (stmt : IndexStmt) : ExecOut V K :=
  match stmt with
  | .create name table columns unique nnd isPartial =>
    execCreateIndex eng ctx name table columns unique nnd isPartial
  | .drop names => execDropIndex eng ctx names

end
