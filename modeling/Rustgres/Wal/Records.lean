-- SUMMARY: The records a commit writes, derived from the write log of its transaction.
import Rustgres.Storage.Undo

/-!
# Commit Records

At a commit each logged change is checked against the engine: what still carries the id of the
transaction is recorded, and the rest is passed over. A conflict with a transaction that committed
first fails the commit.
-/

/-- A row version in a record. -/
structure WalRow (V : Type) where
  id : RowId
  xmin : Xid
  values : List V
deriving DecidableEq, Repr

inductive WalRecord (V : Type) where
  | insertRows (table : String) (rows : List (WalRow V))
  | deleteRows (table : String) (ids : List RowId) (oldRows : List (WalRow V)) (xmax : Xid)
  | updateRows (table : String) (old new : List (WalRow V)) (xmax : Xid)
  | createTable (name : String) (columns : List String) (xmin : Xid)
  | dropTable (name : String) (xmax : Xid)
  | alterTable (name : String) (columns : List String) (copyRows : Bool) (xmin : Xid)
  | createIndex (name table : String) (columns : List String)
      (unique nullsNotDistinct isPartial : Bool) (xmin : Xid)
  | dropIndex (name : String) (xmax : Xid)
  | createType (name : String) (type : ShellType) (xmin : Xid)
  | dropType (name : String) (xmax : Xid)
  | createSequence (name : String) (params : SeqParams) (current : Option Int) (isCalled : Bool)
      (xmin : Xid)
  | dropSequence (name : String) (xmax : Xid)
  | alterSequence (name : String) (params : SeqParams) (current : Option Int) (isCalled : Bool)
      (xmin : Xid)
  | seqAdvance (name : String) (lastValue : Int) (isCalled : Bool)
deriving DecidableEq, Repr

variable {V K : Type}

/-! ## Grouping

Changes of the same kind to the same table that follow each other share a record. -/

def appendInsert (out : List (WalRecord V)) (table : String) (row : WalRow V) :
    List (WalRecord V) :=
  match out.getLast? with
  | some (.insertRows t rows) =>
    if t = table then out.dropLast ++ [.insertRows t (rows ++ [row])]
    else out ++ [.insertRows table [row]]
  | _ => out ++ [.insertRows table [row]]

def appendDelete (out : List (WalRecord V)) (table : String) (old : WalRow V) (own : Xid) :
    List (WalRecord V) :=
  match out.getLast? with
  | some (.deleteRows t ids oldRows xmax) =>
    if t = table ∧ xmax = own then
      out.dropLast ++ [.deleteRows t (ids ++ [old.id]) (oldRows ++ [old]) xmax]
    else out ++ [.deleteRows table [old.id] [old] own]
  | _ => out ++ [.deleteRows table [old.id] [old] own]

def appendUpdate (out : List (WalRecord V)) (table : String) (old new : WalRow V) (own : Xid) :
    List (WalRecord V) :=
  match out.getLast? with
  | some (.updateRows t olds news xmax) =>
    if t = table ∧ xmax = own then
      out.dropLast ++ [.updateRows t (olds ++ [old]) (news ++ [new]) xmax]
    else out ++ [.updateRows table [old] [new] own]
  | _ => out ++ [.updateRows table [old] [new] own]

section

variable [DecidableEq K] [SqlValue V K] (eng : Engine V K) (own : Xid)

/-- The values of our uncommitted row version, and whether its table is still there. -/
def ownRow (rowId : RowId) : Option (List V × Bool) :=
  eng.db.tables.values.flatten.findSome? fun t =>
    (t.row? rowId).bind fun v =>
      if v.xmin = own then
        some (v.values, ¬ (t.droppedXmax ≠ 0 ∧ t.droppedXmax ≠ own ∧
          eng.txns.XidCommitted t.droppedXmax))
      else none

/-- A committed live version of another transaction (first committer wins). -/
def Rival (created dropped : Xid) : Prop :=
  created ≠ own ∧ eng.txns.XidCommitted created ∧
    (dropped = 0 ∨ ¬ eng.txns.XidCommitted dropped)

instance (created dropped : Xid) : Decidable (Rival eng own created dropped) :=
  inferInstanceAs (Decidable (_ ∧ _ ∧ _))

def alreadyExists (name : String) : String := "relation \"" ++ name ++ "\" already exists"

def concurrentUpdate (table : String) (rowId : RowId) : String :=
  "concurrent update on row id " ++ toString rowId ++ " in table \"" ++ table ++ "\""

def duplicateKey (index : String) : String :=
  "duplicate key value violates unique constraint \"" ++ index ++
    "\" (committed by a concurrent transaction)"

/-- How many versions of each table the operations so far have created. -/
abbrev OwnVersions := String → Nat

def WriteOp.isInsertRow : WriteOp V K → Bool
  | .insertRow .. => true
  | _ => false

/-- The records after `out` for one operation; `next` is the operation that follows it. -/
def recordFor (seen : OwnVersions) (out : List (WalRecord V)) (op : WriteOp V K)
    (next : Option (WriteOp V K)) : Except String (OwnVersions × List (WalRecord V)) :=
  match op with
  | .insertRow table rowId =>
    match ownRow eng own rowId with
    | some (values, true) =>
      match eng.db.committedUniqueViolation eng.txns table values rowId [own] with
      | some index => .error (duplicateKey index)
      | none => .ok (seen, appendInsert out table ⟨rowId, own, values⟩)
    | _ => .ok (seen, out)
  | .deleteRow table rowId _ =>
    match eng.db.findRowVersion rowId with
    | none => .ok (seen, out)
    | some v =>
      if v.xmax ≠ own then
        if next.any WriteOp.isInsertRow then .error (concurrentUpdate table rowId)
        else .ok (seen, out)
      else .ok (seen, appendDelete out table ⟨rowId, v.xmin, v.values⟩ own)
  | .updateRow table oldId newId _ oldValues =>
    match eng.db.findRowVersion oldId with
    | none => .ok (seen, out)
    | some v =>
      if v.xmax ≠ own then .error (concurrentUpdate table oldId)
      else
        match ownRow eng own newId with
        | some (values, true) =>
          .ok (seen, appendUpdate out table ⟨oldId, v.xmin, oldValues⟩ ⟨newId, own, values⟩ own)
        | _ => .ok (seen, out)
  | .createTable name =>
    let seen' := Function.update seen name (seen name + 1)
    let versions := (eng.db.tables.lookup name).getD []
    match (versions.filter fun t => t.createdXmin = own)[seen name]? with
    | none => .ok (seen', out)
    | some ours =>
      if versions.any fun t =>
          Rival eng own t.createdXmin t.droppedXmax ∧ t.droppedXmax ≠ own then
        .error (alreadyExists name)
      else .ok (seen', out ++ [.createTable name ours.columns own])
  | .alterTable name _ renamedTo rewriteRows =>
    let counted := Function.update seen name (seen name + 1)
    let seen' := match renamedTo with
      | none => counted
      | some target => Function.update (Function.update counted name 0) target (counted name)
    let versions := (eng.db.tables.lookup name).getD []
    match (versions.filter fun t => t.createdXmin = own)[seen name]? with
    | none => .ok (seen', out)
    | some ours => .ok (seen', out ++ [.alterTable name ours.columns (!rewriteRows) own])
  | .dropTable name _ =>
    if ((eng.db.tables.lookup name).getD []).any fun t => t.droppedXmax = own then
      .ok (seen, out ++ [.dropTable name own])
    else .ok (seen, out)
  | .createIndex name =>
    match eng.db.indexes.lookup name with
    | none => .ok (seen, out)
    | some ix =>
      if ix.defn.createdXmin ≠ own then .ok (seen, out)
      else if eng.db.indexes.values.any fun o =>
          o.defn.name = name ∧ Rival eng own o.defn.createdXmin o.defn.droppedXmax then
        .error (alreadyExists name)
      else
        .ok (seen, out ++ [.createIndex name ix.defn.table ix.defn.colNames ix.defn.unique
          ix.defn.nullsNotDistinct (!ix.defn.plannerUsable) own])
  | .dropIndex name _ =>
    match eng.db.indexes.lookup name with
    | none => .ok (seen, out)
    | some ix =>
      if ix.defn.droppedXmax = own ∨ ix.defn.createdXmin = own then
        .ok (seen, out ++ [.dropIndex name own])
      else .ok (seen, out)
  | .createType name _ =>
    match eng.db.types.lookup name with
    | some type => .ok (seen, out ++ [.createType name type own])
    | none => .ok (seen, out)
  | .dropType name _ => .ok (seen, out ++ [.dropType name own])
  | .createSequence name =>
    let versions := (eng.db.sequences.lookup name).getD []
    match versions.find? fun s => s.createdXmin = own with
    | none => .ok (seen, out)
    | some ours =>
      if versions.any fun s => Rival eng own s.createdXmin s.droppedXmax then
        .error (alreadyExists name)
      else
        .ok (seen, out ++ [.createSequence name ours.params ours.current ours.isCalled own])
  | .dropSequence name _ =>
    if ((eng.db.sequences.lookup name).getD []).any fun s => s.droppedXmax = own then
      .ok (seen, out ++ [.dropSequence name own])
    else .ok (seen, out)
  | .alterSequence name _ =>
    let versions := (eng.db.sequences.lookup name).getD []
    match (versions.filter fun s => s.createdXmin = own).getLast? with
    | none => .ok (seen, out)
    | some ours =>
      .ok (seen, out ++ [.alterSequence name ours.params ours.current ours.isCalled own])
  | .seqAdvance name =>
    let versions := (eng.db.sequences.lookup name).getD []
    match versions.find? fun s => s.droppedXmax = 0 with
    | some ⟨_, some current, isCalled, _, _⟩ =>
      .ok (seen, out ++ [.seqAdvance name current isCalled])
    | _ => .ok (seen, out)

def recordsFrom (seen : OwnVersions) (out : List (WalRecord V)) :
    List (WriteOp V K) → Except String (List (WalRecord V))
  | [] => .ok out
  | op :: ops =>
    match recordFor eng own seen out op ops.head? with
    | .error e => .error e
    | .ok (seen, out) => recordsFrom seen out ops

/-- The records of a commit, or the conflict that fails it. -/
def recordsForCommit (writes : List (WriteOp V K)) : Except String (List (WalRecord V)) :=
  recordsFrom eng own (fun _ => 0) [] writes

end
