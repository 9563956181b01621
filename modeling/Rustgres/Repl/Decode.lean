-- SUMMARY: Logical decoding: the lines that a committed frame stands for.
import Mathlib
import Rustgres.Repl.Slots
import Rustgres.Wal.Records

/-!
# Logical Decoding

A committed frame is a `BEGIN` line, one line for each change, and a `COMMIT` line. Frames without
changes of tables or types have no lines. The records that are invisible to decoding are of any type
`O`.
-/

namespace Repl

variable {V K O : Type}

/-- A record of the log: one of the engine model, or another one. -/
inductive LogRecord (V O : Type) where
  | data (r : WalRecord V)
  | other (o : O)
deriving DecidableEq

def hexUpper (n : Nat) : String := String.ofList ((Nat.toDigits 16 n).map Char.toUpper)

/-- `HIGH/LOW` hex. -/
def formatLsn (lsn : Nat) : String :=
  hexUpper (lsn >>> 32) ++ "/" ++ hexUpper (lsn % 2 ^ 32)

/-- The column names of the last version of a table, or positional ones. -/
def tableColumns (db : Database V K) (table : String) (n : Nat) : List String :=
  match (db.tables.lookup table).bind List.getLast? with
  | some t => t.columns
  | none => (List.range' 1 n).map fun i => "col" ++ toString i

section

variable (logicalValue : V → String)

def rowText (cols : List String) (values : List V) : String :=
  " ".intercalate ((cols.zip values).map fun p => p.1 ++ "=" ++ logicalValue p.2)

/-- The number of values of the first row. -/
def width (rows : List (WalRow V)) : Nat := (rows.head?.map (·.values.length)).getD 0

/-- The lines of one record. -/
def recordLines (db : Database V K) : LogRecord V O → List String
  | .data (.insertRows table rows) =>
    let cols := tableColumns db table (width rows)
    rows.map fun row => "INSERT " ++ table ++ " " ++ rowText logicalValue cols row.values
  | .data (.updateRows table old new _) =>
    let cols := tableColumns db table (if old.isEmpty then width new else width old)
    (old.zip new).map fun p => "UPDATE " ++ table ++ " OLD " ++ rowText logicalValue cols p.1.values
      ++ " NEW " ++ rowText logicalValue cols p.2.values
  | .data (.deleteRows table _ oldRows _) =>
    let cols := tableColumns db table (width oldRows)
    oldRows.map fun row => "DELETE " ++ table ++ " " ++ rowText logicalValue cols row.values
  | .data (.createTable name _ _) => ["DDL CREATE_TABLE " ++ name]
  | .data (.dropTable name _) => ["DDL DROP_TABLE " ++ name]
  | .data (.alterTable name _ _ _) => ["DDL ALTER_TABLE " ++ name]
  | .data (.createType name _ _) => ["DDL CREATE_TYPE " ++ name]
  | .data (.dropType name _) => ["DDL DROP_TYPE " ++ name]
  | _ => []

/-- The lines of a frame. -/
def decodeFrame (db : Database V K) (frameLsn : Nat) (records : List (LogRecord V O)) :
    List String :=
  let changes := records.flatMap (recordLines logicalValue db)
  if changes.isEmpty then []
  else ["BEGIN " ++ formatLsn frameLsn] ++ changes ++ ["COMMIT " ++ formatLsn frameLsn]

end

/-- How many lines a record has, whatever the tables look like. -/
def recordChanges : LogRecord V O → Nat
  | .data (.insertRows _ rows) => rows.length
  | .data (.updateRows _ old new _) => min old.length new.length
  | .data (.deleteRows _ _ oldRows _) => oldRows.length
  | .data (.createTable ..) | .data (.dropTable ..) | .data (.alterTable ..)
  | .data (.createType ..) | .data (.dropType ..) => 1
  | _ => 0

/-- The frame has changes that decoding shows. -/
def HasChanges (records : List (LogRecord V O)) : Prop := ∃ r ∈ records, recordChanges r ≠ 0

instance (records : List (LogRecord V O)) : Decidable (HasChanges records) :=
  inferInstanceAs (Decidable (∃ r ∈ records, recordChanges r ≠ 0))

variable (logicalValue : V → String) (db : Database V K)

theorem length_recordLines (r : LogRecord V O) :
    (recordLines logicalValue db r).length = recordChanges r := by
  cases r with
  | data r => cases r <;> simp [recordLines, recordChanges]
  | other o => rfl

/-- Frames without changes have no lines. -/
theorem decodeFrame_eq_nil {lsn : Nat} {records : List (LogRecord V O)} (h : ¬ HasChanges records) :
    decodeFrame logicalValue db lsn records = [] := by
  have hnil : records.flatMap (recordLines logicalValue db) = [] := by
    rw [List.flatMap_eq_nil_iff]
    intro r hr
    rw [← List.length_eq_zero_iff, length_recordLines]
    by_contra hne
    exact h ⟨r, hr, hne⟩
  simp [decodeFrame, hnil]

/-- A frame shows each of its changes as one line, between its `BEGIN` and its `COMMIT`. -/
theorem length_decodeFrame {lsn : Nat} {records : List (LogRecord V O)} (h : HasChanges records) :
    (decodeFrame logicalValue db lsn records).length = (records.map recordChanges).sum + 2 := by
  have hlen : (records.flatMap (recordLines logicalValue db)).length
      = (records.map recordChanges).sum := by
    rw [List.length_flatMap]
    congr 1
    exact List.map_congr_left fun r _ => length_recordLines logicalValue db r
  have hne : records.flatMap (recordLines logicalValue db) ≠ [] := by
    obtain ⟨r, hr, hr0⟩ := h
    intro hnil
    have := (List.flatMap_eq_nil_iff.1 hnil) r hr
    rw [← List.length_eq_zero_iff, length_recordLines] at this
    exact hr0 this
  simp only [decodeFrame, List.isEmpty_iff, if_neg hne, List.length_append, List.length_singleton,
    hlen]
  omega

end Repl
