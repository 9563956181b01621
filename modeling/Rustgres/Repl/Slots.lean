-- SUMMARY: Replication slots: the catalog in memory, its log records, and the operations on both.
import Rustgres.Lib.Dict
import Rustgres.Lib.Run

/-!
# Replication Slots

An operation on a slot changes the catalog under the engine lock, gives the lock back, and then
appends its record to the WAL. Between the two steps other sessions run.
-/

namespace Repl

/-- A session id. -/
abbrev Sid := Nat

structure ReplSlot where
  plugin : String
  slotType : String
  restartLsn : Nat
  confirmedFlushLsn : Nat
  active : Bool
deriving DecidableEq, Repr

structure ReplError where
  code : String
  message : String
deriving DecidableEq, Repr

/-- The records of slots. -/
inductive SlotRecord where
  | create (name plugin slotType : String) (restartLsn : Nat)
  | drop (name : String)
  | flush (name : String) (restartLsn confirmedFlushLsn : Nat)
deriving DecidableEq, Repr

/-- The slots by name. -/
abbrev Slots := Dict String ReplSlot

/-! ## Recovery -/

/-- The positions move forward only. -/
def ReplSlot.advance (restartLsn confirmedFlushLsn : Nat) (s : ReplSlot) : ReplSlot :=
  { s with
    restartLsn := max s.restartLsn restartLsn
    confirmedFlushLsn := max s.confirmedFlushLsn confirmedFlushLsn }

/-- The slot that a create record stands for. -/
def ReplSlot.fresh (plugin slotType : String) (restartLsn : Nat) : ReplSlot :=
  ⟨plugin, slotType, restartLsn, restartLsn, false⟩

/-- The slot arms of `apply_record`. -/
def applyRecord (slots : Slots) : SlotRecord → Slots
  | .create name plugin slotType lsn => slots.insert name (.fresh plugin slotType lsn)
  | .drop name => slots.erase name
  | .flush name restart confirmed => slots.update name (.advance restart confirmed)

/-- The slots after a replay of the log. -/
def replay (log : List SlotRecord) : Slots := log.foldl applyRecord ∅

/-! ## Operations -/

/-- An operation that has changed the catalog and has yet to append its record. A stream is one
while it lasts: its positions move in memory, and are logged now and then and at its end. -/
inductive SlotOp where
  | create (name plugin slotType : String) (restartLsn : Nat)
  | drop (name : String) (removed : ReplSlot)
  | stream (name : String) (unlogged : Option (Nat × Nat))
  | flush (name : String) (restartLsn confirmedFlushLsn : Nat)
deriving DecidableEq, Repr

def SlotOp.name : SlotOp → String
  | .create name .. | .drop name _ | .stream name _ | .flush name .. => name

/-- The catalog, the records in the log, and the operation of each busy session, the newest one
first. -/
structure SlotState where
  slots : Slots
  log : List SlotRecord
  inFlight : Dict Sid SlotOp

def SlotState.empty : SlotState := ⟨∅, [], ∅⟩

inductive SlotStep where
  /-- CREATE_REPLICATION_SLOT, with the end of the log at that moment. -/
  | create (sid : Sid) (name slotType plugin : String) (currentLsn : Nat)
  | drop (sid : Sid) (name : String)
  /-- START_REPLICATION. -/
  | start (sid : Sid) (name : String)
  /-- Frames were sent, up to `nextLsn`. -/
  | progress (sid : Sid) (nextLsn : Nat)
  /-- A standby status; `due` if the last flush was logged long enough ago. -/
  | feedback (sid : Sid) (flushed : Int) (due : Bool)
  /-- The stream ends, on any path. -/
  | stop (sid : Sid)
  /-- The append of the session's record to the log, or its failure. -/
  | append (sid : Sid) (ok : Bool)
deriving DecidableEq, Repr

def SlotStep.sid : SlotStep → Sid
  | .create sid .. | .drop sid _ | .start sid _ | .progress sid _ | .feedback sid .. | .stop sid
  | .append sid _ => sid

/-- 1-63 lowercase letters, digits, underscores. -/
def validSlotName (name : String) : Bool :=
  !name.isEmpty && name.length ≤ 63 &&
    name.toList.all fun c => c.isLower || c.isDigit || c == '_'

def decodingPlugin : String := "rustgres_decoding"

/-- What `create_slot` checks before it looks at the catalog. -/
def checkCreate (name slotType plugin : String) : Option ReplError :=
  if !validSlotName name then
    some ⟨"42602", "invalid replication slot name \"" ++ name
      ++ "\": use 1-63 lowercase letters, digits, underscores"⟩
  else if slotType ≠ "logical" ∧ slotType ≠ "physical" then
    some ⟨"42602", "invalid slot type \"" ++ slotType ++ "\": expected LOGICAL or PHYSICAL"⟩
  else if slotType = "logical" ∧ plugin ≠ decodingPlugin then
    some ⟨"0A000", "output plugin \"" ++ plugin ++ "\" is not supported; v0.13 only has \""
      ++ decodingPlugin ++ "\""⟩
  else none

/-- Physical slots have no plugin. -/
def slotPlugin (slotType plugin : String) : String := if slotType = "logical" then plugin else ""

namespace SlotState

variable (s : SlotState)

/-- The operation of a session begins. -/
def begin (sid : Sid) (slots : Slots) (op : SlotOp) : SlotState :=
  { s with slots, inFlight := s.inFlight.insert sid op }

/-- The memory half of `create_slot`. -/
def createSlot (sid : Sid) (name slotType plugin : String) (currentLsn : Nat) :
    SlotState × Except ReplError Nat :=
  match checkCreate name slotType plugin with
  | some e => (s, .error e)
  | none =>
    if (s.slots.lookup name).isSome then
      (s, .error ⟨"42710", "replication slot \"" ++ name ++ "\" already exists"⟩)
    else
      let plugin := slotPlugin slotType plugin
      (s.begin sid (s.slots.insert name (.fresh plugin slotType currentLsn))
        (.create name plugin slotType currentLsn), .ok currentLsn)

/-- The memory half of `drop_slot`. -/
def dropSlot (sid : Sid) (name : String) : SlotState × Except ReplError Unit :=
  match s.slots.lookup name with
  | none => (s, .error ⟨"42704", "replication slot \"" ++ name ++ "\" does not exist"⟩)
  | some slot =>
    if slot.active then (s, .error ⟨"55006", "replication slot \"" ++ name ++ "\" is active"⟩)
    else (s.begin sid (s.slots.erase name) (.drop name slot), .ok ())

/-- The activation of a slot in `stream_changes`, with the errors of the check before it. -/
def startStream (sid : Sid) (name : String) : SlotState × Except ReplError Unit :=
  match s.slots.lookup name with
  | none => (s, .error ⟨"42704", "replication slot \"" ++ name ++ "\" does not exist"⟩)
  | some slot =>
    if slot.active then
      (s, .error ⟨"55006", "replication slot \"" ++ name ++ "\" is active for another standby"⟩)
    else if slot.slotType ≠ "logical" then
      (s, .error ⟨"0A000", "replication slot \"" ++ name ++ "\" is not a logical slot"⟩)
    else
      (s.begin sid (s.slots.update name fun slot => { slot with active := true })
        (.stream name none), .ok ())

/-- The restart position follows what was sent. -/
def streamProgress (name : String) (nextLsn : Nat) : SlotState :=
  { s with
    slots := s.slots.update name fun slot =>
      { slot with restartLsn := max slot.restartLsn nextLsn } }

/-- What a standby status does to a slot. -/
def confirm (flushed : Nat) (slot : ReplSlot) : ReplSlot :=
  if flushed > slot.confirmedFlushLsn then
    { slot with
      confirmedFlushLsn := flushed
      restartLsn := max slot.restartLsn flushed }
  else slot

/-- The confirmed position moves in memory; if a flush is due its record is yet to be appended. -/
def streamFeedback (sid : Sid) (name : String) (flushed : Int) (due : Bool) : SlotState :=
  match s.slots.lookup name with
  | none => s
  | some slot =>
    let slot := confirm flushed.toNat slot
    { s with
      slots := s.slots.update name fun _ => slot
      inFlight :=
        if due then
          s.inFlight.update sid fun _ =>
            .stream name (some (slot.restartLsn, slot.confirmedFlushLsn))
        else s.inFlight }

/-- The clean-up of `stream_changes`. -/
def streamEnd (sid : Sid) (name : String) : SlotState :=
  match s.slots.lookup name with
  | none => { s with inFlight := s.inFlight.erase sid }
  | some slot =>
    { s with
      slots := s.slots.update name fun slot => { slot with active := false }
      inFlight := s.inFlight.update sid fun _ =>
        .flush name slot.restartLsn slot.confirmedFlushLsn }

/-- The append of a record went through. -/
def logged (r : SlotRecord) (inFlight : Dict Sid SlotOp) : SlotState :=
  { s with log := s.log ++ [r], inFlight }

/-- The log half of an operation, and what it does to the catalog if the append fails. -/
def finish (sid : Sid) (ok : Bool) : SlotOp → Option SlotState
  | .create name plugin slotType lsn =>
    some <|
      if ok then s.logged (.create name plugin slotType lsn) (s.inFlight.erase sid)
      else { s with slots := s.slots.erase name, inFlight := s.inFlight.erase sid }
  | .drop name removed =>
    some <|
      if ok then s.logged (.drop name) (s.inFlight.erase sid)
      else { s with slots := s.slots.insert name removed, inFlight := s.inFlight.erase sid }
  | .flush name restart confirmed =>
    some <|
      if ok then s.logged (.flush name restart confirmed) (s.inFlight.erase sid)
      else { s with inFlight := s.inFlight.erase sid }
  | .stream name (some (restart, confirmed)) =>
    let inFlight := s.inFlight.update sid fun _ => .stream name none
    some <| if ok then s.logged (.flush name restart confirmed) inFlight else { s with inFlight }
  | .stream _ none => none

/-- A step of a session, if the session is in a state to take it. -/
def step (i : SlotStep) : Option SlotState :=
  match i, s.inFlight.lookup i.sid with
  | .create sid name slotType plugin currentLsn, none =>
    some (s.createSlot sid name slotType plugin currentLsn).1
  | .drop sid name, none => some (s.dropSlot sid name).1
  | .start sid name, none => some (s.startStream sid name).1
  | .progress _ nextLsn, some (.stream name none) => some (s.streamProgress name nextLsn)
  | .feedback sid flushed due, some (.stream name none) =>
    some (s.streamFeedback sid name flushed due)
  | .stop sid, some (.stream name none) => some (s.streamEnd sid name)
  | .append sid ok, some op => s.finish sid ok op
  | _, _ => none

end SlotState

end Repl
