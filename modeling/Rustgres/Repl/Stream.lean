-- SUMMARY: Logical streaming: the log, the slots, and the streams that read the log for them.
import Rustgres.Repl.Decode
import Rustgres.Wal.Writer

/-!
# Logical Streaming

A stream reads the frames of the live log from its position on, again and again, and sends their
lines. It resumes where its slot was confirmed. A checkpoint resets the log. The step of one session
holds the locks of the engine and of the log throughout.
-/

namespace Repl

variable {E V K O : Type}

/-- The loop of one connection, and what its client has received. -/
structure Walsender where
  slot : String
  start : Nat
  next : Nat
  received : List (Nat × String)
  /-- The connection is gone, and the slot has yet to be released. -/
  broken : Bool
deriving DecidableEq, Repr

/-- The data directory and its open log, the slots, and the streams. The history is every batch
that was appended, with its LSN. -/
structure Primary (E V O : Type) where
  dir : DataDir E
  wal : Wal
  history : List (Nat × List (LogRecord V O))
  slots : Slots
  streams : Dict Sid Walsender

inductive PrimaryStep (E V K O : Type) where
  /-- A commit, or a record of a slot. -/
  | append (records : List (LogRecord V O))
  | checkpoint (eng : E)
  | create (name slotType plugin : String)
  | drop (name : String)
  | start (sid : Sid) (name : String) (startLsn : Nat)
  /-- The frames behind the position are read, under the table definitions `db`, and sent; the
  connection may break after some of the messages. -/
  | poll (sid : Sid) (db : Database V K) (sent : Option Nat)
  | feedback (sid : Sid) (flushed : Int)
  | stop (sid : Sid)

/-- The position after frames were sent: the end of a frame is the start of the next, or the end of
the log. -/
def sendFrames {α : Type} (walEnd : Nat) : Nat → List (Nat × α) → Nat
  | next, [] => next
  | next, [_] => max walEnd next
  | next, _ :: f :: fs => sendFrames walEnd (max f.1 next) (f :: fs)

/-- The XLogData messages of decoded frames. -/
def messages (frames : List (Nat × List String)) : List (Nat × String) :=
  frames.flatMap fun f => f.2.map fun line => (f.1, line)

namespace Primary

variable (c : RecordCodec (LogRecord V O)) (rec : Recovery E (LogRecord V O))
  (logicalValue : V → String) (s : Primary E V O)

/-- A server that has just started a generation of the log. -/
def init (dir : DataDir E) (baseLsn : UInt64) (nextTxn : Nat) (slots : Slots) : Primary E V O :=
  ⟨{ dir with log := encodeWalHeader baseLsn }, ⟨walHeaderLen, baseLsn, nextTxn⟩, [], slots, ∅⟩

@[grind =]
def appendBatch (records : List (LogRecord V O)) : Primary E V O :=
  let appended := s.wal.appendBatch c s.dir records
  { s with
    dir := appended.1
    wal := appended.2
    history := if records.isEmpty then s.history
      else s.history ++ [(s.wal.currentLsn.toNat, records)] }

def checkpoint (eng : E) : Primary E V O :=
  let (dir, wal) := s.wal.writeCheckpoint rec s.dir eng
  { s with dir, wal }

/-- A new slot starts at the end of the log. -/
def createSlot (name slotType plugin : String) : Primary E V O :=
  if checkCreate name slotType plugin = none ∧ (s.slots.lookup name).isNone then
    let slot := .fresh (slotPlugin slotType plugin) slotType s.wal.currentLsn.toNat
    { s with slots := s.slots.insert name slot }
  else s

def dropSlot (name : String) : Primary E V O :=
  match s.slots.lookup name with
  | none => s
  | some slot => if slot.active then s else { s with slots := s.slots.erase name }

/-- START_REPLICATION: the slot is taken, and the stream begins behind what was confirmed. -/
def startStream (sid : Sid) (name : String) (startLsn : Nat) : Primary E V O :=
  match s.slots.lookup name with
  | none => s
  | some slot =>
    if slot.active ∨ slot.slotType ≠ "logical" then s
    else
      let next := max startLsn slot.confirmedFlushLsn
      { s with
        slots := s.slots.update name fun slot => { slot with active := true }
        streams := s.streams.insert sid ⟨name, next, next, [], false⟩ }

/-- One round of `stream_loop` up to the client's message. -/
def poll (sid : Sid) (st : Walsender) (db : Database V K) (sent : Option Nat) : Primary E V O :=
  match s.wal.readFramesSince c s.dir st.next with
  | .error _ => { s with streams := s.streams.update sid fun st => { st with broken := true } }
  | .ok raw =>
    let frames := raw.map fun f => (f.1, decodeFrame logicalValue db f.1 f.2.records)
    match sent with
    | some n =>
      { s with
        streams := s.streams.update sid fun st =>
          { st with received := st.received ++ (messages frames).take n, broken := true } }
    | none =>
      let next := sendFrames s.wal.currentLsn.toNat st.next frames
      { s with
        slots :=
          if frames.isEmpty then s.slots
          else s.slots.update st.slot fun slot =>
            { slot with restartLsn := max slot.restartLsn next }
        streams := s.streams.update sid fun st =>
          { st with next, received := st.received ++ messages frames } }

def step (i : PrimaryStep E V K O) : Option (Primary E V O) :=
  match i with
  | .append records => some (s.appendBatch c records)
  | .checkpoint eng => some (s.checkpoint rec eng)
  | .create name slotType plugin => some (s.createSlot name slotType plugin)
  | .drop name => some (s.dropSlot name)
  | .start sid name startLsn =>
    if (s.streams.lookup sid).isSome then none else some (s.startStream sid name startLsn)
  | .poll sid db sent =>
    (s.streams.lookup sid).bind fun st =>
      if st.broken then none else some (s.poll c logicalValue sid st db sent)
  | .feedback sid flushed =>
    (s.streams.lookup sid).bind fun st =>
      if st.broken then none
      else some { s with slots := s.slots.update st.slot (SlotState.confirm flushed.toNat) }
  | .stop sid =>
    (s.streams.lookup sid).map fun st =>
      { s with
        slots := s.slots.update st.slot fun slot => { slot with active := false }
        streams := s.streams.erase sid }

end Primary

end Repl
