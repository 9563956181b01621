-- SUMMARY: The WAL file: header, `Wal::open` with its replay loop, `append_batch`, `checkpoint`.
import Rustgres.Wal.Frame

/-!
# The WAL Writer

`wal.log` is a 16-byte header followed by frames; `checkpoint.dat` holds an engine image and the
logical offset it covers. The engine and its recovery functions are parameters, a `Recovery`: the
log only hands decoded records to them, in order.
-/

open Bytes

-- ---------------------------------------------------------------------------
-- Header
-- ---------------------------------------------------------------------------

/-- The bytes of `"RGSWAL"`. -/
def walMagicPrefix : Bytes := [82, 71, 83, 87, 65, 76]

/-- `WAL_MAGIC`: the prefix and the two digits of `WAL_VERSION`. -/
def walMagic : Bytes := walMagicPrefix ++ [51, 51]

/-- The header of a generation starting at `baseLsn`. -/
def encodeWalHeader (baseLsn : UInt64) : Bytes :=
  walMagic ++ be 8 baseLsn.toNat

def isAsciiDigit (b : UInt8) : Bool := 48 ≤ b && b ≤ 57

/-- The format version of an `RGSWALnn` magic, if it is one. -/
def walMagicVersion (magic : Bytes) : Option Nat :=
  if magic.take 6 = walMagicPrefix then
    match magic.drop 6 with
    | [d₁, d₂] =>
      if isAsciiDigit d₁ && isAsciiDigit d₂ then
        some ((d₁.toNat - 48) * 10 + (d₂.toNat - 48))
      else none
    | _ => none
  else none

/-- Base LSN and format version. `none` is an empty file or a torn header. -/
def readWalHeader (file : Bytes) : Except String (Option (UInt64 × Nat)) :=
  let hdr := file.take 16
  if hdr.length < 16 then
    .ok none
  else
    match walMagicVersion (hdr.take 8) with
    | some version =>
      if minReadableWalVersion ≤ version ∧ version ≤ walVersion then
        .ok (some (UInt64.ofNat (ofBe (hdr.drop 8)), version))
      else
        .error "wal.log has an unrecognized magic; this rustgres cannot read older data - remove the data directory"
    | none =>
      .error "wal.log has an unrecognized magic; this rustgres cannot read older data - remove the data directory"

@[simp]
theorem length_encodeWalHeader (baseLsn : UInt64) :
    (encodeWalHeader baseLsn).length = walHeaderLen := by
  simp [encodeWalHeader, walMagic, walMagicPrefix, walHeaderLen]

theorem readWalHeader_encode (baseLsn : UInt64) (rest : Bytes) :
    readWalHeader (encodeWalHeader baseLsn ++ rest) = .ok (some (baseLsn, walVersion)) := by
  have hhdr : (encodeWalHeader baseLsn ++ rest).take 16 = encodeWalHeader baseLsn :=
    List.take_left' (length_encodeWalHeader _)
  have hmagic : (encodeWalHeader baseLsn).take 8 = walMagic := List.take_left' rfl
  have hbase : (encodeWalHeader baseLsn).drop 8 = be 8 baseLsn.toNat := List.drop_left' rfl
  have hversion : walMagicVersion walMagic = some walVersion := by decide
  have hfit : baseLsn.toNat % 256 ^ 8 = baseLsn.toNat :=
    Nat.mod_eq_of_lt (by have := baseLsn.toNat_lt; omega)
  simp only [readWalHeader, hhdr, length_encodeWalHeader, hmagic, hversion, hbase, ofBe_be, hfit]
  simp [walHeaderLen, minReadableWalVersion, walVersion]

theorem readWalHeader_short {file : Bytes} (h : file.length < 16) :
    readWalHeader file = .ok none := by
  have : (file.take 16).length < 16 := by simp only [List.length_take]; omega
  simp only [readWalHeader, if_pos this]

-- ---------------------------------------------------------------------------
-- The data directory and the open log
-- ---------------------------------------------------------------------------

/-- `checkpoint.dat`, as `load_checkpoint` returns it. -/
structure Checkpoint (E : Type) where
  eng : E
  walEnd : UInt64

/-- The data directory. -/
structure DataDir (E : Type) where
  checkpoint : Option (Checkpoint E)
  log : Bytes

/-- An open `Wal`. -/
structure Wal where
  len : Nat
  baseLsn : UInt64
  nextTxn : Nat
deriving DecidableEq, Repr

/-- The engine functions that `Wal::open` and `checkpoint` call. -/
structure Recovery (E R : Type) where
  empty : E
  applyRecord : E → R → Except String E
  legacyFillPartition : E → R → Option R
  clearTxns : E → E
  image : E → E

variable {E R : Type} (c : RecordCodec R) (rec : Recovery E R)

def loadCheckpoint (dir : DataDir E) : E × UInt64 :=
  match dir.checkpoint with
  | some chk => (chk.eng, chk.walEnd)
  | none => (rec.empty, 0)

/-- What the replay loop accumulates. -/
structure Replay (E R : Type) where
  eng : E
  batches : List (List R)
  maxTxn : Nat

/-- Apply one frame's records, filling in what older formats lack. -/
def applyFrame (version : Nat) (eng : E) (records : List R) : Except String E :=
  records.foldlM
    (fun eng r =>
      let legacy := if version < walVersion then rec.legacyFillPartition eng r else none
      rec.applyRecord eng (legacy.getD r))
    eng

/-- The replay loop of `Wal::open` from physical offset `pos`; each frame is longer than its length
word, so the file's length bounds the number of rounds. -/
def replayFrames (version : Nat) (baseLsn walEnd : UInt64) (file : Bytes) :
    Nat → Nat → Replay E R → Except String (Replay E R)
  | 0, _, st => .ok st
  | fuel + 1, pos, st => do
      match ← readFrame c version file pos with
      | none => return st
      | some (frame, pos') =>
        let frameLsn := baseLsn.toNat + (pos - walHeaderLen)
        if frameLsn < walEnd.toNat then
          replayFrames version baseLsn walEnd file fuel pos' st
        else
          let eng ← applyFrame rec version st.eng frame.records
          replayFrames version baseLsn walEnd file fuel pos'
            ⟨eng, st.batches ++ [frame.records], max st.maxTxn frame.txnId⟩

/-- The logical end of the log. -/
def Wal.currentLsn (wal : Wal) : UInt64 :=
  wal.baseLsn + UInt64.ofNat (wal.len - walHeaderLen)

/-- Snapshot the engine and reset the log to a fresh generation. -/
def Wal.writeCheckpoint (wal : Wal) (dir : DataDir E) (eng : E) : DataDir E × Wal :=
  let walEnd := wal.currentLsn
  ({ dir with checkpoint := some ⟨rec.image eng, walEnd⟩, log := encodeWalHeader walEnd },
    { wal with len := walHeaderLen, baseLsn := walEnd })

/-- What `Wal::open` leaves: the directory, the recovered engine, the batches it replayed and the
open log. -/
structure Opened (E R : Type) where
  dir : DataDir E
  eng : E
  batches : List (List R)
  wal : Wal

/-- Load the latest checkpoint and replay the frames after it. -/
def Wal.open (dir : DataDir E) : Except String (Opened E R) := do
  let (eng, walEnd) := loadCheckpoint rec dir
  let hdr ← readWalHeader dir.log
  let (log, baseLsn, version) := match hdr with
    | some (baseLsn, version) => (dir.log, baseLsn, version)
    | none => (encodeWalHeader walEnd, walEnd, walVersion)
  let st ← replayFrames c rec version baseLsn walEnd log (log.length + 1) walHeaderLen ⟨eng, [], 0⟩
  let eng := rec.clearTxns st.eng
  -- The file is left as it is after the last frame read, and it is appended to at its end.
  let wal : Wal := ⟨log.length, baseLsn, st.maxTxn + 1⟩
  if version < walVersion then
    let (dir, wal) := wal.writeCheckpoint rec { dir with log } eng
    return ⟨dir, eng, st.batches, wal⟩
  else
    return ⟨{ dir with log }, eng, st.batches, wal⟩

/-- The bytes one call of `append_batch` adds to the file. -/
def Wal.batchBytes (wal : Wal) (records : List R) : Bytes :=
  if records.isEmpty then [] else encodeFrame c wal.nextTxn records

/-- Append one commit's records and sync. -/
def Wal.appendBatch (wal : Wal) (dir : DataDir E) (records : List R) : DataDir E × Wal :=
  if records.isEmpty then
    (dir, wal)
  else
    let frame := encodeFrame c wal.nextTxn records
    ({ dir with log := dir.log ++ frame },
      { wal with nextTxn := wal.nextTxn + 1, len := wal.len + frame.length })

/-- The loop of `read_frames_since` from physical offset `pos`; the file's length bounds the number
of rounds. -/
def readFramesLoop (baseLsn : UInt64) (fromLsn : Nat) (file : Bytes) :
    Nat → Nat → List (Nat × Frame R) → Except String (List (Nat × Frame R))
  | 0, _, out => .ok out
  | fuel + 1, pos, out => do
      match ← readFrame c walVersion file pos with
      | none => return out
      | some (frame, pos') =>
        let frameLsn := baseLsn.toNat + (pos - walHeaderLen)
        if frameLsn < fromLsn then readFramesLoop baseLsn fromLsn file fuel pos' out
        else readFramesLoop baseLsn fromLsn file fuel pos' (out ++ [(frameLsn, frame)])

/-- Every frame of this generation at or after `fromLsn`, with its LSN. -/
def Wal.readFramesSince (wal : Wal) (dir : DataDir E) (fromLsn : Nat) :
    Except String (List (Nat × Frame R)) :=
  readFramesLoop c wal.baseLsn fromLsn dir.log (dir.log.length + 1) walHeaderLen []
