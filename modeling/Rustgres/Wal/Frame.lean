-- SUMMARY: WAL frames: the CRC, one frame's bytes, `read_frame`, and what it reads back.
import Rustgres.Lib.Bytes

/-!
# WAL Frames

One frame holds the records of one commit:

    u32 frame_len | u64 txn_id | u32 nrecords | records... | u32 crc32

The byte format of a single record is a parameter, a `RecordCodec`: frames only
concatenate records.
-/

open Bytes

-- ---------------------------------------------------------------------------
-- CRC32
-- ---------------------------------------------------------------------------

/-- Entry `i` of `CRC32_TABLE`, as `build_crc32_table` computes it. -/
def crc32Table (i : UInt32) : UInt32 :=
  (fun crc : UInt32 => if crc &&& 1 == 1 then (crc >>> 1) ^^^ 0xEDB88320 else crc >>> 1)^[8] i

/-- CRC32 (IEEE 802.3) of a byte string. -/
def crc32 (data : Bytes) : UInt32 :=
  ~~~ data.foldl
    (fun crc b => crc32Table ((crc ^^^ b.toUInt32) &&& 0xFF) ^^^ (crc >>> 8)) 0xFFFFFFFF

-- ---------------------------------------------------------------------------
-- Records
-- ---------------------------------------------------------------------------

/-- `Enc::record` and `Dec::record` for records `R`. Every encoding starts with a tag byte. -/
structure RecordCodec (R : Type) where
  enc : R → Bytes
  dec : DecM R
  enc_ne_nil : ∀ r, enc r ≠ []

def walVersion : Nat := 33
def minReadableWalVersion : Nat := 20
def walHeaderLen : Nat := 16
def maxFrameLen : Nat := 256 * 1024 * 1024

variable {R : Type} (c : RecordCodec R)

/-- The record decodes back from its own bytes at the current format version. -/
def RecordCodec.RoundTrips (r : R) : Prop :=
  Decodes walVersion c.dec (c.enc r) r

-- ---------------------------------------------------------------------------
-- Writing a frame
-- ---------------------------------------------------------------------------

/-- Transaction id, record count and records: the bytes under the CRC. -/
def frameBody (txnId : Nat) (records : List R) : Bytes :=
  be 8 txnId ++ be 4 records.length ++ records.flatMap c.enc

/-- The bytes `append_batch` writes for one batch. The length word is a `u32` cast. -/
def encodeFrame (txnId : Nat) (records : List R) : Bytes :=
  let body := frameBody c txnId records
  be 4 (body.length + 4) ++ body ++ be 4 (crc32 body).toNat

/-- What the length word of a batch's frame should hold. -/
def frameLen (records : List R) : Nat :=
  12 + (records.flatMap c.enc).length + 4

@[simp]
theorem length_frameBody (txnId : Nat) (records : List R) :
    (frameBody c txnId records).length = 12 + (records.flatMap c.enc).length := by
  simp [frameBody]
  omega

@[simp]
theorem length_encodeFrame (txnId : Nat) (records : List R) :
    (encodeFrame c txnId records).length = 4 + frameLen c records := by
  simp only [encodeFrame, List.length_append, length_be, length_frameBody, frameLen]
  omega

/-- Records are never empty, so a batch has no more records than bytes. -/
theorem length_le_frameLen (records : List R) : records.length ≤ frameLen c records := by
  have hlen : records.length ≤ (records.flatMap c.enc).length := by
    induction records with
    | nil => simp
    | cons r records ih =>
        have hr : 0 < (c.enc r).length := List.length_pos_iff.mpr (c.enc_ne_nil r)
        simp only [List.length_cons, List.flatMap_cons, List.length_append]
        omega
  simp only [frameLen]
  omega

-- ---------------------------------------------------------------------------
-- Reading a frame
-- ---------------------------------------------------------------------------

structure Frame (R : Type) where
  txnId : Nat
  records : List R
deriving DecidableEq, Repr

/-- The decoder of a frame body whose CRC has been checked. -/
def decodeBody : DecM (Frame R) := do
  let txnId ← Dec.uint 8
  let n ← Dec.uint 4
  let records ← Dec.replicate n c.dec
  return ⟨txnId, records⟩

/-- Read the frame at `pos`, with the position after it. `none` is a clean end of file or a torn
tail (short read, absurd length or bad CRC); a body that does not decode is an error. -/
def readFrame (version : Nat) (file : Bytes) (pos : Nat) :
    Except String (Option (Frame R × Nat)) :=
  let lenBuf := (file.drop pos).take 4
  if lenBuf.length < 4 then
    .ok none
  else
    let len := ofBe lenBuf
    if len < 8 + 4 + 4 ∨ len > maxFrameLen then
      .ok none
    else
      let rest := (file.drop (pos + 4)).take len
      if rest.length < len then
        .ok none
      else
        let body := rest.take (len - 4)
        if (crc32 body).toNat ≠ ofBe (rest.drop (len - 4)) then
          .ok none
        else do
          let (frame, _) ←
            ((decodeBody c >>= fun f => Dec.done >>= fun _ => pure f) : DecM (Frame R))
              ⟨body, 0, version⟩
          return some (frame, pos + 4 + len)

/-- A batch `read_frame` can return: not above the length limit, and every record round-trips. -/
structure Readable (records : List R) : Prop where
  len_le : frameLen c records ≤ maxFrameLen
  roundTrips : ∀ r ∈ records, c.RoundTrips r

variable {c}

theorem decodes_body {records : List R} (h : Readable c records) (txnId : Nat) :
    Decodes walVersion (decodeBody c) (frameBody c txnId records)
      ⟨txnId % 256 ^ 8, records⟩ := by
  have hcount : records.length % 256 ^ 4 = records.length := by
    have := length_le_frameLen c records
    have := h.len_le
    simp only [maxFrameLen] at this
    omega
  have hrecords := (Decodes.replicate h.roundTrips).bind
    (f := fun rs => pure (Frame.mk (txnId % 256 ^ 8) rs)) (Decodes.pure _)
  have hcountDec := Decodes.uint (v := walVersion) 4 records.length
  rw [hcount] at hcountDec
  rw [List.append_nil] at hrecords
  have hrest := hcountDec.bind (f := fun n => Dec.replicate n c.dec >>= fun rs =>
    pure (Frame.mk (txnId % 256 ^ 8) rs)) hrecords
  have hall := (Decodes.uint (v := walVersion) 8 txnId).bind
    (f := fun t => Dec.uint 4 >>= fun n => Dec.replicate n c.dec >>= fun rs =>
      pure (Frame.mk t rs)) hrest
  simpa only [frameBody, List.append_assoc, decodeBody] using hall

/-- The length word a reader finds in front of a frame. -/
private theorem take_four_encodeFrame (txnId : Nat) (records : List R) (tail : Bytes) :
    (encodeFrame c txnId records ++ tail).take 4 = be 4 (frameLen c records) := by
  have hlen : (frameBody c txnId records).length + 4 = frameLen c records := by
    simp [frameLen]
  simp only [encodeFrame, hlen, List.append_assoc]
  exact List.take_left' (length_be 4 _)

/-- `read_frame` returns a readable batch from wherever its frame stands, whatever follows. -/
theorem readFrame_encodeFrame {records : List R} (h : Readable c records) (txnId : Nat)
    (pre tail : Bytes) :
    readFrame c walVersion (pre ++ (encodeFrame c txnId records ++ tail)) pre.length
      = .ok (some (⟨txnId % 256 ^ 8, records⟩,
          pre.length + (encodeFrame c txnId records).length)) := by
  have hle : frameLen c records ≤ maxFrameLen := h.len_le
  have hge : 16 ≤ frameLen c records := by simp only [frameLen]; omega
  have hword : ofBe (be 4 (frameLen c records)) = frameLen c records := by
    simp only [maxFrameLen] at hle
    rw [ofBe_be]
    omega
  have hbody : (frameBody c txnId records).length = frameLen c records - 4 := by
    simp [frameLen]
  have hcrc : ofBe (be 4 (crc32 (frameBody c txnId records)).toNat)
      = (crc32 (frameBody c txnId records)).toNat := by
    rw [ofBe_be]
    exact Nat.mod_eq_of_lt (UInt32.toNat_lt _)
  have hdrop : (pre ++ (encodeFrame c txnId records ++ tail)).drop (pre.length + 4)
      = frameBody c txnId records ++ (be 4 (crc32 (frameBody c txnId records)).toNat ++ tail) := by
    rw [← List.drop_drop, List.drop_left]
    simp only [encodeFrame, List.append_assoc]
    exact List.drop_left' (length_be 4 _)
  have hrest : (frameBody c txnId records
        ++ (be 4 (crc32 (frameBody c txnId records)).toNat ++ tail)).take (frameLen c records)
      = frameBody c txnId records ++ be 4 (crc32 (frameBody c txnId records)).toNat := by
    rw [← List.append_assoc]
    exact List.take_left' (by simp only [List.length_append, hbody, length_be]; omega)
  have hdecode := (decodes_body h txnId).run_done
  simp only [readFrame, List.drop_left, take_four_encodeFrame, length_be, hword, hdrop, hrest,
    List.length_append, hbody]
  rw [List.take_left' hbody, List.drop_left' hbody, hcrc, hdecode]
  rw [if_neg (by omega), if_neg (by omega), if_neg (by omega), if_neg (by simp)]
  simp only [Bind.bind, Except.bind, Pure.pure, Except.pure, length_encodeFrame, Nat.add_assoc]

/-- A proper prefix of a frame is a torn tail, unless the length word has wrapped. -/
theorem readFrame_torn {records : List R} (hlen : frameLen c records < 2 ^ 32) (txnId cut : Nat)
    (pre : Bytes) (hcut : cut < (encodeFrame c txnId records).length ∨
      maxFrameLen < frameLen c records) :
    readFrame c walVersion (pre ++ (encodeFrame c txnId records).take cut) pre.length
      = .ok none := by
  by_cases hshort : cut < 4
  · have : (((encodeFrame c txnId records).take cut).take 4).length < 4 := by
      simp only [List.length_take]
      omega
    simp only [readFrame, List.drop_left, if_pos this]
  · have hword : ofBe (be 4 (frameLen c records)) = frameLen c records := by
      rw [ofBe_be]
      omega
    have htake : ((encodeFrame c txnId records).take cut).take 4 = be 4 (frameLen c records) := by
      rw [List.take_take, Nat.min_eq_left (by omega)]
      simpa using take_four_encodeFrame (c := c) txnId records []
    simp only [readFrame, List.drop_left, htake, length_be, hword]
    by_cases hbig : maxFrameLen < frameLen c records
    · simp [hbig]
    · have hcut' := hcut.resolve_right hbig
      have hrest : (((pre ++ (encodeFrame c txnId records).take cut).drop
          (pre.length + 4)).take (frameLen c records)).length < frameLen c records := by
        rw [length_encodeFrame] at hcut'
        simp only [List.length_take, List.length_drop, List.length_append, length_encodeFrame]
        omega
      have hge : 16 ≤ frameLen c records := by simp only [frameLen]; omega
      rw [if_neg (by omega), if_neg (by omega), if_pos hrest]

/-- Nothing is a clean end of file. -/
theorem readFrame_end (pre : Bytes) : readFrame c walVersion pre pre.length = .ok none := by
  simp [readFrame]
