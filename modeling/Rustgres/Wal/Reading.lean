-- SUMMARY: The frames of the live log with their LSNs, and what `read_frames_since` returns of them.
import Rustgres.Wal.Durability

/-!
# Reading the Live Log

A log of whole readable frames gives each frame an LSN. `read_frames_since` returns the frames from
a position on, and the end of the log is behind all of them.
-/

open Bytes

namespace Wal

variable {E R : Type} (c : RecordCodec R)

/-- The batches of the frames with their LSNs, the first one at `lsn`. -/
@[grind =]
def located : Nat → List (Frame R) → List (Nat × List R)
  | _, [] => []
  | lsn, f :: fs => (lsn, f.records) :: located (lsn + (encodeFrame c f.txnId f.records).length) fs

variable {c}

theorem located_snoc (lsn : Nat) (fs : List (Frame R)) (f : Frame R) :
    located c lsn (fs ++ [f]) = located c lsn fs ++ [(lsn + (frameBytes c fs).length, f.records)] := by
  induction fs generalizing lsn with
  | nil => simp [located]
  | cons g fs ih =>
      simp only [List.cons_append, located, ih, frameBytes_cons, List.length_append, Nat.add_assoc]

/-- Every frame starts within the log. -/
theorem located_bounds {lsn : Nat} {fs : List (Frame R)} {e : Nat × List R}
    (he : e ∈ located c lsn fs) : lsn ≤ e.1 ∧ e.1 < lsn + (frameBytes c fs).length := by
  induction fs generalizing lsn with
  | nil => simp [located] at he
  | cons g fs ih =>
      have hpos : 0 < (encodeFrame c g.txnId g.records).length := by
        rw [length_encodeFrame]
        omega
      rw [frameBytes_cons, List.length_append]
      rcases List.mem_cons.1 he with rfl | he
      · exact ⟨le_rfl, by dsimp only; omega⟩
      · have := ih he
        omega

theorem located_pairwise (lsn : Nat) (fs : List (Frame R)) :
    (located c lsn fs).Pairwise fun e e' => e.1 < e'.1 := by
  induction fs generalizing lsn with
  | nil => exact List.Pairwise.nil
  | cons g fs ih =>
      refine List.Pairwise.cons (fun e he => ?_) (ih _)
      have hpos : 0 < (encodeFrame c g.txnId g.records).length := by
        rw [length_encodeFrame]
        omega
      have := (located_bounds he).1
      dsimp only
      omega

/-- The batch of a frame, with its LSN. -/
def batchAt (e : Nat × Frame R) : Nat × List R := (e.1, e.2.records)

theorem readFramesLoop_frames (baseLsn : UInt64) (fromLsn : Nat) {frames : List (Frame R)}
    (hread : ∀ f ∈ frames, Readable c f.records) (pre : Bytes)
    (hpre : walHeaderLen ≤ pre.length) (fuel : Nat) (hfuel : frames.length < fuel)
    (out : List (Nat × Frame R)) :
    (readFramesLoop c baseLsn fromLsn (pre ++ frameBytes c frames) fuel pre.length out).map
        (List.map batchAt)
      = .ok (out.map batchAt
          ++ (located c (baseLsn.toNat + (pre.length - walHeaderLen)) frames).filter
            fun e => fromLsn ≤ e.1) := by
  induction frames generalizing pre fuel out with
  | nil =>
      obtain ⟨fuel, rfl⟩ : ∃ k, fuel = k + 1 := ⟨fuel - 1, by simp at hfuel; omega⟩
      have hend := readFrame_end (c := c) pre
      simp [readFramesLoop, hend, located, Bind.bind, Except.bind, Pure.pure, Except.pure,
        Except.map]
  | cons f frames ih =>
      obtain ⟨fuel, rfl⟩ : ∃ k, fuel = k + 1 := ⟨fuel - 1, by simp at hfuel; omega⟩
      have hframe := readFrame_encodeFrame (hread f (by simp)) f.txnId pre (frameBytes c frames)
      have hlsn : baseLsn.toNat + (pre.length - walHeaderLen)
            + (encodeFrame c f.txnId f.records).length
          = baseLsn.toNat
            + ((pre ++ encodeFrame c f.txnId f.records).length - walHeaderLen) := by
        simp only [List.length_append]
        omega
      have hih := ih (fun g hg => hread g (by simp [hg]))
        (pre ++ encodeFrame c f.txnId f.records) (by simp only [List.length_append]; omega)
        fuel (by simp only [List.length_cons] at hfuel; omega)
      rw [← hlsn, List.append_assoc, List.length_append] at hih
      rw [frameBytes_cons]
      simp only [readFramesLoop, hframe, located, Bind.bind, Except.bind]
      by_cases hskip : baseLsn.toNat + (pre.length - walHeaderLen) < fromLsn
      · rw [if_pos hskip, hih, List.filter_cons_of_neg (by simpa using hskip)]
      · rw [if_neg hskip, hih, List.filter_cons_of_pos (by simpa using hskip)]
        simp [batchAt]

/-- The counter is at the end of the log, as long as that is an LSN. -/
theorem currentLsn_eq {wal : Wal} {n : Nat} (hlen : wal.len = walHeaderLen + n)
    (hfits : wal.baseLsn.toNat + n < 2 ^ 64) : wal.currentLsn.toNat = wal.baseLsn.toNat + n := by
  rw [Wal.currentLsn, hlen, Nat.add_sub_cancel_left, UInt64.toNat_add, UInt64.toNat_ofNat']
  omega

/-- The open log is the header of its generation and whole readable frames. -/
structure Live (wal : Wal) (dir : DataDir E) (frames : List (Frame R)) : Prop where
  log_eq : dir.log = encodeWalHeader wal.baseLsn ++ frameBytes c frames
  readable : ∀ f ∈ frames, Readable c f.records
  len_eq : wal.len = walHeaderLen + (frameBytes c frames).length
  fits : wal.baseLsn.toNat + (frameBytes c frames).length < 2 ^ 64

namespace Live

variable {wal : Wal} {dir : DataDir E} {frames : List (Frame R)}

theorem currentLsn (h : Live (c := c) wal dir frames) :
    wal.currentLsn.toNat = wal.baseLsn.toNat + (frameBytes c frames).length :=
  currentLsn_eq h.len_eq h.fits

theorem readFramesSince (h : Live (c := c) wal dir frames) (fromLsn : Nat) :
    (wal.readFramesSince c dir fromLsn).map (List.map batchAt)
      = .ok ((located c wal.baseLsn.toNat frames).filter fun e => fromLsn ≤ e.1) := by
  have hfuel : frames.length < dir.log.length + 1 := by
    have := length_le_frameBytes (c := c) frames
    simp only [h.log_eq, List.length_append]
    omega
  have hloop := readFramesLoop_frames wal.baseLsn fromLsn h.readable (encodeWalHeader wal.baseLsn)
    (by simp) (dir.log.length + 1) hfuel []
  rw [← h.log_eq, length_encodeWalHeader] at hloop
  simpa [Wal.readFramesSince] using hloop

theorem appendBatch (h : Live (c := c) wal dir frames) {records : List R} (hne : records ≠ [])
    (hread : Readable c records)
    (hfits : wal.currentLsn.toNat + (encodeFrame c wal.nextTxn records).length < 2 ^ 64) :
    Live (c := c) (wal.appendBatch c dir records).2 (wal.appendBatch c dir records).1
      (frames ++ [⟨wal.nextTxn, records⟩]) := by
  have hempty : records.isEmpty = false := by simpa using hne
  simp only [Wal.appendBatch, hempty, Bool.false_eq_true, if_false]
  constructor
  · simp [h.log_eq, frameBytes_snoc]
  · intro f hf
    rcases List.mem_append.1 hf with hf | hf
    · exact h.readable f hf
    · rw [List.mem_singleton.1 hf]
      exact hread
  · simp only [h.len_eq, frameBytes_snoc, List.length_append]
    omega
  · rw [h.currentLsn] at hfits
    simp only [frameBytes_snoc, List.length_append]
    omega

theorem fresh (dir : DataDir E) (wal : Wal) (hlen : wal.len = walHeaderLen)
    (hlog : dir.log = encodeWalHeader wal.baseLsn) : Live (c := c) wal dir [] where
  log_eq := by simp [hlog]
  readable := by simp
  len_eq := by simp [hlen]
  fits := by simpa using wal.baseLsn.toNat_lt

end Live

end Wal
