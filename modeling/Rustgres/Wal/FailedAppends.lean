-- SUMMARY: Appends that fail: what they leave in the file, and what a later recovery makes of it.
import Rustgres.Wal.Reading

/-!
# Failed Appends

A call of `append_batch` may fail in `write_all`, with any number of bytes in the file, or in
`sync_all`, with all of them. The length counter and the file then differ by what was left behind.
A recovery returns the acknowledged batches alone as long as nothing is written behind such bytes
and they are not a whole frame.
-/

open Bytes

namespace Wal

variable {E R : Type} (c : RecordCodec R) (rec : Recovery E R)

/-- A call of `append_batch`: one that returns `Ok`, or one that fails with `cut` bytes of its frame
in the file. -/
inductive Call (R : Type) where
  | ok (records : List R)
  | fails (records : List R) (cut : Nat)
deriving DecidableEq, Repr

/-- The data directory, its open log, and the acknowledged batches with the LSNs they got. -/
structure Appender (E R : Type) where
  dir : DataDir E
  wal : Wal
  acked : List (UInt64 × List R)

/-- The transaction id is used up, the length counter is not moved. -/
def failAppend (wal : Wal) (dir : DataDir E) (records : List R) (cut : Nat) : DataDir E × Wal :=
  if records.isEmpty then (dir, wal)
  else
    ({ dir with log := dir.log ++ (encodeFrame c wal.nextTxn records).take cut },
      { wal with nextTxn := wal.nextTxn + 1 })

def Appender.call (s : Appender E R) : Call R → Appender E R
  | .ok records =>
    let appended := s.wal.appendBatch c s.dir records
    ⟨appended.1, appended.2,
      if records.isEmpty then s.acked else s.acked ++ [(s.wal.currentLsn, records)]⟩
  | .fails records cut =>
    let failed := failAppend c s.wal s.dir records cut
    ⟨failed.1, failed.2, s.acked⟩

def Appender.step (s : Appender E R) (call : Call R) : Option (Appender E R) := some (s.call c call)

/-! ## The condition -/

/-- The counter is at the end of the file: no failed call has left bytes in it. -/
def Appender.AtEnd (s : Appender E R) : Prop := s.dir.log.length = s.wal.len

instance (s : Appender E R) : Decidable s.AtEnd := inferInstanceAs (Decidable (_ = _))

/-- Whatever is written goes to where the counter is; an acknowledged batch makes a frame that can
be read, and a failed call leaves no whole one. -/
def Appender.Safe (s : Appender E R) : Call R → Prop
  | .ok records => records ≠ [] → s.AtEnd ∧ Readable c records ∧
      s.wal.currentLsn.toNat + (encodeFrame c s.wal.nextTxn records).length < 2 ^ 64
  | .fails records cut => records ≠ [] → 0 < cut → s.AtEnd ∧ frameLen c records < 2 ^ 32 ∧
      (cut < (encodeFrame c s.wal.nextTxn records).length ∨ maxFrameLen < frameLen c records)

/-! ## The invariant -/

variable {c rec}

variable (c rec) in
/-- The log is whole frames with the acknowledged batches, and bytes of a failed call behind them if
the counter is not at its end. -/
structure Appender.Sound (dir₀ : DataDir E) (prior : List (List R)) (s : Appender E R) : Prop where
  checkpoint : s.dir.checkpoint = dir₀.checkpoint
  log : ∃ frames tail, Holds c s.dir (loadCheckpoint rec dir₀).2 s.wal.baseLsn frames tail ∧
    s.wal.len = walHeaderLen + (frameBytes c frames).length ∧
    s.wal.baseLsn.toNat + (frameBytes c frames).length < 2 ^ 64 ∧
    prior ++ s.acked.map Prod.snd
      = batchesFrom c (loadCheckpoint rec dir₀).2.toNat s.wal.baseLsn.toNat frames
  increasing : s.acked.Pairwise fun a b => a.1 < b.1
  below : ∀ a ∈ s.acked, a.1 < s.wal.currentLsn
  readable : ∀ a ∈ s.acked, Readable c a.2

namespace Appender.Sound

variable {dir₀ : DataDir E} {prior : List (List R)} {s s' : Appender E R}

/-- With the counter at the end of the file there is nothing behind the frames. -/
theorem tail_eq_nil {s : Appender E R} {walEnd baseLsn : UInt64} {frames : List (Frame R)}
    {tail : Bytes} (hholds : Holds c s.dir walEnd baseLsn frames tail)
    (hlen : s.wal.len = walHeaderLen + (frameBytes c frames).length) (hend : s.AtEnd) :
    tail = [] := by
  have hlog := congrArg List.length hholds.log_eq
  rw [hend, hlen, List.length_append, List.length_append, length_encodeWalHeader] at hlog
  exact List.length_eq_zero_iff.1 (by omega)

theorem ok (h : Sound c rec dir₀ prior s) {records : List R}
    (hsafe : s.Safe c (.ok records)) :
    Sound c rec dir₀ prior (s.call c (.ok records)) := by
  by_cases hne : records = []
  · subst hne
    exact h
  · obtain ⟨hend, hread, hnext⟩ := hsafe hne
    obtain ⟨frames, tail, hholds, hlen, hfits, hbatches⟩ := h.log
    obtain rfl := tail_eq_nil hholds hlen hend
    have hempty : records.isEmpty = false := by simpa using hne
    have hlsn := currentLsn_eq hlen hfits
    let wal' : Wal :=
      ⟨s.wal.len + (encodeFrame c s.wal.nextTxn records).length, s.wal.baseLsn, s.wal.nextTxn + 1⟩
    have happended : s.call c (.ok records)
        = ⟨{ s.dir with log := s.dir.log ++ encodeFrame c s.wal.nextTxn records }, wal',
          s.acked ++ [(s.wal.currentLsn, records)]⟩ := by
      simp [call, Wal.appendBatch, hempty, wal']
    rw [happended]
    have hlen' : wal'.len = walHeaderLen + (frameBytes c (frames ++ [⟨s.wal.nextTxn, records⟩])).length := by
      change s.wal.len + _ = _
      rw [hlen, frameBytes_snoc, List.length_append, Nat.add_assoc]
    have hfits' : s.wal.baseLsn.toNat
        + (frameBytes c (frames ++ [⟨s.wal.nextTxn, records⟩])).length < 2 ^ 64 := by
      rw [frameBytes_snoc, List.length_append, ← Nat.add_assoc, ← hlsn]
      exact hnext
    have hlsn' := currentLsn_eq hlen' hfits'
    have hpos : 0 < (encodeFrame c s.wal.nextTxn records).length := by
      rw [length_encodeFrame]
      omega
    rw [frameBytes_snoc, List.length_append] at hlsn'
    have hgrows : s.wal.currentLsn < wal'.currentLsn := by
      rw [UInt64.lt_iff_toNat_lt, hlsn, hlsn']
      exact Nat.add_lt_add_left (Nat.lt_add_of_pos_right hpos) _
    constructor
    · exact h.checkpoint
    · refine ⟨_, [], hholds.append hread s.wal.nextTxn, hlen', hfits', ?_⟩
      rw [batchesFrom_snoc _ _ _ _ hholds.walEnd_le, ← hbatches]
      simp
    · rw [List.pairwise_append]
      refine ⟨h.increasing, by simp, fun a ha b hb => ?_⟩
      obtain rfl := List.mem_singleton.1 hb
      exact h.below a ha
    · intro a ha
      rcases List.mem_append.1 ha with ha | ha
      · exact UInt64.lt_trans (h.below a ha) hgrows
      · obtain rfl := List.mem_singleton.1 ha
        exact hgrows
    · intro a ha
      rcases List.mem_append.1 ha with ha | ha
      · exact h.readable a ha
      · obtain rfl := List.mem_singleton.1 ha
        exact hread

theorem fails (h : Sound c rec dir₀ prior s) {records : List R} {cut : Nat}
    (hsafe : s.Safe c (.fails records cut)) :
    Sound c rec dir₀ prior (s.call c (.fails records cut)) := by
  by_cases hne : records = []
  · subst hne
    exact h
  · obtain ⟨frames, tail, hholds, hlen, hfits, hbatches⟩ := h.log
    have hempty : records.isEmpty = false := by simpa using hne
    have hfailed : s.call c (.fails records cut)
        = ⟨{ s.dir with log := s.dir.log ++ (encodeFrame c s.wal.nextTxn records).take cut },
          { s.wal with nextTxn := s.wal.nextTxn + 1 }, s.acked⟩ := by
      simp [call, failAppend, hempty]
    rw [hfailed]
    refine ⟨h.checkpoint, ?_, h.increasing, h.below, h.readable⟩
    by_cases hcut : cut = 0
    · subst hcut
      rw [List.take_zero, List.append_nil]
      exact ⟨frames, tail, hholds, hlen, hfits, hbatches⟩
    · obtain ⟨hend, hword, htorn⟩ := hsafe hne (Nat.pos_of_ne_zero hcut)
      obtain rfl := tail_eq_nil hholds hlen hend
      exact ⟨frames, _, hholds.tear hword s.wal.nextTxn cut htorn, hlen, hfits, hbatches⟩

theorem step {call : Call R} (h : Sound c rec dir₀ prior s)
    (hsafe : s.Safe c call) (hstep : s.step c call = some s') :
    Sound c rec dir₀ prior s' := by
  obtain rfl : _ = s' := Option.some.inj hstep
  cases call with
  | ok records => exact h.ok hsafe
  | fails records cut => exact h.fails hsafe

end Appender.Sound

/-! ## Atomicity -/

variable (c rec) in
/-- After the calls a recovery returns the acknowledged batches, in order, and no batch of a failed
call; their LSNs increase; and each of them makes a frame that `read_frame` accepts. -/
structure Appender.Atomic (prior : List (List R)) (s : Appender E R) : Prop where
  recovered : Returns c rec s.dir (prior ++ s.acked.map Prod.snd)
  increasing : s.acked.Pairwise fun a b => a.1 < b.1
  accepted : ∀ a ∈ s.acked, ∀ txnId pre tail,
    readFrame c walVersion (pre ++ (encodeFrame c txnId a.2 ++ tail)) pre.length
      = .ok (some (⟨txnId % 256 ^ 8, a.2⟩, pre.length + (encodeFrame c txnId a.2).length))

/-- A log after a call whose sync failed, with the whole frame in the file. -/
def failedSync : Appender Nat UInt64 :=
  Appender.call dbAclCodec ⟨⟨none, encodeWalHeader 0⟩, ⟨walHeaderLen, 0, 1⟩, []⟩ (.fails [7] 33)

end Wal
