-- SUMMARY: Durability of the WAL over runs of opens, appends and crashes.
import Rustgres.Lib.Run
import Rustgres.Wal.Writer

/-!
# WAL Durability

Runs of the log: it is opened, batches are appended, and a crash leaves any prefix of the bytes
that the append under way was writing. A later open should return the acknowledged batches, and it
does as long as nothing is written behind a torn tail.
-/

open Bytes

namespace Wal

variable {E R : Type} (c : RecordCodec R) (rec : Recovery E R)

-- ---------------------------------------------------------------------------
-- Runs
-- ---------------------------------------------------------------------------

/-- What happens to the log: an open, an acknowledged append, or a crash while `records` are being
appended, with `cut` of their bytes on disk. A crash between appends has no records. -/
inductive Step (R : Type) where
  | open
  | append (records : List R)
  | crash (records : List R) (cut : Nat)
deriving DecidableEq, Repr

/-- The data directory and the process that has it open, if any. -/
structure Node (E : Type) where
  dir : DataDir E
  wal : Option Wal

def step (n : Node E) : Step R → Option (Node E)
  | .open =>
    match Wal.open c rec n.dir with
    | .ok o => some ⟨o.dir, some o.wal⟩
    | .error _ => some ⟨n.dir, none⟩
  | .append records =>
    n.wal.map fun wal =>
      let (dir, wal) := wal.appendBatch c n.dir records
      ⟨dir, some wal⟩
  | .crash records cut =>
    n.wal.map fun wal =>
      ⟨{ n.dir with log := n.dir.log ++ (wal.batchBytes c records).take cut }, none⟩

/-- The batches that may be on disk after a step, from those before it: an acknowledged batch is,
the one being written at a crash may be. An empty record set is no batch. -/
def Step.outcomes (batches : List (List R)) : Step R → List (List (List R))
  | .open => [batches]
  | .append records => [if records.isEmpty then batches else batches ++ [records]]
  | .crash records _ =>
    if records.isEmpty then [batches] else [batches, batches ++ [records]]

/-- The batch lists a recovery may return after the steps. -/
def recoverable (steps : List (Step R)) : List (List (List R)) :=
  steps.foldl (fun outs s => outs.flatMap fun batches => s.outcomes batches) [[]]

theorem mem_recoverable_snoc {steps : List (Step R)} {s : Step R} {bs bs' : List (List R)}
    (h : bs ∈ recoverable steps) (h' : bs' ∈ s.outcomes bs) :
    bs' ∈ recoverable (steps ++ [s]) := by
  simp only [recoverable, List.foldl_append, List.foldl_cons, List.foldl_nil, List.mem_flatMap]
  exact ⟨bs, h, h'⟩

/-- Replay of whole batches, oldest first. -/
def replayBatches (eng : E) (batches : List (List R)) : Except String E :=
  batches.foldlM (applyFrame rec walVersion) eng

/-- `Wal::open` on `dir` returns exactly `batches`: it ends as their replay over the checkpoint
does. -/
def Returns (dir : DataDir E) (batches : List (List R)) : Prop :=
  (Wal.open c rec dir).map (fun o => (o.batches, o.eng))
    = (replayBatches rec (loadCheckpoint rec dir).1 batches).map
        fun eng => (batches, rec.clearTxns eng)

-- ---------------------------------------------------------------------------
-- Logs of whole frames
-- ---------------------------------------------------------------------------

/-- The bytes of logged frames. -/
def frameBytes (frames : List (Frame R)) : Bytes :=
  frames.flatMap fun f => encodeFrame c f.txnId f.records

/-- The batches of the frames from LSN `lsn` on that a checkpoint ending at `walEnd` misses. -/
@[grind =]
def batchesFrom (walEnd : Nat) : Nat → List (Frame R) → List (List R)
  | _, [] => []
  | lsn, f :: fs =>
    let rest := batchesFrom walEnd (lsn + (encodeFrame c f.txnId f.records).length) fs
    if lsn < walEnd then rest else f.records :: rest

/-- The log is a current-format header, whole readable frames, and a tail that no frame starts
in. -/
structure Holds (dir : DataDir E) (walEnd baseLsn : UInt64) (frames : List (Frame R))
    (tail : Bytes) : Prop where
  log_eq : dir.log = encodeWalHeader baseLsn ++ (frameBytes c frames ++ tail)
  readable : ∀ f ∈ frames, Readable c f.records
  torn : ∀ pre, readFrame c walVersion (pre ++ tail) pre.length = .ok none
  walEnd_le : walEnd.toNat ≤ baseLsn.toNat + (frameBytes c frames).length

/-- A directory a server can have left: a fresh one (no log, or a torn header), or one whose log
ends with a whole frame. `prior` are the batches after the checkpoint. -/
inductive Clean (dir : DataDir E) (walEnd : UInt64) : List (List R) → Prop
  | fresh : dir.log.length < 16 → Clean dir walEnd []
  | frames {baseLsn : UInt64} {frames : List (Frame R)} :
      Holds c dir walEnd baseLsn frames [] →
      Clean dir walEnd (batchesFrom c walEnd.toNat baseLsn.toNat frames)

variable {c rec}

@[simp]
theorem frameBytes_nil : frameBytes c ([] : List (Frame R)) = [] := rfl

theorem frameBytes_cons (f : Frame R) (fs : List (Frame R)) :
    frameBytes c (f :: fs) = encodeFrame c f.txnId f.records ++ frameBytes c fs := rfl

theorem frameBytes_snoc (fs : List (Frame R)) (f : Frame R) :
    frameBytes c (fs ++ [f]) = frameBytes c fs ++ encodeFrame c f.txnId f.records := by
  simp [frameBytes]

theorem length_le_frameBytes (fs : List (Frame R)) :
    fs.length ≤ (frameBytes c fs).length := by
  induction fs with
  | nil => simp
  | cons f fs ih =>
      simp only [frameBytes_cons, List.length_append, List.length_cons, length_encodeFrame]
      omega

theorem batchesFrom_snoc (walEnd lsn : Nat) (fs : List (Frame R)) (f : Frame R)
    (h : walEnd ≤ lsn + (frameBytes c fs).length) :
    batchesFrom c walEnd lsn (fs ++ [f]) = batchesFrom c walEnd lsn fs ++ [f.records] := by
  induction fs generalizing lsn with
  | nil =>
      have : ¬ lsn < walEnd := by simpa using h
      simp [batchesFrom, this]
  | cons g fs ih =>
      have hrest := ih (lsn + (encodeFrame c g.txnId g.records).length)
        (by simp only [frameBytes_cons, List.length_append] at h; omega)
      simp only [List.cons_append, batchesFrom, hrest]
      split <;> simp

-- ---------------------------------------------------------------------------
-- What the replay loop reads
-- ---------------------------------------------------------------------------

variable (rec) in
/-- The frames at and after `walEnd` are replayed in order, up to the tail. -/
theorem replayFrames_frames (baseLsn walEnd : UInt64) {frames : List (Frame R)} {tail : Bytes}
    (hread : ∀ f ∈ frames, Readable c f.records)
    (htorn : ∀ pre, readFrame c walVersion (pre ++ tail) pre.length = .ok none)
    (pre : Bytes) (hpre : walHeaderLen ≤ pre.length) (fuel : Nat) (hfuel : frames.length < fuel)
    (st : Replay E R) :
    (replayFrames c rec walVersion baseLsn walEnd (pre ++ (frameBytes c frames ++ tail)) fuel
        pre.length st).map (fun st' => (st'.eng, st'.batches))
      = (replayBatches rec st.eng
          (batchesFrom c walEnd.toNat (baseLsn.toNat + (pre.length - walHeaderLen)) frames)).map
          fun eng => (eng, st.batches ++
            batchesFrom c walEnd.toNat (baseLsn.toNat + (pre.length - walHeaderLen)) frames) := by
  induction frames generalizing pre fuel st with
  | nil =>
      obtain ⟨fuel, rfl⟩ : ∃ k, fuel = k + 1 := ⟨fuel - 1, by simp at hfuel; omega⟩
      simp [replayFrames, htorn, batchesFrom, replayBatches, Bind.bind, Except.bind, Pure.pure,
        Except.pure, Except.map]
  | cons f frames ih =>
      obtain ⟨fuel, rfl⟩ : ∃ k, fuel = k + 1 := ⟨fuel - 1, by simp at hfuel; omega⟩
      have hf : Readable c f.records := hread f (by simp)
      have hframe := readFrame_encodeFrame hf f.txnId pre (frameBytes c frames ++ tail)
      -- The rest of the file, seen from behind this frame.
      have hfile : pre ++ (frameBytes c (f :: frames) ++ tail)
          = (pre ++ encodeFrame c f.txnId f.records) ++ (frameBytes c frames ++ tail) := by
        simp [frameBytes_cons]
      have hlsn : baseLsn.toNat + (pre.length - walHeaderLen)
            + (encodeFrame c f.txnId f.records).length
          = baseLsn.toNat
            + ((pre ++ encodeFrame c f.txnId f.records).length - walHeaderLen) := by
        simp only [List.length_append]
        omega
      have hih := ih (fun g hg => hread g (by simp [hg]))
        (pre ++ encodeFrame c f.txnId f.records) (by simp only [List.length_append]; omega)
        fuel (by simp only [List.length_cons] at hfuel; omega)
      rw [← hlsn, ← hfile, List.length_append] at hih
      rw [show pre ++ (frameBytes c (f :: frames) ++ tail)
        = pre ++ (encodeFrame c f.txnId f.records ++ (frameBytes c frames ++ tail)) by
          simp [frameBytes_cons]] at hih ⊢
      simp only [replayFrames, hframe, batchesFrom, Bind.bind, Except.bind]
      by_cases hskip : baseLsn.toNat + (pre.length - walHeaderLen) < walEnd.toNat
      · simp only [if_pos hskip]
        exact hih st
      · simp only [if_neg hskip]
        cases happly : applyFrame rec walVersion st.eng f.records with
        | error e =>
            simp [replayBatches, happly, Except.map, Bind.bind, Except.bind]
        | ok eng =>
            rw [hih]
            simp [replayBatches, happly, Bind.bind, Except.bind]

variable (rec) in
theorem open_holds {dir : DataDir E} {baseLsn : UInt64} {frames : List (Frame R)} {tail : Bytes}
    (h : Holds c dir (loadCheckpoint rec dir).2 baseLsn frames tail) :
    Returns c rec dir (batchesFrom c (loadCheckpoint rec dir).2.toNat baseLsn.toNat frames) ∧
      ∀ o, Wal.open c rec dir = .ok o → o.dir = dir := by
  have hhdr := readWalHeader_encode baseLsn (frameBytes c frames ++ tail)
  rw [← h.log_eq] at hhdr
  have hfuel : frames.length < dir.log.length + 1 := by
    have := length_le_frameBytes (c := c) frames
    simp only [h.log_eq, List.length_append]
    omega
  have hreplay := replayFrames_frames rec baseLsn (loadCheckpoint rec dir).2 h.readable h.torn (encodeWalHeader baseLsn)
    (by simp) (dir.log.length + 1) hfuel ⟨(loadCheckpoint rec dir).1, [], 0⟩
  rw [← h.log_eq, length_encodeWalHeader] at hreplay
  simp only [Nat.sub_self, Nat.add_zero] at hreplay
  simp only [Returns, Wal.open, hhdr, Bind.bind, Except.bind]
  cases hloop : replayFrames c rec walVersion baseLsn (loadCheckpoint rec dir).2 dir.log
      (dir.log.length + 1) walHeaderLen ⟨(loadCheckpoint rec dir).1, [], 0⟩ with
  | error e =>
      rw [hloop] at hreplay
      refine ⟨?_, by simp⟩
      cases hbatches : replayBatches rec (loadCheckpoint rec dir).1
          (batchesFrom c (loadCheckpoint rec dir).2.toNat baseLsn.toNat frames) with
      | error e' => simpa [hbatches, Except.map] using hreplay
      | ok eng => simp [hbatches, Except.map] at hreplay
  | ok st =>
      rw [hloop] at hreplay
      refine ⟨?_, by simp [Pure.pure, Except.pure]⟩
      cases hbatches : replayBatches rec (loadCheckpoint rec dir).1
          (batchesFrom c (loadCheckpoint rec dir).2.toNat baseLsn.toNat frames) with
      | error e' => simp [hbatches, Except.map] at hreplay
      | ok eng =>
          simp only [hbatches, Except.map, Except.ok.injEq, Prod.mk.injEq, List.nil_append]
            at hreplay
          simp [Except.map, Pure.pure, Except.pure, hreplay]

variable (rec) in
/-- A missing or torn header starts a generation at the checkpoint's end, with nothing in it. -/
theorem open_fresh {dir : DataDir E} (h : dir.log.length < 16) :
    Returns c rec dir [] ∧ ∃ o, Wal.open c rec dir = .ok o ∧
      o.dir = { dir with log := encodeWalHeader (loadCheckpoint rec dir).2 } := by
  have hempty := readFrame_end (c := c) (encodeWalHeader (loadCheckpoint rec dir).2)
  rw [length_encodeWalHeader] at hempty
  have hopen : Wal.open c rec dir = .ok
      ⟨{ dir with log := encodeWalHeader (loadCheckpoint rec dir).2 },
        rec.clearTxns (loadCheckpoint rec dir).1, [],
        ⟨walHeaderLen, (loadCheckpoint rec dir).2, 1⟩⟩ := by
    simp [Wal.open, readWalHeader_short h, replayFrames, hempty, Bind.bind, Except.bind, Pure.pure,
      Except.pure]
  refine ⟨?_, _, hopen, rfl⟩
  simp [Returns, hopen, replayBatches, Except.map, Pure.pure, Except.pure]

-- ---------------------------------------------------------------------------
-- Steps
-- ---------------------------------------------------------------------------

/-- One more readable frame behind a log of whole frames. -/
theorem Holds.append {dir : DataDir E} {walEnd baseLsn : UInt64} {frames : List (Frame R)}
    (h : Holds c dir walEnd baseLsn frames []) {records : List R} (hread : Readable c records)
    (txnId : Nat) :
    Holds c { dir with log := dir.log ++ encodeFrame c txnId records } walEnd baseLsn
      (frames ++ [⟨txnId, records⟩]) [] := by
  refine ⟨?_, ?_, ?_, ?_⟩
  · simp [h.log_eq, frameBytes_snoc]
  · intro f hf
    rcases List.mem_append.mp hf with hf | hf
    · exact h.readable f hf
    · rw [List.mem_singleton.mp hf]
      exact hread
  · intro pre
    simpa using readFrame_end (c := c) pre
  · have := h.walEnd_le
    simp only [frameBytes_snoc, List.length_append]
    omega

/-- A torn frame behind a log of whole frames is a tail that no frame starts in. -/
theorem Holds.tear {dir : DataDir E} {walEnd baseLsn : UInt64} {frames : List (Frame R)}
    (h : Holds c dir walEnd baseLsn frames []) {records : List R}
    (hlen : frameLen c records < 2 ^ 32) (txnId cut : Nat)
    (hcut : cut < (encodeFrame c txnId records).length ∨ maxFrameLen < frameLen c records) :
    Holds c { dir with log := dir.log ++ (encodeFrame c txnId records).take cut } walEnd baseLsn
      frames ((encodeFrame c txnId records).take cut) :=
  ⟨by simp [h.log_eq], h.readable, fun pre => readFrame_torn hlen txnId cut pre hcut,
    h.walEnd_le⟩

variable (c) in
/-- The batch of an append is one `read_frame` can return, and so is that of a crash unless it is
cut short. The length word of the frame under way at a crash has not wrapped. -/
def Step.Fits : Step R → Prop
  | .open => True
  | .append records => records = [] ∨ Readable c records
  | .crash records cut => records = [] ∨ (frameLen c records < 2 ^ 32 ∧
      (4 + frameLen c records ≤ cut → frameLen c records ≤ maxFrameLen →
        ∀ r ∈ records, c.RoundTrips r))

variable (c) in
/-- The crash leaves bytes of a frame that `read_frame` will not return. -/
def Step.Tears : Step R → Prop
  | .crash records cut => records ≠ [] ∧ 0 < cut ∧
      ¬ (4 + frameLen c records ≤ cut ∧ frameLen c records ≤ maxFrameLen)
  | _ => False

/-- The step adds bytes to the file. -/
def Step.Writes : Step R → Prop
  | .open => False
  | .append records => records ≠ []
  | .crash records cut => records ≠ [] ∧ 0 < cut

variable (c rec) in
/-- The log after `steps` from `dir₀`: still without a header, or whole frames with the batches
`prior` and those of the steps, and a torn tail only after a crash that tore one. -/
def Ledger (dir₀ : DataDir E) (prior : List (List R)) (steps : List (Step R)) (n : Node E) :
    Prop :=
  n.dir.checkpoint = dir₀.checkpoint ∧ ∃ batches ∈ recoverable steps,
    (n.dir.log.length < 16 ∧ n.wal = none ∧ prior ++ batches = []) ∨
    ∃ baseLsn frames tail, Holds c n.dir (loadCheckpoint rec dir₀).2 baseLsn frames tail ∧
      prior ++ batches = batchesFrom c (loadCheckpoint rec dir₀).2.toNat baseLsn.toNat frames ∧
      (tail ≠ [] → ∃ s ∈ steps, s.Tears c)

variable (rec) in
theorem loadCheckpoint_congr {dir dir' : DataDir E} (h : dir.checkpoint = dir'.checkpoint) :
    loadCheckpoint rec dir = loadCheckpoint rec dir' := by
  simp [loadCheckpoint, h]

theorem Ledger.open {dir₀ : DataDir E} {prior : List (List R)} {steps : List (Step R)}
    {n n' : Node E} (h : Ledger c rec dir₀ prior steps n) (hstep : step c rec n .open = some n') :
    Ledger c rec dir₀ prior (steps ++ [.open]) n' := by
  obtain ⟨hchk, batches, hbs, hlog⟩ := h
  have hbs' : batches ∈ recoverable (steps ++ [.open]) :=
    mem_recoverable_snoc hbs (by simp [Step.outcomes])
  rcases hlog with ⟨hshort, _, hempty⟩ | ⟨baseLsn, frames, tail, hholds, heq, htail⟩
  · obtain ⟨_, o, ho, hdir⟩ := open_fresh (c := c) rec hshort
    simp only [step, ho, Option.some.injEq] at hstep
    subst hstep
    refine ⟨by simp [hdir, hchk], batches, hbs', .inr ⟨(loadCheckpoint rec dir₀).2, [], [], ?_,
      by simp [hempty, batchesFrom], by simp⟩⟩
    rw [hdir, loadCheckpoint_congr rec hchk]
    exact ⟨by simp, by simp, fun pre => by simpa using readFrame_end pre, by simp⟩
  · have hload := loadCheckpoint_congr rec hchk
    obtain ⟨_, hdir⟩ := open_holds rec (hload ▸ hholds)
    have hsame : n'.dir = n.dir := by
      simp only [step] at hstep
      split at hstep
      · next o ho => cases hstep; exact hdir o ho
      · cases hstep; rfl
    refine ⟨by rw [hsame, hchk], batches, hbs', .inr ⟨baseLsn, frames, tail, hsame ▸ hholds, heq,
      fun ht => ?_⟩⟩
    obtain ⟨s, hs, htears⟩ := htail ht
    exact ⟨s, by simp [hs], htears⟩

/-- A step that adds no bytes and acknowledges nothing keeps the ledger. -/
private theorem Ledger.idle {dir₀ : DataDir E} {prior : List (List R)} {steps : List (Step R)}
    {n n' : Node E} {s : Step R} (h : Ledger c rec dir₀ prior steps n) (hdir : n'.dir = n.dir)
    (hwal : n.wal ≠ none) (hout : ∀ batches, batches ∈ s.outcomes batches) :
    Ledger c rec dir₀ prior (steps ++ [s]) n' := by
  obtain ⟨hchk, batches, hbs, hlog⟩ := h
  refine ⟨hdir ▸ hchk, batches, mem_recoverable_snoc hbs (hout batches), .inr ?_⟩
  obtain ⟨_, hnone, _⟩ | ⟨baseLsn, frames, tail, hholds, heq, htail⟩ := hlog
  · exact absurd hnone hwal
  · refine ⟨baseLsn, frames, tail, hdir ▸ hholds, heq, fun ht => ?_⟩
    obtain ⟨t, ht, htears⟩ := htail ht
    exact ⟨t, by simp [ht], htears⟩

/-- Before a step that writes, the log ends with a whole frame. -/
private theorem Ledger.whole {dir₀ : DataDir E} {prior : List (List R)} {steps : List (Step R)}
    {n : Node E} (h : Ledger c rec dir₀ prior steps n) (hwal : n.wal ≠ none)
    (hno : ∀ s ∈ steps, ¬ s.Tears c) :
    n.dir.checkpoint = dir₀.checkpoint ∧ ∃ batches ∈ recoverable steps, ∃ baseLsn frames,
      Holds c n.dir (loadCheckpoint rec dir₀).2 baseLsn frames [] ∧
      prior ++ batches = batchesFrom c (loadCheckpoint rec dir₀).2.toNat baseLsn.toNat frames := by
  obtain ⟨hchk, batches, hbs, hlog⟩ := h
  refine ⟨hchk, batches, hbs, ?_⟩
  obtain ⟨_, hnone, _⟩ | ⟨baseLsn, frames, tail, hholds, heq, htail⟩ := hlog
  · exact absurd hnone hwal
  · have hnil : tail = [] := by
      by_contra hne
      obtain ⟨s, hs, htears⟩ := htail hne
      exact hno s hs htears
    exact ⟨baseLsn, frames, hnil ▸ hholds, heq⟩

/-- A whole readable frame at the end of the file is one more batch of the ledger. -/
private theorem Ledger.written {dir₀ : DataDir E} {prior : List (List R)} {steps : List (Step R)}
    {n n' : Node E} {s : Step R} (h : Ledger c rec dir₀ prior steps n) (hwal : n.wal ≠ none)
    (hno : ∀ t ∈ steps, ¬ t.Tears c) {records : List R} (hread : Readable c records) (txnId : Nat)
    (hdir : n'.dir = { n.dir with log := n.dir.log ++ encodeFrame c txnId records })
    (hout : ∀ batches, batches ++ [records] ∈ s.outcomes batches) :
    Ledger c rec dir₀ prior (steps ++ [s]) n' := by
  obtain ⟨hchk, batches, hbs, baseLsn, frames, hholds, heq⟩ := h.whole hwal hno
  refine ⟨by rw [hdir, ← hchk], batches ++ [records], mem_recoverable_snoc hbs (hout batches),
    .inr ⟨baseLsn, frames ++ [⟨txnId, records⟩], [], hdir ▸ hholds.append hread txnId, ?_,
      by simp⟩⟩
  rw [batchesFrom_snoc _ _ _ _ hholds.walEnd_le, ← heq, List.append_assoc]

theorem Ledger.append {dir₀ : DataDir E} {prior : List (List R)} {steps : List (Step R)}
    {n n' : Node E} {records : List R} (h : Ledger c rec dir₀ prior steps n)
    (hfits : (Step.append records).Fits c)
    (hno : ∀ s ∈ steps, s.Tears c → ¬ (Step.append records).Writes)
    (hstep : step c rec n (.append records) = some n') :
    Ledger c rec dir₀ prior (steps ++ [.append records]) n' := by
  obtain ⟨wal, hwal, rfl⟩ := Option.map_eq_some_iff.mp hstep
  have hopen : n.wal ≠ none := by simp [hwal]
  rcases hfits with rfl | hread
  · exact h.idle (by simp [Wal.appendBatch]) hopen (by simp [Step.outcomes])
  · by_cases hnil : records = []
    · subst hnil
      exact h.idle (by simp [Wal.appendBatch]) hopen (by simp [Step.outcomes])
    · exact h.written hopen (fun s hs ht => hno s hs ht hnil) hread wal.nextTxn
        (by simp [Wal.appendBatch, hnil]) (by simp [Step.outcomes, hnil])

theorem Ledger.crash {dir₀ : DataDir E} {prior : List (List R)} {steps : List (Step R)}
    {n n' : Node E} {records : List R} {cut : Nat} (h : Ledger c rec dir₀ prior steps n)
    (hfits : (Step.crash records cut).Fits c)
    (hno : ∀ s ∈ steps, s.Tears c → ¬ (Step.crash records cut).Writes)
    (hstep : step c rec n (.crash records cut) = some n') :
    Ledger c rec dir₀ prior (steps ++ [.crash records cut]) n' := by
  obtain ⟨wal, hwal, rfl⟩ := Option.map_eq_some_iff.mp hstep
  have hopen : n.wal ≠ none := by simp [hwal]
  by_cases hwrites : (Step.crash records cut).Writes
  · obtain ⟨hne, hpos⟩ := hwrites
    have hclean : ∀ s ∈ steps, ¬ s.Tears c := fun s hs ht => hno s hs ht ⟨hne, hpos⟩
    obtain ⟨hlen, hround⟩ := hfits.resolve_left hne
    by_cases hwhole : 4 + frameLen c records ≤ cut ∧ frameLen c records ≤ maxFrameLen
    · have htake : (encodeFrame c wal.nextTxn records).take cut
          = encodeFrame c wal.nextTxn records :=
        List.take_of_length_le (by simpa using hwhole.1)
      exact h.written hopen hclean ⟨hwhole.2, hround hwhole.1 hwhole.2⟩ wal.nextTxn
        (by simp [Wal.batchBytes, hne, htake]) (by simp [Step.outcomes, hne])
    · obtain ⟨hchk, batches, hbs, baseLsn, frames, hholds, heq⟩ := h.whole hopen hclean
      have htear := hholds.tear hlen wal.nextTxn cut (by
        rw [length_encodeFrame]
        omega)
      refine ⟨hchk, batches, mem_recoverable_snoc hbs (by simp [Step.outcomes, hne]),
        .inr ⟨baseLsn, frames, _, by simpa [Wal.batchBytes, hne] using htear, heq, fun _ => ?_⟩⟩
      exact ⟨.crash records cut, by simp, hne, hpos, hwhole⟩
  · have hbytes : (wal.batchBytes c records).take cut = [] := by
      simp only [Step.Writes, not_and, Nat.not_lt, Nat.le_zero] at hwrites
      by_cases hne : records = []
      · simp [Wal.batchBytes, hne]
      · simp [hwrites hne]
    exact h.idle (by simp [hbytes]) hopen (by simp only [Step.outcomes]; intro b; split <;> simp)

/-- Every run that never writes behind a torn tail keeps the ledger. -/
theorem Ledger.of_run {dir₀ : DataDir E} {prior : List (List R)} {steps : List (Step R)}
    {n : Node E} (hclean : Clean c dir₀ (loadCheckpoint rec dir₀).2 prior)
    (hrun : run (step c rec) ⟨dir₀, none⟩ steps = some n) (hfits : ∀ s ∈ steps, s.Fits c)
    (hpair : steps.Pairwise fun s t => s.Tears c → ¬ t.Writes) :
    Ledger c rec dir₀ prior steps n := by
  refine run.invariant (fun steps n => (∀ s ∈ steps, s.Fits c) →
    steps.Pairwise (fun s t => s.Tears c → ¬ t.Writes) → Ledger c rec dir₀ prior steps n)
    ?_ ?_ hrun hfits hpair
  · intro _ _
    refine ⟨rfl, [], by simp [recoverable], ?_⟩
    cases hclean with
    | fresh hshort => exact .inl ⟨hshort, rfl, rfl⟩
    | @frames baseLsn frames hholds => exact .inr ⟨baseLsn, frames, [], hholds, by simp, by simp⟩
  · intro steps m s m' _ ih hstep hfits hpair
    obtain ⟨hpair, -, hno⟩ := List.pairwise_append.mp hpair
    have hledger := ih (fun t ht => hfits t (by simp [ht])) hpair
    have hs : s.Fits c := hfits s (by simp)
    have hno' : ∀ t ∈ steps, t.Tears c → ¬ s.Writes := fun t ht => hno t ht s (by simp)
    cases s with
    | «open» => exact hledger.open hstep
    | append records => exact hledger.append hs hno' hstep
    | crash records cut => exact hledger.crash hs hno' hstep

-- ---------------------------------------------------------------------------
-- Durability
-- ---------------------------------------------------------------------------

variable (c rec) in
/-- In the run, the next `Wal::open` returns the batches acknowledged, in order, with or without
those under way at a crash. -/
def Durable (dir₀ : DataDir E) (prior : List (List R)) (steps : List (Step R)) : Prop :=
  ∀ n, run (step c rec) ⟨dir₀, none⟩ steps = some n →
    ∃ batches ∈ recoverable steps, Returns c rec n.dir (prior ++ batches)

/-- `WalRecord::DbAcl` with an empty ACL, the record of a REVOKE of the database's last entry. The
record is its `xmin`. -/
def dbAclCodec : RecordCodec UInt64 where
  enc xmin := [17] ++ be 4 0 ++ be 8 xmin.toNat
  dec := do
    let tag ← Dec.uint 1
    let n ← Dec.uint 4
    let xmin ← Dec.uint 8
    if tag = 17 ∧ n = 0 then return UInt64.ofNat xmin
    else throw "unknown WAL record tag"
  enc_ne_nil _ := by simp

/-- The engine part that such a record changes besides the ACL: the next xid. -/
def dbAclRecovery : Recovery Nat UInt64 where
  empty := 1
  applyRecord nextXid xmin := .ok (if xmin.toNat ≥ nextXid then xmin.toNat + 1 else nextXid)
  legacyFillPartition _ _ := none
  clearTxns := id
  image := id

theorem dbAclCodec_roundTrips (xmin : UInt64) : dbAclCodec.RoundTrips xmin := by
  intro pre post
  have hfit : xmin.toNat % 256 ^ 8 = xmin.toNat :=
    Nat.mod_eq_of_lt (by have := xmin.toNat_lt; omega)
  have htag := Decodes.uint (v := walVersion) 1 17
  have hcount := Decodes.uint (v := walVersion) 4 0
  have hxmin := Decodes.uint (v := walVersion) 8 xmin.toNat
  rw [hfit] at hxmin
  have hall := htag.bind (f := fun tag => Dec.uint 4 >>= fun n => Dec.uint 8 >>= fun x =>
      if tag = 17 ∧ n = 0 then pure (UInt64.ofNat x) else throw "unknown WAL record tag")
    (hcount.bind (f := fun n => Dec.uint 8 >>= fun x =>
        if 17 % 256 ^ 1 = 17 ∧ n = 0 then pure (UInt64.ofNat x)
        else throw "unknown WAL record tag")
      (hxmin.bind (f := fun x => if 17 % 256 ^ 1 = 17 ∧ 0 % 256 ^ 4 = 0 then pure (UInt64.ofNat x)
        else throw "unknown WAL record tag") (by simpa using Decodes.pure xmin)))
  simpa [dbAclCodec, be] using hall pre post

/-- The server dies inside an append, restarts, and acknowledges a batch behind the torn frame. -/
def appendBehindTear : List (Step UInt64) :=
  [.open, .crash [7] 5, .open, .append [8]]

end Wal
