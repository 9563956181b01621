-- SUMMARY: A resumed stream shows every later change once and in order, if checkpoints keep what slots need.
import Rustgres.Repl.Stream
import Rustgres.Wal.Reading

/-!
# Exactly Once

The history is every batch in commit order. What a stream has sent is the changes of the history from
its start to its position, as long as no checkpoint drops a frame with changes that a slot has yet to
confirm or a stream has yet to send.
-/

open Bytes

namespace Repl

variable {E V K O : Type}

/-- Batches with their LSNs, in commit order. -/
abbrev History (V O : Type) := List (Nat × List (LogRecord V O))

/-! ## What should be delivered -/

/-- The batches with changes at or after `a`. -/
def changesSince (history : History V O) (a : Nat) : History V O :=
  history.filter fun f => HasChanges f.2 ∧ a ≤ f.1

/-- The batches with changes from `a` up to `b`. -/
def changesBetween (history : History V O) (a b : Nat) : History V O :=
  history.filter fun f => (HasChanges f.2 ∧ a ≤ f.1) ∧ f.1 < b

section Delivered

variable (logicalValue : V → String)

/-- The messages are the lines of the batch, under some definitions of its tables. -/
def Shows (K : Type) (f : Nat × List (LogRecord V O)) (msgs : List (Nat × String)) : Prop :=
  ∃ db : Database V K, msgs = (decodeFrame logicalValue db f.1 f.2).map fun line => (f.1, line)

/-- The messages show each of the batches once, in order, and nothing else. -/
def Delivered (K : Type) (fs : History V O) (msgs : List (Nat × String)) : Prop :=
  ∃ parts, List.Forall₂ (Shows logicalValue K) fs parts ∧ msgs = parts.flatten

variable {logicalValue}

theorem Delivered.nil : Delivered logicalValue K ([] : History V O) [] := ⟨[], .nil, rfl⟩

theorem Delivered.append {fs gs : History V O} {msgs msgs' : List (Nat × String)}
    (h : Delivered logicalValue K fs msgs) (h' : Delivered logicalValue K gs msgs') :
    Delivered logicalValue K (fs ++ gs) (msgs ++ msgs') := by
  obtain ⟨parts, hparts, rfl⟩ := h
  obtain ⟨parts', hparts', rfl⟩ := h'
  exact ⟨parts ++ parts', List.rel_append hparts hparts', by simp⟩

/-- What one round of a stream sends of the batches it read. -/
theorem delivered_messages (db : Database V K) (fs : History V O) :
    Delivered logicalValue K (fs.filter fun f => HasChanges f.2)
      (messages (fs.map fun f => (f.1, decodeFrame logicalValue db f.1 f.2))) := by
  induction fs with
  | nil => exact .nil
  | cons f fs ih =>
    simp only [List.map_cons, messages, List.flatMap_cons]
    by_cases hf : HasChanges f.2
    · rw [List.filter_cons_of_pos (by simpa using hf)]
      exact Delivered.append ⟨[_], .cons ⟨db, rfl⟩ .nil, by simp⟩ ih
    · rw [List.filter_cons_of_neg (by simpa using hf), decodeFrame_eq_nil logicalValue db hf]
      exact ih

variable (logicalValue K) in
/-- Every list of batches has messages that deliver it. -/
theorem exists_delivered (fs : History V O) :
    ∃ msgs, Delivered logicalValue K (fs.filter fun f => HasChanges f.2) msgs :=
  ⟨_, delivered_messages ⟨∅, ∅, ∅, ∅⟩ fs⟩

end Delivered

section Ranges

variable {history : History V O} {a b d : Nat}

theorem changesBetween_self : changesBetween history a a = [] := by
  rw [changesBetween, List.filter_eq_nil_iff]
  intro f _ hf
  simp only [decide_eq_true_eq] at hf
  omega

/-- The history in commit order, cut at a position. -/
theorem changesSince_split (hsorted : history.Pairwise fun e e' => e.1 < e'.1) (h : a ≤ b) :
    changesSince history a = changesBetween history a b ++ changesSince history b := by
  induction history with
  | nil => rfl
  | cons f history ih =>
    obtain ⟨hf, hrest⟩ := List.pairwise_cons.1 hsorted
    have ih := ih hrest
    simp only [changesSince, changesBetween, Bool.decide_and] at ih ⊢
    by_cases hchanges : HasChanges f.2
    · by_cases hb : f.1 < b
      · have hnb : ¬ b ≤ f.1 := Nat.not_le.2 hb
        by_cases ha : a ≤ f.1 <;> simp [hchanges, hb, hnb, ha, ih]
      · have hb' : b ≤ f.1 := Nat.not_lt.1 hb
        have hnone : history.filter
            (fun g => (decide (HasChanges g.2) && decide (a ≤ g.1)) && decide (g.1 < b)) = [] := by
          rw [List.filter_eq_nil_iff]
          intro g hg hgb
          have := hf g hg
          simp only [Bool.and_eq_true, decide_eq_true_eq] at hgb
          omega
        rw [hnone, List.nil_append] at ih
        have ha : a ≤ f.1 := h.trans hb'
        simp [hchanges, hb, hb', ha, hnone, ih]
    · simp [hchanges, ih]

/-- A batch behind the range. -/
theorem changesBetween_append {f : Nat × List (LogRecord V O)} (h : a = b ∨ b ≤ f.1) :
    changesBetween (history ++ [f]) a b = changesBetween history a b := by
  have hf : ¬ ((HasChanges f.2 ∧ a ≤ f.1) ∧ f.1 < b) := by
    rintro ⟨⟨-, hab⟩, hb⟩
    omega
  simp [changesBetween, List.filter_append, hf]

end Ranges

/-! ## The condition -/

namespace Primary

variable (c : RecordCodec (LogRecord V O))

/-- A slot has yet to confirm what is at `lsn`. -/
def SlotNeeds (slots : Slots) (lsn : Nat) : Prop :=
  ∃ slot ∈ slots.values, slot.slotType = "logical" ∧ slot.confirmedFlushLsn ≤ lsn

/-- A stream has yet to send what is at `lsn`. -/
def StreamNeeds (streams : Dict Sid Walsender) (lsn : Nat) : Prop :=
  ∃ st ∈ streams.values, st.broken = false ∧ st.next ≤ lsn

def Needed (s : Primary E V O) (lsn : Nat) : Prop :=
  SlotNeeds s.slots lsn ∨ StreamNeeds s.streams lsn

/-- A checkpoint drops no frame with changes that is needed. A batch makes a frame that can be read
back, and the log does not outgrow its LSNs. -/
def Retains (s : Primary E V O) : PrimaryStep E V K O → Prop
  | .append records => records ≠ [] → Readable c records ∧
      s.wal.currentLsn.toNat + (encodeFrame c s.wal.nextTxn records).length < 2 ^ 64
  | .checkpoint _ => ∀ f ∈ s.history, s.wal.baseLsn.toNat ≤ f.1 → HasChanges f.2 → ¬ s.Needed f.1
  | _ => True

/-! ## The invariant -/

variable {c}

/-- The stream has sent the changes from its start to its position. -/
def StreamOk (logicalValue : V → String) (K : Type) (history : History V O) (walEnd : Nat)
    (st : Walsender) : Prop :=
  ∃ stop msgs, st.start ≤ stop ∧ (st.start = stop ∨ stop ≤ walEnd) ∧
    Delivered logicalValue K (changesBetween history st.start stop) msgs ∧ st.received <+: msgs ∧
    (st.broken = false → stop = st.next ∧ st.received = msgs)

/-- The log is the newest part of the history; of what is older, nothing with changes is needed. -/
structure Coherent (c : RecordCodec (LogRecord V O)) (logicalValue : V → String) (K : Type)
    (s : Primary E V O) : Prop where
  log : ∃ frames old, Wal.Live (c := c) s.wal s.dir frames ∧
    s.history = old ++ Wal.located c s.wal.baseLsn.toNat frames ∧
    old.Pairwise (fun e e' => e.1 < e'.1) ∧
    ∀ f ∈ old, f.1 < s.wal.baseLsn.toNat ∧ (HasChanges f.2 → ¬ s.Needed f.1)
  streams : ∀ st ∈ s.streams.values,
    StreamOk logicalValue K s.history s.wal.currentLsn.toNat st

/-! ## Frames read and sent -/

theorem sendFrames_eq {α : Type} {walEnd next : Nat} {frames : List (Nat × α)} (hne : frames ≠ [])
    (hframes : ∀ f ∈ frames, f.1 ≤ walEnd) (hnext : next ≤ walEnd) :
    sendFrames walEnd next frames = walEnd := by
  induction frames generalizing next with
  | nil => exact absurd rfl hne
  | cons f fs ih =>
    cases fs with
    | nil => exact max_eq_left hnext
    | cons g fs =>
      have hg : g.1 ≤ walEnd := hframes g (by simp)
      exact ih (by simp) (fun e he => hframes e (List.mem_cons_of_mem f he)) (max_le hg hnext)

namespace Coherent

variable {logicalValue : V → String} {s s' : Primary E V O} {sid : Sid} {st : Walsender}

theorem below (h : Coherent c logicalValue K s) :
    ∀ f ∈ s.history, f.1 < s.wal.currentLsn.toNat := by
  obtain ⟨frames, old, hlive, hhistory, -, hold⟩ := h.log
  rw [hhistory, hlive.currentLsn]
  intro f hf
  rcases List.mem_append.1 hf with hf | hf
  · exact (hold f hf).1.trans_le (Nat.le_add_right ..)
  · exact (Wal.located_bounds hf).2

theorem sorted (h : Coherent c logicalValue K s) : s.history.Pairwise fun e e' => e.1 < e'.1 := by
  obtain ⟨frames, old, -, hhistory, hsorted, hold⟩ := h.log
  rw [hhistory, List.pairwise_append]
  refine ⟨hsorted, Wal.located_pairwise .., fun e he e' he' => ?_⟩
  exact (hold e he).1.trans_le (Wal.located_bounds he').1

/-- Nothing is at or after the end of the log. -/
theorem changesSince_end (h : Coherent c logicalValue K s) :
    changesSince s.history s.wal.currentLsn.toNat = [] := by
  rw [changesSince, List.filter_eq_nil_iff]
  intro f hf hlsn
  have := h.below f hf
  simp only [decide_eq_true_eq] at hlsn
  omega

/-- What a stream reads, sends and has sent then; nothing is left behind its new position. -/
theorem poll_delivers (h : Coherent c logicalValue K s) (hst : s.streams.lookup sid = some st)
    (hopen : st.broken = false) (db : Database V K) :
    ∃ raw, s.wal.readFramesSince c s.dir st.next = .ok raw ∧
      ∃ frames, raw.map (fun f => (f.1, decodeFrame logicalValue db f.1 f.2.records)) = frames ∧
        let next := sendFrames s.wal.currentLsn.toNat st.next frames
        st.next ≤ next ∧ st.start ≤ next ∧ (st.start = next ∨ next ≤ s.wal.currentLsn.toNat) ∧
          Delivered logicalValue K (changesBetween s.history st.start next)
            (st.received ++ messages frames) ∧
          changesSince s.history next = [] := by
  obtain ⟨frames, old, hlive, hhistory, -, hold⟩ := h.log
  have hmem : st ∈ s.streams.values := Dict.mem_values.2 ⟨sid, hst⟩
  obtain ⟨stop, msgs, hle, hend, hdelivered, -, hnow⟩ := h.streams st hmem
  obtain ⟨rfl, rfl⟩ := hnow hopen
  have hread := hlive.readFramesSince st.next
  cases hraw : s.wal.readFramesSince c s.dir st.next with
  | error e => simp [hraw, Except.map] at hread
  | ok raw =>
    have hbatches : raw.map Wal.batchAt
        = (Wal.located c s.wal.baseLsn.toNat frames).filter fun e => st.next ≤ e.1 := by
      simpa [hraw, Except.map] using hread
    have hdecoded : raw.map (fun f => (f.1, decodeFrame logicalValue db f.1 f.2.records))
        = ((Wal.located c s.wal.baseLsn.toNat frames).filter fun e => st.next ≤ e.1).map
            fun f => (f.1, decodeFrame logicalValue db f.1 f.2) := by
      rw [← hbatches, List.map_map]
      rfl
    -- what lies before this generation is not needed
    have hsince : changesSince s.history st.next
        = ((Wal.located c s.wal.baseLsn.toNat frames).filter fun e => st.next ≤ e.1).filter
            fun f => HasChanges f.2 := by
      have hnone : changesSince old st.next = [] := by
        rw [changesSince, List.filter_eq_nil_iff]
        intro f hf hlsn
        obtain ⟨hchanges, hlsn⟩ := of_decide_eq_true hlsn
        exact (hold f hf).2 hchanges (.inr ⟨st, hmem, hopen, hlsn⟩)
      rw [changesSince] at hnone
      rw [changesSince, hhistory, List.filter_append, hnone, List.nil_append, List.filter_filter]
      simp only [Bool.decide_and]
    refine ⟨raw, rfl, _, hdecoded, ?_⟩
    generalize hfs : (Wal.located c s.wal.baseLsn.toNat frames).filter
      (fun e => decide (st.next ≤ e.1)) = fs at hsince
    cases fs with
    | nil =>
      simp only [List.map_nil, sendFrames, messages, List.flatMap_nil, List.append_nil]
      exact ⟨le_rfl, hle, hend, hdelivered, hsince⟩
    | cons f fs =>
      have hlsn : ∀ e ∈ f :: fs, st.next ≤ e.1 ∧ e.1 < s.wal.currentLsn.toNat := by
        intro e he
        rw [← hfs] at he
        obtain ⟨he, hnext⟩ := List.mem_filter.1 he
        rw [hlive.currentLsn]
        exact ⟨of_decide_eq_true hnext, (Wal.located_bounds he).2⟩
      obtain ⟨hnext, hlast⟩ := hlsn f List.mem_cons_self
      have hnext' : st.next ≤ s.wal.currentLsn.toNat := by omega
      have hsend : sendFrames s.wal.currentLsn.toNat st.next
          ((f :: fs).map fun f => (f.1, decodeFrame logicalValue db f.1 f.2))
            = s.wal.currentLsn.toNat := by
        refine sendFrames_eq (by simp) (fun e he => ?_) hnext'
        obtain ⟨b, hb, rfl⟩ := List.mem_map.1 he
        exact (hlsn b hb).2.le
      rw [hsend]
      refine ⟨hnext', by omega, .inr le_rfl, ?_, h.changesSince_end⟩
      have hsplit := changesSince_split h.sorted (hle.trans hnext')
      rw [h.changesSince_end, List.append_nil, changesSince_split h.sorted hle, hsince] at hsplit
      rw [← hsplit]
      exact hdelivered.append (delivered_messages db (f :: fs))

/-! ## Steps -/

/-- A step that leaves the log alone. -/
theorem frame (h : Coherent c logicalValue K s) (hdir : s'.dir = s.dir) (hwal : s'.wal = s.wal)
    (hhistory : s'.history = s.history)
    (hneeded : ∀ lsn, lsn < s.wal.currentLsn.toNat → s'.Needed lsn → s.Needed lsn)
    (hstreams : ∀ st ∈ s'.streams.values,
      st ∈ s.streams.values ∨ StreamOk logicalValue K s.history s.wal.currentLsn.toNat st) :
    Coherent c logicalValue K s' := by
  have hbelow := h.below
  obtain ⟨frames, old, hlive, hlog, hsorted, hold⟩ := h.log
  constructor
  · rw [hwal, hdir, hhistory]
    refine ⟨frames, old, hlive, hlog, hsorted, fun f hf => ⟨(hold f hf).1, fun hchanges hneed => ?_⟩⟩
    have hlsn := hbelow f (by rw [hlog]; exact List.mem_append_left _ hf)
    exact (hold f hf).2 hchanges (hneeded f.1 hlsn hneed)
  · rw [hwal, hhistory]
    intro st hst
    exact (hstreams st hst).elim (h.streams st) id

theorem slotNeeds_insert {slots : Slots} {name : String} {slot : ReplSlot} {lsn : Nat}
    (hlsn : lsn < slot.confirmedFlushLsn) (h : SlotNeeds (slots.insert name slot) lsn) :
    SlotNeeds slots lsn := by
  obtain ⟨slot', hslot', htype, hle⟩ := h
  rcases Dict.mem_values_insert hslot' with rfl | hslot'
  · omega
  · exact ⟨slot', hslot', htype, hle⟩

theorem slotNeeds_erase {slots : Slots} {name : String} {lsn : Nat}
    (h : SlotNeeds (slots.erase name) lsn) : SlotNeeds slots lsn := by
  obtain ⟨slot', hslot', hneeds⟩ := h
  exact ⟨slot', Dict.mem_values_erase hslot', hneeds⟩

/-- A slot that confirms no less needs no more. -/
theorem slotNeeds_update {slots : Slots} {name : String} {f : ReplSlot → ReplSlot} {lsn : Nat}
    (hf : ∀ slot, (f slot).slotType = slot.slotType ∧
      slot.confirmedFlushLsn ≤ (f slot).confirmedFlushLsn)
    (h : SlotNeeds (slots.update name f) lsn) : SlotNeeds slots lsn := by
  obtain ⟨slot', hslot', htype, hle⟩ := h
  rcases Dict.mem_values_update hslot' with ⟨slot, hslot, rfl⟩ | hslot'
  · obtain ⟨htype', hle'⟩ := hf slot
    exact ⟨slot, Dict.mem_values.2 ⟨name, hslot⟩, htype'.symm.trans htype, hle'.trans hle⟩
  · exact ⟨slot', hslot', htype, hle⟩

theorem append (h : Coherent c logicalValue K s) {records : List (LogRecord V O)}
    (hretains : records ≠ [] → Readable c records ∧
      s.wal.currentLsn.toNat + (encodeFrame c s.wal.nextTxn records).length < 2 ^ 64) :
    Coherent c logicalValue K (s.appendBatch c records) := by
  by_cases hne : records = []
  · subst hne
    exact h
  · obtain ⟨hread, hfits⟩ := hretains hne
    obtain ⟨frames, old, hlive, hlog, hsorted, hold⟩ := h.log
    have hlive' : Wal.Live (c := c) (s.appendBatch c records).wal (s.appendBatch c records).dir
        (frames ++ [⟨s.wal.nextTxn, records⟩]) := hlive.appendBatch hne hread hfits
    have hempty : records.isEmpty = false := by simpa using hne
    have hbase : (s.appendBatch c records).wal.baseLsn = s.wal.baseLsn := by
      simp [Primary.appendBatch, Wal.appendBatch, hempty]
    have hhistory : (s.appendBatch c records).history
        = s.history ++ [(s.wal.currentLsn.toNat, records)] := by
      simp [Primary.appendBatch, hempty]
    have hgrows : s.wal.currentLsn.toNat
        ≤ (s.appendBatch c records).wal.currentLsn.toNat := by
      rw [hlive.currentLsn, hlive'.currentLsn, hbase, Wal.frameBytes_snoc, List.length_append]
      omega
    constructor
    · refine ⟨frames ++ [⟨s.wal.nextTxn, records⟩], old, hlive', ?_, hsorted, ?_⟩
      · rw [hhistory, hlog, hlive.currentLsn, List.append_assoc]
        congr 1
        rw [hbase, Wal.located_snoc]
      · rw [hbase]
        exact hold
    · intro st hst
      obtain ⟨stop, msgs, hle, hend, hdelivered, hpre, hnow⟩ := h.streams st hst
      refine ⟨stop, msgs, hle, hend.imp_right (·.trans hgrows), ?_, hpre, hnow⟩
      rw [hhistory, changesBetween_append hend]
      exact hdelivered

theorem checkpoint (h : Coherent c logicalValue K s) (rec : Recovery E (LogRecord V O)) (eng : E)
    (hretains : ∀ f ∈ s.history, s.wal.baseLsn.toNat ≤ f.1 → HasChanges f.2 → ¬ s.Needed f.1) :
    Coherent c logicalValue K (s.checkpoint rec eng) := by
  have hlive : Wal.Live (c := c) (s.checkpoint rec eng).wal (s.checkpoint rec eng).dir [] :=
    Wal.Live.fresh _ _ rfl rfl
  have hend : (s.checkpoint rec eng).wal.currentLsn.toNat = s.wal.currentLsn.toNat := by
    rw [hlive.currentLsn]
    rfl
  constructor
  · refine ⟨[], s.history, hlive, (List.append_nil _).symm, h.sorted, fun f hf => ⟨h.below f hf, ?_⟩⟩
    obtain ⟨frames, old, -, hlog, -, hold⟩ := h.log
    intro hchanges
    have hf' := hf
    rw [hlog] at hf'
    rcases List.mem_append.1 hf' with hf' | hf'
    · exact (hold f hf').2 hchanges
    · exact hretains f hf (Wal.located_bounds hf').1 hchanges
  · rw [hend]
    exact h.streams

theorem createSlot (h : Coherent c logicalValue K s) (name slotType plugin : String) :
    Coherent c logicalValue K (s.createSlot name slotType plugin) := by
  unfold Primary.createSlot
  split
  · exact h.frame rfl rfl rfl (fun lsn hlsn => Or.imp_left (slotNeeds_insert hlsn))
      fun st hst => .inl hst
  · exact h

theorem dropSlot (h : Coherent c logicalValue K s) (name : String) :
    Coherent c logicalValue K (s.dropSlot name) := by
  unfold Primary.dropSlot
  split
  · exact h
  · split
    · exact h
    · exact h.frame rfl rfl rfl (fun lsn _ => Or.imp_left slotNeeds_erase) fun st hst => .inl hst

theorem startStream (h : Coherent c logicalValue K s) (sid : Sid) (name : String) (startLsn : Nat) :
    Coherent c logicalValue K (s.startStream sid name startLsn) := by
  unfold Primary.startStream
  split
  · exact h
  · next slot hslot =>
    split
    · exact h
    · next hfree =>
      have hlogical : slot.slotType = "logical" := by
        by_contra hne
        exact hfree (.inr hne)
      refine h.frame rfl rfl rfl ?_ fun st hst => ?_
      · rintro lsn - (hneed | ⟨st, hst, hopen, hle⟩)
        · refine .inl (slotNeeds_update (fun slot => ?_) hneed)
          exact ⟨rfl, le_rfl⟩
        · rcases Dict.mem_values_insert hst with rfl | hst
          · exact .inl ⟨slot, Dict.mem_values.2 ⟨name, hslot⟩, hlogical, (le_max_right ..).trans hle⟩
          · exact .inr ⟨st, hst, hopen, hle⟩
      · rcases Dict.mem_values_insert hst with rfl | hst
        · refine .inr ⟨_, [], le_rfl, .inl rfl, ?_, List.prefix_rfl, fun _ => ⟨rfl, rfl⟩⟩
          rw [changesBetween_self]
          exact .nil
        · exact .inl hst

theorem poll (h : Coherent c logicalValue K s) (hst : s.streams.lookup sid = some st)
    (hopen : st.broken = false) (db : Database V K) (sent : Option Nat) :
    Coherent c logicalValue K (s.poll c logicalValue sid st db sent) := by
  obtain ⟨raw, hraw, frames, hframes, hnext, hstart, hend, hdelivered, -⟩ :=
    h.poll_delivers hst hopen db
  unfold Primary.poll
  rw [hraw]
  simp only [hframes]
  have hmem : st ∈ s.streams.values := Dict.mem_values.2 ⟨sid, hst⟩
  cases sent with
  | some n =>
    refine h.frame rfl rfl rfl (fun lsn _ => Or.imp_right ?_) fun st' hst' => ?_
    · rintro ⟨st', hst', hopen', hle⟩
      rcases Dict.mem_values_update hst' with ⟨st₀, hst₀, rfl⟩ | hst'
      · cases hopen'
      · exact ⟨st', hst', hopen', hle⟩
    · rcases Dict.mem_values_update hst' with ⟨st₀, hst₀, rfl⟩ | hst'
      · obtain rfl : st = st₀ := Option.some.inj (hst.symm.trans hst₀)
        refine .inr ⟨_, _, hstart, hend, hdelivered, ?_, fun hbroken => by cases hbroken⟩
        exact (List.prefix_append_right_inj _).2 (List.take_prefix ..)
      · exact .inl hst'
  | none =>
    refine h.frame rfl rfl rfl (fun lsn _ => Or.imp ?_ ?_) fun st' hst' => ?_
    · intro hneed
      dsimp only at hneed
      split at hneed
      · exact hneed
      · refine slotNeeds_update (fun slot => ?_) hneed
        exact ⟨rfl, le_rfl⟩
    · rintro ⟨st', hst', hopen', hle⟩
      rcases Dict.mem_values_update hst' with ⟨st₀, hst₀, rfl⟩ | hst'
      · obtain rfl : st = st₀ := Option.some.inj (hst.symm.trans hst₀)
        exact ⟨st, hmem, hopen, hnext.trans hle⟩
      · exact ⟨st', hst', hopen', hle⟩
    · rcases Dict.mem_values_update hst' with ⟨st₀, hst₀, rfl⟩ | hst'
      · obtain rfl : st = st₀ := Option.some.inj (hst.symm.trans hst₀)
        exact .inr ⟨_, _, hstart, hend, hdelivered, List.prefix_rfl, fun _ => ⟨rfl, rfl⟩⟩
      · exact .inl hst'

/-- Every step that retains what is needed keeps the log and the streams in agreement. -/
theorem step {rec : Recovery E (LogRecord V O)} {i : PrimaryStep E V K O}
    (h : Coherent c logicalValue K s) (hretains : Retains c s i)
    (hstep : s.step c rec logicalValue i = some s') : Coherent c logicalValue K s' := by
  cases i with
  | append records =>
    obtain rfl : _ = s' := Option.some.inj hstep
    exact h.append hretains
  | checkpoint eng =>
    obtain rfl : _ = s' := Option.some.inj hstep
    exact h.checkpoint rec eng hretains
  | create name slotType plugin =>
    obtain rfl : _ = s' := Option.some.inj hstep
    exact h.createSlot ..
  | drop name =>
    obtain rfl : _ = s' := Option.some.inj hstep
    exact h.dropSlot name
  | start sid name startLsn =>
    simp only [Primary.step] at hstep
    split at hstep
    · cases hstep
    · obtain rfl := Option.some.inj hstep
      exact h.startStream ..
  | poll sid db sent =>
    obtain ⟨st, hst, hpoll⟩ := Option.bind_eq_some_iff.1 hstep
    split at hpoll
    · cases hpoll
    · next hopen =>
      obtain rfl := Option.some.inj hpoll
      exact h.poll hst (by simpa using hopen) db sent
  | feedback sid flushed =>
    obtain ⟨st, hst, hconfirm⟩ := Option.bind_eq_some_iff.1 hstep
    split at hconfirm
    · cases hconfirm
    · obtain rfl := Option.some.inj hconfirm
      refine h.frame rfl rfl rfl (fun lsn _ => Or.imp_left (slotNeeds_update fun slot => ?_))
        fun st hst => .inl hst
      unfold SlotState.confirm
      split
      · next hlt => exact ⟨rfl, le_of_lt hlt⟩
      · exact ⟨rfl, le_rfl⟩
  | stop sid =>
    obtain ⟨st, hst, rfl⟩ := Option.map_eq_some_iff.1 hstep
    refine h.frame rfl rfl rfl (fun lsn _ => Or.imp ?_ ?_)
      fun st hst => .inl (Dict.mem_values_erase hst)
    · exact slotNeeds_update fun slot => ⟨rfl, le_rfl⟩
    · rintro ⟨st', hst', hneeds⟩
      exact ⟨st', Dict.mem_values_erase hst', hneeds⟩

theorem init (dir : DataDir E) (baseLsn : UInt64) (nextTxn : Nat) (slots : Slots) :
    Coherent c logicalValue K (Primary.init (O := O) dir baseLsn nextTxn slots) where
  log := ⟨[], [], Wal.Live.fresh _ _ rfl rfl, rfl, .nil, by simp⟩
  streams st hst := absurd hst (by simp [Primary.init, Dict.values])

end Coherent

/-! ## Resumed streams -/

section Resumed

variable {rec : Recovery E (LogRecord V O)} {logicalValue : V → String} {s s' : Primary E V O}
  {sid : Sid} {st : Walsender}

/-- A stream that is not stopped keeps its start. -/
theorem step_start {i : PrimaryStep E V K O} (hne : i ≠ .stop sid)
    (hst : s.streams.lookup sid = some st) (hstep : s.step c rec logicalValue i = some s') :
    ∃ st', s'.streams.lookup sid = some st' ∧ st'.start = st.start := by
  cases i with
  | append records =>
    obtain rfl : _ = s' := Option.some.inj hstep
    exact ⟨st, hst, rfl⟩
  | checkpoint eng =>
    obtain rfl : _ = s' := Option.some.inj hstep
    exact ⟨st, hst, rfl⟩
  | create name slotType plugin =>
    obtain rfl : _ = s' := Option.some.inj hstep
    unfold createSlot
    split <;> exact ⟨st, hst, rfl⟩
  | drop name =>
    obtain rfl : _ = s' := Option.some.inj hstep
    unfold dropSlot
    repeat' split
    all_goals exact ⟨st, hst, rfl⟩
  | start sid' name startLsn =>
    simp only [Primary.step] at hstep
    split at hstep
    · cases hstep
    · next hidle =>
      obtain rfl := Option.some.inj hstep
      have hsid : sid ≠ sid' := by
        rintro rfl
        simp [hst] at hidle
      unfold startStream
      repeat' split
      · exact ⟨st, hst, rfl⟩
      · exact ⟨st, hst, rfl⟩
      · exact ⟨st, (AList.lookup_insert_ne hsid).trans hst, rfl⟩
  | poll sid' db sent =>
    obtain ⟨st₀, hst₀, hpoll⟩ := Option.bind_eq_some_iff.1 hstep
    split at hpoll
    · cases hpoll
    · obtain rfl := Option.some.inj hpoll
      have hupdate (f : Walsender → Walsender) (hf : ∀ st, (f st).start = st.start) :
          ∃ st', AList.lookup sid (s.streams.update sid' f) = some st' ∧ st'.start = st.start := by
        by_cases hsid : sid = sid'
        · subst hsid
          exact ⟨f st, by rw [Dict.lookup_update, hst, Option.map_some], hf st⟩
        · exact ⟨st, (Dict.lookup_update_ne hsid ..).trans hst, rfl⟩
      unfold poll
      repeat' split
      all_goals exact hupdate _ fun _ => rfl
  | feedback sid' flushed =>
    obtain ⟨st₀, -, hconfirm⟩ := Option.bind_eq_some_iff.1 hstep
    split at hconfirm
    · cases hconfirm
    · obtain rfl := Option.some.inj hconfirm
      exact ⟨st, hst, rfl⟩
  | stop sid' =>
    obtain ⟨st₀, -, rfl⟩ := Option.map_eq_some_iff.1 hstep
    have hsid : sid ≠ sid' := by
      rintro rfl
      exact hne rfl
    exact ⟨st, (AList.lookup_erase_ne hsid).trans hst, rfl⟩

theorem run_start {is : List (PrimaryStep E V K O)} (hne : ∀ i ∈ is, i ≠ .stop sid)
    (hst : s.streams.lookup sid = some st)
    (hrun : run (Primary.step c rec logicalValue) s is = some s') :
    ∃ st', s'.streams.lookup sid = some st' ∧ st'.start = st.start := by
  induction is generalizing s st with
  | nil =>
    cases hrun
    exact ⟨st, hst, rfl⟩
  | cons i is ih =>
    obtain ⟨m, hstep, hrest⟩ := Option.bind_eq_some_iff.1 hrun
    obtain ⟨st', hst', hstart⟩ := step_start (hne i List.mem_cons_self) hst hstep
    rw [← hstart]
    exact ih (fun j hj => hne j (List.mem_cons_of_mem i hj)) hst' hrest

variable (c rec logicalValue) in
/-- In the run, the stream that session `sid` resumes receives the changes behind the confirmed
position in commit order, each once; after every round it has received all of them. -/
def ResumesExactlyOnce (s₀ : Primary E V O) (before : List (PrimaryStep E V K O)) (sid : Sid)
    (name : String) (startLsn : Nat) (mid : List (PrimaryStep E V K O)) : Prop :=
  ∀ s₁ s' slot, run (Primary.step c rec logicalValue) s₀ before = some s₁ →
    s₁.slots.lookup name = some slot → slot.slotType = "logical" → slot.active = false →
    (∀ i ∈ mid, i ≠ .stop sid) →
    run (Primary.step c rec logicalValue) s₀ (before ++ .start sid name startLsn :: mid) = some s' →
    ∃ st, s'.streams.lookup sid = some st ∧
      (∃ msgs, Delivered logicalValue K
          (changesSince s'.history (max startLsn slot.confirmedFlushLsn)) msgs ∧
        st.received <+: msgs) ∧
      ∀ rest db, mid = rest ++ [.poll sid db none] →
        Delivered logicalValue K
          (changesSince s'.history (max startLsn slot.confirmedFlushLsn)) st.received

end Resumed

/-! ## A checkpoint in between -/

/-- A codec of finitely many records: a record is its place in the list. -/
def listCodec {R : Type} [DecidableEq R] (known : List R) : RecordCodec R where
  enc r := be 1 (known.idxOf r)
  dec := do
    let n ← Dec.uint 1
    match known[n]? with
    | some r => return r
    | none => throw "unknown WAL record tag"
  enc_ne_nil r := List.ne_nil_of_length_pos (by simp)

theorem listCodec_roundTrips {R : Type} [DecidableEq R] {known : List R} {r : R} (hr : r ∈ known)
    (hlen : known.length ≤ 256) : (listCodec known).RoundTrips r := by
  have hlt : known.idxOf r < known.length := List.idxOf_lt_length_of_mem hr
  have hmod : known.idxOf r % 256 ^ 1 = known.idxOf r := Nat.mod_eq_of_lt (by omega)
  have hget : known[known.idxOf r]? = some r := by
    rw [List.getElem?_eq_getElem hlt, List.getElem_idxOf hlt]
  have htag := Decodes.uint (v := walVersion) 1 (known.idxOf r)
  rw [hmod] at htag
  have hall := htag.bind (f := fun n => match known[n]? with
    | some r => pure r
    | none => throw "unknown WAL record tag") (b := r) (by rw [hget]; exact Decodes.pure r)
  rw [List.append_nil] at hall
  exact hall

/-- A slot is created, and two rows are inserted. -/
def slotCreated : LogRecord Int SlotRecord := .other (.create "standby" decodingPlugin "logical" 0)

def inserted (n : Nat) : LogRecord Int SlotRecord := .data (.insertRows "t" [⟨n, n + 1, [n]⟩])

def exampleCodec : RecordCodec (LogRecord Int SlotRecord) :=
  listCodec [slotCreated, inserted 1, inserted 2]

def exampleRecovery : Recovery Unit (LogRecord Int SlotRecord) where
  empty := ()
  applyRecord _ _ := .ok ()
  legacyFillPartition _ _ := none
  clearTxns := id
  image := id

def exampleInit : Primary Unit Int SlotRecord := init ⟨none, []⟩ 0 1 ∅

def exampleBefore : List (PrimaryStep Unit Int Unit SlotRecord) :=
  [.create "standby" "logical" decodingPlugin, .append [slotCreated], .append [inserted 1]]

/-- A condition that can be computed, for the records of the codec. -/
def RetainsExample (s : Primary Unit Int SlotRecord) :
    PrimaryStep Unit Int Unit SlotRecord → Prop
  | .append records => (∀ r ∈ records, r ∈ [slotCreated, inserted 1, inserted 2]) ∧
      records.length ≤ 2 ∧
      s.wal.currentLsn.toNat + (encodeFrame exampleCodec s.wal.nextTxn records).length < 2 ^ 64
  | .checkpoint _ => ∀ f ∈ s.history, s.wal.baseLsn.toNat ≤ f.1 → HasChanges f.2 →
      ¬ ((∃ slot ∈ s.slots.values, slot.slotType = "logical" ∧ slot.confirmedFlushLsn ≤ f.1) ∨
        ∃ st ∈ s.streams.values, st.broken = false ∧ st.next ≤ f.1)
  | _ => True

instance (s : Primary Unit Int SlotRecord) : ∀ i, Decidable (RetainsExample s i)
  | .append _ => inferInstanceAs (Decidable (_ ∧ _ ∧ _))
  | .checkpoint _ => inferInstanceAs (Decidable (∀ f ∈ s.history, _ → _ → ¬ (_ ∨ _)))
  | .create .. | .drop _ | .start .. | .poll .. | .feedback .. | .stop _ =>
    inferInstanceAs (Decidable True)

theorem retains_of_example (s : Primary Unit Int SlotRecord)
    (i : PrimaryStep Unit Int Unit SlotRecord) (h : RetainsExample s i) :
    Retains exampleCodec s i := by
  cases i with
  | append records =>
    obtain ⟨hknown, hlen, hfits⟩ := h
    refine fun _ => ⟨⟨?_, fun r hr => listCodec_roundTrips (hknown r hr) (by decide)⟩, hfits⟩
    have hbytes : (records.flatMap exampleCodec.enc).length = records.length := by
      rw [List.length_flatMap]
      simp [exampleCodec, listCodec]
    simp only [frameLen, maxFrameLen, hbytes]
    omega
  | checkpoint eng => exact h
  | create name slotType plugin => trivial
  | drop name => trivial
  | start sid name startLsn => trivial
  | poll sid db sent => trivial
  | feedback sid flushed => trivial
  | stop sid => trivial

end Primary

end Repl
