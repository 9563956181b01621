-- SUMMARY: The log replays to the slot catalog, as long as appends keep the order of the catalog.
import Rustgres.Lib.InFlight
import Rustgres.Repl.Slots

/-!
# Durable Slots

For each name, the operations in flight lead from the slot that the log replays to, to the slot in
memory. A record may be appended when no older operation on its name is in flight, and an append
may fail when no newer one is.
-/

namespace Repl

open InFlight

/-! ## Positions -/

/-- What a restart keeps of a slot. -/
structure Position where
  plugin : String
  slotType : String
  restartLsn : Nat
  confirmedFlushLsn : Nat
deriving DecidableEq, Repr

def ReplSlot.position (s : ReplSlot) : Position :=
  ⟨s.plugin, s.slotType, s.restartLsn, s.confirmedFlushLsn⟩

namespace Position

def advance (restart confirmed : Nat) (p : Position) : Position :=
  { p with
    restartLsn := max p.restartLsn restart
    confirmedFlushLsn := max p.confirmedFlushLsn confirmed }

/-- The slot has only moved forward. -/
structure Behind (p q : Position) : Prop where
  plugin : p.plugin = q.plugin
  slotType : p.slotType = q.slotType
  restartLsn : p.restartLsn ≤ q.restartLsn
  confirmedFlushLsn : p.confirmedFlushLsn ≤ q.confirmedFlushLsn

variable {p q r : Position}

theorem Behind.refl (p : Position) : Behind p p := ⟨rfl, rfl, le_rfl, le_rfl⟩

theorem Behind.trans (h : Behind p q) (h' : Behind q r) : Behind p r where
  plugin := h.plugin.trans h'.plugin
  slotType := h.slotType.trans h'.slotType
  restartLsn := le_trans h.restartLsn h'.restartLsn
  confirmedFlushLsn := le_trans h.confirmedFlushLsn h'.confirmedFlushLsn

/-- The slot may advance up to where it already is in memory. -/
theorem Behind.advance (h : Behind p q) {restart confirmed : Nat} (hr : restart ≤ q.restartLsn)
    (hc : confirmed ≤ q.confirmedFlushLsn) : Behind (p.advance restart confirmed) q where
  plugin := h.plugin
  slotType := h.slotType
  restartLsn := max_le h.restartLsn hr
  confirmedFlushLsn := max_le h.confirmedFlushLsn hc

/-- The last flush brings the slot to where it is in memory. -/
theorem Behind.advance_eq (h : Behind p q) :
    p.advance q.restartLsn q.confirmedFlushLsn = q := by
  obtain ⟨plugin, slotType, restart, confirmed⟩ := p
  obtain ⟨rfl, rfl, hr, hc⟩ := h
  simp only [Position.advance, max_eq_right hr, max_eq_right hc]

theorem advance_comm (a b c d : Nat) (p : Position) :
    (p.advance a b).advance c d = (p.advance c d).advance a b := by
  simp only [advance, Nat.max_assoc, Nat.max_comm a c, Nat.max_comm b d]

end Position

/-- The position of a slot of a catalog. -/
def positionOf (slots : Slots) (name : String) : Option Position :=
  (slots.lookup name).map ReplSlot.position

/-- The slot that the log replays to is the slot in memory. -/
def SlotState.Durable (s : SlotState) (name : String) : Prop :=
  positionOf (replay s.log) name = positionOf s.slots name

section PositionOf

variable (slots : Slots) (name : String)

@[simp]
theorem positionOf_insert (slot : ReplSlot) :
    positionOf (slots.insert name slot) name = some slot.position := by
  simp [positionOf]

@[simp]
theorem positionOf_erase : positionOf (slots.erase name) name = none := by
  simp [positionOf]

theorem positionOf_update (f : ReplSlot → ReplSlot) :
    positionOf (slots.update name f) name
      = (slots.lookup name).map fun slot => (f slot).position := by
  simp [positionOf, Function.comp_def]

theorem positionOf_advance (restart confirmed : Nat) :
    positionOf (slots.update name (.advance restart confirmed)) name
      = (positionOf slots name).map (.advance restart confirmed) := by
  rw [positionOf_update, positionOf, Option.map_map]
  rfl

variable {name' : String} (h : name' ≠ name)
include h

theorem positionOf_insert_ne (slot : ReplSlot) :
    positionOf (slots.insert name slot) name' = positionOf slots name' := by
  rw [positionOf, AList.lookup_insert_ne h, positionOf]

theorem positionOf_erase_ne : positionOf (slots.erase name) name' = positionOf slots name' := by
  rw [positionOf, AList.lookup_erase_ne h, positionOf]

theorem positionOf_update_ne (f : ReplSlot → ReplSlot) :
    positionOf (slots.update name f) name' = positionOf slots name' := by
  rw [positionOf, Dict.lookup_update_ne h, positionOf]

end PositionOf

/-! ## Operations on one name -/

def SlotOp.isStream : SlotOp → Bool
  | .stream .. => true
  | _ => false

def SlotOp.isFlush : SlotOp → Bool
  | .flush .. => true
  | _ => false

/-- What an operation in flight has done to the position of its slot. -/
def SlotOp.Did : SlotOp → Option Position → Option Position → Prop
  | .create _ plugin slotType lsn, a, b => a = none ∧ b = some ⟨plugin, slotType, lsn, lsn⟩
  | .drop _ removed, a, b => a = some removed.position ∧ b = none
  | .stream _ unlogged, a, b =>
    ∃ p q, a = some p ∧ b = some q ∧ p.Behind q ∧
      ∀ u ∈ unlogged, u.1 ≤ q.restartLsn ∧ u.2 ≤ q.confirmedFlushLsn
  | .flush _ restart confirmed, a, b => b = a.map (Position.advance restart confirmed)

/-- The operations on a name, newest first, lie between what is logged and the slot in memory. A
stream is the newest of them, and its slot is active. -/
structure Agrees (ops : List SlotOp) (logged : Option Position) (slot : Option ReplSlot) : Prop where
  leads : Leads SlotOp.Did ops logged (slot.map ReplSlot.position)
  streams : ∀ newer op older, ops = newer ++ op :: older → op.isStream →
    newer = [] ∧ ∃ active, slot = some active ∧ active.active

namespace Agrees

variable {ops newer older : List SlotOp} {logged : Option Position} {slot : Option ReplSlot}
  {name : String}

/-- No stream is under way on a slot that is not active. -/
theorem not_isStream (h : Agrees ops logged slot) (hactive : ∀ active ∈ slot, ¬ active.active) :
    ∀ op ∈ ops, ¬ op.isStream := by
  intro op hop hstream
  obtain ⟨newer, older, rfl⟩ := List.append_of_mem hop
  obtain ⟨-, active, hslot, ha⟩ := h.streams newer op older rfl hstream
  exact hactive active hslot ha

theorem streams_cons {op : SlotOp} {slot' : Option ReplSlot} (hno : ∀ op ∈ ops, ¬ op.isStream)
    (hop : op.isStream → ∃ active, slot' = some active ∧ active.active) :
    ∀ newer op' older, op :: ops = newer ++ op' :: older → op'.isStream →
      newer = [] ∧ ∃ active, slot' = some active ∧ active.active := by
  intro newer op' older heq hstream
  cases newer with
  | nil =>
    obtain ⟨rfl, rfl⟩ : op = op' ∧ ops = older := by simpa using heq
    exact ⟨rfl, hop hstream⟩
  | cons first newer =>
    obtain ⟨-, rfl⟩ : op = first ∧ ops = newer ++ op' :: older := by simpa using heq
    exact absurd hstream (hno op' (by simp))

/-! ### The memory half -/

theorem create (h : Agrees ops logged none) (plugin slotType : String) (lsn : Nat) :
    Agrees (.create name plugin slotType lsn :: ops) logged
      (some (.fresh plugin slotType lsn)) where
  leads := ⟨none, h.leads, rfl, rfl⟩
  streams := streams_cons (h.not_isStream (by simp)) (by simp [SlotOp.isStream])

theorem drop {removed : ReplSlot} (h : Agrees ops logged (some removed))
    (hactive : ¬ removed.active) : Agrees (.drop name removed :: ops) logged none where
  leads := ⟨_, h.leads, rfl, rfl⟩
  streams := streams_cons (h.not_isStream (by simpa using hactive)) (by simp [SlotOp.isStream])

theorem start {slot : ReplSlot} (h : Agrees ops logged (some slot)) (hactive : ¬ slot.active) :
    Agrees (.stream name none :: ops) logged (some { slot with active := true }) where
  leads := ⟨_, h.leads, slot.position, slot.position, rfl, rfl, .refl _, by simp⟩
  streams := streams_cons (h.not_isStream (by simpa using hactive)) fun _ => ⟨_, rfl, rfl⟩

/-- The positions of a stream move, and some of them may be waiting to be logged. -/
theorem stream {slot slot' : ReplSlot} {u u' : Option (Nat × Nat)}
    (h : Agrees (.stream name u :: ops) logged (some slot))
    (hbehind : slot.position.Behind slot'.position) (hactive : slot'.active = slot.active)
    (hu : ∀ v ∈ u', v.1 ≤ slot'.restartLsn ∧ v.2 ≤ slot'.confirmedFlushLsn) :
    Agrees (.stream name u' :: ops) logged (some slot') := by
  obtain ⟨m, hm, p, q, rfl, hq, hpq, -⟩ := h.leads
  obtain rfl : slot.position = q := by simpa using hq
  constructor
  · exact ⟨some p, hm, p, slot'.position, rfl, rfl, hpq.trans hbehind, hu⟩
  · intro newer op older heq hstream
    cases newer with
    | nil =>
      obtain ⟨-, active, hslot, ha⟩ := h.streams [] (.stream name u) ops rfl rfl
      obtain rfl : slot = active := by simpa using hslot
      exact ⟨rfl, slot', rfl, hactive.trans ha⟩
    | cons first newer =>
      obtain ⟨-, rfl⟩ : _ = first ∧ ops = newer ++ op :: older := by simpa using heq
      exact absurd (h.streams (.stream name u :: newer) op older rfl hstream).1 (by simp)

theorem stop {slot : ReplSlot} (h : Agrees (.stream name none :: ops) logged (some slot)) :
    Agrees (.flush name slot.restartLsn slot.confirmedFlushLsn :: ops) logged
      (some { slot with active := false }) := by
  obtain ⟨m, hm, p, q, rfl, hq, hpq, -⟩ := h.leads
  obtain rfl : slot.position = q := by simpa using hq
  constructor
  · exact ⟨some p, hm, congrArg some hpq.advance_eq.symm⟩
  · refine streams_cons (fun op hop hstream => ?_) (by simp [SlotOp.isStream])
    obtain ⟨newer, older, rfl⟩ := List.append_of_mem hop
    exact absurd (h.streams (.stream name none :: newer) op older rfl hstream).1 (by simp)

/-! ### The log half -/

theorem streams_append {op : SlotOp} {slot' : Option ReplSlot}
    (h : Agrees (newer ++ op :: older) logged slot') :
    ∀ newer' op' older', newer ++ older = newer' ++ op' :: older' → op'.isStream →
      newer' = [] ∧ ∃ active, slot' = some active ∧ active.active := by
  intro newer' op' older' heq hstream
  rcases List.append_eq_append_iff.1 heq with ⟨mid, rfl, holder⟩ | ⟨mid, rfl, hmid⟩
  · have hall : newer ++ op :: older = (newer ++ op :: mid) ++ op' :: older' := by simp [holder]
    exact absurd (h.streams _ op' older' hall hstream).1 (by simp)
  · cases mid with
    | nil =>
      obtain rfl : op' :: older' = older := by simpa using hmid
      have hall : newer' ++ [] ++ op :: op' :: older' = (newer' ++ [op]) ++ op' :: older' := by simp
      exact absurd (h.streams _ op' older' hall hstream).1 (by simp)
    | cons first mid =>
      obtain ⟨rfl, rfl⟩ : op' = first ∧ older' = mid ++ older := by simpa using hmid
      have hall : newer' ++ op' :: mid ++ op :: older = newer' ++ op' :: (mid ++ op :: older) := by
        simp
      exact h.streams _ op' _ hall hstream

theorem undo_create {plugin slotType : String} {lsn : Nat}
    (h : Agrees (.create name plugin slotType lsn :: older) logged slot) :
    Agrees older logged none := by
  obtain ⟨m, hm, rfl, -⟩ := h.leads
  refine ⟨hm, fun newer op older' heq hstream => ?_⟩
  subst heq
  exact absurd (h.streams (_ :: newer) op older' rfl hstream).1 (by simp)

theorem undo_drop {removed : ReplSlot} (h : Agrees (.drop name removed :: older) logged slot) :
    Agrees older logged (some removed) := by
  obtain ⟨m, hm, rfl, -⟩ := h.leads
  refine ⟨hm, fun newer op older' heq hstream => ?_⟩
  subst heq
  exact absurd (h.streams (_ :: newer) op older' rfl hstream).1 (by simp)

theorem log_create {plugin slotType : String} {lsn : Nat}
    (h : Agrees (newer ++ [.create name plugin slotType lsn]) logged slot) :
    Agrees newer (some ⟨plugin, slotType, lsn, lsn⟩) slot := by
  obtain ⟨m, ⟨n, -, -, rfl⟩, hnewer⟩ := leads_append.1 h.leads
  exact ⟨hnewer, by simpa using h.streams_append⟩

theorem log_drop {removed : ReplSlot}
    (h : Agrees (newer ++ [.drop name removed]) logged slot) : Agrees newer none slot := by
  obtain ⟨m, ⟨n, -, -, rfl⟩, hnewer⟩ := leads_append.1 h.leads
  exact ⟨hnewer, by simpa using h.streams_append⟩

/-- Flushes commute. -/
theorem leads_flushes {restart confirmed : Nat} (hflush : ∀ op ∈ older, op.isFlush)
    {a b : Option Position} (h : Leads SlotOp.Did older a b) :
    Leads SlotOp.Did older (a.map (Position.advance restart confirmed))
      (b.map (Position.advance restart confirmed)) := by
  refine h.map fun op hop a b hdid => ?_
  cases op with
  | flush name r c =>
    cases hdid
    simp only [SlotOp.Did, Option.map_map]
    congr 1
    funext p
    exact p.advance_comm r c restart confirmed
  | create name plugin slotType lsn => exact absurd (hflush _ hop) (by simp [SlotOp.isFlush])
  | drop name removed => exact absurd (hflush _ hop) (by simp [SlotOp.isFlush])
  | stream name u => exact absurd (hflush _ hop) (by simp [SlotOp.isFlush])

theorem log_flush {restart confirmed : Nat}
    (h : Agrees (newer ++ .flush name restart confirmed :: older) logged slot)
    (hflush : ∀ op ∈ older, op.isFlush) :
    Agrees (newer ++ older) (logged.map (Position.advance restart confirmed)) slot := by
  obtain ⟨m, ⟨n, holder, rfl⟩, hnewer⟩ := leads_append.1 h.leads
  exact ⟨leads_append.2 ⟨_, leads_flushes hflush holder, hnewer⟩, h.streams_append⟩

theorem log_stream {restart confirmed : Nat} {slot : ReplSlot}
    (h : Agrees (.stream name (some (restart, confirmed)) :: older) logged (some slot))
    (hflush : ∀ op ∈ older, op.isFlush) :
    Agrees (.stream name none :: older) (logged.map (Position.advance restart confirmed))
      (some slot) := by
  obtain ⟨m, holder, p, q, rfl, hq, hpq, hu⟩ := h.leads
  obtain ⟨hr, hc⟩ := hu _ rfl
  have hmoved : Agrees (.stream name none :: older) logged (some slot) :=
    h.stream (.refl _) rfl (by simp)
  exact ⟨⟨_, leads_flushes hflush holder, _, q, rfl, hq, hpq.advance hr hc, by simp⟩,
    hmoved.streams⟩

end Agrees

/-! ## Operations in flight, by name -/

section InFlight

variable (d : Dict Sid SlotOp) (sid : Sid) (name : String)

/-- The operations in flight on a name, with their sessions, newest first. -/
def entriesOn : List (Sigma fun _ : Sid => SlotOp) := d.entries.filter (·.2.name = name)

def opsOn : List SlotOp := (entriesOn d name).map Sigma.snd

/-- The operations on the name that began after that of the session. -/
def newerOn : List SlotOp := ((entriesOn d name).takeWhile (·.1 ≠ sid)).map Sigma.snd

/-- The operations on the name that began before that of the session. -/
def olderOn : List SlotOp := ((entriesOn d name).dropWhile (·.1 ≠ sid)).tail.map Sigma.snd

variable {d sid name}

theorem opsOn_insert {op : SlotOp} (h : d.lookup sid = none) :
    opsOn (d.insert sid op) op.name = op :: opsOn d op.name := by
  rw [opsOn, entriesOn, AList.entries_insert_of_notMem (AList.lookup_eq_none.1 h)]
  simp [opsOn, entriesOn]

theorem opsOn_insert_ne {op : SlotOp} (h : d.lookup sid = none) (hne : name ≠ op.name) :
    opsOn (d.insert sid op) name = opsOn d name := by
  rw [opsOn, entriesOn, AList.entries_insert_of_notMem (AList.lookup_eq_none.1 h),
    List.filter_cons_of_neg (by simpa using hne.symm)]
  rfl

/-- The operation of a session among those on its name, and these after it is gone or changed. -/
theorem opsOn_split {op : SlotOp} (h : d.lookup sid = some op) :
    opsOn d op.name = newerOn d sid op.name ++ op :: olderOn d sid op.name ∧
      opsOn (d.erase sid) op.name = newerOn d sid op.name ++ olderOn d sid op.name ∧
      ∀ op', op'.name = op.name → opsOn (d.update sid fun _ => op') op.name
        = newerOn d sid op.name ++ op' :: olderOn d sid op.name := by
  obtain ⟨l₁, l₂, hd, h₁, h₂⟩ := Dict.exists_split h
  have hentries : entriesOn d op.name
      = l₁.filter (·.2.name = op.name) ++ ⟨sid, op⟩ :: l₂.filter (·.2.name = op.name) := by
    simp [entriesOn, hd]
  have hne : ∀ e ∈ l₁.filter (·.2.name = op.name), (decide (e.1 ≠ sid)) = true := fun e he =>
    decide_eq_true (h₁ e (List.mem_of_mem_filter he))
  have hnewer : newerOn d sid op.name = (l₁.filter (·.2.name = op.name)).map Sigma.snd := by
    rw [newerOn, hentries, List.takeWhile_append_of_pos hne]
    simp
  have holder : olderOn d sid op.name = (l₂.filter (·.2.name = op.name)).map Sigma.snd := by
    rw [olderOn, hentries, List.dropWhile_append_of_pos hne]
    simp
  refine ⟨?_, ?_, fun op' hop' => ?_⟩
  · rw [opsOn, hentries, hnewer, holder]
    simp
  · rw [opsOn, entriesOn, Dict.entries_erase hd h₁, hnewer, holder]
    simp
  · rw [opsOn, entriesOn, Dict.entries_update hd h₁ h₂, hnewer, holder]
    simp [hop']

theorem opsOn_erase_ne {op : SlotOp} (h : d.lookup sid = some op) (hne : name ≠ op.name) :
    opsOn (d.erase sid) name = opsOn d name := by
  obtain ⟨l₁, l₂, hd, h₁, -⟩ := Dict.exists_split h
  rw [opsOn, entriesOn, Dict.entries_erase hd h₁, opsOn, entriesOn, hd]
  simp [hne.symm]

theorem opsOn_update_ne {op op' : SlotOp} (h : d.lookup sid = some op) (hop' : op'.name = op.name)
    (hne : name ≠ op.name) : opsOn (d.update sid fun _ => op') name = opsOn d name := by
  obtain ⟨l₁, l₂, hd, h₁, h₂⟩ := Dict.exists_split h
  rw [opsOn, entriesOn, Dict.entries_update hd h₁ h₂, opsOn, entriesOn, hd]
  simp [hop', hne.symm]

end InFlight

/-! ## The condition -/

/-- The append of an operation keeps the order of the catalog: no older operation on the name is in
flight, flushes apart if it is one itself. It fails only if no newer one is, and not for a flush. -/
def MayFinish (d : Dict Sid SlotOp) (sid : Sid) : Bool → SlotOp → Prop
  | true, .create name .. | true, .drop name _ => olderOn d sid name = []
  | true, .flush name .. | true, .stream name _ => ∀ op ∈ olderOn d sid name, op.isFlush
  | false, .create name .. | false, .drop name _ => newerOn d sid name = []
  | false, .flush .. | false, .stream .. => False

def InOrder (s : SlotState) : SlotStep → Prop
  | .append sid ok => ∀ op ∈ s.inFlight.lookup sid, MayFinish s.inFlight sid ok op
  | _ => True

instance (d : Dict Sid SlotOp) (sid : Sid) : ∀ ok op, Decidable (MayFinish d sid ok op)
  | true, .create name .. | true, .drop name _ =>
    inferInstanceAs (Decidable (olderOn d sid name = []))
  | true, .flush name .. | true, .stream name _ =>
    inferInstanceAs (Decidable (∀ op ∈ olderOn d sid name, op.isFlush))
  | false, .create name .. | false, .drop name _ =>
    inferInstanceAs (Decidable (newerOn d sid name = []))
  | false, .flush .. | false, .stream .. => inferInstanceAs (Decidable False)

instance (s : SlotState) : ∀ i, Decidable (InOrder s i)
  | .append sid ok =>
    inferInstanceAs (Decidable (∀ op ∈ s.inFlight.lookup sid, MayFinish s.inFlight sid ok op))
  | .create .. | .drop .. | .start .. | .progress .. | .feedback .. | .stop _ =>
    inferInstanceAs (Decidable True)

/-! ## States -/

@[simp]
theorem replay_append (log : List SlotRecord) (r : SlotRecord) :
    replay (log ++ [r]) = applyRecord (replay log) r := by
  simp [replay]

namespace SlotState

/-- For every name, the operations in flight lie between the log and the catalog. -/
def Consistent (s : SlotState) : Prop :=
  ∀ name, Agrees (opsOn s.inFlight name) (positionOf (replay s.log) name) (s.slots.lookup name)

namespace Consistent

variable {s s' : SlotState} {sid : Sid} {name : String}

/-- A step on one name. -/
theorem of_name (hs : s.Consistent) (name : String)
    (hname : Agrees (opsOn s'.inFlight name) (positionOf (replay s'.log) name)
      (s'.slots.lookup name))
    (hops : ∀ m, m ≠ name → opsOn s'.inFlight m = opsOn s.inFlight m)
    (hlog : ∀ m, m ≠ name → positionOf (replay s'.log) m = positionOf (replay s.log) m)
    (hslots : ∀ m, m ≠ name → s'.slots.lookup m = s.slots.lookup m) : s'.Consistent := by
  intro m
  by_cases hm : m = name
  · exact hm ▸ hname
  · rw [hops m hm, hlog m hm, hslots m hm]
    exact hs m

theorem begin {op : SlotOp} {slots : Slots} (hs : s.Consistent)
    (hidle : s.inFlight.lookup sid = none)
    (hname : Agrees (op :: opsOn s.inFlight op.name) (positionOf (replay s.log) op.name)
      (slots.lookup op.name))
    (hslots : ∀ m, m ≠ op.name → slots.lookup m = s.slots.lookup m) :
    (s.begin sid slots op).Consistent := by
  refine hs.of_name op.name ?_ (fun m hm => opsOn_insert_ne hidle hm) (fun _ _ => rfl) hslots
  rw [SlotState.begin, opsOn_insert hidle]
  exact hname

theorem createSlot (hs : s.Consistent) (hidle : s.inFlight.lookup sid = none)
    (name slotType plugin : String) (lsn : Nat) :
    (s.createSlot sid name slotType plugin lsn).1.Consistent := by
  unfold SlotState.createSlot
  split
  · exact hs
  · split
    · exact hs
    · next hfree =>
      have hnone : s.slots.lookup name = none := by simpa using hfree
      have hname := hs name
      rw [hnone] at hname
      refine hs.begin hidle ?_ fun m hm => AList.lookup_insert_ne hm
      simp only [SlotOp.name, AList.lookup_insert]
      exact hname.create ..

theorem dropSlot (hs : s.Consistent) (hidle : s.inFlight.lookup sid = none) (name : String) :
    (s.dropSlot sid name).1.Consistent := by
  unfold SlotState.dropSlot
  split
  · exact hs
  · next slot hslot =>
    split
    · exact hs
    · next hactive =>
      have hname := hs name
      rw [hslot] at hname
      refine hs.begin hidle ?_ fun m hm => AList.lookup_erase_ne hm
      simp only [SlotOp.name, AList.lookup_erase]
      exact hname.drop hactive

theorem startStream (hs : s.Consistent) (hidle : s.inFlight.lookup sid = none) (name : String) :
    (s.startStream sid name).1.Consistent := by
  unfold SlotState.startStream
  split
  · exact hs
  · next slot hslot =>
    split
    · exact hs
    · next hactive =>
      split
      · exact hs
      · have hname := hs name
        rw [hslot] at hname
        refine hs.begin hidle ?_ fun m hm => Dict.lookup_update_ne hm ..
        simp only [SlotOp.name, Dict.lookup_update, hslot, Option.map_some]
        exact hname.start hactive

/-- A stream is the newest operation on its name, and the slot is there. -/
theorem opsOn_stream (hs : s.Consistent) {u : Option (Nat × Nat)}
    (hop : s.inFlight.lookup sid = some (.stream name u)) :
    newerOn s.inFlight sid name = [] ∧
      ∃ slot, s.slots.lookup name = some slot ∧
        Agrees (.stream name u :: olderOn s.inFlight sid name) (positionOf (replay s.log) name)
          (some slot) := by
  obtain ⟨hsplit, -⟩ := opsOn_split hop
  have hname := hs name
  obtain ⟨hnewer, slot, hslot, -⟩ := hname.streams _ _ _ hsplit rfl
  refine ⟨hnewer, slot, hslot, ?_⟩
  simp only [SlotOp.name] at hsplit hnewer
  rw [hnewer, List.nil_append] at hsplit
  rw [← hslot, ← hsplit]
  exact hname

theorem streamProgress (hs : s.Consistent)
    (hop : s.inFlight.lookup sid = some (.stream name none)) (nextLsn : Nat) :
    (s.streamProgress name nextLsn).Consistent := by
  obtain ⟨hnewer, slot, hslot, hname⟩ := hs.opsOn_stream hop
  obtain ⟨hsplit, -⟩ := opsOn_split hop
  refine hs.of_name name ?_ (fun _ _ => rfl) (fun _ _ => rfl)
    fun m hm => Dict.lookup_update_ne hm ..
  simp only [SlotState.streamProgress, Dict.lookup_update, hslot, Option.map_some]
  rw [SlotOp.name, hnewer, List.nil_append] at hsplit
  rw [hsplit]
  exact hname.stream ⟨rfl, rfl, le_max_left .., le_rfl⟩ rfl (by simp)

theorem behind_confirm (flushed : Nat) (slot : ReplSlot) :
    slot.position.Behind (confirm flushed slot).position := by
  unfold confirm
  split
  · next h => exact ⟨rfl, rfl, le_max_left .., le_of_lt h⟩
  · exact .refl _

theorem active_confirm (flushed : Nat) (slot : ReplSlot) :
    (confirm flushed slot).active = slot.active := by
  unfold confirm
  split <;> rfl

theorem streamFeedback (hs : s.Consistent)
    (hop : s.inFlight.lookup sid = some (.stream name none)) (flushed : Int) (due : Bool) :
    (s.streamFeedback sid name flushed due).Consistent := by
  obtain ⟨hnewer, slot, hslot, hname⟩ := hs.opsOn_stream hop
  obtain ⟨hsplit, -, hupdate⟩ := opsOn_split hop
  simp only [SlotOp.name, hnewer, List.nil_append] at hsplit hupdate
  unfold SlotState.streamFeedback
  rw [hslot]
  refine hs.of_name name ?_ ?_ (fun _ _ => rfl) fun m hm => Dict.lookup_update_ne hm ..
  · simp only [Dict.lookup_update, hslot, Option.map_some]
    cases due with
    | false =>
      simp only [Bool.false_eq_true, if_false, hsplit]
      exact hname.stream (behind_confirm ..) (active_confirm ..) (by simp)
    | true =>
      simp only [if_true]
      rw [hupdate _ rfl]
      exact hname.stream (behind_confirm ..) (active_confirm ..) (by simp)
  · intro m hm
    cases due with
    | false => rfl
    | true => exact opsOn_update_ne hop rfl hm

theorem streamEnd (hs : s.Consistent) (hop : s.inFlight.lookup sid = some (.stream name none)) :
    (s.streamEnd sid name).Consistent := by
  obtain ⟨hnewer, slot, hslot, hname⟩ := hs.opsOn_stream hop
  obtain ⟨-, -, hupdate⟩ := opsOn_split hop
  simp only [SlotOp.name, hnewer, List.nil_append] at hupdate
  unfold SlotState.streamEnd
  rw [hslot]
  refine hs.of_name name ?_ (fun m hm => opsOn_update_ne hop rfl hm) (fun _ _ => rfl)
    fun m hm => Dict.lookup_update_ne hm ..
  simp only [Dict.lookup_update, hslot, Option.map_some]
  rw [hupdate _ rfl]
  exact hname.stop

/-- The end of an operation that leaves the flights of other names alone. -/
theorem erase {op : SlotOp} {slots : Slots} {log : List SlotRecord} (hs : s.Consistent)
    (hop : s.inFlight.lookup sid = some op)
    (hname : Agrees (newerOn s.inFlight sid op.name ++ olderOn s.inFlight sid op.name)
      (positionOf (replay log) op.name) (slots.lookup op.name))
    (hlog : ∀ m, m ≠ op.name → positionOf (replay log) m = positionOf (replay s.log) m)
    (hslots : ∀ m, m ≠ op.name → slots.lookup m = s.slots.lookup m) :
    Consistent ⟨slots, log, s.inFlight.erase sid⟩ := by
  refine hs.of_name op.name ?_ (fun m hm => opsOn_erase_ne hop hm) hlog hslots
  rw [(opsOn_split hop).2.1]
  exact hname

theorem finish {op : SlotOp} {ok : Bool} (hs : s.Consistent)
    (hop : s.inFlight.lookup sid = some op) (hmay : MayFinish s.inFlight sid ok op)
    (hfinish : s.finish sid ok op = some s') : s'.Consistent := by
  have hname := hs op.name
  rw [(opsOn_split hop).1] at hname
  cases op with
  | create name plugin slotType lsn =>
    cases ok with
    | true =>
      obtain rfl : s.logged _ _ = s' := by simpa [SlotState.finish] using hfinish
      have holder : olderOn s.inFlight sid name = [] := hmay
      refine hs.erase hop ?_ (fun m hm => ?_) (fun _ _ => rfl)
      · simp only [SlotOp.name, replay_append, applyRecord, positionOf_insert, holder,
          List.append_nil] at hname ⊢
        exact hname.log_create
      · rw [replay_append]
        exact positionOf_insert_ne _ _ hm _
    | false =>
      obtain rfl : _ = s' := by simpa [SlotState.finish] using hfinish
      have hnewer : newerOn s.inFlight sid name = [] := hmay
      refine hs.erase hop ?_ (fun _ _ => rfl) (fun m hm => AList.lookup_erase_ne hm)
      simp only [SlotOp.name, hnewer, List.nil_append, AList.lookup_erase] at hname ⊢
      exact hname.undo_create
  | drop name removed =>
    cases ok with
    | true =>
      obtain rfl : s.logged _ _ = s' := by simpa [SlotState.finish] using hfinish
      have holder : olderOn s.inFlight sid name = [] := hmay
      refine hs.erase hop ?_ (fun m hm => ?_) (fun _ _ => rfl)
      · simp only [SlotOp.name, replay_append, applyRecord, positionOf_erase, holder,
          List.append_nil] at hname ⊢
        exact hname.log_drop
      · rw [replay_append]
        exact positionOf_erase_ne _ _ hm
    | false =>
      obtain rfl : _ = s' := by simpa [SlotState.finish] using hfinish
      have hnewer : newerOn s.inFlight sid name = [] := hmay
      refine hs.erase hop ?_ (fun _ _ => rfl) (fun m hm => AList.lookup_insert_ne hm)
      simp only [SlotOp.name, hnewer, List.nil_append, AList.lookup_insert] at hname ⊢
      exact hname.undo_drop
  | flush name restart confirmed =>
    cases ok with
    | false => exact hmay.elim
    | true =>
      obtain rfl : s.logged _ _ = s' := by simpa [SlotState.finish] using hfinish
      refine hs.erase hop ?_ (fun m hm => ?_) (fun _ _ => rfl)
      · simp only [SlotOp.name, replay_append, applyRecord] at hname ⊢
        rw [positionOf_advance]
        exact hname.log_flush hmay
      · rw [replay_append]
        exact positionOf_update_ne _ _ hm _
  | stream name unlogged =>
    cases unlogged with
    | none => simp [SlotState.finish] at hfinish
    | some u =>
      cases ok with
      | false => exact hmay.elim
      | true =>
        obtain rfl : s.logged _ _ = s' := by simpa [SlotState.finish] using hfinish
        obtain ⟨hnewer, slot, hslot, hstream⟩ := hs.opsOn_stream hop
        refine hs.of_name name ?_ (fun m hm => opsOn_update_ne hop rfl hm) (fun m hm => ?_)
          (fun _ _ => rfl)
        · have hupdate := (opsOn_split hop).2.2 (.stream name none) rfl
          simp only [SlotOp.name, hnewer, List.nil_append] at hupdate
          simp only [logged, replay_append, applyRecord, hupdate, hslot]
          rw [positionOf_advance]
          exact hstream.log_stream hmay
        · rw [logged, replay_append]
          exact positionOf_update_ne _ _ hm _

/-- Every step in order keeps the agreement. -/
theorem step {i : SlotStep} (hs : s.Consistent) (horder : InOrder s i)
    (hstep : s.step i = some s') : s'.Consistent := by
  unfold SlotState.step at hstep
  split at hstep
  · next sid name slotType plugin lsn hidle =>
    cases hstep
    exact hs.createSlot hidle name slotType plugin lsn
  · next sid name hidle =>
    cases hstep
    exact hs.dropSlot hidle name
  · next sid name hidle =>
    cases hstep
    exact hs.startStream hidle name
  · next sid nextLsn name hop =>
    cases hstep
    exact hs.streamProgress hop nextLsn
  · next sid flushed due name hop =>
    cases hstep
    exact hs.streamFeedback hop flushed due
  · next sid name hop =>
    cases hstep
    exact hs.streamEnd hop
  · next sid ok op hop => exact hs.finish hop (horder op hop) hstep
  · cases hstep

/-- With nothing in flight, the agreement is that of the log and the catalog. -/
theorem of_durable (hidle : s.inFlight = ∅) (hdurable : ∀ name, s.Durable name) : s.Consistent := by
  intro name
  rw [hidle]
  exact ⟨hdurable name, fun newer op older heq => absurd heq (by simp [opsOn, entriesOn])⟩

theorem durable (hs : s.Consistent) (hidle : opsOn s.inFlight name = []) : s.Durable name := by
  have hname := hs name
  rw [hidle] at hname
  exact hname.leads

end Consistent

/-! ## Failed appends -/

section Failed

variable {s s' s₁ s₂ s₃ : SlotState} {i : SlotStep} {sid : Sid}

/-- A step of one session leaves the operation of another alone. -/
theorem step_inFlight_ne (hsid : i.sid ≠ sid) (hstep : s.step i = some s') :
    s'.inFlight.lookup sid = s.inFlight.lookup sid := by
  have hne : sid ≠ i.sid := hsid.symm
  unfold SlotState.step at hstep
  split at hstep
  · cases hstep
    unfold createSlot begin
    repeat' split
    · rfl
    · rfl
    · exact AList.lookup_insert_ne hne
  · cases hstep
    unfold dropSlot begin
    repeat' split
    · rfl
    · rfl
    · exact AList.lookup_insert_ne hne
  · cases hstep
    unfold startStream begin
    repeat' split
    · rfl
    · rfl
    · rfl
    · exact AList.lookup_insert_ne hne
  · cases hstep
    rfl
  · cases hstep
    unfold streamFeedback
    split
    · rfl
    · dsimp only
      split
      · exact Dict.lookup_update_ne hne ..
      · rfl
  · cases hstep
    unfold streamEnd
    split
    · exact AList.lookup_erase_ne hne
    · exact Dict.lookup_update_ne hne ..
  · next ok op hop =>
    have herase : (s.inFlight.erase _).lookup sid = s.inFlight.lookup sid :=
      AList.lookup_erase_ne hne
    have hupdate (f : SlotOp → SlotOp) : (s.inFlight.update _ f).lookup sid = s.inFlight.lookup sid :=
      Dict.lookup_update_ne hne ..
    unfold finish logged at hstep
    split at hstep
    · cases hstep
      split <;> exact herase
    · cases hstep
      split <;> exact herase
    · cases hstep
      split <;> exact herase
    · cases hstep
      split <;> exact hupdate _
    · cases hstep
  · cases hstep

theorem run_inFlight_ne {is : List SlotStep} (hsid : ∀ j ∈ is, j.sid ≠ sid)
    (hrun : run step s is = some s') : s'.inFlight.lookup sid = s.inFlight.lookup sid := by
  induction is generalizing s with
  | nil =>
    cases hrun
    rfl
  | cons i is ih =>
    obtain ⟨m, hstep, hrest⟩ := Option.bind_eq_some_iff.1 hrun
    rw [ih (fun j hj => hsid j (List.mem_cons_of_mem i hj)) hrest]
    exact step_inFlight_ne (hsid i List.mem_cons_self) hstep

/-- What an operation that has begun can take back. -/
def Remembers (before : Slots) : SlotOp → Prop
  | .create name .. => before.lookup name = none
  | .drop name removed => before.lookup name = some removed
  | .stream _ unlogged => unlogged = none
  | .flush .. => False

/-- The slot of an operation is as it was before, and no other has changed. -/
structure TakenBack (name : String) (before now after : Slots) : Prop where
  own : after.lookup name = before.lookup name
  others : ∀ m, m ≠ name → after.lookup m = now.lookup m

theorem remembers_of_step (hidle : s.inFlight.lookup i.sid = none) (hstep : s.step i = some s')
    {op : SlotOp} (hop : s'.inFlight.lookup i.sid = some op) : Remembers s.slots op := by
  unfold SlotState.step at hstep
  split at hstep
  · cases hstep
    unfold createSlot begin at hop
    repeat' split at hop
    · simp_all
    · simp_all
    · next hfree =>
      obtain rfl : _ = op := by simpa [SlotStep.sid] using hop
      simpa [Remembers] using hfree
  · cases hstep
    unfold dropSlot begin at hop
    repeat' split at hop
    · simp_all
    · simp_all
    · next slot hslot _ =>
      obtain rfl : _ = op := by simpa [SlotStep.sid] using hop
      exact hslot
  · cases hstep
    unfold startStream begin at hop
    repeat' split at hop
    · simp_all
    · simp_all
    · simp_all
    · obtain rfl : _ = op := by simpa [SlotStep.sid] using hop
      rfl
  all_goals simp_all

theorem step_append {op : SlotOp} {ok : Bool} (hop : s.inFlight.lookup sid = some op) :
    s.step (.append sid ok) = s.finish sid ok op := by
  simp [SlotState.step, SlotStep.sid, hop]

/-- The failed append of an operation that has just begun takes it back. -/
theorem failed_append {mid : List SlotStep} (hidle : s₁.inFlight.lookup i.sid = none)
    (hstep : s₁.step i = some s) (hrun : run step s mid = some s₂)
    (hmid : ∀ j ∈ mid, j.sid ≠ i.sid) {op : SlotOp} (hop : s₂.inFlight.lookup i.sid = some op)
    (hfail : s₂.step (.append i.sid false) = some s₃) :
    TakenBack op.name s₁.slots s₂.slots s₃.slots := by
  have hremembers := @remembers_of_step _ _ _ hidle hstep op
  rw [← run_inFlight_ne hmid hrun] at hremembers
  have hrem := hremembers hop
  have hfinish : s₂.finish i.sid false op = some s₃ := by rwa [step_append hop] at hfail
  cases op with
  | create name plugin slotType lsn =>
    obtain rfl : _ = s₃ := by simpa [finish] using hfinish
    exact ⟨by simpa [SlotOp.name, Remembers] using hrem.symm, fun m hm => AList.lookup_erase_ne hm⟩
  | drop name removed =>
    obtain rfl : _ = s₃ := by simpa [finish] using hfinish
    exact ⟨by simpa [SlotOp.name, Remembers] using hrem.symm, fun m hm => AList.lookup_insert_ne hm⟩
  | stream name unlogged =>
    obtain rfl : unlogged = none := hrem
    simp [finish] at hfinish
  | flush name restart confirmed => exact hrem.elim

end Failed

/-! ## Durability -/

/-- Two sessions create, stream, drop and create a slot again; one create fails. -/
def overlappingOps : List SlotStep :=
  [.create 1 "standby" "logical" decodingPlugin 40, .drop 2 "standby", .append 1 true,
    .create 1 "standby" "logical" decodingPlugin 90, .append 1 false, .append 2 true,
    .create 1 "standby" "logical" decodingPlugin 120, .append 1 true, .start 2 "standby",
    .progress 2 300, .feedback 2 250 true, .append 2 true, .stop 2, .append 2 true]

end SlotState

end Repl
