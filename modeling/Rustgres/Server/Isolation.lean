-- SUMMARY: Snapshot isolation of the stored row versions, over all runs.
import Rustgres.Server.Sound

/-!
# Snapshot Isolation

A snapshot sees a version if its creation was committed before or is its own, and no deletion of it
was. What other sessions do in between does not change what a registered snapshot sees.
-/

namespace Backend

variable {V K : Type}

/-! ## Where a run starts -/

/-- No transaction is open, the tables are in step, and all ids have been handed out. -/
structure Quiescent (s : Sys V K) : Prop where
  idle : ∀ sid, s.txns sid = none
  active : s.eng.txns.active = ∅
  snapshots : s.eng.txns.snapshots.values = []
  seqAdvanced : s.eng.seqAdvanced = []
  rowsOk : s.eng.db.RowsOk
  idsBelow : s.eng.IdsBelow
  pos : 0 < s.eng.txns.nextXid
  stamps : ∀ loc id v, s.eng.db.rowAt loc id = some v →
    v.xmin < s.eng.txns.nextXid ∧ v.xmax < s.eng.txns.nextXid

/-- The changes that left a version as it is. -/
def pastOf (name : String) (v : RowVersion V) : List (Logged V K) :=
  (v.xmin, .insertRow name v.id) :: if v.xmax = 0 then [] else [(v.xmax, .deleteRow name v.id 0)]

/-- The history in which everything stored is committed. -/
def History.initial (db : Database V K) : History V K where
  done := db.tables.entries.flatMap fun e => e.2.flatMap fun t => t.rows.flatMap (pastOf e.1)
  pending _ := []

theorem mem_initial {db : Database V K} (h : db.RowsOk) {e : Logged V K} :
    e ∈ (History.initial db).done ↔ ∃ loc id v, db.rowAt loc id = some v ∧ e ∈ pastOf loc.1 v := by
  simp only [History.initial, List.mem_flatMap]
  constructor
  · rintro ⟨entry, hentry, t, ht, v, hv, he⟩
    obtain ⟨pos, hpos⟩ := List.mem_iff_getElem?.1 ht
    have htable : db.tableAt (entry.1, pos) = some t := by
      have hlook : db.tables.lookup entry.1 = some entry.2 := AList.mem_lookup_iff.2 hentry
      simp [Database.tableAt, hlook, hpos]
    exact ⟨(entry.1, pos), v.id, v, h.rowAt_of_mem htable hv, he⟩
  · rintro ⟨loc, id, v, hv, he⟩
    obtain ⟨t, ht, hrow⟩ := Database.rowAt_eq_some.1 hv
    have hmem := ((h.synced loc t ht).row?_eq_some.1 hrow).1
    simp only [Database.tableAt, Option.bind_eq_some_iff] at ht
    obtain ⟨ts, hlook, hget⟩ := ht
    exact ⟨⟨loc.1, ts⟩, AList.mem_lookup_iff.1 hlook, t, List.mem_of_getElem? hget, v, hmem, he⟩

theorem initial_inserted {db : Database V K} (h : db.RowsOk) {x : Xid} {id : RowId} :
    (History.initial db).Inserted x id ↔ ∃ loc v, db.rowAt loc id = some v ∧ x = v.xmin := by
  constructor
  · rintro ⟨op, hop | ⟨sid, hop⟩, hid⟩
    · obtain ⟨loc, id', v, hv, he⟩ := (mem_initial h).1 hop
      unfold pastOf at he
      rcases List.mem_cons.1 he with heq | he
      · cases heq
        obtain rfl : id = v.id := by simpa [WriteOp.inserted] using hid
        exact ⟨loc, v, h.rowAt_id hv ▸ hv, rfl⟩
      · split at he
        · simp at he
        · obtain ⟨rfl, rfl⟩ := Prod.mk.inj (List.mem_singleton.1 he)
          simp [WriteOp.inserted] at hid
    · simp [History.initial] at hop
  · rintro ⟨loc, v, hv, rfl⟩
    obtain rfl := h.rowAt_id hv
    exact ⟨.insertRow loc.1 v.id, .inl ((mem_initial h).2 ⟨loc, _, v, hv, .head _⟩),
      by simp [WriteOp.inserted]⟩

theorem initial_deleted {db : Database V K} (h : db.RowsOk) {x : Xid} {id : RowId} :
    (History.initial db).Deleted x id
      ↔ ∃ loc v, db.rowAt loc id = some v ∧ x ≠ 0 ∧ x = v.xmax := by
  constructor
  · rintro ⟨op, hop | ⟨sid, hop⟩, hid⟩
    · obtain ⟨loc, id', v, hv, he⟩ := (mem_initial h).1 hop
      unfold pastOf at he
      rcases List.mem_cons.1 he with heq | he
      · cases heq
        simp [WriteOp.deleted] at hid
      · split at he
        · simp at he
        · next hne =>
          obtain ⟨rfl, rfl⟩ := Prod.mk.inj (List.mem_singleton.1 he)
          obtain rfl : id = v.id := by simpa [WriteOp.deleted] using hid
          exact ⟨loc, v, h.rowAt_id hv ▸ hv, hne, rfl⟩
    · simp [History.initial] at hop
  · rintro ⟨loc, v, hv, hne, rfl⟩
    obtain rfl := h.rowAt_id hv
    refine ⟨.deleteRow loc.1 v.id 0, .inl ((mem_initial h).2 ⟨loc, _, v, hv, ?_⟩), ?_⟩
    · simp [pastOf, hne]
    · simp [WriteOp.deleted]

/-- A quiescent state is sound. -/
theorem Quiescent.sound {s : Sys V K} (h : Quiescent s) : Sound (s, History.initial s.eng.db) where
  rowsOk := h.rowsOk
  idsBelow := h.idsBelow
  seqAdvanced := h.seqAdvanced
  idle _ _ := rfl
  logs sid t ht := by simp [h.idle sid] at ht
  family := by
    constructor
    · exact h.pos
    · simp [h.active]
    · simp [h.active, h.idle]
    · intro sid sid' t t' x ht
      simp [h.idle sid] at ht
    · intro sid t ht
      simp [h.idle sid] at ht
    · intro sid t snap ht
      simp [h.idle sid] at ht
    · simp [h.snapshots]
  recorded := by
    constructor
    · intro loc id v hv x
      rw [initial_inserted h.rowsOk]
      constructor
      · rintro ⟨loc', v', hv', rfl⟩
        obtain rfl := h.rowsOk.unique _ _ _ _ _ hv hv'
        rw [hv] at hv'
        cases hv'
        rfl
      · rintro rfl
        exact ⟨loc, v, hv, rfl⟩
    · intro loc id v hv x
      rw [initial_deleted h.rowsOk]
      constructor
      · rintro ⟨loc', v', hv', hne, rfl⟩
        obtain rfl := h.rowsOk.unique _ _ _ _ _ hv hv'
        rw [hv] at hv'
        cases hv'
        exact ⟨hne, rfl⟩
      · rintro ⟨hne, rfl⟩
        exact ⟨loc, v, hv, hne, rfl⟩
    · intro x id hx
      obtain ⟨loc, v, hv, -⟩ := (initial_inserted h.rowsOk).1 hx
      exact .inl ⟨loc, v, hv⟩
    · rintro x id (hx | hx)
      · obtain ⟨loc, v, hv, -⟩ := (initial_inserted h.rowsOk).1 hx
        exact h.idsBelow loc id v hv
      · obtain ⟨loc, v, hv, -⟩ := (initial_deleted h.rowsOk).1 hx
        exact h.idsBelow loc id v hv
    · simp [History.initial]
    · intro e he
      obtain ⟨loc, id, v, hv, hpast⟩ := (mem_initial h.rowsOk).1 he
      obtain ⟨hmin, hmax⟩ := h.stamps loc id v hv
      refine ⟨?_, by simp [h.active]⟩
      unfold pastOf at hpast
      rcases List.mem_cons.1 hpast with rfl | hpast
      · exact hmin
      · split at hpast
        · simp at hpast
        · obtain rfl := List.mem_singleton.1 hpast
          exact hmax
    · simp [History.initial]
    · rintro e (he | ⟨sid, he⟩)
      · obtain ⟨loc, id, v, hv, hpast⟩ := (mem_initial h.rowsOk).1 he
        unfold pastOf at hpast
        rcases List.mem_cons.1 hpast with rfl | hpast
        · exact ⟨trivial, trivial, by simp⟩
        · split at hpast
          · simp at hpast
          · obtain rfl := List.mem_singleton.1 hpast
            exact ⟨trivial, rfl, by simp⟩
      · simp [History.initial] at he

/-! ## What an action adds -/

section

variable [DecidableEq K] [SqlValue V K]

/-- An action makes changes under running ids only, keeps what is committed, and starts only ids
that are new. -/
structure Advances (c c' : Sys V K × History V K) : Prop where
  holds : ∀ e, c'.2.Holds e → c.2.Holds e ∨ e.1 ∈ c.1.eng.txns.active
  done : ∀ e ∈ c.2.done, e ∈ c'.2.done
  nextXid : c.1.eng.txns.nextXid ≤ c'.1.eng.txns.nextXid
  active : ∀ x ∈ c'.1.eng.txns.active, x ∈ c.1.eng.txns.active ∨ c.1.eng.txns.nextXid ≤ x

theorem Sound.advances {c c' : Sys V K × History V K} {a : Act V} (hs : Sound c)
    (hstep : track c a = some c') : Advances c c' := by
  obtain ⟨s, h⟩ := c
  obtain ⟨s', hact, rfl⟩ := Option.map_eq_some_iff.1 hstep
  have hgrow : ∀ {m : TxnManager}, ∀ x ∈ insert m.nextXid m.active, x ∈ m.active ∨ m.nextXid ≤ x :=
    fun x hx => (Finset.mem_insert.1 hx).symm.imp_right fun h => h.ge
  cases a with
  | begin sid level =>
    cases ht : s.txns sid with
    | some t => simp [Sys.act, ht] at hact
    | none =>
      obtain rfl : s.put sid _ _ = s' := by simpa [Sys.act, ht] using hact
      exact ⟨fun e he => .inl he, fun e he => he, Nat.le_succ _, hgrow⟩
  | pin sid =>
    obtain ⟨t, ht, rfl⟩ := Option.map_eq_some_iff.1 hact
    refine ⟨fun e he => .inl he, fun e he => he, ?_, ?_⟩
    · dsimp only [Sys.put, stmtSnapshot]
      split <;> exact le_rfl
    · dsimp only [Sys.put, stmtSnapshot]
      split <;> exact fun x hx => .inl hx
  | stmt sid st =>
    obtain ⟨t, ht, hstmt⟩ := Option.bind_eq_some_iff.1 hact
    obtain ⟨snap, hsnap, rfl⟩ := Option.map_eq_some_iff.1 hstmt
    have hdoes := st.exec_does hs.rowsOk hs.idsBelow (t.ctx snap)
    have hmem : t.writeXid ∈ s.eng.txns.active := hs.family.mem_active ht (hs.family.writeXid_mem ht)
    refine ⟨fun e he => ?_, fun e he => ?_, hdoes.txns.nextXid.ge, fun x hx => .inl ?_⟩
    · simp only [History.after, show s.txns sid = some t from ht,
        show t.readSnapshot s.eng = some snap from hsnap, Option.bind_some, Option.map_some] at he
      rcases (History.holds_record _).1 he with he | he
      · exact .inl he
      · obtain ⟨op, -, rfl⟩ := List.mem_map.1 he
        exact .inr hmem
    · simp only [History.after, show s.txns sid = some t from ht,
        show t.readSnapshot s.eng = some snap from hsnap, Option.bind_some, Option.map_some]
      exact he
    · rw [← hdoes.txns.active]
      exact hx
  | fail sid =>
    obtain ⟨t, ht, rfl⟩ := Option.map_eq_some_iff.1 hact
    exact ⟨fun e he => .inl he, fun e he => he, le_rfl, fun x hx => .inl hx⟩
  | savepoint sid name =>
    obtain ⟨t, ht, rfl⟩ := Option.map_eq_some_iff.1 hact
    exact ⟨fun e he => .inl ((History.holds_put_of_items (by simp)).1 he), fun e he => he,
      Nat.le_succ _, hgrow⟩
  | rollbackTo sid name =>
    obtain ⟨t, ht, hroll⟩ := Option.bind_eq_some_iff.1 hact
    cases hfrom : t.fromName name with
    | nil => simp [hfrom] at hroll
    | cons save rest =>
      obtain rfl : s.put sid _ _ = s' := by simpa [hfrom] using hroll
      refine ⟨fun e he => .inl ?_, fun e he => he, ?_, ?_⟩
      · rw [History.after, History.holds_put] at he
        refine (History.holds_iff sid).2 (he.imp_right (Or.imp_left fun hmem => ?_))
        exact (Journal.items_rollbackTo name (h.pending sid)).subset hmem
      · rw [Sys.put_eng, txnRollbackTo_txns]
        exact Nat.le_succ _
      · rw [Sys.put_eng, txnRollbackTo_txns]
        exact hgrow
  | release sid name =>
    obtain ⟨t, ht, hrel⟩ := Option.bind_eq_some_iff.1 hact
    cases hfrom : t.fromName name with
    | nil => simp [hfrom] at hrel
    | cons save rest =>
      obtain rfl : s.put sid _ _ = s' := by simpa [hfrom] using hrel
      exact ⟨fun e he => .inl ((History.holds_put_of_items (by simp)).1 he), fun e he => he,
        le_rfl, fun x hx => .inl hx⟩
  | commit sid =>
    obtain ⟨t, ht, hcommit⟩ := Option.bind_eq_some_iff.1 hact
    cases hrecords : recordsForCommit s.eng t.xid t.writes with
    | error msg => simp [hrecords] at hcommit
    | ok records =>
      simp only [hrecords, Option.some.injEq] at hcommit
      subst hcommit
      refine ⟨fun e he => .inl ?_, fun e he => List.mem_append_left _ he, (nextXid_retire ..).ge,
        fun x hx => .inl ((mem_active_retire ..).1 hx).1⟩
      rcases he with he | ⟨sid', he⟩
      · exact (List.mem_append.1 he).imp_right fun hmem => ⟨sid, hmem⟩
      · by_cases hsid : sid' = sid
        · simp [History.after, History.put, hsid] at he
        · exact .inr ⟨sid', by simpa [History.after, History.put, hsid] using he⟩
  | abort sid =>
    obtain ⟨t, ht, rfl⟩ := Option.map_eq_some_iff.1 hact
    refine ⟨fun e he => .inl ?_, fun e he => he, ?_, fun x hx => .inl ?_⟩
    · rw [History.after, History.holds_put] at he
      refine (History.holds_iff sid).2 (he.imp_right (Or.imp_left fun hmem => ?_))
      simp at hmem
    · rw [Sys.put_eng, nextXid_retire, Engine.undoAll_txns]
    · have := ((mem_active_retire ..).1 hx).1
      rwa [Engine.undoAll_txns] at this
  | vacuum table =>
    obtain rfl : { s with eng := s.eng.vacuumTable table } = s' := by simpa [Sys.act] using hact
    exact ⟨fun e he => .inl he, fun e he => he, le_rfl, fun x hx => .inl hx⟩

end

/-! ## What a snapshot sees -/

/-- The snapshot was taken when the history was `h₁`. -/
structure Since (snap : Snapshot) (h₁ : History V K) (c : Sys V K × History V K) : Prop where
  before : Before snap c.1.eng.txns
  done : ∀ e ∈ h₁.done, e ∈ c.2.done ∧ snap.Ended e.1
  ended : ∀ e, c.2.Holds e → snap.Ended e.1 → e ∈ h₁.done

theorem Sound.since {c : Sys V K × History V K} (hs : Sound c) :
    Since c.1.eng.txns.takeSnapshot c.2 c where
  before := Family.before_takeSnapshot _
  done e he := ⟨he, hs.recorded.ended e he⟩
  ended e he hended := by
    rcases he with he | ⟨sid, he⟩
    · exact he
    · exact absurd (hs.recorded.running sid e he) hended.2

theorem Since.advance {snap : Snapshot} {h₁ : History V K} {c c' : Sys V K × History V K}
    (h : Since snap h₁ c) (hadv : Advances c c') : Since snap h₁ c' where
  before := by
    refine ⟨h.before.1.trans hadv.nextXid, fun x hx hended => ?_⟩
    rcases hadv.active x hx with hold | hnew
    · exact h.before.2 x hold hended
    · exact absurd hended.1 (Nat.not_lt.2 (h.before.1.trans hnew))
  done e he := ⟨hadv.done e (h.done e he).1, (h.done e he).2⟩
  ended e he hended := by
    rcases hadv.holds e he with hold | hrunning
    · exact h.ended e hold hended
    · exact absurd hended (h.before.2 e.1 hrunning)

/-- By the history: `h₁` when the snapshot was taken, `h₂` now. The creation of the version is an
own change or was committed, and every deletion of it is neither. -/
def Sees (h₁ h₂ : History V K) (owns : List Xid) (id : RowId) : Prop :=
  (∃ x, h₂.Inserted x id ∧ (x ∈ owns ∨ h₁.DoneInserted x id)) ∧
    ∀ x, h₂.Deleted x id → x ∉ owns ∧ ¬ h₁.DoneDeleted x id

/-- The stamps of a stored version say what the history says. -/
theorem Sound.rowVisible_iff {snap : Snapshot} {h₁ : History V K} {c : Sys V K × History V K}
    (hs : Sound c) (hsince : Since snap h₁ c) {loc : Loc} {id : RowId} {v : RowVersion V}
    (hv : c.1.eng.db.rowAt loc id = some v) (owns : List Xid) :
    RowVisible v snap owns ↔ Sees h₁ c.2 owns id := by
  have hcreated := hs.recorded.created loc id v hv
  have hdeleted := hs.recorded.deleted loc id v hv
  have hins : snap.Ended v.xmin ↔ h₁.DoneInserted v.xmin id := by
    constructor
    · intro hended
      obtain ⟨op, hop, hid⟩ := (hcreated v.xmin).2 rfl
      exact ⟨op, hsince.ended _ hop hended, hid⟩
    · rintro ⟨op, hop, -⟩
      exact (hsince.done _ hop).2
  have hdel : ∀ x, c.2.Deleted x id → (snap.Ended x ↔ h₁.DoneDeleted x id) := by
    rintro x ⟨op, hop, hid⟩
    exact ⟨fun hended => ⟨op, hsince.ended _ hop hended, hid⟩,
      fun ⟨op', hop', _⟩ => (hsince.done _ hop').2⟩
  unfold RowVisible StampVisible Sees
  refine and_congr ?_ ?_
  · constructor
    · intro hvis
      exact ⟨v.xmin, (hcreated _).2 rfl, hvis.imp_right hins.1⟩
    · rintro ⟨x, hx, hvis⟩
      obtain rfl := (hcreated x).1 hx
      exact hvis.imp_right hins.2
  · constructor
    · rintro hvis x hx
      obtain ⟨hne, rfl⟩ := (hdeleted x).1 hx
      rcases hvis with hzero | ⟨hown, hrunning⟩
      · exact absurd hzero hne
      · exact ⟨hown, fun hdone => hrunning ((hdel _ hx).2 hdone)⟩
    · intro hvis
      by_cases hzero : v.xmax = 0
      · exact .inl hzero
      · have hx := (hdeleted v.xmax).2 ⟨hzero, rfl⟩
        exact .inr ⟨(hvis _ hx).1, fun hended => (hvis _ hx).2 ((hdel _ hx).1 hended)⟩

/-- A version that a current or registered snapshot should see is stored. -/
theorem Sound.seen_iff {snap : Snapshot} {h₁ : History V K} {c : Sys V K × History V K}
    (hs : Sound c) (hsince : Since snap h₁ c)
    (hkept : snap ∈ c.1.eng.txns.snapshots.values ∨ snap = c.1.eng.txns.takeSnapshot)
    (id : RowId) (owns : List Xid) :
    (∃ loc v, c.1.eng.db.rowAt loc id = some v ∧ RowVisible v snap owns)
      ↔ Sees h₁ c.2 owns id := by
  constructor
  · rintro ⟨loc, v, hv, hvis⟩
    exact (hs.rowVisible_iff hsince hv owns).1 hvis
  · intro hsees
    obtain ⟨x, hx, -⟩ := hsees.1
    rcases hs.recorded.present x id hx with ⟨loc, v, hv⟩ | ⟨d, ⟨op, hop, hid⟩, hbefore⟩
    · exact ⟨loc, v, hv, (hs.rowVisible_iff hsince hv owns).2 hsees⟩
    · -- whatever is gone was deleted before the snapshot
      have hended : snap.Ended d := by
        rcases hkept with hreg | rfl
        · exact hbefore snap hreg
        · exact hs.recorded.ended _ hop
      have hdone : h₁.DoneDeleted d id := ⟨op, hsince.ended _ (.inl hop) hended, hid⟩
      exact absurd hdone (hsees.2 d ⟨op, .inl hop, hid⟩).2

/-! ## Reading again under a registered snapshot -/

/-- The version as the reader gets it, if it is visible: a mark that does not hide it is not seen. -/
def view (snap : Snapshot) (owns : List Xid) (o : Option (RowVersion V)) : Option (RowVersion V) :=
  (o.filter fun v => RowVisible v snap owns).map fun v => { v with xmax := 0 }

section View

variable {snap : Snapshot} {owns : List Xid}

theorem view_some (v : RowVersion V) :
    view snap owns (some v) = if RowVisible v snap owns then some { v with xmax := 0 } else none := by
  unfold view
  by_cases hvis : RowVisible v snap owns <;> simp [Option.filter, hvis]

/-- An id that runs for somebody else: the snapshot does not see what it does. -/
def Foreign (snap : Snapshot) (owns : List Xid) (x : Xid) : Prop := x ∉ owns ∧ ¬ snap.Ended x

theorem not_visible_of_foreign {v : RowVersion V} (h : Foreign snap owns v.xmin) :
    ¬ RowVisible v snap owns := by
  rintro ⟨hown | hended, -⟩
  · exact h.1 hown
  · exact h.2 hended

/-- The mark of a foreign id hides nothing. -/
theorem visible_of_foreign_mark {v : RowVersion V} (h : Foreign snap owns v.xmax) :
    RowVisible v snap owns ↔ RowVisible { v with xmax := 0 } snap owns := by
  unfold RowVisible StampVisible
  exact and_congr_right fun _ => ⟨fun _ => .inl rfl, fun _ => .inr h⟩

theorem view_row {x : Xid} {P : RowVersion V → Prop} {op : WriteOp V K} {id : RowId}
    {o o' : Option (RowVersion V)} (hrow : WriteOp.RowEffect x P op id o o')
    (hP : ∀ v, P v → v.xmax = 0) (hx : Foreign snap owns x) : view snap owns o' = view snap owns o := by
  cases hrow with
  | kept => rfl
  | inserted =>
    rw [view_some, if_neg (not_visible_of_foreign (v := .plain id _ x) hx)]
    rfl
  | @marked v _ _ hPv =>
    have hzero : ({ v with xmax := 0 } : RowVersion V) = v := by rw [← hP v hPv]
    have hvis : RowVisible { v with xmax := x } snap owns ↔ RowVisible v snap owns := by
      rw [visible_of_foreign_mark (v := { v with xmax := x }) hx]
      simp only [hzero]
    simp only [view_some, hvis]

theorem view_effects {x : Xid} {P : RowVersion V → Prop} {heap heap' : Heap V}
    {ops : List (WriteOp V K)} (hops : WriteOp.Effects x P heap ops heap') (hunique : heap.Unique)
    (hP : ∀ v, P v → v.xmax = 0) (hx : Foreign snap owns x) (loc : Loc) (id : RowId) :
    view snap owns (heap' loc id) = view snap owns (heap loc id) := by
  induction hops with
  | nil => rfl
  | cons hop _ ih =>
    exact (ih (hop.unique hunique)).trans (view_row (hop.row hunique loc id) hP hx)

theorem view_undone {xids : List Xid} (hxids : ∀ x ∈ xids, Foreign snap owns x) (ins del : Prop)
    [Decidable ins] [Decidable del] (o : Option (RowVersion V)) :
    view snap owns (o.bind (RowVersion.undone xids ins del)) = view snap owns o := by
  cases o with
  | none => rfl
  | some v =>
    simp only [Option.bind_some, RowVersion.undone]
    split
    · next hins =>
      rw [view_some, if_neg (not_visible_of_foreign (hxids _ hins.2))]
      rfl
    · split
      · next hdel =>
        simp only [view_some, visible_of_foreign_mark (hxids _ hdel.2)]
      · rfl

theorem view_filter {dead : RowVersion V → Bool}
    (hdead : ∀ v, dead v → ¬ RowVisible v snap owns) (o : Option (RowVersion V)) :
    view snap owns (o.filter fun v => !dead v) = view snap owns o := by
  cases o with
  | none => rfl
  | some v =>
    by_cases hv : dead v
    · rw [view_some, if_neg (hdead v hv)]
      simp [Option.filter, hv, view]
    · simp [Option.filter, hv]

end View

/-- The session that an action is of. -/
def Act.session : Act V → Option Sid
  | .begin sid _ | .pin sid | .stmt sid _ | .fail sid | .savepoint sid _ | .rollbackTo sid _
  | .release sid _ | .commit sid | .abort sid => some sid
  | .vacuum _ => none

section

variable [DecidableEq K] [SqlValue V K]

/-- An action of somebody else does not change what a registered snapshot sees. -/
theorem Sound.view_step {c c' : Sys V K × History V K} {a : Act V} (hs : Sound c)
    (hmarks : OverwritesNoMark c.1 a) (hstep : track c a = some c') {sid : Sid} {t : Txn V K}
    (ht : c.1.txns sid = some t) {snap : Snapshot} (hsnap : t.snapshot = some snap)
    (hother : a.session ≠ some sid) :
    c'.1.txns sid = some t ∧ ∀ loc id, view snap t.allXids (c'.1.eng.db.rowAt loc id)
      = view snap t.allXids (c.1.eng.db.rowAt loc id) := by
  obtain ⟨s, h⟩ := c
  obtain ⟨s', hact, rfl⟩ := Option.map_eq_some_iff.1 hstep
  have hregistered : snap ∈ s.eng.txns.snapshots.values :=
    Dict.mem_values.2 ⟨t.xid, hs.family.pinned sid t snap ht hsnap⟩
  -- whoever acts, acts under ids that are foreign to the reader
  have hforeign : ∀ {sid' t'}, s.txns sid' = some t' → sid' ≠ sid →
      ∀ x ∈ t'.allXids, Foreign snap t.allXids x := by
    intro sid' t' ht' hne x hx
    exact ⟨fun hmem => hne (hs.family.disjoint _ _ _ _ x ht' ht hx hmem),
      (hs.family.running snap hregistered).2 x (hs.family.mem_active ht' hx)⟩
  have hput : ∀ {sid'} {eng : Engine V K} {t' : Option (Txn V K)}, sid' ≠ sid →
      (s.put sid' eng t').txns sid = some t := by
    intro sid' eng t' hne
    simpa [Sys.put, hne.symm] using ht
  cases a with
  | begin sid' level =>
    have hne : sid' ≠ sid := fun heq => hother (by rw [Act.session, heq])
    cases ht' : s.txns sid' with
    | some t' => simp [Sys.act, ht'] at hact
    | none =>
      obtain rfl : s.put sid' _ _ = s' := by simpa [Sys.act, ht'] using hact
      exact ⟨hput hne, fun _ _ => rfl⟩
  | pin sid' =>
    have hne : sid' ≠ sid := fun heq => hother (by rw [Act.session, heq])
    obtain ⟨t', ht', rfl⟩ := Option.map_eq_some_iff.1 hact
    refine ⟨hput hne, fun loc id => ?_⟩
    dsimp only [Sys.put, stmtSnapshot]
    split <;> rfl
  | stmt sid' st =>
    have hne : sid' ≠ sid := fun heq => hother (by rw [Act.session, heq])
    obtain ⟨t', ht', hstmt⟩ := Option.bind_eq_some_iff.1 hact
    obtain ⟨snap', hsnap', rfl⟩ := Option.map_eq_some_iff.1 hstmt
    have hdoes := st.exec_does hs.rowsOk hs.idsBelow (t'.ctx snap')
    refine ⟨hput hne, fun loc id => ?_⟩
    exact view_effects hdoes.effects hs.rowsOk.unique
      (fun v hv => hmarks t' snap' ht' hsnap' v hv.2)
      (hforeign ht' hne _ (hs.family.writeXid_mem ht')) loc id
  | fail sid' =>
    have hne : sid' ≠ sid := fun heq => hother (by rw [Act.session, heq])
    obtain ⟨t', ht', rfl⟩ := Option.map_eq_some_iff.1 hact
    exact ⟨hput hne, fun _ _ => rfl⟩
  | savepoint sid' name =>
    have hne : sid' ≠ sid := fun heq => hother (by rw [Act.session, heq])
    obtain ⟨t', ht', rfl⟩ := Option.map_eq_some_iff.1 hact
    exact ⟨hput hne, fun _ _ => rfl⟩
  | rollbackTo sid' name =>
    have hne : sid' ≠ sid := fun heq => hother (by rw [Act.session, heq])
    obtain ⟨t', ht', hroll⟩ := Option.bind_eq_some_iff.1 hact
    cases hfrom : t'.fromName name with
    | nil => simp [hfrom] at hroll
    | cons save rest =>
      obtain rfl : s.put sid' _ _ = s' := by simpa [hfrom] using hroll
      refine ⟨hput hne, fun loc id => ?_⟩
      have hkeeps : ∀ op ∈ t'.writes.drop save.mark, op.KeepsTables :=
        fun op hop => (hs.kind_of_mem ht' op (List.mem_of_mem_drop hop)).1
      have hheap := Engine.rowAt_undoAll hs.rowsOk hkeeps
        (fun op hop => (hs.kind_of_mem ht' op (List.mem_of_mem_drop hop)).2) t'.allXids loc id
      have hdb : (s.put sid' (txnRollbackTo s.eng t' save rest).1
          (some (txnRollbackTo s.eng t' save rest).2)).eng.db
            = (s.eng.undoAll t'.allXids (t'.writes.drop save.mark)).db := rfl
      rw [hdb, hheap]
      exact view_undone (hforeign ht' hne) _ _ _
  | release sid' name =>
    have hne : sid' ≠ sid := fun heq => hother (by rw [Act.session, heq])
    obtain ⟨t', ht', hrel⟩ := Option.bind_eq_some_iff.1 hact
    cases hfrom : t'.fromName name with
    | nil => simp [hfrom] at hrel
    | cons save rest =>
      obtain rfl : s.put sid' _ _ = s' := by simpa [hfrom] using hrel
      exact ⟨hput hne, fun _ _ => rfl⟩
  | commit sid' =>
    have hne : sid' ≠ sid := fun heq => hother (by rw [Act.session, heq])
    obtain ⟨t', ht', hcommit⟩ := Option.bind_eq_some_iff.1 hact
    cases hrecords : recordsForCommit s.eng t'.xid t'.writes with
    | error msg => simp [hrecords] at hcommit
    | ok records =>
      simp only [hrecords, Option.some.injEq] at hcommit
      subst hcommit
      have hopen : (s.put sid' (retireTxnFamily s.eng t') none).txns sid = some t := hput hne
      exact ⟨hopen, fun _ _ => rfl⟩
  | abort sid' =>
    have hne : sid' ≠ sid := fun heq => hother (by rw [Act.session, heq])
    obtain ⟨t', ht', rfl⟩ := Option.map_eq_some_iff.1 hact
    refine ⟨hput hne, fun loc id => ?_⟩
    have hkind := hs.kind_of_mem ht'
    have hheap := Engine.rowAt_undoAll hs.rowsOk (fun op hop => (hkind op hop).1)
      (fun op hop => (hkind op hop).2) t'.allXids loc id
    rw [Sys.put_eng, db_retire, hheap]
    exact view_undone (hforeign ht' hne) _ _ _
  | vacuum table =>
    obtain rfl : { s with eng := s.eng.vacuumTable table } = s' := by simpa [Sys.act] using hact
    refine ⟨ht, fun loc id => ?_⟩
    dsimp only
    rw [Engine.rowAt_vacuumTable hs.rowsOk]
    have hdead : ∀ v : RowVersion V, decide (loc.1 = table ∧ s.eng.txns.DeadToAll v.xmin v.xmax) →
        ¬ RowVisible v snap t.allXids := by
      intro v hv
      exact (of_decide_eq_true hv).2.not_visible_registered hregistered t.allXids
    simpa using view_filter hdead (s.eng.db.rowAt loc id)

/-- Nor do any number of them. -/
theorem Sound.view_runs {c c' : Sys V K × History V K} {as : List (Act V)} (hs : Sound c)
    (hmarks : run.Along track (fun c a => OverwritesNoMark c.1 a) c as)
    (hrun : run track c as = some c') {sid : Sid} {t : Txn V K} (ht : c.1.txns sid = some t)
    {snap : Snapshot} (hsnap : t.snapshot = some snap) (hothers : ∀ a ∈ as, a.session ≠ some sid) :
    c'.1.txns sid = some t ∧ ∀ loc id, view snap t.allXids (c'.1.eng.db.rowAt loc id)
      = view snap t.allXids (c.1.eng.db.rowAt loc id) := by
  induction as generalizing c with
  | nil =>
    cases hrun
    exact ⟨ht, fun _ _ => rfl⟩
  | cons a as ih =>
    obtain ⟨m, hm, hrest⟩ := Option.bind_eq_some_iff.1 hrun
    obtain ⟨hopen, hview⟩ := hs.view_step hmarks.1 hm ht hsnap (hothers a (.head _))
    obtain ⟨hopen', hview'⟩ := ih (hs.step hmarks.1 hm) (hmarks.2 m hm) hrest hopen
      fun a' ha' => hothers a' (.tail _ ha')
    exact ⟨hopen', fun loc id => (hview' loc id).trans (hview loc id)⟩

theorem Sound.since_runs {c c' : Sys V K × History V K} {as : List (Act V)} (hs : Sound c)
    (hmarks : run.Along track (fun c a => OverwritesNoMark c.1 a) c as)
    (hrun : run track c as = some c') : Since c.1.eng.txns.takeSnapshot c.2 c' := by
  have hboth : Sound c' ∧ Since c.1.eng.txns.takeSnapshot c.2 c' := by
    refine run.inv_along (fun c' => Sound c' ∧ Since c.1.eng.txns.takeSnapshot c.2 c')
      (fun m a m' hm hmark hstep => ?_) hmarks ⟨hs, hs.since⟩ hrun
    exact ⟨hm.1.step hmark hstep, hm.2.advance (hm.1.advances hstep)⟩
  exact hboth.2

/-- A snapshot taken anywhere in a run sees a version, then and later, exactly when the history
says so, and while it is current or registered every such version is stored. Reading again under a registered snapshot gives the same versions, whatever the other
sessions have done. -/
theorem snapshot_isolation {s₀ : Sys V K} (h₀ : Quiescent s₀) {as₁ as₂ : List (Act V)}
    {c₁ c₂ : Sys V K × History V K}
    (hrun₁ : run track (s₀, History.initial s₀.eng.db) as₁ = some c₁)
    (hrun₂ : run track c₁ as₂ = some c₂)
    (hmarks : run.Along track (fun c a => OverwritesNoMark c.1 a)
      (s₀, History.initial s₀.eng.db) (as₁ ++ as₂)) :
    (∀ loc id v owns, c₂.1.eng.db.rowAt loc id = some v →
      (RowVisible v c₁.1.eng.txns.takeSnapshot owns ↔ Sees c₁.2 c₂.2 owns id)) ∧
    (c₁.1.eng.txns.takeSnapshot ∈ c₂.1.eng.txns.snapshots.values ∨
        c₁.1.eng.txns.takeSnapshot = c₂.1.eng.txns.takeSnapshot →
      ∀ id owns, (∃ loc v, c₂.1.eng.db.rowAt loc id = some v ∧
        RowVisible v c₁.1.eng.txns.takeSnapshot owns) ↔ Sees c₁.2 c₂.2 owns id) ∧
    ∀ sid t snap, c₁.1.txns sid = some t → t.snapshot = some snap →
      (∀ a ∈ as₂, a.session ≠ some sid) →
      c₂.1.txns sid = some t ∧ ∀ loc id, view snap t.allXids (c₂.1.eng.db.rowAt loc id)
        = view snap t.allXids (c₁.1.eng.db.rowAt loc id) := by
  obtain ⟨hmarks₁, hmarks₂⟩ := run.along_append hmarks hrun₁
  have hs₁ : Sound c₁ := h₀.sound.runs hmarks₁ hrun₁
  have hs₂ : Sound c₂ := hs₁.runs hmarks₂ hrun₂
  have hsince := hs₁.since_runs hmarks₂ hrun₂
  refine ⟨?_, ?_, ?_⟩
  · intro loc id v owns hv
    exact hs₂.rowVisible_iff hsince hv owns
  · intro hkept id owns
    exact hs₂.seen_iff hsince hkept id owns
  · intro sid t snap ht hsnap hothers
    exact hs₁.view_runs hmarks₂ hrun₂ ht hsnap hothers

end

/-! ## A table with one row -/

/-- Integer cells, which may be NULL. -/
instance : SqlValue (Option Int) (Option Int) := ⟨id, Option.isNone⟩

def oneRowTable : Table (Option Int) :=
  (⟨["a"], [], fun _ => none, 1, 0⟩ : Table (Option Int)).pushVersion (.plain 1 [some 7] 1)

/-- Transaction 1 has created a table `t` with a row and committed. -/
def oneRow : Sys (Option Int) (Option Int) where
  eng := ⟨⟨AList.singleton "t" [oneRowTable], ∅, ∅, ∅⟩,
    ⟨2, 2, ∅, ∅, fun _ => none, fun _ => []⟩, []⟩
  txns _ := none
  wal := []

theorem oneRow_tableAt {loc : Loc} {t : Table (Option Int)}
    (h : oneRow.eng.db.tableAt loc = some t) : loc = ("t", 0) ∧ t = oneRowTable := by
  obtain ⟨name, pos⟩ := loc
  obtain ⟨ts, hts, hpos⟩ := Option.bind_eq_some_iff.1 h
  have hmem := AList.mem_lookup_iff.1 hts
  obtain ⟨rfl, hheq⟩ := Sigma.mk.inj (List.mem_singleton.1 hmem)
  obtain rfl := eq_of_heq hheq
  obtain ⟨hlt, rfl⟩ := List.getElem?_eq_some_iff.1 hpos
  obtain rfl : pos = 0 := by simpa using hlt
  exact ⟨rfl, rfl⟩

theorem oneRow_rowAt {loc : Loc} {id : RowId} {v : RowVersion (Option Int)}
    (h : oneRow.eng.db.rowAt loc id = some v) : loc = ("t", 0) ∧ v = .plain 1 [some 7] 1 := by
  obtain ⟨t, ht, hrow⟩ := Option.bind_eq_some_iff.1 h
  obtain ⟨rfl, rfl⟩ := oneRow_tableAt ht
  refine ⟨rfl, ?_⟩
  obtain ⟨pos, hpos, hget⟩ := Option.bind_eq_some_iff.1 hrow
  have hmem := List.mem_of_getElem? hget
  simpa [oneRowTable, Table.pushVersion] using hmem

theorem oneRow_rowsOk : oneRow.eng.db.RowsOk where
  synced loc t ht := by
    obtain ⟨-, rfl⟩ := oneRow_tableAt ht
    refine Table.Synced.push (fun id pos => ?_) rfl
    simp
  unique loc loc' id r r' hr hr' := by
    rw [(oneRow_rowAt hr).1, (oneRow_rowAt hr').1]

theorem oneRow_quiescent : Quiescent oneRow where
  idle _ := rfl
  active := rfl
  snapshots := rfl
  seqAdvanced := rfl
  rowsOk := oneRow_rowsOk
  idsBelow loc id v hv := by
    obtain rfl := oneRow_rowsOk.rowAt_id hv
    obtain ⟨-, rfl⟩ := oneRow_rowAt hv
    decide
  pos := by decide
  stamps loc id v hv := by
    obtain ⟨-, rfl⟩ := oneRow_rowAt hv
    decide

def deleteAll : Stmt (Option Int) := .row (.delete "t" fun _ => true)

def selectAll : Stmt (Option Int) := .row (.select "t")

/-- Session 0 reads under its snapshot; then session 1 deletes the row and commits. -/
def readerActs : List (Act (Option Int)) :=
  [.begin 0 .repeatableRead, .pin 0, .stmt 0 selectAll]

def writerActs : List (Act (Option Int)) :=
  [.begin 1 .readCommitted, .stmt 1 deleteAll, .commit 1, .vacuum "t"]

theorem deleted_row_stays_visible : ∃ c₁ c₂ t snap,
    run track (oneRow, History.initial oneRow.eng.db) readerActs = some c₁ ∧
    run track c₁ writerActs = some c₂ ∧ c₁.1.txns 0 = some t ∧ t.snapshot = some snap ∧
    ∀ loc id, view snap t.allXids (c₂.1.eng.db.rowAt loc id)
      = view snap t.allXids (c₁.1.eng.db.rowAt loc id) := by
  have hboth : ((run track (oneRow, History.initial oneRow.eng.db) readerActs).bind fun c₁ =>
      (run track c₁ writerActs).bind fun _ => (c₁.1.txns 0).bind (·.snapshot)).isSome := by
    decide +kernel
  obtain ⟨snap, hsome⟩ := Option.isSome_iff_exists.1 hboth
  obtain ⟨c₁, hrun₁, hsome⟩ := Option.bind_eq_some_iff.1 hsome
  obtain ⟨c₂, hrun₂, hsome⟩ := Option.bind_eq_some_iff.1 hsome
  obtain ⟨t, ht, hsnap⟩ := Option.bind_eq_some_iff.1 hsome
  have hmarks : run.Along track (fun c a => OverwritesNoMark c.1 a)
      (oneRow, History.initial oneRow.eng.db) (readerActs ++ writerActs) := by decide +kernel
  obtain ⟨-, -, hview⟩ := snapshot_isolation oneRow_quiescent hrun₁ hrun₂ hmarks
  exact ⟨c₁, c₂, t, snap, hrun₁, hrun₂, ht, hsnap, (hview 0 t snap ht hsnap (by decide)).2⟩

/-- Session 1 marks the row that session 0 has marked; both roll back, and the mark of session 0
is back. -/
def doubleDelete : List (Sid × Cmd (Option Int)) :=
  [(0, .begin .readCommitted), (0, .stmt deleteAll none), (2, .begin .repeatableRead),
    (2, .stmt selectAll none), (1, .begin .readCommitted), (1, .stmt deleteAll none),
    (0, .rollback), (1, .rollback)]

theorem rolled_back_delete_hides_row : ∃ c v,
    run trackCmd (oneRow, History.initial oneRow.eng.db) doubleDelete = some c ∧
    c.1.eng.db.rowAt ("t", 0) 1 = some v ∧
    ¬ (RowVisible v c.1.eng.txns.takeSnapshot [] ↔ Sees c.2 c.2 [] 1) := by
  obtain ⟨c, hrun⟩ := Option.isSome_iff_exists.1 (show
    (run trackCmd (oneRow, History.initial oneRow.eng.db) doubleDelete).isSome by decide +kernel)
  have hrow : (run trackCmd (oneRow, History.initial oneRow.eng.db) doubleDelete).map
      (fun c => c.1.eng.db.rowAt ("t", 0) 1) = some (some ⟨1, [some 7], 1, 2⟩) := by decide +kernel
  have hhidden : (run trackCmd (oneRow, History.initial oneRow.eng.db) doubleDelete).map
      (fun c => decide (RowVisible (⟨1, [some 7], 1, 2⟩ : RowVersion (Option Int))
        c.1.eng.txns.takeSnapshot [])) = some false := by decide +kernel
  have hdone : (run trackCmd (oneRow, History.initial oneRow.eng.db) doubleDelete).map
      (fun c => c.2.done) = some [(1, .insertRow "t" 1)] := by rfl
  have hpending : ∀ sid, (run trackCmd (oneRow, History.initial oneRow.eng.db) doubleDelete).map
      (fun c => c.2.pending sid) = some [] := by
    intro sid
    rcases sid with _ | _ | _ | sid <;> rfl
  rw [hrun] at hrow hhidden hdone
  simp only [hrun, Option.map_some, Option.some.injEq] at hrow hhidden hdone hpending
  refine ⟨c, _, hrun, hrow, fun hiff => of_decide_eq_false hhidden (hiff.2 ⟨⟨1, ?_, .inr ?_⟩, ?_⟩)⟩
  · exact ⟨.insertRow "t" 1, .inl (by rw [hdone]; exact .head _), .head _⟩
  · exact ⟨.insertRow "t" 1, by rw [hdone]; exact .head _, .head _⟩
  · rintro x ⟨op, hop | ⟨sid, hop⟩, hid⟩
    · rw [hdone] at hop
      cases List.mem_singleton.1 hop
      cases hid
    · rw [hpending sid] at hop
      cases hop

end Backend
