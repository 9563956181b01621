-- SUMMARY: The moves that requests are made of, and what a run of them keeps next to the system.
import Rustgres.Server.Actions
import Rustgres.Server.Frontend

/-!
# Moves

A request does actions on the transaction of its session, and it begins ids that belong to no
transaction. What holds of every move holds of every request. A run may carry a value along that
each action updates, such as its history.
-/

namespace Backend

variable {V K γ : Type}

inductive Move (V : Type) where
  | act (a : Act V)
  /-- An id is begun and retired, around a read. -/
  | probe
  /-- An id is begun and ended, around the arguments of EXECUTE. -/
  | evaluate
  /-- An id is begun. -/
  | leak

section

variable [DecidableEq K] [SqlValue V K]

def Sys.move (s : Sys V K) : Move V → Option (Sys V K)
  | .act a => s.act a
  | .probe => some { s with eng := Server.probe s.eng }
  | .evaluate =>
    let (xid, txns) := s.eng.txns.beginTxn
    some { s with eng := { s.eng with txns := txns.endTxn xid } }
  | .leak => some { s with eng := { s.eng with txns := s.eng.txns.beginTxn.2 } }

/-- A move in the system, and in the value carried along. -/
def trackMove (after : Sys V K → γ → Act V → γ) (c : Sys V K × γ) (m : Move V) :
    Option (Sys V K × γ) :=
  (c.1.move m).map fun s => (s, match m with
    | .act a => after c.1 c.2 a
    | _ => c.2)

def cmdMoves (s : Sys V K) (sid : Sid) (c : Cmd V) : List (Move V) := (s.acts (sid, c)).map .act

namespace Server

variable (s : Server V K) (sid : Sid)

def resolvedMoves : Statement V K → List (Move V)
  | .cmd c => if s.aborted sid ∧ !allowedInAborted c then [] else cmdMoves s.sys sid c
  | .fetch name io =>
    if s.aborted sid then []
    else
      match (s.fronts sid).cursors.lookup name with
      | some ⟨some query, _, false⟩ => cmdMoves s.sys sid (.stmt query io)
      | _ => []
  | _ => []

/-- How the arguments of EXECUTE are evaluated. -/
def resolveMoves (name : String) (args : List (Arg V K)) : List (Move V) :=
  match (s.fronts sid).prepared.lookup name with
  | none => []
  | some p =>
    if p.types ≠ 0 ∧ args.length ≠ p.types then []
    else if (evalArgs s.sys.eng.db s.sys.eng.txns.takeSnapshot args).isOk then [.evaluate]
    else [.leak]

def statementMoves : Statement V K → List (Move V)
  | .execute name args io =>
    let (eng, st) := resolveSqlExecute s.sys.eng (s.fronts sid) name args
    s.resolveMoves sid name args ++
      match st with
      | .error _ => []
      | .ok st => ({ s with sys := { s.sys with eng } } : Server V K).resolvedMoves sid
          (.cmd (.stmt st io))
  | st => s.resolvedMoves sid st

def copyToMoves (table : String) (columns : Option (List String)) : List (Move V) :=
  match s.sys.txns sid with
  | none => [.probe]
  | some t =>
    let (snap, eng, t) := stmtSnapshot s.sys.eng t
    if (copyNcols eng snap t.xid table columns).isOk then [.act (.pin sid)]
    else [.act (.pin sid), .act (.fail sid)]

def copyFromMoves (table : String) (columns : Option (List String)) (data : CopyData V)
    (io : Option String) : List (Move V) :=
  let sys := { s.sys with eng := probe s.sys.eng }
  .probe ::
    match (copyFromNcols s.sys.eng table columns).2, data with
    | .ok n, .ok parse =>
      match parse n with
      | .error _ => if s.inTxn sid then cmdMoves sys sid .rollback else []
      | .ok rows => cmdMoves sys sid (.stmt (.row (.insert table rows)) io)
    | _, _ => []

def answerMoves : Request V K → List (Move V)
  | .query extended st =>
    if extended ∧ s.aborted sid ∧ !endsAborted st then [] else s.statementMoves sid st
  | .malformed _ => []
  | .copyTo _ table columns => if s.aborted sid then [] else s.copyToMoves sid table columns
  | .copyFrom _ table columns data io =>
    if s.aborted sid then [] else s.copyFromMoves sid table columns data io
  | .disconnect => if s.inTxn sid then cmdMoves s.sys sid .rollback else []

def reportMoves (fails : Bool) (out : Server V K × Reply) : List (Move V) :=
  if fails ∧ !out.2.isOk ∧ out.1.inTxn sid then [.act (.fail sid)] else []

/-- The moves of one request of one session. -/
def moves (i : Sid × Request V K) : List (Move V) :=
  s.answerMoves i.1 i.2 ++ reportMoves i.1 (failsBlock i.2) (s.answer i.1 i.2)

end Server

/-! ## A request is its moves -/

theorem run_map_act (s : Sys V K) (as : List (Act V)) :
    run Sys.move s (as.map .act) = run Sys.act s as := by
  induction as generalizing s with
  | nil => rfl
  | cons a as ih => simp [Sys.move, ih]

theorem run_cmdMoves (s : Sys V K) (sid : Sid) (c : Cmd V) :
    run Sys.move s (cmdMoves s sid c) = some (s.exec sid c).1 :=
  (run_map_act s _).trans (run_acts s (sid, c))

namespace Server

variable (s : Server V K) (sid : Sid)

theorem execCmd_sys (c : Cmd V) : (s.execCmd sid c).1.sys = (s.sys.exec sid c).1 := by
  unfold execCmd
  dsimp only
  repeat' split
  · rfl
  · rfl
  · rfl

theorem run_resolvedMoves (st : Statement V K) :
    run Sys.move s.sys (s.resolvedMoves sid st) = some (s.runResolved sid st).1.sys := by
  cases st with
  | cmd c =>
    simp only [resolvedMoves, runResolved]
    split
    · rfl
    · rw [execCmd_sys]
      exact run_cmdMoves s.sys sid c
  | execute name args io => rfl
  | prepare name p =>
    simp only [resolvedMoves, runResolved]
    split <;> rfl
  | deallocate name =>
    simp only [resolvedMoves, runResolved]
    split <;> rfl
  | declare name query withHold =>
    simp only [resolvedMoves, runResolved]
    split <;> rfl
  | close name =>
    simp only [resolvedMoves, runResolved]
    split <;> rfl
  | setting outcome =>
    simp only [resolvedMoves, runResolved]
    split <;> rfl
  | fetch name io =>
    simp only [resolvedMoves, runResolved, cursorFetch]
    split
    · rfl
    · cases hcur : (s.fronts sid).cursors.lookup name with
      | none => rfl
      | some cur =>
        obtain ⟨query, withHold, dead⟩ := cur
        cases dead with
        | true => cases query <;> rfl
        | false =>
          cases query with
          | none => rfl
          | some query => exact run_cmdMoves s.sys sid (.stmt query io)

theorem run_statementMoves (st : Statement V K) :
    run Sys.move s.sys (s.statementMoves sid st) = some (s.runStatement sid st).1.sys := by
  cases st with
  | execute name args io =>
    simp only [statementMoves, runStatement, resolveMoves, resolveSqlExecute]
    cases hp : (s.fronts sid).prepared.lookup name with
    | none => rfl
    | some p =>
      by_cases harity : p.types ≠ 0 ∧ args.length ≠ p.types
      · simp only [if_pos harity]
        rfl
      · simp only [if_neg harity]
        cases hargs : evalArgs s.sys.eng.db s.sys.eng.txns.takeSnapshot args with
        | error e => rfl
        | ok params =>
          dsimp only
          cases hbind : p.bind params with
          | error e => rfl
          | ok st =>
            simp only [Except.isOk, Except.toBool, if_true, List.singleton_append, run.cons,
              Sys.move, Option.bind_some]
            exact run_resolvedMoves ⟨_, s.fronts⟩ sid (.cmd (.stmt st io))
  | cmd c => exact run_resolvedMoves s sid (.cmd c)
  | prepare name p => exact run_resolvedMoves s sid (.prepare name p)
  | deallocate name => exact run_resolvedMoves s sid (.deallocate name)
  | declare name query withHold => exact run_resolvedMoves s sid (.declare name query withHold)
  | fetch name io => exact run_resolvedMoves s sid (.fetch name io)
  | close name => exact run_resolvedMoves s sid (.close name)
  | setting outcome => exact run_resolvedMoves s sid (.setting outcome)

theorem run_copyToMoves (table : String) (columns : Option (List String)) :
    run Sys.move s.sys (s.copyToMoves sid table columns)
      = some (s.copyTo sid table columns).1.sys := by
  unfold copyToMoves copyTo
  cases ht : s.sys.txns sid with
  | none => rfl
  | some t =>
    have hpin : s.sys.move (.act (.pin sid)) = _ := Sys.act_pin ht
    dsimp only
    cases copyNcols (stmtSnapshot s.sys.eng t).2.1 (stmtSnapshot s.sys.eng t).1
        (stmtSnapshot s.sys.eng t).2.2.xid table columns with
    | ok n =>
      refine (run.cons ..).trans ?_
      rw [hpin]
      rfl
    | error e =>
      refine (run.cons ..).trans ?_
      rw [hpin]
      simp [Sys.move, Sys.act]

theorem run_copyFromMoves (table : String) (columns : Option (List String)) (data : CopyData V)
    (io : Option String) :
    run Sys.move s.sys (s.copyFromMoves sid table columns data io)
      = some (s.copyFrom sid table columns data io).1.sys := by
  unfold copyFromMoves copyFrom
  simp only [run.cons, Sys.move, Option.bind_some, copyFromNcols]
  cases copyNcols s.sys.eng s.sys.eng.txns.takeSnapshot s.sys.eng.txns.nextXid table columns with
  | error e => rfl
  | ok n =>
    cases data with
    | error e => rfl
    | ok parse =>
      dsimp only
      unfold copyFromIngest
      cases parse n with
      | error e =>
        dsimp only
        rw [inTxn, inTxn]
        split
        · rw [execCmd_sys]
          exact run_cmdMoves _ sid _
        · rfl
      | ok rows =>
        dsimp only
        rw [execCmd_sys]
        exact run_cmdMoves _ sid _

theorem run_answerMoves (r : Request V K) :
    run Sys.move s.sys (s.answerMoves sid r) = some (s.answer sid r).1.sys := by
  cases r with
  | query extended st =>
    simp only [answerMoves, answer]
    split
    · rfl
    · exact run_statementMoves s sid st
  | malformed e => rfl
  | copyTo extended table columns =>
    simp only [answerMoves, answer]
    split
    · rfl
    · exact run_copyToMoves s sid table columns
  | copyFrom extended table columns data io =>
    simp only [answerMoves, answer]
    split
    · rfl
    · exact run_copyFromMoves s sid table columns data io
  | disconnect =>
    simp only [answerMoves, answer, setFront]
    split
    · rw [execCmd_sys]
      exact run_cmdMoves s.sys sid .rollback
    · rfl

theorem run_reportMoves (fails : Bool) (out : Server V K × Reply) :
    run Sys.move out.1.sys (reportMoves sid fails out) = some (report sid fails out).1.sys := by
  obtain ⟨s, reply⟩ := out
  unfold reportMoves report markFailed inTxn
  cases reply with
  | ok tag => simp [Except.isOk, Except.toBool]
  | error e =>
    cases fails with
    | false => rfl
    | true => cases ht : s.sys.txns sid <;> simp [Except.isOk, Except.toBool, ht, Sys.move, Sys.act]

/-- Every request is the run of its moves. -/
theorem run_moves (i : Sid × Request V K) :
    run Sys.move s.sys (s.moves i) = some (s.exec i.1 i.2).1.sys := by
  rw [moves, run.append, run_answerMoves, Option.bind_some, run_reportMoves]
  rfl

end Server

/-! ## Runs of requests -/

/-- A request in the server, and in the value carried along. -/
def trackRequest (after : Sys V K → γ → Act V → γ) (c : Server V K × γ) (i : Sid × Request V K) :
    Option (Server V K × γ) :=
  (run (trackMove after) (c.1.sys, c.2) (c.1.moves i)).map fun c' => ((c.1.exec i.1 i.2).1, c'.2)

theorem run_trackMove_fst (after : Sys V K → γ → Act V → γ) (c : Sys V K × γ) (ms : List (Move V)) :
    (run (trackMove after) c ms).map Prod.fst = run Sys.move c.1 ms := by
  induction ms generalizing c with
  | nil => rfl
  | cons m ms ih =>
    simp only [run.cons, trackMove]
    cases c.1.move m with
    | none => rfl
    | some s => exact ih _

/-- The value goes along with every run of the server. -/
theorem trackRequest_fst (after : Sys V K → γ → Act V → γ) (c : Server V K × γ)
    (i : Sid × Request V K) : (trackRequest after c i).map Prod.fst = c.1.step i := by
  have hrun := run_trackMove_fst after (c.1.sys, c.2) (c.1.moves i)
  rw [Server.run_moves] at hrun
  obtain ⟨c', hc', -⟩ := Option.map_eq_some_iff.1 hrun
  simp [trackRequest, hc', Server.step]

/-- What the moves of a request keep, the request keeps. -/
theorem trackRequest_eq_some {after : Sys V K → γ → Act V → γ} {c c' : Server V K × γ}
    {i : Sid × Request V K} (h : trackRequest after c i = some c') :
    run (trackMove after) (c.1.sys, c.2) (c.1.moves i) = some (c'.1.sys, c'.2) ∧
      c'.1 = (c.1.exec i.1 i.2).1 := by
  obtain ⟨d, hd, rfl⟩ := Option.map_eq_some_iff.1 h
  have hrun := run_trackMove_fst after (c.1.sys, c.2) (c.1.moves i)
  rw [Server.run_moves, hd, Option.map_some, Option.some.injEq] at hrun
  exact ⟨by rw [hd, ← hrun], rfl⟩

end

end Backend
