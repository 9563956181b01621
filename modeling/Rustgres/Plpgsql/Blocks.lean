-- SUMMARY: When an EXCEPTION block is atomic: exactly if it had changed nothing before its error.
import Rustgres.Exec.ExactUndo
import Rustgres.Plpgsql.Firing

/-!
# EXCEPTION Blocks

A block whose error is caught has its operations cut from the log, but nobody takes them back. So
the handler starts where the block began, and an abort of the transaction goes back to where the
statement began, exactly if no caught block had changed anything.
-/

variable {V K : Type}

/-! ## Changes leave a trace -/

namespace WriteOp

variable {x : Xid} {P : RowVersion V → Prop} {h h' : Heap V} {op : WriteOp V K}
  {ops : List (WriteOp V K)}

/-- A version that `x` has marked stays marked by `x`. -/
theorem Effect.keeps_mark (hop : op.Effect x P h h') (hunique : h.Unique) {loc : Loc} {id : RowId}
    (hmark : ∃ v, h loc id = some v ∧ v.xmax = x) : ∃ v, h' loc id = some v ∧ v.xmax = x := by
  obtain ⟨v, hv, hx⟩ := hmark
  have hrow := hop.row hunique loc id
  rw [hv] at hrow
  generalize h' loc id = after at hrow ⊢
  cases hrow with
  | kept => exact ⟨v, rfl, hx⟩
  | marked => exact ⟨_, rfl, rfl⟩

theorem Effects.keeps_mark (hops : Effects x P h ops h') (hunique : h.Unique) {loc : Loc}
    {id : RowId} (hmark : ∃ v, h loc id = some v ∧ v.xmax = x) :
    ∃ v, h' loc id = some v ∧ v.xmax = x := by
  induction hops with
  | nil => exact hmark
  | cons hop _ ih => exact ih (hop.unique hunique) (hop.keeps_mark hunique hmark)

theorem Effects.stays (hops : Effects x P h ops h') (hunique : h.Unique) {loc : Loc} {id : RowId}
    (hstored : ∃ v, h loc id = some v) : ∃ v, h' loc id = some v := by
  induction hops with
  | nil => exact hstored
  | cons hop _ ih =>
    obtain ⟨v, hv⟩ := hstored
    exact ih (hop.unique hunique) (hop.stays hunique hv)

/-- Row operations that mark only versions without a mark of `x` change the heap. -/
theorem Effects.eq_nil (hops : Effects x P h ops h') (hunique : h.Unique)
    (hP : ∀ v, P v → v.xmax ≠ x) (hrow : ∀ op ∈ ops, ¬ op.IsIndexOp) (hsame : h' = h) :
    ops = [] := by
  cases hops with
  | nil => rfl
  | @cons _ h₁ _ op ops hop hops =>
    exfalso
    have hinsert : ∀ loc id, h loc id = none → (∃ v, h₁ loc id = some v) → False := by
      intro loc id hnone hstored
      obtain ⟨v, hv⟩ := hops.stays (hop.unique hunique) hstored
      rw [hsame, hnone] at hv
      cases hv
    cases hop with
    | @insertRow table pos id values hfresh =>
      exact hinsert (table, pos) id (hfresh _) ⟨.plain id values x, by simp [Heap.set]⟩
    | @deleteRow table pos v hv hPv =>
      have hdelete : WriteOp.Effect (K := K) x P h (.deleteRow table v.id v.xmax)
          (h.set (table, pos) { v with xmax := x }) := .deleteRow hv hPv
      have hmark : ∃ v', h.set (table, pos) { v with xmax := x } (table, pos) v.id = some v' ∧
          v'.xmax = x := ⟨{ v with xmax := x }, by simp [Heap.set], rfl⟩
      obtain ⟨v', hv', hx⟩ := hops.keeps_mark (hdelete.unique hunique) hmark
      rw [hsame, hv] at hv'
      cases hv'
      exact hP v hPv hx
    | @updateRow table pos v newId values hv hPv hfresh =>
      exact hinsert (table, pos) newId (hfresh _) ⟨.plain newId values x, by simp [Heap.set]⟩
    | index hop => exact hrow op (.head _) hop

end WriteOp

/-! ## The course of a run -/

/-- The ids of a statement: it writes with one of its own ids, and id 0 is none. -/
structure StmtCtx.Ok (ctx : StmtCtx) : Prop where
  owns : ctx.writeXid ∈ ctx.allXids
  pos : ctx.writeXid ≠ 0

theorem StmtCtx.Ok.unmarked {ctx : StmtCtx} (h : ctx.Ok) {v : RowVersion V}
    (hv : RowVisible v ctx.snap ctx.allXids) : v.xmax ≠ ctx.writeXid := by
  rintro heq
  rcases hv.2 with hzero | ⟨hforeign, -⟩
  · exact h.pos (heq ▸ hzero)
  · exact hforeign (heq ▸ h.owns)

/-- The handler starts with the database and the log that the block began with. -/
def CaughtBlock.RolledBack (c : CaughtBlock V K) : Prop :=
  c.start.eng.db = c.entry.eng.db ∧ c.start.writes = c.entry.writes

section

variable [DecidableEq K] [SqlValue V K]

/-- From `s` to `s'` the changes `ops` were executed and the errors of the blocks `cs` caught. -/
structure Course (ctx : StmtCtx) (s s' : StmtState V K) (ops : List (WriteOp V K))
    (cs : List (CaughtBlock V K)) : Prop where
  ok : s'.eng.Ok
  executed : s'.executed = s.executed ++ ops
  caught : s'.caught = s.caught ++ cs
  effects : WriteOp.Effects ctx.writeXid (fun v => RowVisible v ctx.snap ctx.allXids)
    s.eng.db.rowAt ops s'.eng.db.rowAt
  undone : ∀ owns, ctx.writeXid ∈ owns → s'.eng.db.undoWrites owns ops = s.eng.db
  rowOps : ∀ op ∈ ops, ¬ op.IsIndexOp
  /-- What was on the log stays there, and nothing is put on it without a change. -/
  kept : s.writes <+: s'.writes
  idle : ops = [] → s'.writes = s.writes
  /-- While no caught block had changed anything, the log has all the changes. -/
  logged : (∀ c ∈ cs, c.changes = []) → s'.writes = s.writes ++ ops
  blocks : ∀ c ∈ cs, c.RolledBack ↔ c.changes = []

/-- Every run from an engine in order takes such a course. -/
def Evolves (ctx : StmtCtx) (s s' : StmtState V K) : Prop :=
  s.eng.Ok → ∃ ops cs, Course ctx s s' ops cs

variable {ctx : StmtCtx} {s s' s'' : StmtState V K} {ops ops' : List (WriteOp V K)}
  {cs cs' : List (CaughtBlock V K)}

theorem Course.refl (h : s.eng.Ok) : Course ctx s s [] [] where
  ok := h
  executed := (List.append_nil _).symm
  caught := (List.append_nil _).symm
  effects := .nil
  undone _ _ := rfl
  rowOps := by simp
  kept := List.prefix_refl _
  idle _ := rfl
  logged _ := (List.append_nil _).symm
  blocks := by simp

theorem Course.trans (h : Course ctx s s' ops cs) (h' : Course ctx s' s'' ops' cs') :
    Course ctx s s'' (ops ++ ops') (cs ++ cs') where
  ok := h'.ok
  executed := by rw [h'.executed, h.executed, List.append_assoc]
  caught := by rw [h'.caught, h.caught, List.append_assoc]
  effects := h.effects.append h'.effects
  undone owns hx := by rw [Database.undoWrites_append, h'.undone owns hx, h.undone owns hx]
  rowOps op hop := (List.mem_append.1 hop).elim (h.rowOps op) (h'.rowOps op)
  kept := h.kept.trans h'.kept
  idle hnil := by
    obtain ⟨hops, hops'⟩ := List.append_eq_nil_iff.1 hnil
    rw [h'.idle hops', h.idle hops]
  logged hquiet := by
    rw [h'.logged fun c hc => hquiet c (List.mem_append_right _ hc),
      h.logged fun c hc => hquiet c (List.mem_append_left _ hc), List.append_assoc]
  blocks c hc := (List.mem_append.1 hc).elim (h.blocks c) (h'.blocks c)

instance : IsPreorder (StmtState V K) (Evolves ctx) where
  refl _ hok := ⟨[], [], .refl hok⟩
  trans _ _ _ h h' hok := by
    obtain ⟨ops, cs, hcourse⟩ := h hok
    obtain ⟨ops', cs', hcourse'⟩ := h' hcourse.ok
    exact ⟨_, _, hcourse.trans hcourse'⟩

/-- A notice changes nothing. -/
theorem Evolves.notices (s : StmtState V K) (notices : List String) :
    Evolves ctx s { s with notices } := fun hok => ⟨[], [], { Course.refl hok with }⟩

/-- A statement changes the engine by what it logs. -/
theorem Evolves.record {out : ExecOut V K} {P : RowVersion V → Prop}
    (hdoes : s.eng.Ok → out.Does s.eng ctx.writeXid P)
    (hP : ∀ v, P v → RowVisible v ctx.snap ctx.allXids)
    (hundone : s.eng.Ok → out.Undone s.eng ctx.writeXid) :
    Evolves ctx s ((TriggerCatalog.record out).exec s).2 := by
  have hstate : ((TriggerCatalog.record out).exec s).2
      = { s with
          eng := out.eng
          writes := s.writes ++ out.writes
          executed := s.executed ++ out.writes } := by
    unfold TriggerCatalog.record
    rw [Prog.exec_bind, Prog.exec_modify]
    cases out.error <;> rfl
  rw [hstate]
  intro hok
  refine ⟨out.writes, [], ?_⟩
  exact
    { ok := (hdoes hok).ok hok (hundone hok)
      executed := rfl
      caught := (List.append_nil _).symm
      effects := (hdoes hok).effects.mono hP
      undone := (hundone hok).undoWrites
      rowOps := (hundone hok).rowOps
      kept := List.prefix_append _ _
      idle := fun hnil => by simp [hnil]
      logged := fun _ => rfl
      blocks := by simp }

/-- The error of a block that began at `s` is caught at `s'`: the step to the handler. -/
theorem Course.caughtAt (hctx : ctx.Ok) (hok : s.eng.Ok) (h : Course ctx s s' ops cs) :
    let start : TxnImage V K := ⟨s'.eng, s'.writes.take s.writes.length⟩
    Course ctx s
      { s' with
        writes := start.writes
        caught := s'.caught ++ [⟨s.toTxnImage, start, s'.executed.drop s.executed.length⟩] }
      ops (cs ++ [⟨s.toTxnImage, start, s'.executed.drop s.executed.length⟩]) := by
  have hcut : s'.writes.take s.writes.length = s.writes := by
    obtain ⟨rest, hrest⟩ := h.kept
    rw [← hrest, List.take_left]
  have hchanges : s'.executed.drop s.executed.length = ops := by
    rw [h.executed, List.drop_left]
  have hblock : CaughtBlock.RolledBack
      ⟨s.toTxnImage, ⟨s'.eng, s.writes⟩, ops⟩ ↔ ops = [] := by
    constructor
    · rintro ⟨hdb, -⟩
      have hdb : s'.eng.db = s.eng.db := hdb
      exact h.effects.eq_nil hok.rowsOk.unique (fun v hv => hctx.unmarked hv) h.rowOps (by rw [hdb])
    · intro hnil
      refine ⟨?_, rfl⟩
      have hundone := h.undone [ctx.writeXid] (.head _)
      rwa [hnil, Database.undoWrites_nil] at hundone
  simp only [hcut, hchanges]
  exact
    { h with
      caught := by simp only [h.caught, List.append_assoc]
      kept := List.prefix_refl _
      idle := fun _ => rfl
      logged := fun hquiet => by
        have hnil : ops = [] := hquiet ⟨s.toTxnImage, ⟨s'.eng, s.writes⟩, ops⟩ (by simp)
        simp [hnil]
      blocks := fun c hc => by
        rcases List.mem_append.1 hc with hc | hc
        · exact h.blocks c hc
        · obtain rfl := List.mem_singleton.1 hc
          exact hblock }

/-! ## Bodies -/

/-- The same of a body: NEW and the variables are its own. -/
def BodyEvolves (ctx : StmtCtx) (b b' : BodyState V K) : Prop := Evolves ctx b.stmt b'.stmt

instance : IsPreorder (BodyState V K) (BodyEvolves ctx) where
  refl b := refl_of (Evolves ctx) b.stmt
  trans _ _ _ h h' := trans_of (Evolves ctx) h h'

namespace BodyEnv

open Prog

variable {env : BodyEnv V K}

/-- NEW and the variables may change freely. -/
theorem keeps_modify_own {f : BodyState V K → BodyState V K} (hf : ∀ b, (f b).stmt = b.stmt) :
    (modify f : BodyProg V K PUnit).Keeps (BodyEvolves ctx) := by
  intro b
  rw [exec_modify]
  unfold BodyEvolves
  rw [hf]
  exact refl_of (Evolves ctx) b.stmt

theorem eval_keeps (e : TrigExpr V K) : (env.eval e).Keeps (BodyEvolves ctx) :=
  keeps_get.bind fun _ => keeps_ofExcept _

theorem setFound_keeps (found : Bool) :
    (setFound found : BodyProg V K PUnit).Keeps (BodyEvolves ctx) :=
  keeps_modify_own fun _ => rfl

theorem setVar_keeps (name : String) (v : Option V) :
    (setVar name v : BodyProg V K PUnit).Keeps (BodyEvolves ctx) :=
  keeps_modify_own fun _ => rfl

theorem setRec_keeps (name : String) (row : Option (List (String × V))) :
    (setRec name row : BodyProg V K PUnit).Keeps (BodyEvolves ctx) :=
  keeps_modify_own fun _ => rfl

theorem setNewCol_keeps (col : String) (v : V) :
    (env.setNewCol col v : BodyProg V K PUnit).Keeps (BodyEvolves ctx) := by
  unfold setNewCol
  split
  · exact keeps_throw _
  · exact (keeps_ofExcept _).bind fun _ => keeps_modify_own fun _ => rfl

theorem runQuery_keeps (henv : ∀ stmt, (env.execute stmt).Keeps (Evolves ctx)) (q : TrigQuery V) :
    (env.runQuery q).Keeps (BodyEvolves ctx) := by
  unfold runQuery
  refine keeps_get.bind fun b => (keeps_ofExcept _).bind fun stmt => ?_
  exact (henv stmt).onPart fun _ _ h => h

theorem returnAlias_keeps (name : String) :
    (returnAlias name : BodyProg V K TrigFlow).Keeps (BodyEvolves ctx) := by
  unfold returnAlias
  refine keeps_get.bind fun b => ?_
  split
  · exact keeps_pure _
  · exact keeps_pure _
  · exact keeps_throw _

theorem assign_keeps (col : String) (e : TrigExpr V K) :
    (env.assign col e).Keeps (BodyEvolves ctx) := by
  unfold assign
  split
  · exact (eval_keeps e).bind fun v => setNewCol_keeps col v
  · exact keeps_throw _

theorem varAssign_keeps (var : String) (e : TrigExpr V K) :
    (env.varAssign var e).Keeps (BodyEvolves ctx) := by
  unfold varAssign
  refine keeps_get.bind fun b => ?_
  split
  · exact keeps_throw _
  · exact (eval_keeps e).bind fun _ => (setRec_keeps _ _).bind fun _ => setVar_keeps _ _

theorem runStmt_keeps (henv : ∀ stmt, (env.execute stmt).Keeps (Evolves ctx)) (q : TrigQuery V) :
    (env.runStmt q).Keeps (BodyEvolves ctx) :=
  (runQuery_keeps henv q).bind fun _ => setFound_keeps _

variable [PlValue V]

theorem assignIntoTargets_keeps (targets : List TrigIntoTarget) (rows : List (List V)) :
    (env.assignIntoTargets targets rows : BodyProg V K PUnit).Keeps (BodyEvolves ctx) := by
  unfold assignIntoTargets
  apply Keeps.forM
  intro t
  dsimp only
  split
  · exact setVar_keeps _ _
  · exact setNewCol_keeps _ _

theorem assignNewWhole_keeps (e : TrigExpr V K) :
    (env.assignNewWhole e).Keeps (BodyEvolves ctx) := by
  unfold assignNewWhole
  apply (eval_keeps e).bind
  intro v
  split
  · apply Keeps.forM
    intro f
    split
    · exact setNewCol_keeps _ _
    · exact keeps_pure _
  · exact keeps_throw _

theorem bindResult_keeps (targets : List TrigIntoTarget) (res : StmtResult V) :
    (env.bindResult targets res : BodyProg V K PUnit).Keeps (BodyEvolves ctx) := by
  unfold bindResult
  split
  · split
    · exact (setRec_keeps _ _).bind fun _ => setVar_keeps _ _
    · exact assignIntoTargets_keeps _ _
  · exact assignIntoTargets_keeps _ _

theorem raise_keeps (level : RaiseLevel) (format : String) (args : List (TrigExpr V K)) :
    (env.raise level format args).Keeps (BodyEvolves ctx) := by
  have hnotice (msg : String) :
      (modify fun b : BodyState V K =>
        { b with stmt := { b.stmt with notices := b.stmt.notices ++ [msg] } } :
          BodyProg V K PUnit).Keeps (BodyEvolves ctx) :=
    fun b => Evolves.notices b.stmt _
  unfold raise
  apply (Keeps.mapM eval_keeps args).bind
  intro vals
  cases level with
  | notice => exact hnotice _
  | warning => exact hnotice _
  | exception => exact keeps_throw _

section Execute

variable (henv : ∀ stmt, (env.execute stmt).Keeps (Evolves ctx))

include henv

theorem selectInto_keeps (targets : List TrigIntoTarget) (q : TrigQuery V) :
    (env.selectInto targets q).Keeps (BodyEvolves ctx) := by
  unfold selectInto
  split
  · exact keeps_throw _
  · exact (runQuery_keeps henv q).bind fun _ =>
      (setFound_keeps _).bind fun _ => bindResult_keeps _ _

theorem dmlInto_keeps (targets : List TrigIntoTarget) (q : TrigQuery V) :
    (env.dmlInto targets q).Keeps (BodyEvolves ctx) :=
  (runQuery_keeps henv q).bind fun _ =>
    (setFound_keeps _).bind fun _ => assignIntoTargets_keeps _ _

omit henv in
theorem dynamic_keeps (e : TrigExpr V K) : (env.dynamic e).Keeps (BodyEvolves ctx) :=
  (eval_keeps e).bind fun _ => keeps_ofExcept _

omit henv in
theorem sourceQuery_keeps (source : TrigForSource V K) :
    (env.sourceQuery source).Keeps (BodyEvolves ctx) := by
  cases source with
  | query q => exact keeps_pure q
  | dynamic e => exact dynamic_keeps e

theorem evalCond_keeps (cond : TrigCond V K) : (env.evalCond cond).Keeps (BodyEvolves ctx) := by
  cases cond with
  | expr e => exact eval_keeps e
  | query q => exact (runQuery_keeps henv q).bind fun _ => keeps_pure _

end Execute

mutual

theorem execStmt_keeps (hctx : ctx.Ok) (henv : ∀ stmt, (env.execute stmt).Keeps (Evolves ctx)) :
    ∀ stmt : TriggerBodyStmt V K, (env.execStmt stmt).Keeps (BodyEvolves ctx)
  | .assign col e => (assign_keeps col e).bind fun _ => keeps_pure _
  | .assignNewWhole e => (assignNewWhole_keeps e).bind fun _ => keeps_pure _
  | .varAssign var e => (varAssign_keeps var e).bind fun _ => keeps_pure _
  | .perform e => (eval_keeps e).bind fun _ => keeps_pure _
  | .performQuery q => (runStmt_keeps henv q).bind fun _ => keeps_pure _
  | .returnNew => keeps_pure _
  | .returnOld => keeps_pure _
  | .returnNull => keeps_pure _
  | .returnAlias name => returnAlias_keeps name
  | .raise level format args => (raise_keeps level format args).bind fun _ => keeps_pure _
  | .raiseSqlstate code => keeps_throw _
  | .ifThen branches elseBody => by
    rw [execStmt]
    refine (execBranches_keeps hctx henv branches).bind fun flow => ?_
    split
    · exact keeps_pure _
    · exact execStmts_keeps hctx henv elseBody
  | .block body handlers => by
    rw [execStmt]
    refine keeps_get_bind fun b => ?_
    refine keeps_tryCatch_at (execStmts_keeps hctx henv body b) fun e b' hb => ?_
    exact execHandlers_keeps hctx henv handlers hb
  | .dml q => (runStmt_keeps henv q).bind fun _ => keeps_pure _
  | .selectInto targets q => (selectInto_keeps henv targets q).bind fun _ => keeps_pure _
  | .dmlInto targets q => (dmlInto_keeps henv targets q).bind fun _ => keeps_pure _
  | .execute e =>
    (dynamic_keeps e).bind fun q => (runStmt_keeps henv q).bind fun _ => keeps_pure _
  | .forRange var low high reverse body => by
    rw [execStmt]
    refine (eval_keeps low).bind fun lo => (eval_keeps high).bind fun hi => ?_
    split
    · refine (setFound_keeps _).bind fun _ => keeps_get.bind fun b => ?_
      refine (Keeps.firstAnswer (fun v => ?_) _).bind fun flow => ?_
      · exact (setVar_keeps _ _).bind fun _ => execStmts_keeps hctx henv body
      · split
        · exact (setVar_keeps _ _).bind fun _ => keeps_pure _
        · exact keeps_pure _
    · exact keeps_throw _
  | .forQuery var source body => by
    rw [execStmt]
    refine (sourceQuery_keeps source).bind fun q => (runQuery_keeps henv q).bind fun res => ?_
    refine (setFound_keeps _).bind fun _ => keeps_get.bind fun b => ?_
    refine (Keeps.firstAnswer (fun row => ?_) _).bind fun flow => ?_
    · exact (setRec_keeps _ _).bind fun _ => execStmts_keeps hctx henv body
    · split
      · exact (setRec_keeps _ _).bind fun _ => (setVar_keeps _ _).bind fun _ => keeps_pure _
      · exact keeps_pure _

theorem execStmts_keeps (hctx : ctx.Ok) (henv : ∀ stmt, (env.execute stmt).Keeps (Evolves ctx)) :
    ∀ stmts : List (TriggerBodyStmt V K), (env.execStmts stmts).Keeps (BodyEvolves ctx)
  | [] => keeps_pure _
  | stmt :: stmts => by
    rw [execStmts]
    refine (execStmt_keeps hctx henv stmt).bind fun flow => ?_
    split
    · exact keeps_pure _
    · exact execStmts_keeps hctx henv stmts

theorem execBranches_keeps (hctx : ctx.Ok)
    (henv : ∀ stmt, (env.execute stmt).Keeps (Evolves ctx)) :
    ∀ branches : List (TrigCond V K × List (TriggerBodyStmt V K)),
      (env.execBranches branches).Keeps (BodyEvolves ctx)
  | [] => keeps_pure _
  | (cond, body) :: branches => by
    rw [execBranches]
    refine (evalCond_keeps henv cond).bind fun v => ?_
    split
    · exact (execStmts_keeps hctx henv body).bind fun _ => keeps_pure _
    · exact execBranches_keeps hctx henv branches

/-- From the error at `b`, a handler takes the course of the block since `entry` further. -/
theorem execHandlers_keeps (hctx : ctx.Ok)
    (henv : ∀ stmt, (env.execute stmt).Keeps (Evolves ctx)) {entry b : BodyState V K}
    {e : ExecError} :
    ∀ (handlers : List (List String × List (TriggerBodyStmt V K))), BodyEvolves ctx entry b →
      BodyEvolves ctx entry ((env.execHandlers entry.stmt e handlers).exec b).2
  | [], hb => by
    rw [execHandlers]
    exact hb
  | (keys, body) :: handlers, hb => by
    rw [execHandlers]
    split
    · refine trans_of (BodyEvolves ctx) (fun hok => ?_) (execStmts_keeps hctx henv body _)
      obtain ⟨ops, cs, hcourse⟩ := hb hok
      exact ⟨_, _, hcourse.caughtAt hctx hok⟩
    · exact execHandlers_keeps hctx henv handlers hb

end

variable (hctx : ctx.Ok) (henv : ∀ stmt, (env.execute stmt).Keeps (Evolves ctx))

omit [DecidableEq K] in
theorem declare_keeps [DecidableEq K] (d : TrigDecl V K) :
    (env.declare d).Keeps (BodyEvolves ctx) := by
  unfold declare
  split
  · exact keeps_modify_own fun _ => rfl
  · split
    · exact (eval_keeps _).bind fun _ => setVar_keeps _ _
    · exact (keeps_pure _).bind fun _ => setVar_keeps _ _

include hctx henv in
theorem execBody_keeps (body : TriggerBody V K) : (env.execBody body).Keeps (BodyEvolves ctx) := by
  unfold execBody
  refine (Keeps.forM declare_keeps _).bind fun _ => ?_
  refine (execStmts_keeps hctx henv body.stmts).bind fun flow => ?_
  split
  · exact keeps_get.bind fun _ => keeps_pure _
  · exact keeps_pure _
  · exact keeps_pure _
  · exact keeps_throw _

end BodyEnv

/-! ## Statements that fire triggers -/

namespace TriggerCatalog

open Prog

theorem pushInserts_keeps (table : String) (rows : List (List V)) :
    (pushInserts ctx table rows : StmtProg V K PUnit).Keeps (Evolves ctx) := by
  refine keeps_get_bind fun s => ?_
  split
  · exact keeps_throw _ s
  · next t ht =>
    obtain ⟨pos, hpos, htable⟩ := Database.findTable_eq_some.1 ht
    exact Evolves.record (fun hok => applyRowInserts_does hok.rowsOk hok.idsBelow hpos htable rows)
      (fun _ h => h) (fun hok => applyRowInserts_undone hok hpos htable rows)

variable [PlValue V] {cat : TriggerCatalog V K}

section Fire

variable {nested : Option (RowStmt V → StmtProg V K (StmtResult V))} (hctx : ctx.Ok)
  (hnested : ∀ execute ∈ nested, ∀ stmt, (execute stmt).Keeps (Evolves ctx))

include hctx hnested

theorem execTriggerBody_keeps (table : String) (images : RowImages V) (body : TriggerBody V K) :
    (cat.execTriggerBody ctx nested table images body).Keeps (Evolves ctx) := by
  cases nested with
  | none => exact keeps_throw _
  | some execute =>
    intro s
    exact BodyEnv.execBody_keeps hctx (hnested execute rfl) body ⟨s, _, .default⟩

omit hctx hnested in
theorem triggerWhenMatches_keeps (table : String) (images : RowImages V)
    (whenExpr : Option (TrigExpr V K)) :
    (cat.triggerWhenMatches ctx table images whenExpr).Keeps (Evolves ctx) := by
  unfold triggerWhenMatches
  split
  · exact keeps_pure _
  · exact keeps_get.bind fun _ => (keeps_ofExcept _).bind fun _ => keeps_pure _

theorem fireOneTrigger_keeps (table : String) (images : RowImages V) (tr : TriggerDef V K) :
    (cat.fireOneTrigger ctx nested table images tr).Keeps (Evolves ctx) := by
  unfold fireOneTrigger
  refine (triggerWhenMatches_keeps _ _ _).bind fun fires => ?_
  split
  · exact (execTriggerBody_keeps hctx hnested _ _ _).bind fun _ => keeps_pure _
  · exact keeps_pure _

theorem fireStatementTriggers_keeps (table : String) (timing : TriggerTiming) (event : TrigEvent)
    (setCols : List Nat) :
    (cat.fireStatementTriggers ctx nested table timing event setCols).Keeps (Evolves ctx) :=
  Keeps.forM (fun tr => fireOneTrigger_keeps hctx hnested table _ tr) _

theorem fireAfterRowTriggers_keeps (table : String) (event : TrigEvent) (setCols : List Nat)
    (pairs : List (RowImages V)) :
    (cat.fireAfterRowTriggers ctx nested table event setCols pairs).Keeps (Evolves ctx) :=
  Keeps.forM (fun tr =>
    Keeps.forM (fun images => fireOneTrigger_keeps hctx hnested table images tr) _) _

theorem fireBeforeInsertRow_keeps (table : String) (trs : List (TriggerDef V K)) (row : List V) :
    (cat.fireBeforeInsertRow ctx nested table trs row).Keeps (Evolves ctx) := by
  induction trs generalizing row with
  | nil => exact keeps_pure _
  | cons tr trs ih =>
    unfold fireBeforeInsertRow
    refine (triggerWhenMatches_keeps _ _ _).bind fun fires => ?_
    split
    · refine (execTriggerBody_keeps hctx hnested _ _ _).bind fun out => ?_
      cases out with
      | some row => exact ih row
      | none => exact keeps_pure _
    · exact ih row

theorem fireBeforeInsertTriggers_keeps (table : String) (rows : List (List V)) :
    (cat.fireBeforeInsertTriggers ctx nested table rows).Keeps (Evolves ctx) :=
  (Keeps.mapM (fireBeforeInsertRow_keeps hctx hnested table _) rows).bind fun _ => keeps_pure _

theorem execInsert_keeps (table : String) (rows : List (List V)) :
    (cat.execInsert ctx nested table rows).Keeps (Evolves ctx) := by
  unfold TriggerCatalog.execInsert
  refine keeps_get.bind fun s => ?_
  split
  · exact keeps_throw _
  · split
    · exact keeps_throw _
    · refine (keeps_ofExcept _).bind fun _ => ?_
      refine (fireBeforeInsertTriggers_keeps hctx hnested table rows).bind fun rows => ?_
      refine (pushInserts_keeps table rows).bind fun _ => ?_
      exact (fireAfterRowTriggers_keeps hctx hnested _ _ _ _).bind fun _ => keeps_pure _

theorem fireChangedRows_keeps (stmt : RowStmt V) (out : ExecOut V K) :
    (cat.fireChangedRows ctx nested stmt out).Keeps (Evolves ctx) := by
  unfold fireChangedRows
  split
  · split
    · exact keeps_pure _
    · exact fireAfterRowTriggers_keeps hctx hnested _ _ _ _
  · exact keeps_pure _

theorem execOther_keeps (stmt : RowStmt V) :
    (cat.execOther ctx nested stmt).Keeps (Evolves ctx) := by
  refine keeps_get_bind fun s => ?_
  refine keeps_bind_at (Evolves.record (fun hok => stmt.exec_does hok.rowsOk hok.idsBelow)
    (fun _ h => h.1) fun hok => stmt.exec_undone hok) fun _ => ?_
  exact (fireChangedRows_keeps hctx hnested stmt _).bind fun _ => keeps_pure _

theorem execute_keeps (stmt : RowStmt V) : (cat.execute ctx nested stmt).Keeps (Evolves ctx) := by
  have hinner : (cat.executeInner ctx nested stmt).Keeps (Evolves ctx) := by
    unfold executeInner
    split
    · exact execInsert_keeps hctx hnested _ _
    · exact execOther_keeps hctx hnested _
  unfold execute
  split
  · exact hinner
  · refine (fireStatementTriggers_keeps hctx hnested _ _ _ _).bind fun _ => ?_
    refine hinner.bind fun _ => ?_
    exact (fireStatementTriggers_keeps hctx hnested _ _ _ _).bind fun _ => keeps_pure _

end Fire

theorem executeAt_keeps (hctx : ctx.Ok) (depth : Nat) (stmt : RowStmt V) :
    (cat.executeAt ctx depth stmt).Keeps (Evolves ctx) := by
  induction depth generalizing stmt with
  | zero => exact execute_keeps hctx (by simp) stmt
  | succ depth ih =>
    refine execute_keeps hctx ?_ stmt
    rintro execute ⟨⟩
    exact ih

end TriggerCatalog

/-! ## The theorem -/

omit [DecidableEq K] [SqlValue V K] in
/-- Where a matching handler begins: with the engine as the block left it. -/
def BodyState.handlerStart (entry b : BodyState V K) : BodyState V K :=
  { b with
    stmt := { b.stmt with
      writes := b.stmt.writes.take entry.stmt.writes.length
      caught := b.stmt.caught ++ [⟨entry.stmt.toTxnImage,
        ⟨b.stmt.eng, b.stmt.writes.take entry.stmt.writes.length⟩,
        b.stmt.executed.drop entry.stmt.executed.length⟩] } }

omit [DecidableEq K] [SqlValue V K] in
/-- A block whose error is caught ends as the handler's statements do from there. -/
theorem BodyEnv.exec_block_of_caught [PlValue V] {env : BodyEnv V K}
    {body hbody : List (TriggerBodyStmt V K)} {keys : List String}
    {handlers : List (List String × List (TriggerBodyStmt V K))} {b b' : BodyState V K}
    {e : ExecError} (herror : (env.execStmts body).exec b = (.error e, b'))
    (hfind : handlers.find? (fun h => keysMatch h.1 e.code) = some (keys, hbody)) :
    (env.execStmt (.block body handlers)).exec b
      = (env.execStmts hbody).exec (b.handlerStart b') := by
  have hhandlers : (env.execHandlers b.stmt e handlers).exec b'
      = (env.execStmts hbody).exec (b.handlerStart b') := by
    induction handlers with
    | nil => simp at hfind
    | cons handler handlers ih =>
      obtain ⟨keys', body'⟩ := handler
      rw [execHandlers]
      by_cases hmatch : keysMatch keys' e.code
      · rw [List.find?_cons_of_pos (by exact hmatch), Option.some.injEq, Prod.mk.injEq] at hfind
        rw [if_pos hmatch, hfind.2]
        rfl
      · rw [List.find?_cons_of_neg (by exact hmatch)] at hfind
        rw [if_neg hmatch]
        exact ih hfind
  rw [execStmt]
  change (tryCatch (env.execStmts body) fun e => env.execHandlers b.stmt e handlers :
    BodyProg V K TrigFlow).exec b = _
  rw [Prog.exec_tryCatch, herror]
  exact hhandlers

omit [DecidableEq K] [SqlValue V K] in
/-- A statement under way, with a history that begins here. -/
def TxnImage.begin (img : TxnImage V K) : StmtState V K := ⟨img, [], [], []⟩

end

/-! ## Runs -/

instance : SqlValue Nat Nat := ⟨id, fun _ => false⟩

instance : PlValue Nat where
  null := 0
  isTrue v := v == 1
  asInt v := some v
  bigInt i := i.toNat
  text v := toString v
  record _ := none

/-- Transaction 2 runs over an empty table `log`. -/
def emptyLog : TxnImage Nat Nat where
  eng := ⟨⟨AList.singleton "log" [⟨["a"], [], fun _ => none, 1, 0⟩], ∅, ∅, ∅⟩,
    ⟨3, 1, {2}, ∅, fun _ => none, fun _ => []⟩, []⟩
  writes := []

def logCtx : StmtCtx := ⟨⟨{2}, 3⟩, 2, 2, [2], .readCommitted⟩

theorem logCtx_ok : logCtx.Ok := ⟨by decide, by decide⟩

theorem emptyLog_rowAt (loc : Loc) (id : RowId) : emptyLog.eng.db.rowAt loc id = none := by
  obtain ⟨name, pos⟩ := loc
  by_cases hname : name = "log"
  · subst hname
    cases pos <;> rfl
  · have hlook : emptyLog.eng.db.tables.lookup name = none :=
      AList.lookup_eq_none.2 fun hmem => hname (List.mem_singleton.1 hmem)
    simp [Database.rowAt, Database.tableAt, hlook]

theorem emptyLog_ok : emptyLog.eng.Ok where
  rowsOk :=
    { synced := fun loc t ht => by
        obtain ⟨ts, hts, hpos⟩ := Option.bind_eq_some_iff.1 ht
        have hmem := AList.mem_lookup_iff.1 hts
        obtain rfl := eq_of_heq (Sigma.mk.inj (List.mem_singleton.1 hmem)).2
        obtain ⟨hlt, rfl⟩ := List.getElem?_eq_some_iff.1 hpos
        intro id i
        simp
      unique := fun loc loc' id r r' hr => by simp [emptyLog_rowAt] at hr }
  idsBelow loc id r hr := by simp [emptyLog_rowAt] at hr
  entriesBelow ix hix := by simp [emptyLog, Dict.values] at hix

def logCatalog : TriggerCatalog Nat Nat where
  triggers _ := []
  columns _ := [⟨"a", .ok⟩]
  parse _ := .error (execError "42601" "syntax error")

def insertLog : TriggerBodyStmt Nat Nat := .dml fun _ => .ok (.insert "log" [[5]])

/-- The state after a body fired by a row of `log`. -/
def runLogBody (stmts : List (TriggerBodyStmt Nat Nat)) : StmtState Nat Nat :=
  ((logCatalog.execTriggerBody logCtx (some (logCatalog.executeAt logCtx 999)) "log"
    (none, some [7]) ⟨[], stmts⟩).exec emptyLog.begin).2

/-- `BEGIN RAISE SQLSTATE '22012'; EXCEPTION WHEN division_by_zero THEN INSERT INTO log ...; END` -/
def raiseThenInsert : List (TriggerBodyStmt Nat Nat) :=
  [.block [.raiseSqlstate "22012"] [(["division_by_zero"], [insertLog])], .returnNew]

/-- `BEGIN INSERT INTO log ...; RAISE SQLSTATE '22012'; EXCEPTION WHEN others THEN END` -/
def insertThenRaise : List (TriggerBodyStmt Nat Nat) :=
  [.block [insertLog, .raiseSqlstate "22012"] [(["others"], [])], .returnNew]
