-- SUMMARY: Runs of a session: its settings follow the reference semantics, and where they do not.
import Rustgres.Server.SettingsSemantics

/-!
# Settings over Runs

Each input of a session amounts to events of the reference semantics, by what the server answers to
it. Over a run the settings follow the reference as long as each commit finds every session-level
change of a setting below the local ones, and no `RESET ALL` drops a custom parameter inside a
transaction.
-/

open Scoped

/-! ## The reference run -/

/-- `SET SESSION CHARACTERISTICS` sets the defaults it names, one after the other. -/
def charsEvents (level : Option IsolationLevel) (readOnly deferrable : Option Bool) :
    List (Event Setting GucValue) :=
  (level.map fun l => .assign (single .defaultTxnLevel (.level (some l))) false).toList ++
  (readOnly.map fun ro => .assign (single .defaultTxnReadOnly (.flag (some ro))) false).toList ++
  (deferrable.map fun d => .assign (single .defaultTxnDeferrable (.flag (some d))) false).toList

/-- The end of the open transaction, if there is one, and the begin of a chained one. -/
def endEvents (s : Session) (e : Event Setting GucValue) (chain : Bool) :
    List (Event Setting GucValue) :=
  if s.txn.isNone then [] else e :: if chain then [.begin] else []

/-- What an accepted statement means for the settings. A `COMMIT` of a failed transaction rolls
back. -/
def Command.events (validate : GucValidator) (s : Session) :
    Command → List (Event Setting GucValue)
  | .begin _ _ _ => if s.txn.isNone then [.begin] else []
  | .set name value isLocal => [.assign (setCells validate s name value) isLocal]
  | .setTransaction _ _ _ => []
  | .setCharacteristics level readOnly deferrable => charsEvents level readOnly deferrable
  | .reset name => [.assign (resetCells s name) false]
  | .resetAll => [.assign (resetAllCells s) false]
  | .savepoint name => [.savepoint name]
  | .rollbackTo name => [.rollbackTo name]
  | .release name => [.release name]
  | .commit chain _ => endEvents s (if s.txn.any (·.failed) then .rollback else .commit) chain
  | .rollback chain => endEvents s .rollback chain
  | .query _ => []

/-- The transaction of `s` is gone, or will be with the implicit block. -/
def transactionLost (s s' : Session) : Bool :=
  s.txn.isSome && (s'.txn.isNone || s'.txn.any (·.implicit))

/-- What an input means for the settings. An error that ends the transaction rolls it back. -/
def Input.events (validate : GucValidator) (s : Session) : Input → List (Event Setting GucValue)
  | .statement roles c =>
    match runStatement validate roles s c with
    | (_, .ok _) => c.events validate s
    | (s', .error _) => if transactionLost s s' then [.rollback] else []
  | .beginImplicit => if s.txn.isNone then [.begin] else []
  | .endImplicit outcome =>
    if s.txn.any (·.implicit) then
      match outcome with
      | .ok => [if s.txn.any (·.failed) then .rollback else .commit]
      | .deferredError _ => [.rollback]
      | .commitError _ => if s.txn.any (·.failed) then [.rollback] else []
    else []

/-- The reference semantics along a session's run. -/
def refRun (validate : GucValidator) : Session → Ref Setting GucValue → List Input →
    Ref Setting GucValue
  | _, r, [] => r
  | s, r, i :: is => refRun validate (s.step validate i) ((i.events validate s).foldl Ref.step r) is

/-! ## Steps -/

section Steps

variable {validate : GucValidator} {roles : RoleCatalog} {s : Session} {r : Ref Setting GucValue}

private theorem refines_txnBegin (hr : Refines s.toStack r) (chars : TxnChars) :
    Refines (txnBegin s chars).toStack
      ((if s.txn.isNone then [Event.begin] else []).foldl Ref.step r) := by
  unfold txnBegin
  cases ht : s.txn with
  | none =>
      simp only [Session.toStack, ht, Option.map_none] at hr
      cases hr
      exact .begin s.value
  | some t =>
      simp only [Option.isNone_some, Bool.false_eq_true, if_false, List.foldl_nil]
      split
      · simpa [Session.toStack, ht, GucTxn.toStack] using hr
      · exact hr

private theorem refines_charsEvents (hr : Refines s.toStack r) (level : Option IsolationLevel)
    (readOnly deferrable : Option Bool) :
    Refines (stmtSetCharacteristics s level readOnly deferrable).toStack
      ((charsEvents level readOnly deferrable).foldl Ref.step r) := by
  have hlevel (s : Session) (r) (hr : Refines s.toStack r) (l : IsolationLevel) :=
    (changes_level s (some l) false).refines hr
  have hreadOnly (s : Session) (r) (hr : Refines s.toStack r) (ro : Bool) :=
    (changes_readOnly s (some ro) false).refines hr
  have hdeferrable (s : Session) (r) (hr : Refines s.toStack r) (d : Bool) :=
    (changes_deferrable s (some d) false).refines hr
  rcases level with _ | l <;> rcases readOnly with _ | ro <;> rcases deferrable with _ | d
  · exact hr
  · exact hdeferrable _ _ hr d
  · exact hreadOnly _ _ hr ro
  · exact hdeferrable _ _ (hreadOnly _ _ hr ro) d
  · exact hlevel _ _ hr l
  · exact hdeferrable _ _ (hlevel _ _ hr l) d
  · exact hreadOnly _ _ (hlevel _ _ hr l) ro
  · exact hdeferrable _ _ (hreadOnly _ _ (hlevel _ _ hr l) ro) d

/-- Ending the taken transaction by unwinding its whole stack. -/
private theorem refines_abort {t : GucTxn} (ht : s.txn = some t) (hr : Refines s.toStack r) :
    Refines (revertGucStack s.takeTxn t.gucStack false).toStack (r.step .rollback) := by
  simp only [Session.toStack, ht, Option.map_some] at hr
  rw [toStack_revert_abort]
  exact hr.rollback

private theorem refines_commit {t : GucTxn} (ht : s.txn = some t) (hr : Refines s.toStack r)
    (hlayered : Layered (t.gucStack.map GucStackEntry.toUndo)) :
    Refines (revertGucStack s.takeTxn t.gucStack true).toStack (r.step .commit) := by
  simp only [Session.toStack, ht, Option.map_some] at hr
  rw [toStack_revert_commit]
  exact hr.commit hlayered

private theorem txn_revertGucStack_takeTxn (s : Session) (stack : List GucStackEntry)
    (commit : Bool) : (revertGucStack s.takeTxn stack commit).txn = none := by
  have hmap : ((revertGucStack s.takeTxn stack commit).txn.map GucTxn.toStack) = none := by
    cases commit with
    | true => exact congrArg StackState.txn (toStack_revert_commit s.takeTxn stack)
    | false => exact congrArg StackState.txn (toStack_revert_abort s.takeTxn stack)
  simpa using hmap

/-- A commit of the taken transaction ends it, or hands it back marked failed. -/
private theorem commitTakenTxn_spec {t : GucTxn} (ht : s.txn = some t) (hr : Refines s.toStack r)
    (outcome : CommitOutcome)
    (hlayered : outcome = .ok → t.failed = false →
      Layered (t.gucStack.map GucStackEntry.toUndo)) :
    match commitTakenTxn s.takeTxn t outcome with
    | (s', .ok _) => (t.failed = false → outcome = .ok) ∧ s'.txn = none ∧
        Refines s'.toStack (r.step (if t.failed then .rollback else .commit))
    | (s', .error _) => t.failed = false ∧
        ((∃ e, outcome = .commitError e) ∧ s'.toStack = s.toStack ∧
            s'.txn.any (·.implicit) = t.implicit ∨
          (∃ e, outcome = .deferredError e) ∧ s'.txn = none ∧
            Refines s'.toStack (r.step .rollback)) := by
  cases hfailed : t.failed with
  | true =>
      simp only [commitTakenTxn, hfailed, if_true]
      exact ⟨nofun, txn_revertGucStack_takeTxn s _ false, refines_abort ht hr⟩
  | false =>
      simp only [commitTakenTxn, hfailed, Bool.false_eq_true, if_false]
      cases outcome with
      | ok =>
          exact ⟨fun _ => rfl, txn_revertGucStack_takeTxn s _ true, refines_commit ht hr (hlayered rfl hfailed)⟩
      | deferredError e =>
          exact ⟨trivial, .inr ⟨⟨e, rfl⟩, txn_revertGucStack_takeTxn s _ false,
            refines_abort ht hr⟩⟩
      | commitError e =>
          refine ⟨trivial, .inl ⟨⟨e, rfl⟩, ?_, rfl⟩⟩
          simp only [Session.toStack, ht]
          rfl

/-- What a statement's answer says of the session: an accepted one follows its events, a rejected
one leaves the settings as they are or has ended the transaction. -/
def Answers (validate : GucValidator) (s : Session) (r : Ref Setting GucValue) (c : Command) :
    Outcome → Prop
  | (s', .ok _) => Refines s'.toStack ((c.events validate s).foldl Ref.step r)
  | (s', .error _) => s'.toStack = s.toStack ∨
      s'.txn = none ∧ s.txn.isSome ∧ Refines s'.toStack (r.step .rollback)

private theorem answers_ofExcept {c : Command} {tag : String} {x : Except ExecError Session}
    (h : ∀ s', x = .ok s' → Refines s'.toStack ((c.events validate s).foldl Ref.step r)) :
    Answers validate s r c (.ofExcept s tag x) := by
  cases x with
  | ok s' => exact h s' rfl
  | error e => exact .inl rfl

private theorem answers_commit (hr : Refines s.toStack r) (chain : Bool) (outcome : CommitOutcome)
    (hlayered : ∀ t ∈ s.txn, outcome = .ok → t.failed = false →
      Layered (t.gucStack.map GucStackEntry.toUndo)) :
    Answers validate s r (.commit chain outcome) (txnCommit s chain outcome) := by
  unfold txnCommit
  cases ht : s.txn with
  | none =>
      dsimp only
      split
      · exact .inl rfl
      · simpa [Answers, Command.events, endEvents, ht] using hr
  | some t =>
      have hspec := commitTakenTxn_spec ht hr outcome (hlayered t (by simp [ht]))
      have hevent : s.txn.any (·.failed) = t.failed := by simp [ht]
      dsimp only
      cases himplicit : t.implicit with
      | true =>
          simp only [if_true]
          cases chain with
          | true => exact .inl rfl
          | false =>
              simp only [Bool.false_eq_true, if_false]
              revert hspec
              rcases commitTakenTxn s.takeTxn t outcome with ⟨s', e | tag⟩
              · rintro ⟨-, ⟨-, hsame, -⟩ | ⟨-, hnone, href⟩⟩
                · exact .inl hsame
                · exact .inr ⟨hnone, by simp [ht], href⟩
              · rintro ⟨-, -, href⟩
                simpa [Answers, Command.events, endEvents, ht] using href
      | false =>
          simp only [Bool.false_eq_true, if_false]
          revert hspec
          rcases commitTakenTxn s.takeTxn t outcome with ⟨s', e | tag⟩
          · rintro ⟨-, ⟨-, hsame, -⟩ | ⟨-, hnone, href⟩⟩
            · exact .inl hsame
            · exact .inr ⟨hnone, by simp [ht], href⟩
          · rintro ⟨-, hnone, href⟩
            cases chain with
            | true =>
                have hbegin := refines_txnBegin href t.chars
                simpa [Answers, Command.events, endEvents, ht, hnone] using hbegin
            | false => simpa [Answers, Command.events, endEvents, ht] using href

private theorem answers_rollback (hr : Refines s.toStack r) (chain : Bool) :
    Answers validate s r (.rollback chain) (txnRollback s chain) := by
  unfold txnRollback
  cases ht : s.txn with
  | none =>
      dsimp only
      split
      · exact .inl rfl
      · simpa [Answers, Command.events, endEvents, ht] using hr
  | some t =>
      dsimp only
      split
      · exact .inl rfl
      · have habort := refines_abort ht hr
        cases chain with
        | true =>
            have hbegin := refines_txnBegin habort t.chars
            simpa [Answers, Command.events, endEvents, ht, txn_revertGucStack_takeTxn] using hbegin
        | false => simpa [Answers, Command.events, endEvents, ht] using habort

private theorem answers_savepoint (hr : Refines s.toStack r) (name : String) :
    Answers validate s r (.savepoint name) (txnSavepoint s name) := by
  unfold txnSavepoint
  cases ht : s.txn with
  | none => exact .inl rfl
  | some t =>
      dsimp only
      split
      · exact .inl rfl
      · simp only [Session.toStack, ht, Option.map_some] at hr
        simpa [Answers, Command.events, Session.toStack, GucTxn.toStack] using hr.savepoint name

/-- The marks from a name on are those of the savepoints from it on. -/
private theorem toStack_fromName (t : GucTxn) (name : String) :
    t.toStack.fromName name = (t.fromName name).map fun sp => (sp.name, sp.gucMark) := by
  simp only [GucTxn.toStack, StackTxn.fromName, GucTxn.fromName, List.dropWhile_map]
  rfl

private theorem answers_rollbackTo (hr : Refines s.toStack r) (name : String) :
    Answers validate s r (.rollbackTo name) (txnRollbackTo s name) := by
  unfold txnRollbackTo
  cases ht : s.txn with
  | none => exact .inl rfl
  | some t =>
      dsimp only
      split
      · exact .inl rfl
      · split
        · exact .inl rfl
        · next save rest hfrom =>
            simp only [Session.toStack, ht, Option.map_some] at hr
            have hmarks := toStack_fromName t name
            rw [hfrom, List.map_cons] at hmarks
            have hback := hr.rollbackTo hmarks
            simp only [Answers, toStack_revert_abort]
            simpa [Command.events, GucTxn.toStack, StackTxn.above, StackTxn.below, List.map_take,
              List.map_drop] using hback

private theorem answers_release (hr : Refines s.toStack r) (name : String) :
    Answers validate s r (.release name) (txnRelease s name) := by
  unfold txnRelease
  cases ht : s.txn with
  | none => exact .inl rfl
  | some t =>
      dsimp only
      split
      · exact .inl rfl
      · split
        · exact .inl rfl
        · next save rest hfrom =>
            simp only [Session.toStack, ht, Option.map_some] at hr
            have hrelease := hr.release name
            rw [toStack_fromName, hfrom] at hrelease
            simpa [Answers, Command.events, Session.toStack, GucTxn.toStack] using hrelease

private theorem answers_query (hr : Refines s.toStack r) (error : Option ExecError) :
    Answers validate s r (.query error) (txnExecute s error) := by
  have hsame : (txnExecute s error).1.toStack = s.toStack := by
    cases error <;> simp [txnExecute, Session.toStack, Function.comp_def] <;>
      cases s.txn <;> rfl
  cases error with
  | none =>
      change Refines (txnExecute s none).1.toStack r
      rw [hsame]
      exact hr
  | some e => exact .inl hsame

/-! ## Conditions -/

/-- What an input may not do for the settings to follow the reference: a commit that goes through
finds no setting that was set for the session after it was set locally, and `RESET ALL` inside a
transaction finds no custom parameter. -/
def Session.Respects (s : Session) : Input → Prop
  | .statement _ (.commit _ .ok) | .endImplicit .ok =>
    ∀ t ∈ s.txn, t.failed = false → Layered (t.gucStack.map GucStackEntry.toUndo)
  | .statement _ .resetAll => ∀ t ∈ s.txn, t.failed = false → OnlyGeneric s
  | _ => True

/-- Every input of the run respects the session it finds. -/
def RespectsAll (validate : GucValidator) : Session → List Input → Prop
  | _, [] => True
  | s, i :: is => s.Respects i ∧ RespectsAll validate (s.step validate i) is

private theorem answers_statement (hr : Refines s.toStack r) (c : Command)
    (hrespects : s.Respects (.statement roles c)) :
    Answers validate s r c (runStatement validate roles s c) := by
  unfold runStatement
  split
  · exact .inl rfl
  · next hgate =>
      cases c with
      | begin level readOnly deferrable => exact refines_txnBegin (s := s.takeNext) hr _
      | set name value isLocal =>
          exact answers_ofExcept fun s' h => (changes_runSet h).refines hr
      | setTransaction level readOnly deferrable =>
          refine answers_ofExcept fun s' h => ?_
          have hchange := (changes_setTransaction h).refines hr
          rwa [Ref.step_assign_empty] at hchange
      | setCharacteristics level readOnly deferrable =>
          exact refines_charsEvents hr level readOnly deferrable
      | reset name => exact answers_ofExcept fun s' h => (changes_reset h).refines hr
      | resetAll =>
          refine (changes_resetAll fun hopen => ?_).refines hr
          obtain ⟨t, ht⟩ := Option.isSome_iff_exists.mp hopen
          exact hrespects t ht (by simpa [ht, allowedInAborted] using hgate)
      | savepoint name => exact answers_savepoint hr name
      | rollbackTo name => exact answers_rollbackTo hr name
      | release name => exact answers_release hr name
      | commit chain outcome =>
          refine answers_commit hr chain outcome fun t ht hok hfailed => ?_
          subst hok
          exact hrespects t ht hfailed
      | rollback chain => exact answers_rollback hr chain
      | query error => exact answers_query hr error

/-- One input keeps the settings with the reference. -/
theorem refines_step (hr : Refines s.toStack r) (i : Input) (hrespects : s.Respects i) :
    Refines (s.step validate i).toStack ((i.events validate s).foldl Ref.step r) := by
  cases i with
  | statement roles c =>
      have hanswer : Answers validate s r c (runStatement validate roles s c) :=
        answers_statement hr c hrespects
      simp only [Session.step, Input.events]
      revert hanswer
      rcases runStatement validate roles s c with ⟨s', e | tag⟩
      · rintro (hsame | ⟨hnone, hopen, href⟩)
        · have hsome : s'.txn.isNone = s.txn.isNone := by
            have := congrArg (fun st => st.txn.isNone) hsame
            simpa [Session.toStack] using this
          rw [← hsame] at hr
          cases ht : s'.txn with
          | none =>
              have hs : s.txn.isSome = false := by
                rw [ht] at hsome
                simpa using hsome.symm
              simpa [transactionLost, ht, hs] using hr
          | some t =>
              have hs : s.txn.isSome = true := by
                rw [ht] at hsome
                simpa using hsome.symm
              cases himplicit : t.implicit with
              | true =>
                  have habort := refines_abort ht hr
                  simpa [transactionLost, ht, hs, himplicit, abortImplicitTxn] using habort
              | false => simpa [transactionLost, ht, himplicit] using hr
        · simpa [transactionLost, hnone, hopen] using href
      · exact fun href => href
  | beginImplicit =>
      simp only [Session.step, Input.events, beginImplicitTxn]
      cases ht : s.txn with
      | none =>
          simp only [Session.toStack, ht, Option.map_none] at hr
          cases hr
          exact .begin s.value
      | some t => exact hr
  | endImplicit outcome =>
      simp only [Session.step, Input.events, commitImplicitTxn]
      cases ht : s.txn with
      | none => simpa using hr
      | some t =>
          cases himplicit : t.implicit with
          | false => simpa [himplicit] using hr
          | true =>
              have hspec := commitTakenTxn_spec ht hr outcome fun hok hfailed => by
                subst hok
                exact hrespects t ht hfailed
              simp only [Option.any_some, himplicit, if_true]
              revert hspec
              rcases commitTakenTxn s.takeTxn t outcome with ⟨s', e | tag⟩
              · rintro ⟨hfailed, ⟨⟨e, rfl⟩, hsame, -⟩ | ⟨⟨e, rfl⟩, -, href⟩⟩
                · rw [← hsame] at hr
                  simpa [hfailed] using hr
                · simpa using href
              · rintro ⟨hok, -, href⟩
                by_cases hfailed : t.failed = true
                · cases outcome <;> simpa [hfailed] using href
                · rw [hok (by simpa using hfailed)]
                  simpa [hfailed] using href

/-- A whole run keeps the settings with the reference. -/
theorem refines_run (hr : Refines s.toStack r) (inputs : List Input)
    (hrespects : RespectsAll validate s inputs) :
    Refines (s.run validate inputs).toStack (refRun validate s r inputs) := by
  induction inputs generalizing s r with
  | nil => exact hr
  | cons i is ih => exact ih (refines_step hr i hrespects.1) hrespects.2

end Steps

/-! ## Settings over a run -/

/-- After the run each setting has the value the reference semantics gives it. -/
def FollowsReference (validate : GucValidator) (s : Session) (inputs : List Input) : Prop :=
  (s.run validate inputs).value = (refRun validate s ⟨s.value, none⟩ inputs).cur

/-- Settings follow the reference in every run of a session that respects the conditions. -/
theorem settings_follow_reference (validate : GucValidator) (s : Session) (hidle : s.txn = none)
    (inputs : List Input) (hrespects : RespectsAll validate s inputs) :
    FollowsReference validate s inputs := by
  have hr : Refines s.toStack ⟨s.value, none⟩ := by
    simp only [Session.toStack, hidle]
    exact .closed _
  exact (refines_run hr inputs hrespects).cur_eq

/-- The texts below are in the form `validate_generic_guc` stores. -/
def acceptCanonical : GucValidator := fun _ value => .ok value

def noRoles : RoleCatalog := ⟨fun _ => false, fun _ => false, fun _ _ => false⟩

/-- A `SET`, a `SET LOCAL` that is rolled back to a savepoint, and a commit. -/
def setLocalRolledBack : List Input :=
  [.begin none none none, .set (.other "work_mem") (.str "1024kB") false, .savepoint "a",
    .set (.other "work_mem") (.str "64kB") true, .rollbackTo "a", .commit false .ok].map
      (.statement noRoles)

theorem setLocalRolledBack_follows_reference :
    FollowsReference acceptCanonical (Session.new "alice") setLocalRolledBack := by
  refine settings_follow_reference acceptCanonical (Session.new "alice") rfl _ ?_
  refine ⟨trivial, trivial, trivial, trivial, trivial, fun t ht _ => ?_, trivial⟩
  have hone : ((Session.run acceptCanonical (Session.new "alice")
      (setLocalRolledBack.take 5)).txn.map (·.gucStack.length)) = some 1 := by decide +kernel
  have hlen : t.gucStack.length = 1 := by
    have hrun : (Session.run acceptCanonical (Session.new "alice")
        (setLocalRolledBack.take 5)).txn = some t := ht
    simpa [hrun] using hone
  obtain ⟨e, he⟩ := List.length_eq_one_iff.mp hlen
  simp [Layered, he]

/-- `SET LOCAL`, then `SET` of the same parameter, and a commit. -/
def setAfterSetLocal : List Input :=
  [.begin none none none, .set (.other "work_mem") (.str "64kB") true,
    .set (.other "work_mem") (.str "1024kB") false, .commit false .ok].map (.statement noRoles)

/-- The commit takes the session-level `SET` back with the local one. -/
theorem set_after_set_local_is_lost :
    ¬ FollowsReference acceptCanonical (Session.new "alice") setAfterSetLocal := by
  intro h
  have hlost : (Session.run acceptCanonical (Session.new "alice") setAfterSetLocal).value
      (.guc "work_mem") = .text none := by decide +kernel
  have hkept : (refRun acceptCanonical (Session.new "alice") ⟨(Session.new "alice").value, none⟩
      setAfterSetLocal).cur (.guc "work_mem") = .text (some "1024kB") := by decide +kernel
  rw [h, hkept] at hlost
  cases hlost

/-- A `RESET ALL` that is rolled back: the custom parameter stays lost. -/
example :
    (Session.run acceptCanonical (Session.new "alice")
      ([.set (.other "app.tag") (.str "x") false, .begin none none none, .resetAll,
        .rollback false].map (.statement noRoles))).value (.guc "app.tag") = .text none := by
  decide +kernel
