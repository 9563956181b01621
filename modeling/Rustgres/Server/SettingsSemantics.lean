-- SUMMARY: The settings of a session refine the reference semantics of scoped assignments.
import Rustgres.Lib.Scoped
import Rustgres.Server.Settings

/-!
# Settings Semantics

The reference semantics of a session's settings, and when the session's undo stack follows it: all
along as far as rollbacks go, and at a commit as long as no setting was set for the session after it
was set locally.
-/

open Scoped

/-! ## Settings as cells -/

/-- The settings of a session. `RESET` and `SET` of a role or a user act on the last two. -/
inductive Setting where
  | defaultTxnReadOnly
  | byteaOutput
  | defaultToastCompression
  | defaultTxnLevel
  | defaultTxnDeferrable
  | guc (name : String)
  | role
  | sessionUser
deriving DecidableEq, Repr

inductive GucValue where
  | flag (v : Option Bool)
  | bytea (v : ByteaOutput)
  | toast (v : ToastCompression)
  | level (v : Option IsolationLevel)
  | text (v : Option String)
  | user (v : String)
deriving DecidableEq, Repr

def Session.value (s : Session) : Setting → GucValue
  | .defaultTxnReadOnly => .flag s.defaultTxnReadOnly
  | .byteaOutput => .bytea s.byteaOutput
  | .defaultToastCompression => .toast s.defaultToastCompression
  | .defaultTxnLevel => .level s.defaultTxnLevel
  | .defaultTxnDeferrable => .flag s.defaultTxnDeferrable
  | .guc name => .text (s.gucs.lookup name)
  | .role => .user s.role
  | .sessionUser => .user s.sessionUser

/-- A user change sets two cells. -/
def userCells (user role : String) : Setting → Option GucValue
  | .sessionUser => some (.user user)
  | .role => some (.user role)
  | _ => none

/-- The cells a stack entry restores. -/
def GucStackEntry.saves (e : GucStackEntry) : Setting → Option GucValue :=
  match e.name, e.saved with
  | some .sessionAuthorization, .sessionAuth user role => userCells user role
  | some .defaultTransactionReadOnly, .readOnly v => single .defaultTxnReadOnly (.flag v)
  | some .byteaOutput, .byteaOutput v => single .byteaOutput (.bytea v)
  | some .defaultToastCompression, .toast v => single .defaultToastCompression (.toast v)
  | some (.other n), .generic v =>
    if isGenericGuc n || isCustomGuc n then single (.guc n) (.text v) else fun _ => none
  | some .defaultTransactionIsolation, .defaultTxnLevel v => single .defaultTxnLevel (.level v)
  | some .defaultTransactionDeferrable, .defaultTxnDeferrable v =>
    single .defaultTxnDeferrable (.flag v)
  | some .role, .role v => single .role (.user v)
  | _, _ => fun _ => none

def GucStackEntry.toUndo (e : GucStackEntry) : UndoEntry Setting GucValue :=
  ⟨e.isLocal, e.saves⟩

/-- The stack state of a transaction. -/
def GucTxn.toStack (t : GucTxn) : StackTxn Setting GucValue :=
  ⟨t.gucStack.map GucStackEntry.toUndo, t.savepoints.map fun sp => (sp.name, sp.gucMark)⟩

/-- The stack state of a session. -/
def Session.toStack (s : Session) : StackState Setting GucValue :=
  ⟨s.value, s.txn.map GucTxn.toStack⟩

@[simp]
theorem Session.value_txn (s : Session) (txn : Option GucTxn) :
    Session.value { s with txn := txn } = s.value := rfl

/-! ## Restoring entries -/

/-- Giving a cell a value, on both sides. -/
private theorem value_eq_single {s s' : Session} {k₀ : Setting} {v : GucValue}
    (hk : s'.value k₀ = v) (hother : ∀ k, k ≠ k₀ → s'.value k = s.value k) :
    s'.value = overwrite s.value (single k₀ v) := by
  funext k
  by_cases h : k = k₀
  · rw [h, hk]
    simp [overwrite, single]
  · rw [hother k h]
    simp [overwrite, single, h]

theorem value_insertGuc (s : Session) (n v : String) :
    Session.value { s with gucs := s.gucs.insert n v }
      = overwrite s.value (single (.guc n) (.text (some v))) := by
  refine value_eq_single (by simp [Session.value]) fun k hk => ?_
  cases k with
  | guc n' => simp [Session.value, AList.lookup_insert_ne (fun h : n' = n => hk (by rw [h]))]
  | _ => rfl

theorem value_eraseGuc (s : Session) (n : String) :
    Session.value { s with gucs := s.gucs.erase n }
      = overwrite s.value (single (.guc n) (.text none)) := by
  refine value_eq_single (by simp [Session.value]) fun k hk => ?_
  cases k with
  | guc n' => simp [Session.value, AList.lookup_erase_ne (fun h : n' = n => hk (by rw [h]))]
  | _ => rfl

theorem value_readOnly (s : Session) (v : Option Bool) :
    Session.value { s with defaultTxnReadOnly := v }
      = overwrite s.value (single .defaultTxnReadOnly (.flag v)) :=
  value_eq_single rfl fun k hk => by cases k <;> first | rfl | exact absurd rfl hk

theorem value_byteaOutput (s : Session) (v : ByteaOutput) :
    Session.value { s with byteaOutput := v }
      = overwrite s.value (single .byteaOutput (.bytea v)) :=
  value_eq_single rfl fun k hk => by cases k <;> first | rfl | exact absurd rfl hk

theorem value_toast (s : Session) (v : ToastCompression) :
    Session.value { s with defaultToastCompression := v }
      = overwrite s.value (single .defaultToastCompression (.toast v)) :=
  value_eq_single rfl fun k hk => by cases k <;> first | rfl | exact absurd rfl hk

theorem value_level (s : Session) (v : Option IsolationLevel) :
    Session.value { s with defaultTxnLevel := v }
      = overwrite s.value (single .defaultTxnLevel (.level v)) :=
  value_eq_single rfl fun k hk => by cases k <;> first | rfl | exact absurd rfl hk

theorem value_deferrable (s : Session) (v : Option Bool) :
    Session.value { s with defaultTxnDeferrable := v }
      = overwrite s.value (single .defaultTxnDeferrable (.flag v)) :=
  value_eq_single rfl fun k hk => by cases k <;> first | rfl | exact absurd rfl hk

theorem value_role (s : Session) (v : String) :
    Session.value { s with role := v } = overwrite s.value (single .role (.user v)) :=
  value_eq_single rfl fun k hk => by cases k <;> first | rfl | exact absurd rfl hk

theorem value_user (s : Session) (user role : String) :
    Session.value { s with sessionUser := user, role := role }
      = overwrite s.value (userCells user role) := by
  funext k
  cases k <;> rfl

theorem value_restoreSavedGuc (s : Session) (e : GucStackEntry) :
    (restoreSavedGuc s e.name e.saved).value = overwrite s.value e.saves := by
  obtain ⟨name, isLocal, saved⟩ := e
  cases name with
  | none => cases saved <;> rfl
  | some name =>
      cases name <;> cases saved
      case sessionAuthorization.sessionAuth user role => exact value_user s user role
      case other.generic n v =>
        simp only [restoreSavedGuc, GucStackEntry.saves]
        split
        · cases v with
          | some str => exact value_insertGuc s n str
          | none => exact value_eraseGuc s n
        · rfl
      case defaultTransactionReadOnly.readOnly v => exact value_readOnly s v
      case byteaOutput.byteaOutput v => exact value_byteaOutput s v
      case defaultToastCompression.toast v => exact value_toast s v
      case defaultTransactionIsolation.defaultTxnLevel v => exact value_level s v
      case defaultTransactionDeferrable.defaultTxnDeferrable v => exact value_deferrable s v
      case role.role v => exact value_role s v
      all_goals rfl

theorem txn_restoreSavedGuc (s : Session) (e : GucStackEntry) :
    (restoreSavedGuc s e.name e.saved).txn.map GucTxn.toStack = s.txn.map GucTxn.toStack := by
  unfold restoreSavedGuc
  split
  case h_5 => split <;> [split; skip] <;> rfl
  case h_9 => cases s.txn <;> rfl
  all_goals rfl

theorem toStack_revert_abort (s : Session) (stack : List GucStackEntry) :
    (revertGucStack s stack false).toStack
      = ⟨unwind s.value (stack.map GucStackEntry.toUndo), s.txn.map GucTxn.toStack⟩ := by
  induction stack generalizing s with
  | nil => rfl
  | cons e stack ih =>
      have hrest := ih (restoreSavedGuc s e.name e.saved)
      rw [value_restoreSavedGuc, txn_restoreSavedGuc] at hrest
      simpa [revertGucStack, GucStackEntry.toUndo] using hrest

theorem toStack_revert_commit (s : Session) (stack : List GucStackEntry) :
    (revertGucStack s stack true).toStack
      = ⟨unwindLocal s.value (stack.map GucStackEntry.toUndo), s.txn.map GucTxn.toStack⟩ := by
  induction stack generalizing s with
  | nil => rfl
  | cons e stack ih =>
      cases hl : e.isLocal with
      | true =>
          have hrest := ih (restoreSavedGuc s e.name e.saved)
          rw [value_restoreSavedGuc, txn_restoreSavedGuc] at hrest
          simpa [revertGucStack, unwindLocal, GucStackEntry.toUndo, hl] using hrest
      | false => simpa [revertGucStack, unwindLocal, GucStackEntry.toUndo, hl] using ih s

/-! ## Pushing entries -/

/-- The entries `push_guc_entry` pushes: one, or none for a parameter without state. -/
def gucEntries (s : Session) (name : Guc) (isLocal : Bool) : List GucStackEntry :=
  ((gucSavedValue s name).map fun saved => ⟨some name, isLocal, saved⟩).toList

/-- Push entries on the stack of the open transaction. -/
def Session.pushAll (s : Session) (es : List GucStackEntry) : Session :=
  { s with txn := s.txn.map fun t => { t with gucStack := es ++ t.gucStack } }

theorem pushGucEntry_eq (s : Session) (name : Guc) (isLocal : Bool) :
    pushGucEntry s name isLocal = s.pushAll (gucEntries s name isLocal) := by
  unfold pushGucEntry gucEntries Session.pushAll
  cases gucSavedValue s name with
  | none => cases s with | mk => simp
  | some saved => rfl

theorem pushAll_pushAll (s : Session) (es es' : List GucStackEntry) :
    (s.pushAll es).pushAll es' = s.pushAll (es' ++ es) := by
  simp [Session.pushAll, Function.comp_def]

/-- Pushing entries for several parameters saves the values they have before. -/
theorem foldl_pushGucEntry (s : Session) (names : List Guc) (isLocal : Bool) :
    names.foldl (fun s name => pushGucEntry s name isLocal) s
      = s.pushAll (names.reverse.flatMap fun name => gucEntries s name isLocal) := by
  induction names generalizing s with
  | nil => cases s with | mk => simp [Session.pushAll]
  | cons name names ih =>
      have hsaved : ∀ name', gucEntries (s.pushAll (gucEntries s name isLocal)) name' isLocal
          = gucEntries s name' isLocal := fun name' => by cases name' <;> rfl
      rw [List.foldl_cons, pushGucEntry_eq, ih, pushAll_pushAll]
      simp [hsaved]

/-- The session after a setting command: the cells in `d` are set, and if a transaction is open its
stack has entries for exactly these cells. -/
def Changes (s s' : Session) (isLocal : Bool) (d : Setting → Option GucValue) : Prop :=
  s'.value = overwrite s.value d ∧
    ∃ es : List GucStackEntry, s'.txn.map GucTxn.toStack = (s.pushAll es).txn.map GucTxn.toStack ∧
      (s.txn.isSome → SavesAll (es.map GucStackEntry.toUndo) isLocal s.value d)

/-- A setting command is an assignment of the reference semantics. -/
theorem Changes.refines {s s' : Session} {isLocal : Bool} {d : Setting → Option GucValue}
    {r : Ref Setting GucValue} (h : Changes s s' isLocal d) (hr : Refines s.toStack r) :
    Refines s'.toStack (r.step (.assign d isLocal)) := by
  obtain ⟨hvalue, es, htxn, hsaves⟩ := h
  simp only [Session.toStack, hvalue, htxn, Session.pushAll] at hr ⊢
  cases ht : s.txn with
  | none =>
      rw [ht] at hr
      cases hr
      exact .closed _
  | some t =>
      rw [ht] at hr
      have hassign := hr.assign (hsaves (by simp [ht]))
      simpa [GucTxn.toStack] using hassign

/-! ## Setting commands -/

/-- One entry for a parameter, and its cells set. -/
private theorem Changes.of_push {s s' : Session} (name : Guc) {saved : SavedGuc} {isLocal : Bool}
    {d : Setting → Option GucValue} (hsaved : gucSavedValue s name = some saved)
    (hcells : ∀ k, (GucStackEntry.mk (some name) isLocal saved).saves k
      = if (d k).isSome then some (s.value k) else none)
    (hvalue : s'.value = overwrite s.value d)
    (htxn : s'.txn = (pushGucEntry s name isLocal).txn) : Changes s s' isLocal d := by
  refine ⟨hvalue, gucEntries s name isLocal, by rw [htxn, pushGucEntry_eq], fun _ => ?_⟩
  simp only [gucEntries, hsaved, Option.map_some, Option.toList_some, List.map_cons, List.map_nil]
  refine ⟨by simp [GucStackEntry.toUndo], ?_, ?_⟩
  · intro e he k v hv
    rw [List.mem_singleton.mp he] at hv
    simp only [GucStackEntry.toUndo, hcells k] at hv
    split at hv
    · exact (Option.some.inj hv).symm
    · cases hv
  · intro k
    simp only [List.mem_singleton, exists_eq_left, GucStackEntry.toUndo, hcells k]
    split <;> simp_all

private theorem single_saves [DecidableEq κ] (f : κ → ν) (k₀ : κ) (v : ν) (k : κ) :
    single k₀ (f k₀) k = if (single k₀ v k).isSome then some (f k) else none := by
  by_cases h : k = k₀ <;> simp [single, h]

/-- The value a `SET` names; none for the default. -/
def SetValue.parsed {α : Type} (parse : String → Option α) : SetValue → Option α
  | .default => none
  | .str s => parse s

/-- The cells that `SET name = value` sets, with their new values. -/
def setCells (validate : GucValidator) (s : Session) (name : Guc) (value : SetValue) :
    Setting → Option GucValue :=
  match name with
  | .defaultTransactionReadOnly =>
    single .defaultTxnReadOnly (.flag (value.parsed parseBoolGuc))
  | .byteaOutput => single .byteaOutput (.bytea ((value.parsed ByteaOutput.fromName).getD .hex))
  | .defaultToastCompression =>
    single .defaultToastCompression (.toast ((value.parsed ToastCompression.fromName).getD .pglz))
  | .defaultTransactionIsolation =>
    single .defaultTxnLevel (.level (value.parsed parseIsolationGuc))
  | .defaultTransactionDeferrable =>
    single .defaultTxnDeferrable (.flag (value.parsed parseBoolGuc))
  | .other n => single (.guc n) (.text (value.parsed fun str => (validate n str).toOption))
  | .role =>
    let user := value.parsed fun str =>
      if asciiLower str.toList = "none".toList then none
      else some (String.ofList (asciiLower str.toList))
    single .role (.user (user.getD s.sessionUser))
  | .sessionAuthorization =>
    let user := value.parsed fun str => some (String.ofList (asciiLower str.toList))
    userCells (user.getD s.authUser) (user.getD s.authUser)
  | _ => fun _ => none

theorem parseSetValue_ok {α : Type} {name : Guc} {parse : String → Option α} {value : SetValue}
    {v : Option α} (h : parseSetValue name parse value = .ok v) : value.parsed parse = v := by
  cases value with
  | default => exact Except.ok.inj h
  | str s =>
      simp only [parseSetValue] at h
      simp only [SetValue.parsed]
      split at h
      · next v' hv => rw [hv]; exact Except.ok.inj h
      · cases h

theorem changes_setTransaction {s s' : Session} {level : Option IsolationLevel}
    {readOnly deferrable : Option Bool} {isLocal : Bool}
    (h : stmtSetTransaction s level readOnly deferrable isLocal = .ok s') :
    Changes s s' isLocal fun _ => none := by
  unfold stmtSetTransaction at h
  cases ht : s.txn with
  | none =>
      simp only [ht] at h
      split at h
      · cases h
      · cases h
        exact ⟨rfl, [], by simp [Session.pushAll, ht], by simp [ht]⟩
  | some t =>
      simp only [ht] at h
      repeat' split at h
      all_goals cases h
      · exact ⟨rfl, [], by simp [Session.pushAll, ht, GucTxn.toStack], fun _ =>
          ⟨by simp, by simp, by simp⟩⟩
      · refine ⟨rfl, [⟨none, isLocal, .txnChars t.chars⟩],
          by simp [Session.pushAll, ht, GucTxn.toStack], fun _ => ⟨by simp [GucStackEntry.toUndo],
            ?_, ?_⟩⟩
        · simp [GucStackEntry.toUndo, GucStackEntry.saves]
        · simp [GucStackEntry.toUndo, GucStackEntry.saves]

theorem changes_user (s : Session) (user : String) (isLocal : Bool) :
    Changes s { pushGucEntry s .sessionAuthorization isLocal with
      sessionUser := user, role := user } isLocal (userCells user user) := by
  refine .of_push .sessionAuthorization rfl (fun k => ?_) ?_ rfl
  · cases k <;> rfl
  · rw [pushGucEntry_eq]
    exact value_user s user user

theorem changes_role (s : Session) (user : String) (isLocal : Bool) :
    Changes s { pushGucEntry s .role isLocal with role := user } isLocal
      (single .role (.user user)) := by
  refine .of_push .role rfl (single_saves s.value .role _) ?_ rfl
  rw [pushGucEntry_eq]
  exact value_role s user

theorem changes_readOnly (s : Session) (v : Option Bool) (isLocal : Bool) :
    Changes s { pushGucEntry s .defaultTransactionReadOnly isLocal with defaultTxnReadOnly := v }
      isLocal (single .defaultTxnReadOnly (.flag v)) := by
  refine .of_push .defaultTransactionReadOnly rfl (single_saves s.value .defaultTxnReadOnly _) ?_
    rfl
  rw [pushGucEntry_eq]
  exact value_readOnly s v

theorem changes_byteaOutput (s : Session) (v : ByteaOutput) (isLocal : Bool) :
    Changes s { pushGucEntry s .byteaOutput isLocal with byteaOutput := v }
      isLocal (single .byteaOutput (.bytea v)) := by
  refine .of_push .byteaOutput rfl (single_saves s.value .byteaOutput _) ?_ rfl
  rw [pushGucEntry_eq]
  exact value_byteaOutput s v

theorem changes_toast (s : Session) (v : ToastCompression) (isLocal : Bool) :
    Changes s { pushGucEntry s .defaultToastCompression isLocal with
      defaultToastCompression := v } isLocal (single .defaultToastCompression (.toast v)) := by
  refine .of_push .defaultToastCompression rfl
    (single_saves s.value .defaultToastCompression _) ?_ rfl
  rw [pushGucEntry_eq]
  exact value_toast s v

theorem changes_level (s : Session) (v : Option IsolationLevel) (isLocal : Bool) :
    Changes s { pushGucEntry s .defaultTransactionIsolation isLocal with defaultTxnLevel := v }
      isLocal (single .defaultTxnLevel (.level v)) := by
  refine .of_push .defaultTransactionIsolation rfl (single_saves s.value .defaultTxnLevel _) ?_
    rfl
  rw [pushGucEntry_eq]
  exact value_level s v

theorem changes_deferrable (s : Session) (v : Option Bool) (isLocal : Bool) :
    Changes s { pushGucEntry s .defaultTransactionDeferrable isLocal with
      defaultTxnDeferrable := v } isLocal (single .defaultTxnDeferrable (.flag v)) := by
  refine .of_push .defaultTransactionDeferrable rfl
    (single_saves s.value .defaultTxnDeferrable _) ?_ rfl
  rw [pushGucEntry_eq]
  exact value_deferrable s v

/-- A stored parameter, given a value or removed. -/
private theorem changes_guc {s s' : Session} {n : String} {v : Option String} {isLocal : Bool}
    (hn : (isGenericGuc n || isCustomGuc n) = true)
    (hvalue : s'.value = overwrite s.value (single (.guc n) (.text v)))
    (htxn : s'.txn = (pushGucEntry s (gucStackName n) isLocal).txn) :
    Changes s s' isLocal (single (.guc n) (.text v)) := by
  refine .of_push (.other n) (by simp only [gucSavedValue, hn]; rfl) (fun k => ?_) hvalue htxn
  simp only [GucStackEntry.saves, hn, if_true]
  exact single_saves s.value (.guc n) _ k

private theorem changes_eraseGuc (s : Session) {n : String} (isLocal : Bool)
    (hn : (isGenericGuc n || isCustomGuc n) = true) :
    Changes s { pushGucEntry s (gucStackName n) isLocal with
      gucs := (pushGucEntry s (gucStackName n) isLocal).gucs.erase n } isLocal
      (single (.guc n) (.text none)) := by
  refine changes_guc hn ?_ rfl
  rw [pushGucEntry_eq]
  exact value_eraseGuc s n

private theorem changes_insertGuc (s : Session) {n : String} (v : String) (isLocal : Bool)
    (hn : (isGenericGuc n || isCustomGuc n) = true) :
    Changes s { pushGucEntry s (gucStackName n) isLocal with
      gucs := (pushGucEntry s (gucStackName n) isLocal).gucs.insert n v } isLocal
      (single (.guc n) (.text (some v))) := by
  refine changes_guc hn ?_ rfl
  rw [pushGucEntry_eq]
  exact value_insertGuc s n v

/-! ### SET -/

private theorem ok_bind {α β : Type} {x : Except ExecError α} {f : α → Except ExecError β} {b : β}
    (h : (x >>= f) = .ok b) : ∃ a, x = .ok a ∧ f a = .ok b := by
  cases x with
  | error e => cases h
  | ok a => exact ⟨a, rfl, h⟩

private theorem roleTarget_ok {roles : RoleCatalog} {s : Session} {target : Option String}
    {user : String} (h : roleTarget roles s target = .ok user) :
    (target.map fun name => String.ofList (asciiLower name.toList)).getD s.sessionUser = user := by
  cases target with
  | none => exact Except.ok.inj h
  | some name =>
      simp only [roleTarget] at h
      split at h
      · cases h
      · split at h
        · cases h
        · exact Except.ok.inj h

private theorem userTarget_ok {roles : RoleCatalog} {s : Session} {target : Option String}
    {user : String} (h : userTarget roles s target = .ok user) :
    (target.map fun name => String.ofList (asciiLower name.toList)).getD s.authUser = user := by
  cases target with
  | none => exact Except.ok.inj h
  | some name =>
      simp only [userTarget] at h
      split at h
      · cases h
      · split at h
        · cases h
        · exact Except.ok.inj h

/-- A successful `SET` assigns the cells it names. -/
theorem changes_runSet {validate : GucValidator} {roles : RoleCatalog} {s s' : Session}
    {name : Guc} {value : SetValue} {isLocal : Bool}
    (h : runSet validate roles s name value isLocal = .ok s') :
    Changes s s' isLocal (setCells validate s name value) := by
  cases name
  case role =>
    obtain ⟨_, _, h⟩ := ok_bind h
    obtain ⟨user, huser, hs'⟩ := ok_bind h
    cases hs'
    have huser' := roleTarget_ok huser
    have hcells : setCells validate s .role value = single .role (.user user) := by
      rw [← huser']
      cases value with
      | default => rfl
      | str str =>
          simp only [setCells, SetValue.parsed]
          split <;> simp_all
    rw [hcells]
    exact changes_role s user isLocal
  case sessionAuthorization =>
    obtain ⟨_, _, h⟩ := ok_bind h
    obtain ⟨user, huser, hs'⟩ := ok_bind h
    cases hs'
    have huser' := userTarget_ok huser
    have hcells : setCells validate s .sessionAuthorization value = userCells user user := by
      rw [← huser']
      cases value <;> rfl
    rw [hcells]
    exact changes_user s user isLocal
  all_goals replace h := (ok_bind h).choose_spec.2
  case defaultTransactionReadOnly =>
    obtain ⟨v, hv, hs'⟩ := ok_bind h
    cases hs'
    rw [setCells, parseSetValue_ok hv]
    exact changes_readOnly s v isLocal
  case byteaOutput =>
    obtain ⟨v, hv, hs'⟩ := ok_bind h
    cases hs'
    rw [setCells, parseSetValue_ok hv]
    exact changes_byteaOutput s _ isLocal
  case defaultToastCompression =>
    obtain ⟨v, hv, hs'⟩ := ok_bind h
    cases hs'
    rw [setCells, parseSetValue_ok hv]
    exact changes_toast s _ isLocal
  case defaultTransactionIsolation =>
    obtain ⟨v, hv, hs'⟩ := ok_bind h
    cases hs'
    rw [setCells, parseSetValue_ok hv]
    exact changes_level s v isLocal
  case defaultTransactionDeferrable =>
    obtain ⟨v, hv, hs'⟩ := ok_bind h
    cases hs'
    rw [setCells, parseSetValue_ok hv]
    exact changes_deferrable s v isLocal
  case transactionIsolation =>
    obtain ⟨v, _, h⟩ := ok_bind h
    exact changes_setTransaction h
  case transactionReadOnly =>
    obtain ⟨v, _, h⟩ := ok_bind h
    exact changes_setTransaction h
  case transactionDeferrable =>
    obtain ⟨v, _, h⟩ := ok_bind h
    exact changes_setTransaction h
  case other n =>
    dsimp only at h
    split at h
    · next hn =>
        split at h
        · cases h
        · cases h
          exact changes_eraseGuc s isLocal hn
        · next str _ =>
            obtain ⟨canon, hcanon, hs'⟩ := ok_bind h
            cases hs'
            have hcells : setCells validate s (.other n) (.str str)
                = single (.guc n) (.text (some canon)) := by
              simp [setCells, SetValue.parsed, hcanon, Except.toOption]
            rw [hcells]
            exact changes_insertGuc s canon isLocal hn
    · cases h
  all_goals cases h

/-! ### RESET -/

/-- The cells that `RESET name` sets. -/
def resetCells (s : Session) : Guc → Setting → Option GucValue
  | .defaultTransactionReadOnly => single .defaultTxnReadOnly (.flag none)
  | .byteaOutput => single .byteaOutput (.bytea .hex)
  | .defaultToastCompression => single .defaultToastCompression (.toast .pglz)
  | .defaultTransactionIsolation => single .defaultTxnLevel (.level none)
  | .defaultTransactionDeferrable => single .defaultTxnDeferrable (.flag none)
  | .other n => single (.guc n) (.text none)
  | .role => single .role (.user s.sessionUser)
  | .sessionAuthorization => userCells s.authUser s.authUser
  | _ => fun _ => none

theorem changes_reset {s s' : Session} {name : Guc} (h : stmtResetGuc s name = .ok s') :
    Changes s s' false (resetCells s name) := by
  cases name with
  | defaultTransactionReadOnly => cases h; exact changes_readOnly s none false
  | byteaOutput => cases h; exact changes_byteaOutput s .hex false
  | defaultToastCompression => cases h; exact changes_toast s .pglz false
  | defaultTransactionIsolation => cases h; exact changes_level s none false
  | defaultTransactionDeferrable => cases h; exact changes_deferrable s none false
  | role => cases h; exact changes_role s s.sessionUser false
  | sessionAuthorization => cases h; exact changes_user s s.authUser false
  | other n =>
      simp only [stmtResetGuc] at h
      split at h
      · next hn =>
          cases h
          exact changes_eraseGuc s false (by simp at hn ⊢; tauto)
      · cases h
  | transactionIsolation => cases h
  | transactionReadOnly => cases h
  | transactionDeferrable => cases h
  | serverVersion => cases h
  | serverVersionNum => cases h

/-- The cells that `RESET ALL` sets: all but the session user. -/
def resetAllCells (s : Session) : Setting → Option GucValue
  | .defaultTxnReadOnly => some (.flag none)
  | .byteaOutput => some (.bytea .hex)
  | .defaultToastCompression => some (.toast .pglz)
  | .defaultTxnLevel => some (.level none)
  | .defaultTxnDeferrable => some (.flag none)
  | .guc n => if n ∈ s.gucs then some (.text none) else none
  | .role => some (.user s.sessionUser)
  | .sessionUser => none

/-- `RESET ALL` takes no entry for a custom parameter, so it can only be undone without them. -/
def OnlyGeneric (s : Session) : Prop := ∀ n ∈ s.gucs, isGenericGuc n = true

/-- The parameters `RESET ALL` takes entries for, besides the stored ones. -/
def resetAllNames : List Guc :=
  [.defaultTransactionReadOnly, .byteaOutput, .defaultToastCompression,
    .defaultTransactionIsolation, .defaultTransactionDeferrable, .role]

/-- The entry `RESET ALL` takes for a stored parameter: none for a custom one. -/
def storedEntries (gucs : AList fun _ : String => String) (n : String) : List GucStackEntry :=
  if isGenericGuc n then [⟨some (.other n), false, .generic (gucs.lookup n)⟩] else []

theorem gucEntries_nameToStatic (s : Session) (n : String) :
    gucEntries s (nameToStatic n) false = storedEntries s.gucs n := by
  have hunrecognized : (isGenericGuc "unrecognized" || isCustomGuc "unrecognized") = false := by
    decide
  unfold gucEntries nameToStatic storedEntries
  split
  · next hn => simp [gucSavedValue, hn]
  · simp only [gucSavedValue, hunrecognized]
    rfl

/-- The entries of `RESET ALL`. -/
def resetAllEntries (s : Session) : List GucStackEntry :=
  s.gucs.keys.reverse.flatMap (storedEntries s.gucs) ++
    resetAllNames.reverse.flatMap fun name => gucEntries s name false

theorem stmtResetAll_eq (s : Session) :
    stmtResetAll s = { s.pushAll (resetAllEntries s) with
      defaultTxnReadOnly := none
      byteaOutput := .hex
      defaultToastCompression := .pglz
      defaultTxnLevel := none
      defaultTxnDeferrable := none
      role := s.sessionUser
      gucs := ∅ } := by
  have hstored : ∀ s' : Session,
      s'.gucs.keys.foldl (fun s n => pushGucEntry s (nameToStatic n) false) s'
        = s'.pushAll (s'.gucs.keys.reverse.flatMap (storedEntries s'.gucs)) := by
    intro s'
    have hfold := foldl_pushGucEntry s' (s'.gucs.keys.map nameToStatic) false
    rw [List.foldl_map] at hfold
    rw [hfold, ← List.map_reverse, List.flatMap_map]
    simp only [gucEntries_nameToStatic]
  simp only [stmtResetAll, foldl_pushGucEntry]
  rw [hstored]
  simp only [Session.pushAll, resetAllEntries, resetAllNames, Option.map_map, List.append_assoc]
  rfl

private theorem value_reset (s : Session) : Session.value { s with
      defaultTxnReadOnly := none
      byteaOutput := .hex
      defaultToastCompression := .pglz
      defaultTxnLevel := none
      defaultTxnDeferrable := none
      role := s.sessionUser
      gucs := ∅ } = overwrite s.value (resetAllCells s) := by
  funext k
  cases k with
  | guc n =>
      by_cases hn : n ∈ s.gucs
      · simp [Session.value, overwrite, resetAllCells, hn]
      · simp [Session.value, overwrite, resetAllCells, hn, AList.lookup_eq_none.mpr hn]
  | _ => rfl

private theorem mem_resetAllEntries {s : Session} {e : GucStackEntry} :
    e ∈ resetAllEntries s ↔
      (∃ n ∈ s.gucs, e ∈ gucEntries s (nameToStatic n) false) ∨
      ∃ name ∈ resetAllNames, e ∈ gucEntries s name false := by
  simp [resetAllEntries, AList.mem_keys, gucEntries_nameToStatic]

/-- The entry of a parameter saves the values of its cells. -/
private theorem saves_gucEntries {s : Session} {name : Guc} {isLocal : Bool} {e : GucStackEntry}
    (h : e ∈ gucEntries s name isLocal) :
    e.isLocal = isLocal ∧ ∀ k v, e.saves k = some v → v = s.value k := by
  simp only [gucEntries, Option.mem_toList, Option.map_eq_some_iff] at h
  obtain ⟨saved, hsaved, rfl⟩ := h
  refine ⟨rfl, fun k v hv => ?_⟩
  cases name <;> simp only [gucSavedValue] at hsaved
  case other n =>
    split at hsaved
    · next hn =>
        cases hsaved
        simp only [GucStackEntry.saves, hn, if_true, single] at hv
        split at hv
        · next hk => rw [hk]; exact (Option.some.inj hv).symm
        · cases hv
    · cases hsaved
  case sessionAuthorization =>
    cases hsaved
    cases k <;> first | exact (Option.some.inj hv).symm | cases hv
  all_goals
    cases hsaved
    try
      simp only [GucStackEntry.saves, single] at hv
      split at hv
      · next hk => rw [hk]; exact (Option.some.inj hv).symm
      · cases hv

theorem savesAll_resetAll {s : Session} (h : OnlyGeneric s) :
    SavesAll ((resetAllEntries s).map GucStackEntry.toUndo) false s.value (resetAllCells s) := by
  have hsaves : ∀ e ∈ resetAllEntries s,
      e.isLocal = false ∧ ∀ k v, e.saves k = some v → v = s.value k := by
    intro e he
    rcases mem_resetAllEntries.mp he with ⟨n, _, hn⟩ | ⟨name, _, hname⟩
    · exact saves_gucEntries hn
    · exact saves_gucEntries hname
  refine ⟨?_, ?_, ?_⟩
  · simp only [List.forall_mem_map]
    exact fun e he => (hsaves e he).1
  · simp only [List.forall_mem_map]
    exact fun e he => (hsaves e he).2
  · intro k
    simp only [List.mem_map, exists_exists_and_eq_and, GucStackEntry.toUndo, mem_resetAllEntries,
      gucEntries_nameToStatic]
    constructor
    · intro hk
      cases k with
      | guc n =>
          have hn : n ∈ s.gucs := by
            by_contra hn
            simp [resetAllCells, hn] at hk
          exact ⟨⟨some (.other n), false, .generic (s.gucs.lookup n)⟩,
            .inl ⟨n, hn, by simp [storedEntries, h n hn]⟩,
            by simp [GucStackEntry.saves, single, h n hn]⟩
      | sessionUser => cases hk
      | defaultTxnReadOnly =>
          exact ⟨_, .inr ⟨.defaultTransactionReadOnly, by decide, .head _⟩, rfl⟩
      | byteaOutput => exact ⟨_, .inr ⟨.byteaOutput, by decide, .head _⟩, rfl⟩
      | defaultToastCompression =>
          exact ⟨_, .inr ⟨.defaultToastCompression, by decide, .head _⟩, rfl⟩
      | defaultTxnLevel => exact ⟨_, .inr ⟨.defaultTransactionIsolation, by decide, .head _⟩, rfl⟩
      | defaultTxnDeferrable =>
          exact ⟨_, .inr ⟨.defaultTransactionDeferrable, by decide, .head _⟩, rfl⟩
      | role => exact ⟨_, .inr ⟨.role, by decide, .head _⟩, rfl⟩
    · rintro ⟨e, ⟨n, hn, he⟩ | ⟨name, hname, he⟩, hk⟩
      · simp only [storedEntries, h n hn, if_true, List.mem_singleton] at he
        subst he
        simp only [GucStackEntry.saves, h n hn, Bool.true_or, if_true, single] at hk
        split at hk
        · next hkn => simp [hkn, resetAllCells, hn]
        · cases hk
      · simp only [resetAllNames, List.mem_cons, List.not_mem_nil, or_false] at hname
        rcases hname with rfl | rfl | rfl | rfl | rfl | rfl
        all_goals
          simp only [gucEntries, gucSavedValue, Option.map_some, Option.toList_some,
            List.mem_singleton] at he
          subst he
          simp only [GucStackEntry.saves, single] at hk
          split at hk
          · next hkn => rw [hkn]; rfl
          · cases hk

theorem changes_resetAll {s : Session} (h : s.txn.isSome → OnlyGeneric s) :
    Changes s (stmtResetAll s) false (resetAllCells s) := by
  refine ⟨?_, resetAllEntries s, by rw [stmtResetAll_eq], fun ht => savesAll_resetAll (h ht)⟩
  rw [stmtResetAll_eq]
  exact value_reset (s.pushAll (resetAllEntries s))
