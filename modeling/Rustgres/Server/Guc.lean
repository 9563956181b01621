-- SUMMARY: Session settings: SET, RESET, their transaction stack, and the transaction commands.
import Rustgres.Exec.Common
import Rustgres.Lib.UndoStack

/-!
# Session Settings

A session's settings and the stack a transaction keeps of their old values. Statements other than
the setting and transaction commands are `query`s: all that matters of one here is whether it fails.
-/

/-! ## Values -/

inductive ByteaOutput where
  | hex
  | escape
deriving DecidableEq, Repr

inductive ToastCompression where
  | pglz
  | lz4
deriving DecidableEq, Repr

/-- A parameter name: those the server knows by name, and any other. -/
inductive Guc where
  | defaultTransactionReadOnly
  | byteaOutput
  | defaultToastCompression
  | defaultTransactionIsolation
  | defaultTransactionDeferrable
  | transactionIsolation
  | transactionReadOnly
  | transactionDeferrable
  | role
  | sessionAuthorization
  | serverVersion
  | serverVersionNum
  | other (name : String)
deriving DecidableEq, Repr

def Guc.name : Guc → String
  | .defaultTransactionReadOnly => "default_transaction_read_only"
  | .byteaOutput => "bytea_output"
  | .defaultToastCompression => "default_toast_compression"
  | .defaultTransactionIsolation => "default_transaction_isolation"
  | .defaultTransactionDeferrable => "default_transaction_deferrable"
  | .transactionIsolation => "transaction_isolation"
  | .transactionReadOnly => "transaction_read_only"
  | .transactionDeferrable => "transaction_deferrable"
  | .role => "role"
  | .sessionAuthorization => "session_authorization"
  | .serverVersion => "server_version"
  | .serverVersionNum => "server_version_num"
  | .other name => name

inductive SetValue where
  | default
  | str (s : String)
deriving DecidableEq, Repr

/-- Parameters that are validated and stored but have no effect on the engine. -/
def genericGucs : List String :=
  ["enable_seqscan", "default_statistics_target", "lo_compat_privileges", "enable_indexscan",
    "enable_bitmapscan", "enable_indexonlyscan", "enable_hashagg", "enable_hashjoin",
    "enable_mergejoin", "enable_nestloop", "enable_sort", "enable_memoize",
    "enable_partitionwise_join", "geqo", "extra_float_digits", "work_mem", "geqo_threshold",
    "join_collapse_limit", "from_collapse_limit", "jit_above_cost", "parallel_setup_cost",
    "parallel_tuple_cost", "min_parallel_table_scan_size", "min_parallel_index_scan_size",
    "max_parallel_workers_per_gather", "max_parallel_workers", "max_worker_processes",
    "plan_cache_mode", "lc_numeric", "standard_conforming_strings", "client_min_messages",
    "log_min_messages", "icu_validation_level", "constraint_exclusion", "debug_parallel_query",
    "intervalstyle", "session_replication_role", "stats_fetch_consistency",
    "password_encryption", "datestyle", "client_encoding", "row_security",
    "check_function_bodies", "enable_material", "enable_partitionwise_aggregate",
    "enable_partition_pruning", "enable_incremental_sort", "vacuum_cost_delay",
    "hash_mem_multiplier", "maintenance_work_mem", "max_parallel_maintenance_workers",
    "max_stack_depth", "timezone", "search_path", "default_table_access_method"]

def isGenericGuc (name : String) : Bool := genericGucs.contains name

/-- A dotted name is a custom parameter. -/
def isCustomGuc (name : String) : Bool := name.toList.contains '.'

private def isIdentStart (c : Char) : Bool := c.isAlpha || c == '_' || c.toNat ≥ 0x80

private def isIdentRest (c : Char) : Bool :=
  c.isAlphanum || c == '_' || c == '$' || c.toNat ≥ 0x80

def validCustomGucName (name : String) : Bool :=
  isCustomGuc name && (name.toList.splitOn '.').all fun part =>
    match part with
    | [] => false
    | c :: rest => isIdentStart c && rest.all isIdentRest

def isKnownPlpgsqlGuc (name : String) : Bool :=
  ["plpgsql.variable_conflict", "plpgsql.print_strict_params", "plpgsql.check_asserts",
    "plpgsql.extra_warnings", "plpgsql.extra_errors"].contains name

private def hasPlpgsqlPrefix (name : String) : Bool := "plpgsql.".toList.isPrefixOf name.toList

/-- The error of a SET of a custom name, if any. -/
def customGucSetError (name : String) : Option ExecError :=
  if !validCustomGucName name then
    some ⟨"42602", "invalid configuration parameter name \"" ++ name ++ "\"",
      some "Custom parameter names must be two or more simple identifiers separated by dots."⟩
  else if hasPlpgsqlPrefix name && !isKnownPlpgsqlGuc name then
    some ⟨"42602", "invalid configuration parameter name \"" ++ name ++ "\"",
      some "\"plpgsql\" is a reserved prefix."⟩
  else none

/-- `guc_stack_name`: entries are pushed under the parameter's own name. -/
def gucStackName (name : String) : Guc := .other name

/-- Only generic names have a static spelling. -/
def nameToStatic (name : String) : Guc :=
  if isGenericGuc name then .other name else .other "unrecognized"

private def isRustWhitespace (c : Char) : Bool :=
  let n := c.toNat
  (9 ≤ n && n ≤ 13) || n == 0x20 || n == 0x85 || n == 0xA0 || n == 0x1680 ||
    (0x2000 ≤ n && n ≤ 0x200A) || n == 0x2028 || n == 0x2029 || n == 0x202F || n == 0x205F ||
    n == 0x3000

def rustTrim (s : String) : List Char :=
  ((s.toList.dropWhile isRustWhitespace).reverse.dropWhile isRustWhitespace).reverse

def asciiLower (cs : List Char) : List Char := cs.map Char.toLower

/-- Any non-empty initial part of true/false/yes/no/on/off, tried in this order, or 1 or 0. -/
def parseBoolGuc (s : String) : Option Bool :=
  let t := asciiLower (rustTrim s)
  if t = ['1'] then some true
  else if t = ['0'] then some false
  else if t = [] then none
  else
    ([("true", true), ("false", false), ("yes", true), ("no", false), ("on", true),
      ("off", false)].find? fun w => t.isPrefixOf w.1.toList).map (·.2)

def parseIsolationGuc (s : String) : Option IsolationLevel :=
  let t := String.ofList (asciiLower (rustTrim s))
  if t = "serializable" then some .serializable
  else if t = "repeatable read" then some .repeatableRead
  else if t = "read committed" ∨ t = "read uncommitted" then some .readCommitted
  else none

def ByteaOutput.fromName (s : String) : Option ByteaOutput :=
  let t := String.ofList (asciiLower s.toList)
  if t = "hex" then some .hex else if t = "escape" then some .escape else none

def ToastCompression.fromName (s : String) : Option ToastCompression :=
  let t := String.ofList (asciiLower s.toList)
  if t = "pglz" then some .pglz else if t = "lz4" then some .lz4 else none

/-! ## Sessions -/

/-- Characteristics of one transaction. -/
structure TxnChars where
  readOnly : Option Bool
  level : IsolationLevel
  deferrable : Option Bool
deriving DecidableEq, Repr

/-- The old value in a stack entry. -/
inductive SavedGuc where
  | readOnly (v : Option Bool)
  | byteaOutput (v : ByteaOutput)
  | toast (v : ToastCompression)
  | generic (v : Option String)
  | sessionAuth (user role : String)
  | txnChars (chars : TxnChars)
  | defaultTxnLevel (v : Option IsolationLevel)
  | defaultTxnDeferrable (v : Option Bool)
  | role (v : String)
deriving DecidableEq, Repr

/-- One change of a setting inside a transaction. -/
structure GucStackEntry where
  /-- `none` is the entry of `SET TRANSACTION`. -/
  name : Option Guc
  isLocal : Bool
  saved : SavedGuc
deriving DecidableEq, Repr

/-- The marks a savepoint takes of the settings. -/
structure GucSavepoint where
  name : String
  gucMark : Nat
  txnCharMark : TxnChars
deriving DecidableEq, Repr

/-- The parts of a `Txn` that the setting commands use. Both stacks have the newest entry first. -/
structure GucTxn where
  chars : TxnChars
  firstSnapshotSet : Bool
  failed : Bool
  implicit : Bool
  gucStack : List GucStackEntry
  savepoints : List GucSavepoint

/-- The parts of a `Session` that the setting commands use. -/
structure Session where
  authUser : String
  sessionUser : String
  role : String
  defaultTxnReadOnly : Option Bool
  byteaOutput : ByteaOutput
  defaultToastCompression : ToastCompression
  defaultTxnLevel : Option IsolationLevel
  defaultTxnDeferrable : Option Bool
  gucs : AList fun _ : String => String
  nextTxnLevel : Option IsolationLevel
  nextTxnReadOnly : Option Bool
  nextTxnDeferrable : Option Bool
  txn : Option GucTxn

/-- `Session::new` for an authenticated role. -/
def Session.new (role : String) : Session where
  authUser := role
  sessionUser := role
  role := role
  defaultTxnReadOnly := none
  byteaOutput := .hex
  defaultToastCompression := .pglz
  defaultTxnLevel := none
  defaultTxnDeferrable := none
  gucs := ∅
  nextTxnLevel := none
  nextTxnReadOnly := none
  nextTxnDeferrable := none
  txn := none

def customGucRecognized (s : Session) (name : String) : Bool :=
  validCustomGucName name &&
    !(hasPlpgsqlPrefix name && !isKnownPlpgsqlGuc name && !(s.gucs.lookup name).isSome)

/-- What the roles in the catalog allow, at the time of a statement. -/
structure RoleCatalog where
  roleExists : String → Bool
  isSuperuser : String → Bool
  memberCanSetRole : String → String → Bool

/-! ## The stack -/

/-- The value a stack entry for the parameter would save; `none` for parameters without state. -/
def gucSavedValue (s : Session) : Guc → Option SavedGuc
  | .defaultTransactionReadOnly => some (.readOnly s.defaultTxnReadOnly)
  | .byteaOutput => some (.byteaOutput s.byteaOutput)
  | .defaultToastCompression => some (.toast s.defaultToastCompression)
  | .other name =>
    if isGenericGuc name || isCustomGuc name then some (.generic (s.gucs.lookup name)) else none
  | .defaultTransactionIsolation => some (.defaultTxnLevel s.defaultTxnLevel)
  | .defaultTransactionDeferrable => some (.defaultTxnDeferrable s.defaultTxnDeferrable)
  | .role => some (.role s.role)
  | .sessionAuthorization => some (.sessionAuth s.sessionUser s.role)
  | _ => none

/-- Write a saved value back. -/
def restoreSavedGuc (s : Session) (name : Option Guc) (saved : SavedGuc) : Session :=
  match name, saved with
  | some .sessionAuthorization, .sessionAuth user role => { s with sessionUser := user, role := role }
  | some .defaultTransactionReadOnly, .readOnly v => { s with defaultTxnReadOnly := v }
  | some .byteaOutput, .byteaOutput v => { s with byteaOutput := v }
  | some .defaultToastCompression, .toast v => { s with defaultToastCompression := v }
  | some (.other n), .generic v =>
    if isGenericGuc n || isCustomGuc n then
      match v with
      | some str => { s with gucs := s.gucs.insert n str }
      | none => { s with gucs := s.gucs.erase n }
    else s
  | some .defaultTransactionIsolation, .defaultTxnLevel v => { s with defaultTxnLevel := v }
  | some .defaultTransactionDeferrable, .defaultTxnDeferrable v =>
    { s with defaultTxnDeferrable := v }
  | some .role, .role v => { s with role := v }
  -- The characteristics go back only while the transaction is open.
  | _, .txnChars chars => { s with txn := s.txn.map fun t => { t with chars := chars } }
  | _, _ => s

/-- Push an entry on the stack of the open transaction. -/
def Session.pushEntry (s : Session) (e : GucStackEntry) : Session :=
  { s with txn := s.txn.map fun t => { t with gucStack := e :: t.gucStack } }

/-- Record the current value of a parameter; nothing outside a transaction. -/
def pushGucEntry (s : Session) (name : Guc) (isLocal : Bool) : Session :=
  match gucSavedValue s name with
  | none => s
  | some saved => s.pushEntry ⟨some name, isLocal, saved⟩

/-- The end of a transaction: all entries go back after an abort, the local ones after a commit. -/
def revertGucStack (s : Session) (stack : List GucStackEntry) (commit : Bool) : Session :=
  stack.foldl
    (fun s e => if commit && !e.isLocal then s else restoreSavedGuc s e.name e.saved) s

/-! ## SET and RESET -/

/-- `validate_generic_guc`: the canonical text of a value, or the error of an invalid one. -/
abbrev GucValidator := String → String → Except ExecError String

def invalidValue (name : Guc) (value : String) : ExecError :=
  execError "22023" ("invalid value for parameter \"" ++ name.name ++ "\": \"" ++ value ++ "\"")

def setLocalError : ExecError :=
  err25001 "SET LOCAL can only be used within a transaction block"

/-- `SET LOCAL` needs a transaction block. -/
def checkLocal (s : Session) (isLocal : Bool) : Except ExecError Unit :=
  if isLocal ∧ s.txn.isNone then .error setLocalError else .ok ()

/-- `SET ... TO DEFAULT` is `none`, and a value has to parse. -/
def parseSetValue {α : Type} (name : Guc) (parse : String → Option α) :
    SetValue → Except ExecError (Option α)
  | .default => .ok none
  | .str s =>
    match parse s with
    | some v => .ok (some v)
    | none => .error (invalidValue name s)

/-- `SET TRANSACTION` and the `transaction_*` parameters. -/
def stmtSetTransaction (s : Session) (level : Option IsolationLevel)
    (readOnly deferrable : Option Bool) (isLocal : Bool) : Except ExecError Session :=
  match s.txn with
  | none =>
    if isLocal then .error setLocalError
    else .ok { s with
      nextTxnLevel := level.orElse fun _ => s.nextTxnLevel
      nextTxnReadOnly := readOnly.orElse fun _ => s.nextTxnReadOnly
      nextTxnDeferrable := deferrable.orElse fun _ => s.nextTxnDeferrable }
  | some t =>
    let subtxn := !t.savepoints.isEmpty
    let snapSet := t.firstSnapshotSet
    let curReadOnly := (t.chars.readOnly.orElse fun _ => s.defaultTxnReadOnly).getD false
    if readOnly = some false ∧ curReadOnly ∧ subtxn then
      .error (err25001 "cannot set transaction read-write mode inside a read-only transaction")
    else if readOnly = some false ∧ curReadOnly ∧ snapSet then
      .error (err25001 "transaction read-write mode must be set before any query")
    else if (level.any (· ≠ t.chars.level)) ∧ snapSet then
      .error (err25001 "SET TRANSACTION ISOLATION LEVEL must be called before any query")
    else if (level.any (· ≠ t.chars.level)) ∧ subtxn then
      .error (err25001 "SET TRANSACTION ISOLATION LEVEL must not be called in a subtransaction")
    else if deferrable.isSome ∧ subtxn then
      .error
        (err25001 "SET TRANSACTION [NOT] DEFERRABLE cannot be called within a subtransaction")
    else if deferrable.isSome ∧ snapSet then
      .error (err25001 "SET TRANSACTION [NOT] DEFERRABLE must be called before any query")
    else
      let chars : TxnChars :=
        ⟨readOnly.orElse fun _ => t.chars.readOnly, level.getD t.chars.level,
          deferrable.orElse fun _ => t.chars.deferrable⟩
      let stack :=
        if chars = t.chars then t.gucStack else ⟨none, isLocal, .txnChars t.chars⟩ :: t.gucStack
      .ok { s with txn := some { t with chars := chars, gucStack := stack } }

/-- The role a `SET ROLE` names, if the session user may take it. -/
def roleTarget (roles : RoleCatalog) (s : Session) : Option String → Except ExecError String
  | none => .ok s.sessionUser
  | some name =>
    let name := String.ofList (asciiLower name.toList)
    if !roles.roleExists name then
      .error (execError "42704" ("role \"" ++ name ++ "\" does not exist"))
    else if !(roles.isSuperuser s.sessionUser || name == s.sessionUser ||
        roles.memberCanSetRole s.sessionUser name) then
      .error (execError "42501" ("permission denied to set role \"" ++ name ++ "\""))
    else .ok name

/-- `SET ROLE`; `none` goes back to the session user. -/
def stmtSetRole (roles : RoleCatalog) (s : Session) (target : Option String) (isLocal : Bool) :
    Except ExecError Session := do
  checkLocal s isLocal
  let newRole ← roleTarget roles s target
  return { pushGucEntry s .role isLocal with role := newRole }

/-- The user a `SET SESSION AUTHORIZATION` names; it is the authenticated user that has to be a
superuser to take another one. -/
def userTarget (roles : RoleCatalog) (s : Session) : Option String → Except ExecError String
  | none => .ok s.authUser
  | some name =>
    let name := String.ofList (asciiLower name.toList)
    if !roles.roleExists name then
      .error (execError "42704" ("role \"" ++ name ++ "\" does not exist"))
    else if !(name == s.authUser || roles.isSuperuser s.authUser) then
      .error (execError "42501"
        ("permission denied to set session authorization \"" ++ name ++ "\""))
    else .ok name

/-- `SET SESSION AUTHORIZATION`; `none` goes back to the authenticated user. -/
def stmtSetSessionAuthorization (roles : RoleCatalog) (s : Session) (target : Option String)
    (isLocal : Bool) : Except ExecError Session := do
  checkLocal s isLocal
  let newUser ← userTarget roles s target
  return { pushGucEntry s .sessionAuthorization isLocal with
    sessionUser := newUser, role := newUser }

/-- `SET [LOCAL] name = value` for every parameter but the two above. -/
def stmtSetGuc (validate : GucValidator) (s : Session) (name : Guc) (value : SetValue)
    (isLocal : Bool) : Except ExecError Session := do
  checkLocal s isLocal
  match name with
  | .defaultTransactionReadOnly =>
    let v ← parseSetValue name parseBoolGuc value
    return { pushGucEntry s name isLocal with defaultTxnReadOnly := v }
  | .byteaOutput =>
    let v ← parseSetValue name ByteaOutput.fromName value
    return { pushGucEntry s name isLocal with byteaOutput := v.getD .hex }
  | .defaultToastCompression =>
    let v ← parseSetValue name ToastCompression.fromName value
    return { pushGucEntry s name isLocal with defaultToastCompression := v.getD .pglz }
  | .defaultTransactionIsolation =>
    let v ← parseSetValue name parseIsolationGuc value
    return { pushGucEntry s name isLocal with defaultTxnLevel := v }
  | .defaultTransactionDeferrable =>
    let v ← parseSetValue name parseBoolGuc value
    return { pushGucEntry s name isLocal with defaultTxnDeferrable := v }
  | .transactionIsolation =>
    let v ← parseSetValue name parseIsolationGuc value
    stmtSetTransaction s v none none isLocal
  | .transactionReadOnly =>
    let v ← parseSetValue name parseBoolGuc value
    stmtSetTransaction s none v none isLocal
  | .transactionDeferrable =>
    let v ← parseSetValue name parseBoolGuc value
    stmtSetTransaction s none none v isLocal
  | .other n =>
    if isGenericGuc n || isCustomGuc n then
      match if isCustomGuc n then customGucSetError n else none, value with
      | some e, _ => throw e
      | none, .default =>
        let s := pushGucEntry s (gucStackName n) isLocal
        return { s with gucs := s.gucs.erase n }
      | none, .str str =>
        let canon ← validate n str
        let s := pushGucEntry s (gucStackName n) isLocal
        return { s with gucs := s.gucs.insert n canon }
    else
      throw (execError "42704" ("unrecognized configuration parameter \"" ++ n ++ "\""))
  | .serverVersion | .serverVersionNum =>
    throw (execError "55P02" ("parameter \"" ++ name.name ++ "\" cannot be changed"))
  | .role | .sessionAuthorization =>
    throw (execError "42704" ("unrecognized configuration parameter \"" ++ name.name ++ "\""))

/-- `SET SESSION CHARACTERISTICS AS TRANSACTION`: the three defaults, one after the other. -/
def stmtSetCharacteristics (s : Session) (level : Option IsolationLevel)
    (readOnly deferrable : Option Bool) : Session :=
  let s := match level with
    | some l => { pushGucEntry s .defaultTransactionIsolation false with defaultTxnLevel := some l }
    | none => s
  let s := match readOnly with
    | some ro =>
      { pushGucEntry s .defaultTransactionReadOnly false with defaultTxnReadOnly := some ro }
    | none => s
  match deferrable with
  | some d =>
    { pushGucEntry s .defaultTransactionDeferrable false with defaultTxnDeferrable := some d }
  | none => s

/-- `RESET ALL`. -/
def stmtResetAll (s : Session) : Session :=
  let s := [Guc.defaultTransactionReadOnly, .byteaOutput, .defaultToastCompression,
    .defaultTransactionIsolation, .defaultTransactionDeferrable, .role].foldl
      (fun s name => pushGucEntry s name false) s
  let s := { s with
    defaultTxnReadOnly := none
    byteaOutput := .hex
    defaultToastCompression := .pglz
    defaultTxnLevel := none
    defaultTxnDeferrable := none
    role := s.sessionUser }
  let s := s.gucs.keys.foldl (fun s n => pushGucEntry s (nameToStatic n) false) s
  { s with gucs := ∅ }

/-- `RESET name`. -/
def stmtResetGuc (s : Session) (name : Guc) : Except ExecError Session :=
  match name with
  | .defaultTransactionReadOnly => .ok { pushGucEntry s name false with defaultTxnReadOnly := none }
  | .defaultTransactionIsolation => .ok { pushGucEntry s name false with defaultTxnLevel := none }
  | .defaultTransactionDeferrable =>
    .ok { pushGucEntry s name false with defaultTxnDeferrable := none }
  | .transactionIsolation | .transactionReadOnly | .transactionDeferrable =>
    .error (execError "0A000" ("parameter \"" ++ name.name ++ "\" cannot be reset"))
  | .role => .ok { pushGucEntry s name false with role := s.sessionUser }
  | .sessionAuthorization =>
    .ok { pushGucEntry s name false with sessionUser := s.authUser, role := s.authUser }
  | .byteaOutput => .ok { pushGucEntry s name false with byteaOutput := .hex }
  | .defaultToastCompression =>
    .ok { pushGucEntry s name false with defaultToastCompression := .pglz }
  | .serverVersion | .serverVersionNum =>
    .error (execError "55P02" ("parameter \"" ++ name.name ++ "\" cannot be changed"))
  | .other n =>
    if isGenericGuc n || (isCustomGuc n && customGucRecognized s n) then
      let s := pushGucEntry s (gucStackName n) false
      .ok { s with gucs := s.gucs.erase n }
    else
      .error (execError "42704" ("unrecognized configuration parameter \"" ++ n ++ "\""))
