-- SUMMARY: Sequences: the options of CREATE and ALTER SEQUENCE, nextval and setval.
import Mathlib.Algebra.Group.Int.Defs
import Rustgres.Exec.Common
import Rustgres.Lib.ListOps

/-!
# Sequences

A sequence name has a list of versions, and every statement works on the first version that its
snapshot shows. `nextval` and `setval` change that version in place; ALTER SEQUENCE stamps it and adds
another one.
-/

inductive SeqType where
  | smallInt
  | integer
  | bigInt
deriving DecidableEq, Repr

namespace SeqType

def pgName : SeqType → String
  | smallInt => "smallint"
  | integer => "integer"
  | bigInt => "bigint"

def minValue : SeqType → Int
  | smallInt => -2 ^ 15
  | integer => -2 ^ 31
  | bigInt => -2 ^ 63

def maxValue : SeqType → Int
  | smallInt => 2 ^ 15 - 1
  | integer => 2 ^ 31 - 1
  | bigInt => 2 ^ 63 - 1

end SeqType

inductive OwnedBySpec where
  | table (table column : String)
  | none_
deriving DecidableEq, Repr

/-- The clauses of CREATE and ALTER SEQUENCE that were given. -/
structure SequenceOpts where
  seqType : Option SeqType
  start : Option Int
  increment : Option Int
  minValue : Option Int
  maxValue : Option Int
  resetMin : Bool
  resetMax : Bool
  cycle : Option Bool
  restart : Option Int
  cache : Option Int
  ownedBy : Option OwnedBySpec
deriving DecidableEq, Repr

namespace SequenceOpts

/-- RESTART without a value. -/
def restartSentinel : Int := -2 ^ 63

/-- No clause at all. -/
def default : SequenceOpts :=
  ⟨none, none, none, none, none, false, false, none, none, none, none⟩

end SequenceOpts

structure AclEntry where
  role : String
  privs : Nat
  grantOption : Nat
  grantor : String
deriving DecidableEq, Repr

/-- A version of a sequence with its type, its owner and its grants. -/
structure SeqVersion extends Sequence where
  seqType : SeqType
  owner : String
  acl : List AclEntry
  ownedBy : Option (String × String × Option Nat)
deriving DecidableEq, Repr

namespace Sequences

def privUsage : Nat := 128

def privUpdate : Nat := 4

/-- Who runs a statement, and what it sees. -/
structure SeqCtx where
  snap : Snapshot
  own : Xid
  session : Nat
  role : String

/-- What the rest of the catalog answers: roles, grants, and the tables that may own a sequence. -/
structure Catalog where
  sequencePrivs : SeqCtx → SeqVersion → Nat
  isSuperuser : SeqCtx → Bool
  initialAcl : SeqCtx → String → List AclEntry
  validateOwnedBy : SeqCtx → OwnedBySpec → String → Except ExecError (Option Nat)

/-- The sequences, what `currval` and `lastval` report, and the names staged for the log. -/
structure SeqState where
  sequences : Dict String (List SeqVersion)
  seqCurrval : Dict (Nat × String) Int
  seqLastval : Dict Nat Int
  seqAdvanced : List String

/-! ## The options -/

def invalid (message : String) : ExecError := execError "22023" message

def maxOutOfRange (v : Int) (t : SeqType) : ExecError :=
  invalid ("MAXVALUE (" ++ toString v ++ ") is out of range for sequence data type " ++ t.pgName)

def minOutOfRange (v : Int) (t : SeqType) : ExecError :=
  invalid ("MINVALUE (" ++ toString v ++ ") is out of range for sequence data type " ++ t.pgName)

def startOutOfRange (start lo hi : Int) : ExecError :=
  invalid ("START value (" ++ toString start ++ ") cannot be less than MINVALUE (" ++ toString lo
    ++ ") or greater than MAXVALUE (" ++ toString hi ++ ")")

/-- A new type resets a bound that was the bound of the old type. -/
def typeResets (opts : SequenceOpts) (cur : Option SeqVersion) (bound : Int) (old : SeqType → Int) :
    Bool :=
  match opts.seqType, cur with
  | some t, some s => t ≠ s.seqType ∧ bound = old s.seqType
  | _, _ => false

/-- An explicit bound wins, then the bound in force unless it is reset, then the default. -/
def resolveBound (given current : Option Int) (reset : Bool) (dflt : Int) : Int :=
  match given, current with
  | some v, _ => v
  | none, some v => if reset then dflt else v
  | none, none => dflt

/-- Without a START the sequence in force keeps its own, and a new one starts at an end. -/
def resolveStart (opts : SequenceOpts) (cur : Option SeqVersion) (dflt : Int) : Int :=
  (opts.start.or (cur.map (·.params.start))).getD dflt

def resolveRestart (opts : SequenceOpts) (p : SeqParams) : Except ExecError (Option Int) :=
  match opts.restart with
  | none => .ok none
  | some v =>
    if v = SequenceOpts.restartSentinel then .ok (some p.start)
    else if v < p.minValue ∨ p.maxValue < v then .error (invalid "RESTART value out of bounds")
    else .ok (some v)

/-- The parameters before they are checked. -/
def resolve (opts : SequenceOpts) (cur : Option SeqVersion) (increment : Int) (t : SeqType) :
    SeqParams :=
  let maxValue := resolveBound opts.maxValue (cur.map (·.params.maxValue))
    (((cur.map fun s => typeResets opts cur s.params.maxValue SeqType.maxValue).getD false)
      || opts.resetMax)
    (if increment < 0 then -1 else t.maxValue)
  let minValue := resolveBound opts.minValue (cur.map (·.params.minValue))
    (((cur.map fun s => typeResets opts cur s.params.minValue SeqType.minValue).getD false)
      || opts.resetMin)
    (if increment < 0 then t.minValue else 1)
  { start := resolveStart opts cur (if increment < 0 then maxValue else minValue)
    increment
    minValue
    maxValue
    cycle := (opts.cycle.or (cur.map (·.params.cycle))).getD false
    cache := (opts.cache.or (cur.map (·.params.cache))).getD 1 }

/-- The type, the parameters and the restart value that CREATE (`cur` is none) or ALTER SEQUENCE
asks for. -/
def sequenceParams (opts : SequenceOpts) (cur : Option SeqVersion) :
    Except ExecError (SeqType × SeqParams × Option Int) :=
  let increment := (opts.increment.or (cur.map (·.params.increment))).getD 1
  if increment = 0 then .error (invalid "INCREMENT must not be zero")
  else
    let t := (opts.seqType.or (cur.map (·.seqType))).getD .bigInt
    let p := resolve opts cur increment t
    if p.maxValue < t.minValue ∨ t.maxValue < p.maxValue then .error (maxOutOfRange p.maxValue t)
    else if p.minValue < t.minValue ∨ t.maxValue < p.minValue then .error (minOutOfRange p.minValue t)
    else if opts.cache.any (· < 1) then
      .error (invalid ("CACHE value " ++ toString p.cache ++ " must be greater than zero"))
    else if p.maxValue ≤ p.minValue then
      .error (invalid ("MINVALUE (" ++ toString p.minValue ++ ") must be less than MAXVALUE ("
        ++ toString p.maxValue ++ ")"))
    else if p.start < p.minValue ∨ p.maxValue < p.start then
      .error (startOutOfRange p.start p.minValue p.maxValue)
    else if cur.isNone ∧ opts.restart.isSome then
      .error (execError "42601" "syntax error: RESTART is not allowed in CREATE SEQUENCE")
    else (resolveRestart opts p).map fun r => (t, p, r)

/-! ## Lookups and updates -/

def findSequence (st : SeqState) (name : String) (ctx : SeqCtx) : Option SeqVersion :=
  (st.sequences.lookup name).bind (·.find? fun s => SeqVisible s.toSequence ctx.snap ctx.own)

/-- Change the version that the statement sees (`find_sequence_mut`). -/
def modifySequence (st : SeqState) (name : String) (ctx : SeqCtx) (f : SeqVersion → SeqVersion) :
    SeqState :=
  { st with
    sequences := st.sequences.update name
      (modifyFirst (fun s => SeqVisible s.toSequence ctx.snap ctx.own) f) }

def pushVersion (st : SeqState) (name : String) (s : SeqVersion) : SeqState :=
  { st with sequences := st.sequences.insert name ((st.sequences.lookup name).getD [] ++ [s]) }

/-- Stage the name for the log, once. -/
def noteAdvanced (st : SeqState) (name : String) : SeqState :=
  { st with
    seqAdvanced := if name ∈ st.seqAdvanced then st.seqAdvanced else st.seqAdvanced ++ [name] }

def noSuchSequence (name : String) : ExecError :=
  execError "42P01" ("relation \"" ++ name ++ "\" does not exist")

def noPermission (name : String) : ExecError :=
  execError "42501" ("permission denied for sequence \"" ++ name ++ "\"")

/-! ## CREATE and ALTER SEQUENCE -/

/-- A version that was never called. -/
def newVersion (t : SeqType) (p : SeqParams) (xmin : Xid) : SeqVersion :=
  { params := p, current := none, isCalled := false, createdXmin := xmin, droppedXmax := 0
    seqType := t, owner := "postgres", acl := [], ownedBy := none }

/-- The link that OWNED BY asks for, once its table was looked up. -/
def ownedLink (cat : Catalog) (ctx : SeqCtx) (owned : OwnedBySpec) (seqOwner : String) :
    Except ExecError (Option (String × String × Option Nat)) :=
  (cat.validateOwnedBy ctx owned seqOwner).map fun tempSession =>
    match owned with
    | .none_ => none
    | .table table column => some (table, column, tempSession)

def execCreateSequence (cat : Catalog) (st : SeqState) (ctx : SeqCtx) (name : String)
    (ifNotExists : Bool) (opts : SequenceOpts) : SeqState × Except ExecError Unit :=
  if (findSequence st name ctx).isSome then
    if ifNotExists then (st, .ok ())
    else (st, .error (execError "42P07" ("relation \"" ++ name ++ "\" already exists")))
  else
    match sequenceParams opts none with
    | .error e => (st, .error e)
    | .ok (t, p, _) =>
      match opts.ownedBy.elim (.ok none) fun owned => ownedLink cat ctx owned ctx.role with
      | .error e => (st, .error e)
      | .ok link =>
        (pushVersion st name
          { newVersion t p ctx.own with
            owner := ctx.role, ownedBy := link, acl := cat.initialAcl ctx name }, .ok ())

/-- The altered version. The position is carried over, unless the sequence is restarted. -/
def alteredVersion (prev : SeqVersion) (t : SeqType) (p : SeqParams) (restart : Option Int)
    (link : Option (String × String × Option Nat)) (xmin : Xid) : SeqVersion :=
  { newVersion t p xmin with
    current := restart.or prev.current
    isCalled := restart.isNone && prev.isCalled
    owner := prev.owner
    acl := prev.acl
    ownedBy := link }

def restartTooLow (r lo : Int) : ExecError :=
  invalid ("RESTART value (" ++ toString r ++ ") cannot be less than MINVALUE (" ++ toString lo ++ ")")

def restartTooHigh (r hi : Int) : ExecError :=
  invalid ("RESTART value (" ++ toString r ++ ") cannot be greater than MAXVALUE (" ++ toString hi
    ++ ")")

/-- The version in force is stamped, the restart value is checked, and the new version is added. -/
def installAltered (st : SeqState) (ctx : SeqCtx) (name : String) (prev : SeqVersion) (t : SeqType)
    (p : SeqParams) (restart : Option Int) (link : Option (String × String × Option Nat)) :
    SeqState × Except ExecError Unit :=
  let st := modifySequence st name ctx fun s => { s with droppedXmax := ctx.own }
  let next := alteredVersion prev t p restart link ctx.own
  match restart with
  | none => (pushVersion st name next, .ok ())
  | some r =>
    if r < p.minValue then (st, .error (restartTooLow r p.minValue))
    else if p.maxValue < r then (st, .error (restartTooHigh r p.maxValue))
    else (pushVersion (noteAdvanced st name) name next, .ok ())

def execAlterSequence (cat : Catalog) (st : SeqState) (ctx : SeqCtx) (name : String) (ifExists : Bool)
    (opts : SequenceOpts) : SeqState × Except ExecError Unit :=
  match findSequence st name ctx with
  | none => (st, if ifExists then .ok () else .error (noSuchSequence name))
  | some live =>
    if live.owner ≠ ctx.role ∧ !cat.isSuperuser ctx then
      (st, .error (execError "42501"
        ("permission denied: must be owner of sequence \"" ++ name ++ "\"")))
    else
      match sequenceParams opts (some live) with
      | .error e => (st, .error e)
      | .ok (t, p, restart) =>
        match opts.ownedBy.elim (.ok live.ownedBy) fun owned =>
            ownedLink cat ctx owned live.owner with
        | .error e => (st, .error e)
        | .ok link => installAltered st ctx name live t p restart link

/-! ## nextval and setval -/

def checkedAdd (a b : Int) : Option Int :=
  if -2 ^ 63 ≤ a + b ∧ a + b < 2 ^ 63 then some (a + b) else none

def reachedEnd (s : SeqVersion) (name : String) : String :=
  "nextval: reached " ++ (if 0 < s.params.increment then "maximum" else "minimum")
    ++ " value of sequence \"" ++ name ++ "\""

/-- The value that the next call answers. -/
def nextValue (s : SeqVersion) (name : String) : Except ExecError Int :=
  match s.current with
  | none => .ok s.params.start
  | some v =>
    if !s.isCalled then .ok v
    else
      match checkedAdd v s.params.increment with
      | none => .error (execError "22000" (reachedEnd s name))
      | some n =>
        let past :=
          if 0 < s.params.increment then s.params.maxValue < n else n < s.params.minValue
        if past then
          if s.params.cycle then
            .ok (if 0 < s.params.increment then s.params.minValue else s.params.maxValue)
          else
            .error (execError "22000" (reachedEnd s name ++ " ("
              ++ toString (if 0 < s.params.increment then s.params.maxValue else s.params.minValue)
              ++ ")"))
        else .ok n

/-- The version after it has answered `v`. -/
def called (v : Int) (s : SeqVersion) : SeqVersion :=
  { s with current := some v, isCalled := true }

def seqNextval (cat : Catalog) (st : SeqState) (ctx : SeqCtx) (name : String) :
    SeqState × Except ExecError Int :=
  match findSequence st name ctx with
  | none => (st, .error (noSuchSequence name))
  | some cur =>
    if cat.sequencePrivs ctx cur &&& privUsage = 0 then (st, .error (noPermission name))
    else
      match nextValue cur name with
      | .error e => (st, .error e)
      | .ok v =>
        let st := modifySequence st name ctx (called v)
        (noteAdvanced
          { st with
            seqCurrval := st.seqCurrval.insert (ctx.session, name) v
            seqLastval := st.seqLastval.insert ctx.session v } name, .ok v)

def setvalOutOfBounds (value : Int) (name : String) (p : SeqParams) : ExecError :=
  execError "22003" ("setval: value " ++ toString value ++ " is out of bounds for sequence \"" ++ name
    ++ "\" (" ++ toString p.minValue ++ ".." ++ toString p.maxValue ++ ")")

def seqSetval (cat : Catalog) (st : SeqState) (ctx : SeqCtx) (name : String) (value : Int)
    (isCalled : Bool) : SeqState × Except ExecError Int :=
  match findSequence st name ctx with
  | none => (st, .error (noSuchSequence name))
  | some cur =>
    if cat.sequencePrivs ctx cur &&& privUpdate = 0 then (st, .error (noPermission name))
    else if value < cur.params.minValue ∨ cur.params.maxValue < value then
      (st, .error (setvalOutOfBounds value name cur.params))
    else
      let st := modifySequence st name ctx fun s => { s with current := some value, isCalled }
      let st :=
        if isCalled then { st with seqCurrval := st.seqCurrval.insert (ctx.session, name) value }
        else st
      (noteAdvanced st name, .ok value)

def seqCurrval (cat : Catalog) (st : SeqState) (ctx : SeqCtx) (name : String) : Except ExecError Int :=
  match findSequence st name ctx with
  | none => .error (noSuchSequence name)
  | some cur =>
    if cat.sequencePrivs ctx cur &&& privUsage = 0 then .error (noPermission name)
    else
      ((st.seqCurrval.lookup (ctx.session, name)).map .ok).getD
        (.error (execError "55000"
          ("currval of sequence \"" ++ name ++ "\" is not yet defined in this session")))

def seqLastval (st : SeqState) (session : Nat) : Except ExecError Int :=
  ((st.seqLastval.lookup session).map .ok).getD
    (.error (execError "55000" "lastval is not yet defined in this session"))

/-! ## Statements -/

inductive SeqStmt where
  | create (name : String) (ifNotExists : Bool) (opts : SequenceOpts)
  | alter (name : String) (ifExists : Bool) (opts : SequenceOpts)
  | nextval (name : String)
  | setval (name : String) (value : Int) (isCalled : Bool)
deriving DecidableEq, Repr

/-- The state after a statement. -/
def exec (cat : Catalog) (st : SeqState) (ctx : SeqCtx) : SeqStmt → SeqState
  | .create name ifNotExists opts => (execCreateSequence cat st ctx name ifNotExists opts).1
  | .alter name ifExists opts => (execAlterSequence cat st ctx name ifExists opts).1
  | .nextval name => (seqNextval cat st ctx name).1
  | .setval name value isCalled => (seqSetval cat st ctx name value isCalled).1

/-- No sequence yet. -/
def SeqState.initial : SeqState := ⟨∅, ∅, ∅, []⟩

end Sequences
