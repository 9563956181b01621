-- SUMMARY: Window specifications, the comparison of order keys, and the frame of a row.
import Rustgres.Encoding.Types
import Rustgres.Exec.Common

/-!
# Window Frames

A window orders the rows of each of its partitions. The frame of a row is a range of positions of its partition:
the first and the last, or `(1, 0)` for no rows.
-/

namespace Windows

open Encoding (Value Numeric)

/-! ## Specifications -/

inductive AggFunc where
  | count | sum | avg | min | max | stringAgg | boolAnd | bitAnd | bitOr | bitXor
  | varianceSamp | variancePop | stddevSamp | stddevPop | arrayAgg
  | jsonAgg | jsonbAgg | jsonObjectAgg | jsonbObjectAgg | jsonArrayAgg | jsonObjectAggSql
  | rangeAgg | rangeIntersectAgg
deriving DecidableEq, Repr

inductive WindowFunc where
  | rowNumber | rank | denseRank | ntile | lag | lead | firstValue | lastValue | nthValue
  | agg (f : AggFunc)
deriving DecidableEq, Repr

inductive FrameBound where
  | unboundedPreceding
  | preceding (k : Nat)
  | currentRow
  | following (k : Nat)
  | unboundedFollowing
deriving DecidableEq, Repr

inductive WindowFrame where
  | default
  | rows (start stop : FrameBound)
  | range (start stop : FrameBound)
  | groups (start stop : FrameBound)
deriving DecidableEq, Repr

inductive FrameExclusion where
  | noOthers | currentRow | group | ties
deriving DecidableEq, Repr

/-- An expression to order by; without a choice, nulls come last when ascending and first when descending. -/
structure OrderTerm (E : Type) where
  expr : E
  desc : Bool
  nullsFirst : Option Bool
deriving DecidableEq, Repr

structure ExecWindow (E : Type) where
  func : WindowFunc
  args : List E
  distinct : Bool
  partitionBy : List E
  orderBy : List (OrderTerm E)
  frame : WindowFrame
  filter : Option E
  exclusion : FrameExclusion
deriving DecidableEq, Repr

/-- What the expressions of a window evaluate to, one entry for each row of the input. -/
structure WindowInput where
  orderKeys : List (List Value)
  argVals : List (List Value)
  filterVals : List Bool

/-! ## What frames need of values -/

/-- The comparison of two values that are not null, the bytes that stand for a value, and arithmetic on doubles,
which are their bits. -/
structure KeyOps where
  compare : Value → Value → Except ExecError Ordering
  valueKey : Value → Bytes
  intToF64 : Int → UInt64
  numericToF64 : Numeric → UInt64
  addF64 : UInt64 → UInt64 → UInt64
  subF64 : UInt64 → UInt64 → UInt64
  leF64 : UInt64 → UInt64 → Bool

/-- The bits of the infinite doubles. -/
def f64Infinity : UInt64 := 0x7ff0000000000000

def f64NegInfinity : UInt64 := 0xfff0000000000000

variable {E : Type} (K : KeyOps)

/-! ## Keys -/

def compareValues (a b : Value) (desc : Bool) (nullsFirst : Option Bool) : Except ExecError Ordering :=
  let nullsFirst := nullsFirst.getD desc
  match a, b with
  | .null, .null => .ok .eq
  | .null, _ => .ok (if nullsFirst then .lt else .gt)
  | _, .null => .ok (if nullsFirst then .gt else .lt)
  | a, b => (K.compare a b).map fun ord => if desc then ord.swap else ord

/-- The terms in turn, until one tells the rows apart. -/
def compareWindowKeys : List Value → List Value → List (OrderTerm E) → Except ExecError Ordering
  | _, _, [] => .ok .eq
  | a, b, o :: orderBy =>
    match compareValues K (a.head?.getD .null) (b.head?.getD .null) o.desc o.nullsFirst with
    | .error e => .error e
    | .ok .eq => compareWindowKeys a.tail b.tail orderBy
    | .ok ord => .ok ord

def windowKeyEqual (x y : Value) : Bool :=
  match x, y with
  | .null, .null => true
  | .null, _ => false
  | _, .null => false
  | x, y => K.valueKey x = K.valueKey y

def windowKeysEqual (a b : List Value) : Bool :=
  a.length = b.length && (List.zipWith (windowKeyEqual K) a b).all id

/-! ## Bounds -/

/-- The row a bound of a `ROWS` frame stands for, brought into the partition of `n` rows. -/
def rowsBound (b : FrameBound) (pos n : Nat) : Nat :=
  match b with
  | .unboundedPreceding => 0
  | .preceding k => pos - k
  | .currentRow => pos
  | .following k => min (pos + k) (n - 1)
  | .unboundedFollowing => n - 1

/-- A frame by its two ends; no rows where they are the wrong way round. -/
def span (s e : Nat) : Nat × Nat := if s > e then (1, 0) else (s, e)

def usizeMax : Nat := 2 ^ 64 - 1

/-- The first row of a peer group. -/
def firstOf (peerId : List Nat) (g : Nat) : Nat := (peerId.findIdx? (· = g)).getD usizeMax

/-- The last row of a peer group. -/
def lastOf (peerId : List Nat) (g : Nat) : Nat :=
  ((List.range peerId.length).reverse.find? (peerId[·]? = some g)).getD 0

/-- The first row of a `GROUPS` frame; none where no row is left. -/
def groupsStart (peerId : List Nat) (curg maxg : Nat) : FrameBound → Option Nat
  | .unboundedPreceding => some 0
  | .currentRow => some (firstOf peerId curg)
  | .preceding k => some (firstOf peerId (curg - k))
  | .following k => if curg + k > maxg then none else some (firstOf peerId (curg + k))
  | .unboundedFollowing => none

/-- The last row of a `GROUPS` frame; none where no row is left. -/
def groupsEnd (peerId : List Nat) (curg maxg : Nat) : FrameBound → Option Nat
  | .unboundedFollowing => some (peerId.length - 1)
  | .currentRow => some (lastOf peerId curg)
  | .preceding k => if curg < k then none else some (lastOf peerId (curg - k))
  | .following k => some (lastOf peerId (min (curg + k) maxg))
  | .unboundedPreceding => none

def groupsFrame (peerId : List Nat) (pos : Nat) (start stop : FrameBound) : Nat × Nat :=
  let maxg := peerId.max?.getD 0
  let curg := peerId.getD pos 0
  match groupsStart peerId curg maxg start, groupsEnd peerId curg maxg stop with
  | some s, some e => span s e
  | _, _ => (1, 0)

/-- The row at `p` is taken out of the frame of the row at `j`. -/
def frameExcluded (exclusion : FrameExclusion) (peerId : List Nat) (j p : Nat) : Bool :=
  match exclusion with
  | .noOthers => false
  | .currentRow => p = j
  | .group => peerId.getD p 0 = peerId.getD j 0
  | .ties => p ≠ j && peerId.getD p 0 = peerId.getD j 0

def hasOffsetBound : FrameBound → Bool
  | .preceding _ | .following _ => true
  | _ => false

/-! ## The frame of a row -/

/-- Back over the peers before `s`. -/
def runStart (isPeer : Nat → Bool) : Nat → Nat
  | 0 => 0
  | s + 1 => if isPeer s then runStart isPeer s else s + 1

/-- On over the peers behind `e`, with `left` rows behind it. -/
def runEnd (isPeer : Nat → Bool) : Nat → Nat → Nat
  | 0, e => e
  | left + 1, e => if isPeer (e + 1) then runEnd isPeer left (e + 1) else e

/-- The order key of the row at `p` of the partition. -/
def keyAt (input : WindowInput) (idxs : List Nat) (p : Nat) : List Value :=
  input.orderKeys.getD (idxs.getD p 0) []

/-- The value of its first term. -/
def firstKey (input : WindowInput) (idxs : List Nat) (p : Nat) : Value :=
  (keyAt input idxs p).head?.getD .null

def errRangeTerms : ExecError :=
  execError "0A000" "RANGE with offset PRECEDING/FOLLOWING requires exactly one ORDER BY expression"

def errRangeNumeric : ExecError := execError "0A000" "RANGE offset requires a numeric ORDER BY expression"

/-- A numeric key as a double. -/
def toF (v : Value) : Except ExecError UInt64 :=
  match v with
  | .int i => .ok (K.intToF64 i.toInt)
  | .bigInt i => .ok (K.intToF64 i.toInt)
  | .float f => .ok f
  | .numeric n => .ok (K.numericToF64 n)
  | _ => .error errRangeNumeric

/-- The value a bound of a `RANGE` frame stands for. -/
def boundVal (cur : UInt64) : FrameBound → UInt64
  | .unboundedPreceding => f64NegInfinity
  | .unboundedFollowing => f64Infinity
  | .currentRow => cur
  | .preceding k => K.subF64 cur (K.intToF64 k)
  | .following k => K.addF64 cur (K.intToF64 k)

def isPeer (o : OrderTerm E) (cur v : Value) : Bool :=
  match v, cur with
  | .null, .null => true
  | .null, _ => false
  | _, .null => false
  | v, cur =>
    match compareValues K v cur o.desc o.nullsFirst with
    | .ok .eq => true
    | _ => false

/-- The row a bound of a `RANGE` frame without offsets stands for. -/
def peerBound (peer : Nat → Bool) (pos n : Nat) (b : FrameBound) (isStart : Bool) : Nat :=
  match b with
  | .unboundedPreceding => 0
  | .unboundedFollowing => n - 1
  | .currentRow => if isStart then runStart peer pos else runEnd peer (n - 1 - pos) pos
  | .preceding _ | .following _ => pos

/-- The frame found so far, with `n` for none, and the row at `p`. -/
def offsetStep (input : WindowInput) (idxs : List Nat) (lo hi : UInt64) (n : Nat) (found : Nat × Nat) (p : Nat) :
    Except ExecError (Nat × Nat) :=
  match firstKey input idxs p with
  | .null => .ok found
  | v => do
    let f ← toF K v
    if K.leF64 lo f && K.leF64 f hi then
      .ok (if found.1 = n then p else found.1, p)
    else .ok found

/-- The rows with keys from `lo` to `hi`. -/
def offsetScan (input : WindowInput) (idxs : List Nat) (lo hi : UInt64) (n : Nat) : Except ExecError (Nat × Nat) := do
  let (s, e) ← (List.range n).foldlM (offsetStep K input idxs lo hi n) (n, n)
  if s = n then .ok (1, 0) else .ok (s, e)

/-- A `RANGE` frame. -/
def rangeFrame (orderBy : List (OrderTerm E)) (input : WindowInput) (idxs : List Nat) (pos : Nat)
    (start stop : FrameBound) : Except ExecError (Nat × Nat) :=
  let n := idxs.length
  match orderBy with
  | [] => .ok (span (rowsBound start pos n) (rowsBound stop pos n))
  | o :: more =>
    if !more.isEmpty && (hasOffsetBound start || hasOffsetBound stop) then .error errRangeTerms
    else
      let cur := firstKey input idxs pos
      if !(hasOffsetBound start || hasOffsetBound stop) then
        let peer := fun p => isPeer K o cur (firstKey input idxs p)
        .ok (span (peerBound peer pos n start true) (peerBound peer pos n stop false))
      else
        match cur with
        | .null => .error errRangeNumeric
        | cur => do
          let curF ← toF K cur
          offsetScan K input idxs (boundVal K curF start) (boundVal K curF stop) n

/-- The frame of the row at `pos` of a partition, whose rows are numbered by their peer groups. -/
def resolveFrame (spec : ExecWindow E) (input : WindowInput) (idxs : List Nat) (pos : Nat) (peerId : List Nat) :
    Except ExecError (Nat × Nat) :=
  let n := idxs.length
  if n = 0 then .ok (0, 0)
  else
    match spec.frame with
    | .groups start stop => .ok (groupsFrame peerId pos start stop)
    | .default =>
      if spec.orderBy.isEmpty then .ok (span (rowsBound .unboundedPreceding pos n) (rowsBound .unboundedFollowing pos n))
      else rangeFrame K spec.orderBy input idxs pos .unboundedPreceding .currentRow
    | .rows start stop => .ok (span (rowsBound start pos n) (rowsBound stop pos n))
    | .range start stop => rangeFrame K spec.orderBy input idxs pos start stop

/-! ## Peer groups -/

/-- Number the rows behind one with the key `prev` and the number `p`. -/
def numberFrom (prev : List Value) (p : Nat) : List (List Value) → List Nat
  | [] => []
  | key :: keys =>
    let q := if windowKeysEqual K key prev then p else p + 1
    q :: numberFrom key q keys

def numberGroups : List (List Value) → List Nat
  | [] => []
  | key :: keys => 0 :: numberFrom K key 0 keys

/-- The peer groups of a partition, numbered in its order; without an order all rows are peers. -/
def peerIds (spec : ExecWindow E) (input : WindowInput) (idxs : List Nat) : List Nat :=
  if spec.orderBy.isEmpty then idxs.map fun _ => 0
  else numberGroups K ((List.range idxs.length).map (keyAt input idxs))

end Windows
