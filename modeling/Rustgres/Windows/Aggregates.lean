-- SUMMARY: Aggregates over the frames of a partition, folded afresh or carried along.
import Rustgres.Lib.Running
import Rustgres.Numeric.Arith
import Rustgres.Windows.Frames

/-!
# Windowed Aggregates

An aggregate folds the rows of every frame. Counts and sums of integers over frames that start at the first row are
carried from row to row instead.
-/

namespace Windows

open Encoding (Value)
open Running

/-! ## Numbers -/

inductive NumCat where
  | small | int | big | numeric | real | double
deriving DecidableEq, Repr

/-- The position of a category, the wider ones behind. -/
def NumCat.rank : NumCat → Nat
  | .small => 0
  | .int => 1
  | .big => 2
  | .numeric => 3
  | .real => 4
  | .double => 5

def NumCat.max (a b : NumCat) : NumCat := if a.rank ≤ b.rank then b else a

def numCat : Value → Option NumCat
  | .smallInt _ => some .small
  | .int _ => some .int
  | .bigInt _ => some .big
  | .float4 _ => some .real
  | .float _ => some .double
  | .numeric _ => some .numeric
  | _ => none

def toI128 : Value → Int
  | .smallInt i => i.toInt
  | .int i => i.toInt
  | .bigInt i => i.toInt
  | _ => 0

def specialIn : Encoding.NumericSpecial → Num.NumericSpecial
  | .finite => .finite
  | .nan => .nan
  | .posInf => .posInf
  | .negInf => .negInf

def specialOut : Num.NumericSpecial → Encoding.NumericSpecial
  | .finite => .finite
  | .nan => .nan
  | .posInf => .posInf
  | .negInf => .negInf

/-- A numeric cell as the arithmetic has it, and back. -/
def numericIn (n : Encoding.Numeric) : Num.Numeric :=
  ⟨n.unscaled, n.scale.toInt, n.dscale.toInt.toNat, specialIn n.special, n.big.map Num.BigUint.fromU128⟩

def numericOut (n : Num.Numeric) : Encoding.Numeric :=
  ⟨n.unscaled, Int32.ofInt n.scale, Int32.ofInt n.dscale, specialOut n.special, n.big.map Num.BigUint.toNat⟩

/-- What aggregates need besides: doubles as their bits, the names of types, and the aggregates that are always
folded afresh. -/
structure AggOps where
  toF64v : Value → UInt64
  addF64 : UInt64 → UInt64 → UInt64
  toF32 : UInt64 → UInt32
  numericOther : Value → Option Num.Numeric
  typeName : Value → String
  otherAgg : AggFunc → List Value → Except ExecError Value
  ctorAgg : AggFunc → List (List Value) → Except ExecError Value

variable {E : Type} (K : KeyOps) (A : AggOps)

def toNumericOpt (v : Value) : Option Num.Numeric :=
  match v with
  | .smallInt i => some (Num.Numeric.new i.toInt 0)
  | .int i => some (Num.Numeric.new i.toInt 0)
  | .bigInt i => some (Num.Numeric.new i.toInt 0)
  | .numeric n => some (numericIn n)
  | v => A.numericOther v

def errSumRange : ExecError := execError "22003" "integer out of range"

/-- An integer in the type of a category. -/
def fitIntResult (icat : NumCat) (r : Int) : Except ExecError Value :=
  match icat with
  | .small =>
    if -2 ^ 15 ≤ r ∧ r < 2 ^ 15 then .ok (.smallInt (Int16.ofInt r))
    else .error (execError "22003" "smallint out of range")
  | .int =>
    if -2 ^ 31 ≤ r ∧ r < 2 ^ 31 then .ok (.int (Int64.ofInt r)) else .error (execError "22003" "integer out of range")
  | _ =>
    if -2 ^ 63 ≤ r ∧ r < 2 ^ 63 then .ok (.bigInt (Int64.ofInt r)) else .error (execError "22003" "bigint out of range")

/-! ## Sums -/

/-- The widest category so far, and a value. -/
def catStep (cat : NumCat) (v : Value) : Except ExecError NumCat :=
  match numCat v with
  | some c => .ok (cat.max c)
  | none => .error (execError "42883" ("function sum(" ++ A.typeName v ++ ") does not exist"))

def numericSumStep (acc : Num.Numeric) (v : Value) : Except ExecError Num.Numeric :=
  match toNumericOpt A v with
  | none => .error (execError "22003" "value out of range for numeric")
  | some n =>
    match acc.checkedAdd n with
    | none => .error (execError "22003" "numeric field overflow")
    | some s => .ok s

def intSumStep (acc : Int) (v : Value) : Except ExecError Int :=
  match Num.checkedI128 (acc + toI128 v) with
  | none => .error errSumRange
  | some s => .ok s

def sumVals (vals : List Value) : Except ExecError Value :=
  if vals.isEmpty then .ok .null
  else do
    let cat ← vals.foldlM (catStep A) .small
    match cat with
    | .numeric => do
      let acc ← vals.foldlM (numericSumStep A) Num.Numeric.zero
      .ok (.numeric (numericOut acc))
    | .real => .ok (.float4 (A.toF32 (vals.foldl (fun acc v => A.addF64 acc (A.toF64v v)) 0)))
    | .double => .ok (.float (vals.foldl (fun acc v => A.addF64 acc (A.toF64v v)) 0))
    | .big => do
      let acc ← vals.foldlM (numericSumStep A) Num.Numeric.zero
      .ok (.numeric (numericOut acc))
    | _ => do
      let acc ← vals.foldlM intSumStep 0
      fitIntResult .big acc

def evalWindowAgg (f : AggFunc) (vals : List Value) : Except ExecError Value :=
  match f with
  | .count => .ok (.bigInt (Int64.ofNat vals.length))
  | .sum => sumVals A vals
  | f => A.otherAgg f vals

/-! ## Partitions -/

def isNull : Value → Bool
  | .null => true
  | _ => false

def argAt (input : WindowInput) (idxs : List Nat) (pos k : Nat) : Value :=
  (input.argVals.getD (idxs.getD pos 0) []).getD k .null

/-- The filter takes the row at `p` out. -/
def filteredOut (spec : ExecWindow E) (input : WindowInput) (idxs : List Nat) (p : Nat) : Bool :=
  spec.filter.isSome && !input.filterVals.getD (idxs.getD p 0) true

def excluded (spec : ExecWindow E) (peerId : List Nat) (j p : Nat) : Bool :=
  spec.exclusion ≠ .noOthers && frameExcluded spec.exclusion peerId j p

def frameStartIsUnboundedPreceding (spec : ExecWindow E) : Bool :=
  match spec.frame with
  | .default => true
  | .rows start _ => start = .unboundedPreceding
  | .groups start _ => start = .unboundedPreceding
  | .range start stop => start = .unboundedPreceding && (spec.orderBy.isEmpty || !hasOffsetBound stop)

/-- Every frame starts at the first row, and no row is taken out of one. -/
def cumulative (spec : ExecWindow E) : Bool :=
  frameStartIsUnboundedPreceding spec && !spec.filter.isSome && spec.exclusion = .noOthers

/-- The category of one more argument; none where it is no integer. -/
def intCatStep (cat : Option NumCat) (v : Value) : Option (Option NumCat) :=
  match v with
  | .null => some cat
  | .smallInt _ => some (some (cat.elim .small fun c => c.max .small))
  | .int _ => some (some (cat.elim .int fun c => c.max .int))
  | .bigInt _ => some (some (cat.elim .big fun c => c.max .big))
  | _ => none

/-- The widest category of the arguments of a partition, if all that are not null are integers. -/
def partitionSumIntCat (input : WindowInput) (idxs : List Nat) : Option NumCat :=
  (idxs.foldlM (fun cat i => (input.argVals.getD i []).head?.bind (intCatStep cat)) none).join

def countStep (input : WindowInput) (idxs : List Nat) (count p : Nat) : Except ExecError Nat :=
  .ok (if isNull (argAt input idxs p 0) then count else count + 1)

/-- A running sum, and whether anything is in it. -/
def sumStep (input : WindowInput) (idxs : List Nat) (acc : Int × Bool) (p : Nat) : Except ExecError (Int × Bool) :=
  let v := argAt input idxs p 0
  if isNull v then .ok acc
  else
    match Num.checkedI128 (acc.1 + toI128 v) with
    | none => .error errSumRange
    | some s => .ok (s, true)

/-- The rows of a frame that neither the filter nor the exclusion takes out. -/
def frameRows (spec : ExecWindow E) (input : WindowInput) (idxs peerId : List Nat) (j : Nat) (frame : Nat × Nat) :
    List Nat :=
  if frame.1 ≤ frame.2 then
    (List.range' frame.1 (frame.2 + 1 - frame.1)).filter fun p =>
      !filteredOut spec input idxs p && !excluded spec peerId j p
  else []

/-- The rows of a frame count with the nulls among them. -/
def keepsNulls (f : AggFunc) : Bool := f = .arrayAgg || f = .jsonAgg || f = .jsonbAgg

/-- An aggregate over the rows of one frame. -/
def frameAgg (f : AggFunc) (input : WindowInput) (idxs rows : List Nat) : Except ExecError Value :=
  if f = .jsonArrayAgg || f = .jsonObjectAggSql then
    if rows.isEmpty then .ok .null
    else A.ctorAgg f (rows.map fun p => [argAt input idxs p 0, argAt input idxs p 1])
  else
    evalWindowAgg A f
      ((rows.map fun p => argAt input idxs p 0).filter fun v => keepsNulls f || !isNull v)

/-- The values of a windowed aggregate, one for each row of a partition. -/
def computeAgg (spec : ExecWindow E) (f : AggFunc) (input : WindowInput) (idxs : List Nat) :
    Except ExecError (List Value) :=
  let n := idxs.length
  let peerId := peerIds K spec input idxs
  let frameOf := fun j => resolveFrame K spec input idxs j peerId
  let countStar := f = .count && spec.args.isEmpty
  let sumIntCat :=
    if cumulative spec && f = .sum && spec.args.length = 1 then partitionSumIntCat input idxs else none
  if countStar then
    (List.range n).mapM fun j => do
      let frame ← frameOf j
      .ok (.bigInt (Int64.ofNat (frameRows spec input idxs peerId j frame).length))
  else if cumulative spec && f = .count then
    sweep (countStep input idxs) (fun count => .ok (.bigInt (Int64.ofNat count)))
      (fun j => (frameOf j).map fun frame => frame.2 + 1) (List.range n) 0 0
  else
    match sumIntCat with
    | some cat =>
      let icat := if cat = .small then .int else cat
      sweep (sumStep input idxs) (fun acc => if acc.2 then fitIntResult icat acc.1 else .ok .null)
        (fun j => (frameOf j).map fun frame => frame.2 + 1) (List.range n) 0 (0, false)
    | none =>
      (List.range n).mapM fun j => do
        let frame ← frameOf j
        frameAgg A f input idxs (frameRows spec input idxs peerId j frame)

end Windows
