-- SUMMARY: How the columns of a wide row are stored: the planner's four rounds, and what goes out of line.
import Rustgres.Lib.Greedy
import Rustgres.Numeric.Digits
import Rustgres.Numeric.Basic
import Rustgres.Toast.Compression

/-!
# TOAST Plans

A row that is too wide gets smaller column by column: the widest first, by compression or by moving the
column out of line, where a pointer takes its place. Which column may be treated how is up to its storage
strategy.
-/

namespace Toast

inductive ToastPlan where
  | plain
  | compressed
  | external
  | compressedExternal
deriving DecidableEq, Repr

def ToastPlan.isExternal : ToastPlan → Bool
  | .plain | .compressed => false
  | .external | .compressedExternal => true

/-- The storage strategy of a column. -/
inductive ToastStorage where
  | plain
  | external
  | extended
  | main
deriving DecidableEq, Repr

/-! ## Values -/

/-- A value, as far as toasting tells values apart; texts stand as their bytes. -/
inductive Value where
  | text (s : List UInt8)
  | bpChar (s : List UInt8)
  | bytea (b : List UInt8)
  | numeric (n : Num.Numeric)
  | null
  | other

def toastLen (n : Num.Numeric) : Nat :=
  16 + 4 + 1 + match n.big with
    | some m => m.decimalDigits
    | none => 0

def specialByte : Num.NumericSpecial → UInt8
  | .finite => 0
  | .nan => 1
  | .posInf => 2
  | .negInf => 3

def toastBytes (n : Num.Numeric) : List UInt8 :=
  Bytes.be 16 (n.unscaled % 2 ^ 128).toNat ++ Bytes.be 4 (n.scale % 2 ^ 32).toNat ++
    [specialByte n.special] ++ match n.big with
      | some m => m.toDecimalString.map fun c => UInt8.ofNat c.toNat
      | none => []

def toastableSize : Value → Nat
  | .text s => s.length
  | .bpChar s => s.length
  | .bytea b => b.length
  | .numeric n => toastLen n
  | .null => 0
  | .other => 0

def toastableBytes : Value → Option (List UInt8)
  | .text s => some s
  | .bpChar s => some s
  | .bytea b => some b
  | .numeric n => some (toastBytes n)
  | .null => none
  | .other => none

def Value.isNull : Value → Bool
  | .null => true
  | _ => false

/-! ## What the planner is given -/

def toastTupleThreshold : Nat := 2037

def toastTupleTargetMain : Nat := 8160

def toastMaxChunkSize : Nat := 2001

def toastPointerSize : Nat := 20

def maxalignToastPointer : Nat := 24

structure Table where
  colStorage : List ToastStorage
  colCompression : List (Option ToastCompression)
  toastTarget : Nat

/-- A row to plan, with the values that keep their pointers marked by whether they are compressed. -/
structure PlanInput where
  table : Table
  values : List Value
  compressOk : Bool
  defaultMethod : ToastCompression
  reuse : List (Option Bool)

namespace PlanInput

variable (t : PlanInput)

def value (i : Nat) : Value := t.values.getD i .null

def size (i : Nat) : Nat := toastableSize (t.value i)

def storage (i : Nat) : ToastStorage := t.table.colStorage.getD i .plain

def methodFor (i : Nat) : ToastCompression := (t.table.colCompression.getD i none).getD t.defaultMethod

/-- The mark of a value that keeps its pointer. -/
def reused (i : Nat) : Option Bool := t.reuse.getD i none

def preset (i : Nat) : ToastPlan :=
  match t.reused i with
  | some true => .compressedExternal
  | some false => .external
  | none => .plain

/-- The columns that take part. -/
def eligible : List Nat :=
  (List.range t.values.length).filter fun i => t.storage i ≠ .plain ∧ 0 < t.size i

/-- The row's width before planning. -/
def width : Nat :=
  (t.eligible.map fun i => if (t.reused i).isSome then toastPointerSize else t.size i).sum

/-- The tuple header: 23 bytes and a bitmap if there are nulls, rounded up to eight. -/
def hoff : Nat :=
  if t.values.any Value.isNull then (23 + (t.values.length + 7) / 8 + 7) / 8 * 8 else (23 + 7) / 8 * 8

def target : Nat := t.table.toastTarget - t.hoff

def mainTarget : Nat := toastTupleTargetMain - t.hoff

end PlanInput

/-! ## The rounds -/

/-- What the planner knows of each column. -/
structure Marks where
  plan : Nat → ToastPlan
  sizes : Nat → Nat
  compressed : Nat → Option (List UInt8)
  incompressible : Nat → Bool

namespace PlanInput

variable (t : PlanInput) (compress : List UInt8 → ToastCompression → Option (List UInt8))

def initialMarks : Marks := ⟨t.preset, t.size, fun _ => none, fun _ => false⟩

/-- The row's width as planned; an external column counts its pointer. -/
def curWidth (m : Marks) : Nat :=
  (t.eligible.map fun i => if (m.plan i).isExternal then toastPointerSize else m.sizes i).sum

/-- The columns that a round may treat. -/
def movable (forCompression mainOnly : Bool) (m : Marks) (i : Nat) : Bool :=
  !(m.plan i).isExternal &&
    (if mainOnly then t.storage i = .main else t.storage i = .extended ∨ t.storage i = .external) &&
    !(forCompression && (m.incompressible i || (m.compressed i).isSome)) &&
    decide (maxalignToastPointer < m.sizes i)

/-- The first of the widest columns that a round may treat. -/
def biggestAttr (forCompression mainOnly : Bool) (m : Marks) : Option Nat :=
  Greedy.largest (t.movable forCompression mainOnly m) m.sizes t.eligible

def markIncompressible (i : Nat) (m : Marks) : Marks :=
  { m with incompressible := Function.update m.incompressible i true }

/-- Compression must save more than two bytes. -/
def tryCompressAttr (i : Nat) (m : Marks) : Marks :=
  if !t.compressOk then markIncompressible i m
  else
    match toastableBytes (t.value i) with
    | none => markIncompressible i m
    | some raw =>
      match compress raw (t.methodFor i) with
      | some c =>
        if c.length + 2 < raw.length then
          { m with
            sizes := Function.update m.sizes i c.length
            compressed := Function.update m.compressed i (some c)
            plan := Function.update m.plan i .compressed }
        else markIncompressible i m
      | none => markIncompressible i m

def externalizeAttr (i : Nat) (m : Marks) : Marks :=
  { m with
    plan := Function.update m.plan i
      (if (m.compressed i).isSome then .compressedExternal else .external) }

/-- Treat the widest column again and again until the row fits the limit or none is left. -/
def round (limit : Nat) (forCompression mainOnly : Bool) (act : Nat → Marks → Marks) (m : Marks) :
    Except Stop Marks :=
  match Greedy.drain (fun m => decide (t.curWidth m ≤ limit)) (t.biggestAttr forCompression mainOnly) act
    (t.eligible.length + 1) m with
  | some m => .ok m
  | none => .error .diverged

/-- Compress an extended column, and move out at once what is too wide by itself. -/
def compressOrMove (i : Nat) (m : Marks) : Marks :=
  let m := if t.storage i = .extended then t.tryCompressAttr compress i m else markIncompressible i m
  if t.target < m.sizes i then externalizeAttr i m else m

def rounds (m : Marks) : Except Stop Marks := do
  let m ← t.round t.target true false (t.compressOrMove compress) m
  let m ← t.round t.target false false externalizeAttr m
  let m ← t.round t.target true true (t.tryCompressAttr compress) m
  t.round t.mainTarget false true externalizeAttr m

def planOf (m : Marks) : List ToastPlan := (List.range t.values.length).map m.plan

def planToast : Except Stop (List ToastPlan) :=
  if t.eligible = [] then .ok (t.planOf t.initialMarks)
  else if t.width ≤ toastTupleThreshold then .ok (t.planOf t.initialMarks)
  else (t.rounds compress t.initialMarks).map t.planOf

end PlanInput

/-! ## Applying a plan -/

def chunkBytes (data : List UInt8) : List (List UInt8) :=
  if data = [] then []
  else data.take toastMaxChunkSize :: chunkBytes (data.drop toastMaxChunkSize)
termination_by data.length
decreasing_by
  rename_i hne
  have hpos := List.length_pos_iff.2 hne
  rw [List.length_drop]
  unfold toastMaxChunkSize
  omega

/-- The bytes to store out of line; they are compressed once more. -/
def outOfLineBytes (compress : List UInt8 → ToastCompression → Option (List UInt8)) (v : Value)
    (compressOk : Bool) (method : ToastCompression) : ToastPlan → Option (List UInt8)
  | .plain | .compressed => none
  | .external => toastableBytes v
  | .compressedExternal =>
    match toastableBytes v with
    | none => none
    | some raw => if compressOk then some ((compress raw method).getD raw) else some raw

/-- How a value that went out of line is stored. -/
structure ToastInfo where
  compressed : Bool
  method : ToastCompression

/-- The mark of a column of a new version: its bytes are those of the old version, which were toasted. -/
def reuseOf (info : Nat → Option ToastInfo) (vid : Nat) (old new : Option Value) : Option Bool :=
  if vid = 0 then none
  else
    match info vid with
    | none => none
    | some i =>
      match old.bind toastableBytes, new.bind toastableBytes with
      | some o, some nw => if o = nw then some i.compressed else none
      | _, _ => none

def toastUpdateReuse (oldValues : List Value) (oldToast : List Nat) (values : List Value)
    (info : Nat → Option ToastInfo) : List (Option Bool) :=
  (List.range values.length).map fun i => reuseOf info (oldToast.getD i 0) oldValues[i]? values[i]?

/-- The value behind a pointer: its chunks in their order, decompressed if they are compressed. -/
def detoast (info : ToastInfo) (chunks : List (List UInt8)) : Except Stop (List UInt8) :=
  if info.compressed then decompressValue chunks.flatten info.method else .ok chunks.flatten

end Toast
