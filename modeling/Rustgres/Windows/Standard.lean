-- SUMMARY: The rows of a frame by the definition of SQL, and what the code's frames need to agree with it.
import Rustgres.Windows.Ordered

/-!
# Frames of SQL

A row is in a frame when it is neither before the start nor behind the end. Rows are told apart by their positions,
by the numbers of their peer groups, or by their keys; a bound before the first row or behind the last is no row.
-/

namespace Windows

open Encoding (Value)

variable {E : Type} (K : KeyOps)

/-! ## What a query admits -/

/-- The order of bounds that the parser checks. -/
def FrameBound.rank : FrameBound → Nat
  | .unboundedPreceding => 0
  | .preceding _ => 1
  | .currentRow => 2
  | .following _ => 3
  | .unboundedFollowing => 4

/-- The parser takes the frame. -/
def Parsed : WindowFrame → Prop
  | .default => True
  | .rows start stop | .range start stop | .groups start stop => start.rank ≤ stop.rank

def errGroupsOrder : ExecError := execError "42P20" "GROUPS mode requires an ORDER BY clause"

def checkWindowFrame (frame : WindowFrame) (orderLen : Nat) : Except ExecError Unit :=
  match frame with
  | .default => .ok ()
  | .rows _ _ => .ok ()
  | .range start stop =>
    if (hasOffsetBound start || hasOffsetBound stop) && orderLen ≠ 1 then .error errRangeTerms else .ok ()
  | .groups _ _ => if orderLen = 0 then .error errGroupsOrder else .ok ()

/-! ## The definition of SQL -/

/-- The row at `p` is not before the start, by a count that both rows have. -/
def NotBefore (start : FrameBound) (pos p : Nat) : Prop :=
  match start with
  | .unboundedPreceding => True
  | .preceding k => pos ≤ p + k
  | .currentRow => pos ≤ p
  | .following k => pos + k ≤ p
  | .unboundedFollowing => False

/-- The row at `p` is not behind the end, by a count that both rows have. -/
def NotBehind (stop : FrameBound) (pos p : Nat) : Prop :=
  match stop with
  | .unboundedPreceding => False
  | .preceding k => p + k ≤ pos
  | .currentRow => p ≤ pos
  | .following k => p ≤ pos + k
  | .unboundedFollowing => True

/-- Keys that are an offset further up or down, in the arithmetic of their type. -/
structure Shifts where
  up : Value → Nat → Value
  down : Value → Nat → Value
  up_ne : ∀ v k, up v k ≠ .null
  down_ne : ∀ v k, down v k ≠ .null

/-- Doubles are compared as numbers, and rounding a key to a double keeps the order of the keys. -/
structure RoundsInOrder : Prop where
  trans : ∀ a b c, K.leF64 a b = true → K.leF64 b c = true → K.leF64 a c = true
  numbers : ∀ a b, K.leF64 a b = true → K.leF64 a a = true ∧ K.leF64 b b = true
  mono : ∀ v w a b ord, K.compare v w = .ok ord → ord ≠ .gt → toF K v = .ok a → toF K w = .ok b →
    K.leF64 b b = true → K.leF64 a b = true

/-- The key that a bound of a `RANGE` frame stands for: `PRECEDING` is against the direction of the order. -/
def shifted (S : Shifts) (o : OrderTerm E) (cur : Value) (b : FrameBound) : Value :=
  match cur, b with
  | .null, _ => .null
  | cur, .preceding k => if o.desc then S.up cur k else S.down cur k
  | cur, .following k => if o.desc then S.down cur k else S.up cur k
  | cur, _ => cur

section

variable {orderBy : List (OrderTerm E)} {input : WindowInput} {idxs : List Nat}
  (P : OrderedPartition K orderBy input idxs) (S : Shifts)

/-- A key compared with the key of a bound, along the direction of the first term. -/
def KeyNot (ord : Ordering) (pos p : Nat) (b : FrameBound) : Prop :=
  ∃ o more, orderBy = o :: more ∧ ∃ c,
    compareValues K (firstKey input idxs p) (shifted S o (firstKey input idxs pos) b) o.desc o.nullsFirst = .ok c ∧
      c ≠ ord

/-- The row at `p` is not before the start of a `RANGE` frame. -/
def RangeNotBefore (start : FrameBound) (pos p : Nat) : Prop :=
  match start with
  | .unboundedPreceding => True
  | .currentRow => ¬Before orderBy.length (P.rank p) (P.rank pos)
  | .preceding k => @KeyNot E K orderBy input idxs S .lt pos p (.preceding k)
  | .following k => @KeyNot E K orderBy input idxs S .lt pos p (.following k)
  | .unboundedFollowing => False

/-- The row at `p` is not behind the end of a `RANGE` frame. -/
def RangeNotBehind (stop : FrameBound) (pos p : Nat) : Prop :=
  match stop with
  | .unboundedPreceding => False
  | .currentRow => ¬Before orderBy.length (P.rank pos) (P.rank p)
  | .preceding k => @KeyNot E K orderBy input idxs S .gt pos p (.preceding k)
  | .following k => @KeyNot E K orderBy input idxs S .gt pos p (.following k)
  | .unboundedFollowing => True

/-- The row at `p` is in the frame of the row at `pos`. -/
def InFrame (frame : WindowFrame) (peerId : List Nat) (pos p : Nat) : Prop :=
  match frame with
  | .default =>
    RangeNotBefore K P S .unboundedPreceding pos p ∧ RangeNotBehind K P S .currentRow pos p
  | .rows start stop => NotBefore start pos p ∧ NotBehind stop pos p
  | .range start stop => RangeNotBefore K P S start pos p ∧ RangeNotBehind K P S stop pos p
  | .groups start stop =>
    NotBefore start (peerId.getD pos 0) (peerId.getD p 0) ∧ NotBehind stop (peerId.getD pos 0) (peerId.getD p 0)

/-- The peer groups of a partition in their numbers. -/
structure GroupsByPeers (peerId : List Nat) : Prop where
  numbered : Numbered peerId
  length : peerId.length = idxs.length
  peers : ∀ q < idxs.length, ∀ p < idxs.length, peerId.getD p 0 = peerId.getD q 0 ↔ P.Peers p q

/-! ## Where the code agrees -/

/-- The start is behind the last of `n` rows. -/
def StartBeyond (start : FrameBound) (pos n : Nat) : Prop :=
  match start with
  | .following k => n ≤ pos + k
  | .unboundedFollowing => True
  | _ => False

/-- The end is before the first row. -/
def StopBefore (stop : FrameBound) (pos : Nat) : Prop :=
  match stop with
  | .preceding k => pos < k
  | .unboundedPreceding => True
  | _ => False

/-- Both bounds of a `ROWS` frame are rows, or the bound that is one is on the wrong side of where the other ends up. -/
def RowsRight (start stop : FrameBound) (pos n : Nat) : Prop :=
  (StartBeyond start pos n ∨ StopBefore stop pos) → rowsBound stop pos n < rowsBound start pos n

/-- Rows that agree with the row at `pos` on the first term agree with it on all, where its peers bound the frame. -/
def PeersRight (start stop : FrameBound) (pos : Nat) : Prop :=
  (start = .currentRow → ∀ p < pos, P.rank p 0 = P.rank pos 0 → P.Peers p pos) ∧
  (stop = .currentRow → ∀ p < idxs.length, pos < p → P.rank p 0 = P.rank pos 0 → P.Peers p pos)

/-- The key of a row as a double, and the two bounds as doubles, taken up and down whatever the direction. -/
def DoubleInside (start stop : FrameBound) (pos p : Nat) : Prop :=
  ∃ cur f, toF K (firstKey input idxs pos) = .ok cur ∧ toF K (firstKey input idxs p) = .ok f ∧
    K.leF64 (boundVal K cur start) f = true ∧ K.leF64 f (boundVal K cur stop) = true

/-- All keys are integers, doubles or numerics, and that of the row at `pos` is not null; null keys are not in the
frame; and doubles decide as the keys do. -/
structure OffsetsRight (start stop : FrameBound) (pos : Nat) : Prop where
  current : firstKey input idxs pos ≠ .null
  numeric : ∀ p < idxs.length, firstKey input idxs p = .null ∨ ∃ f, toF K (firstKey input idxs p) = .ok f
  nulls : ∀ p < idxs.length, firstKey input idxs p = .null →
    (start = .unboundedPreceding → pos < p) ∧ (stop = .unboundedFollowing → p < pos)
  doubles : ∀ p < idxs.length, firstKey input idxs p ≠ .null →
    (@DoubleInside K input idxs start stop pos p ↔
      RangeNotBefore K P S start pos p ∧ RangeNotBehind K P S stop pos p)

/-- A `RANGE` frame of the code is that of SQL. -/
def RangeRight (start stop : FrameBound) (pos : Nat) : Prop :=
  start ≠ .unboundedFollowing ∧ stop ≠ .unboundedPreceding ∧
  if orderBy = [] then (start = .currentRow → pos = 0) ∧ (stop = .currentRow → pos + 1 = idxs.length)
  else if hasOffsetBound start || hasOffsetBound stop then OffsetsRight K P S start stop pos
  else PeersRight K P start stop pos

/-- The frame of the code is that of SQL. -/
def FrameRight (frame : WindowFrame) (pos : Nat) : Prop :=
  match frame with
  | .default => orderBy = [] ∨ PeersRight K P .unboundedPreceding .currentRow pos
  | .rows start stop => RowsRight start stop pos idxs.length
  | .range start stop => RangeRight K P S start stop pos
  | .groups _ _ => True

end

end Windows
