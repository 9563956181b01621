-- SUMMARY: How text search vectors and queries compare.
import Rustgres.Values.KeyOrder
import Rustgres.Lib.Utf8

/-!
# The Order of Vectors and Queries

Vectors and queries compare by their stored size and number of parts before they compare part by part.
-/

namespace TextSearch

open Encoding (TsVectorVal TsQueryNode TsQueryVal)
open Values (bytesCmp)

/-- By the bytes that both have, and then by length. -/
def tsCmpStr (a b : Bytes) : Ordering :=
  let n := min a.length b.length
  (bytesCmp (a.take n) (b.take n)).then (compare a.length b.length)

/-! ## Vectors -/

/-- The size a vector is stored in, the same for the comparison as for the stored form. -/
def tsvectorVarsize (v : TsVectorVal) : Nat :=
  8 + 4 * v.entries.length + (v.entries.map fun e => (Utf8.bytes e.1).length + 2 * e.2.length).sum

/-- The larger position or weight comes first. -/
def positionsCmp (a b : List (UInt16 × UInt8)) : Ordering :=
  match a, b with
  | p :: a, q :: b =>
    (compare p.1.toNat q.1.toNat).swap.then ((compare p.2.toNat q.2.toNat).swap.then (positionsCmp a b))
  | _, _ => .eq

def entriesCmp (a b : List (String × List (UInt16 × UInt8))) : Ordering :=
  match a, b with
  | (lex, pos) :: a, (lex', pos') :: b =>
    -- Entries with positions come before those without, and those with more before those with fewer.
    (compare (!pos.isEmpty) (!pos'.isEmpty)).swap.then ((tsCmpStr (Utf8.bytes lex) (Utf8.bytes lex')).then
      ((compare pos.length pos'.length).swap.then ((positionsCmp pos pos').then (entriesCmp a b))))
  | _, _ => .eq

def tsvectorCmp (a b : TsVectorVal) : Ordering :=
  (compare (tsvectorVarsize a) (tsvectorVarsize b)).then
    ((compare a.entries.length b.entries.length).then (entriesCmp a.entries b.entries))

/-! ## Queries -/

def numnode : TsQueryNode → Nat
  | .val _ _ _ _ | .stop => 1
  | .not c => 1 + numnode c
  | .and l r | .or l r | .phrase l r _ => 1 + numnode l + numnode r

/-- The bytes of the operands, each with a terminator. -/
def operandBytes : TsQueryNode → Nat
  | .val text _ _ _ => (Utf8.bytes text).length + 1
  | .stop => 1
  | .not c => operandBytes c
  | .and l r | .or l r | .phrase l r _ => operandBytes l + operandBytes r

def tsqueryVarsize (q : TsQueryVal) : Nat :=
  4 + 8 * (q.root.map numnode).getD 0 + (q.root.map operandBytes).getD 0

/-- One bit of the table entry. -/
def crcBit (crc : UInt32) : UInt32 :=
  if crc &&& 1 ≠ 0 then (0xEDB88320 : UInt32) ^^^ (crc >>> 1) else crc >>> 1

def crcEntry (i : UInt32) : UInt32 := (List.range 8).foldl (fun crc _ => crcBit crc) i

def legacyCrc32 (data : Bytes) : UInt32 :=
  data.foldl (fun crc byte => crcEntry ((crc ^^^ byte.toUInt32) &&& 0xFF) ^^^ (crc >>> 8)) (0xFFFFFFFF : UInt32) ^^^
    (0xFFFFFFFF : UInt32)

def typeRank : TsQueryNode → Nat
  | .val _ _ _ _ | .stop => 1
  | _ => 2

def operRank : TsQueryNode → Nat
  | .not _ => 1
  | .and _ _ => 2
  | .or _ _ => 3
  | .phrase _ _ _ => 4
  | _ => 0

/-- The larger kind comes first, and operators compare by their right operands before their left ones. Two stop nodes
have no operands, and the server panics on them. -/
def qtNodeCompare : TsQueryNode → TsQueryNode → Option Ordering
  | .val a _ _ _, .val b _ _ _ =>
    some ((compare (legacyCrc32 (Utf8.bytes a)).toNat (legacyCrc32 (Utf8.bytes b)).toNat).swap.then
      (tsCmpStr (Utf8.bytes a) (Utf8.bytes b)))
  | .not a, .not b => qtNodeCompare a b
  | .and al ar, .and bl br | .or al ar, .or bl br =>
    match qtNodeCompare ar br with
    | some .eq => qtNodeCompare al bl
    | o => o
  | .phrase al ar ad, .phrase bl br bd =>
    match qtNodeCompare ar br with
    | some .eq =>
      match qtNodeCompare al bl with
      | some .eq => some (compare ad.toNat bd.toNat).swap
      | o => o
    | o => o
  | a, b =>
    match (compare (typeRank a) (typeRank b)).swap.then (compare (operRank a) (operRank b)).swap with
    | .eq => none
    | o => some o

def tsqueryCmp (a b : TsQueryVal) : Option Ordering :=
  match (compare ((a.root.map numnode).getD 0) ((b.root.map numnode).getD 0)).then
      (compare (tsqueryVarsize a) (tsqueryVarsize b)) with
  | .eq =>
    match a.root, b.root with
    | some r, some s => qtNodeCompare r s
    | _, _ => some .eq
  | o => some o

end TextSearch
