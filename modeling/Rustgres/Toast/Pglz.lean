-- SUMMARY: The PGLZ codec: the history of positions, the match search, the encoder and the decoder.
import Mathlib.Algebra.Group.Int.Defs
import Mathlib.Algebra.Group.Nat.Defs
import Rustgres.Toast.Decoders

/-!
# PGLZ

The encoder remembers the positions it has passed in a ring of entries, threaded on one chain for each
hash value, and looks for matches along the chain of the next bytes. The output is groups of a control
byte and eight items, each a literal or a tag. The ring outlives a call: only the heads of the chains
are cleared.
-/

namespace Toast.Pglz

def historySize : Nat := 4096

def maxMatch : Nat := 273

def minInput : Nat := 32

def resultPct : Nat := 75

def firstSuccessBy : Nat := 1024

def matchGood : Nat := 128

def matchDrop : Nat := 10

def maxOffset : Nat := 0x0fff

/-! ## The history -/

/-- The history lists; entry 0 stands for none. -/
structure PglzHist where
  start : Nat → Nat
  next : Nat → Nat
  prev : Nat → Nat
  hindex : Nat → Nat
  pos : Nat → Nat
  histNext : Nat
  recycle : Bool

/-- A byte as a signed number. -/
def signedByte (b : UInt8) : Int := if b.toNat < 128 then b.toNat else (b.toNat : Int) - 256

def byteAt (input : List UInt8) (i : Nat) : Int := signedByte (input.getD i 0)

/-- Exclusive or of signed numbers in two's complement of 32 bits. -/
def xor32 (a b : Int) : Int :=
  (BitVec.ofInt 32 a ^^^ BitVec.ofInt 32 b).toInt

/-- The chain of the four bytes at `pos`; near the end, of the byte at `pos`. The number of chains
`hashsz` is a power of two. -/
def histIdx (input : List UInt8) (pos hashsz : Nat) : Nat :=
  let h :=
    if input.length - pos < 4 then byteAt input pos
    else
      xor32 (xor32 (xor32 (byteAt input pos * 2 ^ 6) (byteAt input (pos + 1) * 2 ^ 4))
        (byteAt input (pos + 2) * 2 ^ 2)) (byteAt input (pos + 3))
  (h % hashsz).toNat

/-- Point past the next entry, from the entry before it or from the head of its chain. -/
def bypass (hist : PglzHist) : PglzHist :=
  let hn := hist.histNext
  if hist.prev hn = 0 then
    { hist with start := Function.update hist.start (hist.hindex hn) (hist.next hn) }
  else { hist with next := Function.update hist.next (hist.prev hn) (hist.next hn) }

/-- Take the entry that is recycled off its old chain. -/
def unlink (hist : PglzHist) : PglzHist :=
  if hist.recycle then
    let hn := hist.histNext
    let hist := bypass hist
    if hist.next hn ≠ 0 then
      { hist with prev := Function.update hist.prev (hist.next hn) (hist.prev hn) }
    else hist
  else hist

/-- Record the position `pos` at the head of its chain. -/
def histAdd (hist : PglzHist) (input : List UInt8) (pos hashsz : Nat) : PglzHist :=
  let idx := histIdx input pos hashsz
  let hn := hist.histNext
  let hist := unlink hist
  let head := hist.start idx
  { start := Function.update hist.start idx hn
    next := Function.update hist.next hn head
    prev := Function.update (Function.update hist.prev hn 0) head hn
    hindex := Function.update hist.hindex hn idx
    pos := Function.update hist.pos hn (pos % 2 ^ 32)
    histNext := if hn + 1 > historySize then 1 else hn + 1
    recycle := hist.recycle || decide (hn + 1 > historySize) }

/-! ## The search -/

/-- The length of the match of `dp` with the earlier position `hp`. Once the best one has 16 bytes, a
candidate has to repeat them all. -/
def candidate (input : List UInt8) (dp hp len : Nat) : Except Stop Nat :=
  let left := input.length - dp
  if 16 ≤ len then
    if left < len ∨ input.length - hp < len then .error .panicked
    else if (input.drop dp).take len = (input.drop hp).take len then
      .ok (len + Window.agreeing input (min (left - len) (maxMatch - len)) (dp + len) (hp + len))
    else .ok 0
  else .ok (Window.agreeing input (min left maxMatch) dp hp)

/-- Follow a chain from the entry `hent`; the fuel bounds its length. -/
@[grind =]
def searchChain (hist : PglzHist) (input : List UInt8) (dp : Nat) :
    Nat → Nat → Nat → Nat → Nat → Except Stop (Nat × Nat)
  | 0, _, _, _, _ => .error .diverged
  | fuel + 1, hent, len, off, goodMatch =>
    if hent = 0 then .ok (len, off)
    else
      let hp := hist.pos hent
      if dp < hp then .error .panicked
      else
        let thisoff := dp - hp
        if maxOffset ≤ thisoff then .ok (len, off)
        else
          match candidate input dp hp len with
          | .error e => .error e
          | .ok thislen =>
            let (len, off) := if len < thislen then (thislen, thisoff) else (len, off)
            let hent := hist.next hent
            if hent = 0 then .ok (len, off)
            else if goodMatch ≤ len then .ok (len, off)
            else
              searchChain hist input dp fuel hent len off
                (goodMatch - goodMatch * matchDrop / 100)

/-- The longest match at `dp`, if it has more than two bytes: its length and its offset. -/
def findMatch (hist : PglzHist) (input : List UInt8) (dp hashsz : Nat) :
    Except Stop (Option (Nat × Nat)) :=
  match searchChain hist input dp (historySize + 1) (hist.start (histIdx input dp hashsz)) 0 0
      matchGood with
  | .error e => .error e
  | .ok (len, off) => .ok (if 2 < len then some (len, off) else none)

/-! ## The encoder -/

/-- The output, with the place and the value of the control byte that is open and the bit of its next
item. -/
structure Output where
  out : List UInt8
  ctrlp : Option Nat
  ctrlb : Nat
  ctrl : Nat

/-- Open a control byte if the last one is full, and write that one. -/
def outCtrl (o : Output) : Output :=
  if o.ctrl % 256 = 0 then
    let out := match o.ctrlp with
      | some p => o.out.set p (UInt8.ofNat o.ctrlb)
      | none => o.out
    ⟨out ++ [0], some out.length, 0, 1⟩
  else o

/-- The tag of a match; a length above 17 takes a third byte. -/
def tagBytes (len off : Nat) : List UInt8 :=
  if 17 < len then
    [UInt8.ofNat (off / 256 % 16 * 16 + 0x0f), UInt8.ofNat (off % 256), UInt8.ofNat (len - 18)]
  else [UInt8.ofNat (off / 256 % 16 * 16 + (len - 3)), UInt8.ofNat (off % 256)]

def outMatch (o : Output) (len off : Nat) : Output :=
  let o := outCtrl o
  { o with out := o.out ++ tagBytes len off, ctrlb := o.ctrlb ||| (o.ctrl % 256), ctrl := o.ctrl * 2 }

def outLiteral (o : Output) (b : UInt8) : Output :=
  let o := outCtrl o
  { o with out := o.out ++ [b], ctrl := o.ctrl * 2 }

/-- Record `n` positions from `dp` on. -/
def addAll (input : List UInt8) (hashsz : Nat) : Nat → PglzHist → Nat → PglzHist
  | 0, hist, _ => hist
  | n + 1, hist, dp => addAll input hashsz n (histAdd hist input dp hashsz) (dp + 1)

structure Coder where
  hist : PglzHist
  output : Output
  dp : Nat
  foundMatch : Bool

/-- The payload must beat three quarters of the input. -/
def resultMax (slen : Nat) : Nat :=
  if (2 ^ 31 - 1) / 100 < slen then slen / 100 * resultPct else slen * resultPct / 100

def hashSize (slen : Nat) : Nat :=
  if slen < 128 then 512
  else if slen < 256 then 1024
  else if slen < 512 then 2048
  else if slen < 1024 then 4096
  else 8192

/-- Code the next item, unless the output is too long already. -/
def codeItem (input : List UInt8) (c : Coder) : Except Stop (Option Coder) :=
  let hashsz := hashSize input.length
  if resultMax input.length ≤ c.output.out.length then .ok none
  else if !c.foundMatch ∧ firstSuccessBy ≤ c.output.out.length then .ok none
  else
    match findMatch c.hist input c.dp hashsz with
    | .error e => .error e
    | .ok (some (len, off)) =>
      .ok (some ⟨addAll input hashsz len c.hist c.dp, outMatch c.output len off, c.dp + len, true⟩)
    | .ok none =>
      match input[c.dp]? with
      | none => .error .panicked
      | some b =>
        .ok (some ⟨histAdd c.hist input c.dp hashsz, outLiteral c.output b, c.dp + 1, c.foundMatch⟩)

/-- Write the last control byte, and refuse a payload that saves too little. -/
def finish (input : List UInt8) (o : Output) : Except Stop (Option (List UInt8)) :=
  match o.ctrlp with
  | none => .error .panicked
  | some p =>
    let out := o.out.set p (UInt8.ofNat o.ctrlb)
    .ok (if resultMax input.length ≤ out.length then none else some out)

/-- Item after item; the fuel bounds their number. The history is left as the call leaves it. -/
def codeItems (input : List UInt8) : Nat → Coder → Except Stop (PglzHist × Option (List UInt8))
  | 0, _ => .error .diverged
  | fuel + 1, c =>
    if c.dp < input.length then
      match codeItem input c with
      | .error e => .error e
      | .ok none => .ok (c.hist, none)
      | .ok (some c) => codeItems input fuel c
    else (finish input c.output).map fun r => (c.hist, r)

/-- A history that no call has used. -/
def newHist : PglzHist :=
  ⟨fun _ => 0, fun _ => 0, fun _ => 0, fun _ => 0, fun _ => 0, 1, false⟩

/-- Only the heads that are used are cleared. -/
def resetHist (hist : PglzHist) (hashsz : Nat) : PglzHist :=
  { hist with
    start := fun i => if i < hashsz then 0 else hist.start i
    histNext := 1
    recycle := false }

def initialCoder (hist : PglzHist) (input : List UInt8) : Coder :=
  ⟨resetHist hist (hashSize input.length), ⟨[], none, 0, 0⟩, 0, false⟩

def compressPayload (hist : PglzHist) (input : List UInt8) :
    Except Stop (PglzHist × Option (List UInt8)) :=
  if input.length < minInput then .ok (hist, none)
  else codeItems input (input.length + 1) (initialCoder hist input)

/-! ## The decoder -/

/-- The length of a tag: the longest short one is followed by what exceeds it. -/
def readTagLen (n mlen ip : Nat) (rest : List UInt8) : Except Stop (Nat × Nat × List UInt8) :=
  if mlen = 18 then
    if n ≤ ip then .error .corrupt
    else
      match rest with
      | [] => .error .panicked
      | b :: rest => .ok (mlen + b.toNat, ip + 1, rest)
  else .ok (mlen, ip, rest)

/-- A match tag, and its copy, cut short at the end of the output. -/
def decodeTag (n origLen : Nat) (p : Progress) : Except Stop Progress :=
  if n < p.ip + 2 then .error .corrupt
  else
    match p.rest with
    | b₀ :: b₁ :: rest => do
      let moff := b₀.toNat / 16 * 256 + b₁.toNat
      let (mlen, ip, rest) ← readTagLen n (b₀.toNat % 16 + 3) (p.ip + 2) rest
      if moff = 0 ∨ p.out.length < moff then .error .corrupt
      else
        let mlen := min mlen (origLen - p.out.length)
        -- The vector grows with what is pushed.
        let out ← copyMatch (p.out.length + mlen) moff mlen p.out
        .ok ⟨ip, rest, out⟩
    | _ => .error .panicked

def decodeLiteral (p : Progress) : Except Stop Progress :=
  match p.rest with
  | [] => .error .panicked
  | b :: rest => .ok ⟨p.ip + 1, rest, p.out ++ [b]⟩

/-- The items of a control byte, lowest bit first. -/
@[grind =]
def decodeItems (n origLen : Nat) : Nat → Nat → Progress → Except Stop Progress
  | 0, _, p => .ok p
  | k + 1, ctrl, p =>
    if n ≤ p.ip ∨ origLen ≤ p.out.length then .ok p
    else
      match if ctrl % 2 ≠ 0 then decodeTag n origLen p else decodeLiteral p with
      | .error e => .error e
      | .ok p => decodeItems n origLen k (ctrl / 2) p

/-- Group after group; the fuel bounds their number. -/
def decodeGroups (n origLen : Nat) : Nat → Progress → Except Stop Progress
  | 0, _ => .error .diverged
  | fuel + 1, p =>
    if p.ip < n ∧ p.out.length < origLen then
      match p.rest with
      | [] => .error .panicked
      | ctrl :: rest =>
        match decodeItems n origLen 8 ctrl.toNat ⟨p.ip + 1, rest, p.out⟩ with
        | .error e => .error e
        | .ok p => decodeGroups n origLen fuel p
    else .ok p

/-- Longer texts than this are refused unread. -/
def maxRawLen : Nat := 1000000000

def decompressRaw (src : List UInt8) (origLen : Nat) : Except Stop (List UInt8) :=
  if maxRawLen < origLen then .error .corrupt
  else
    match decodeGroups src.length origLen (src.length + 1) ⟨0, src, []⟩ with
    | .error e => .error e
    | .ok p => if p.out.length = origLen ∧ p.ip = src.length then .ok p.out else .error .corrupt

end Toast.Pglz
