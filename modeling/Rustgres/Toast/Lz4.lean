-- SUMMARY: The LZ4 block codec: the encoder and the decoder.
import Mathlib.Algebra.Group.Nat.Defs
import Rustgres.Toast.Decoders

/-!
# LZ4 Blocks

A block is a list of sequences, each a token, literals, and a match; the last has no match. Lengths of
15 and more run over into extension bytes.
-/

namespace Toast.Lz4

def minMatch : Nat := 4

def mfLimit : Nat := 12

def lastLiterals : Nat := 5

def distanceMax : Nat := 65535

/-! ## The encoder -/

/-- The bytes of a length above 15: 255 as often as it goes, then the rest. -/
@[grind =]
def runBytes (rem : Nat) : List UInt8 :=
  if rem < 255 then [UInt8.ofNat rem] else 255 :: runBytes (rem - 255)

/-- The high half of a token counts literals, the low half match bytes beyond the fourth. -/
def token (ll ml : Nat) : UInt8 :=
  UInt8.ofNat ((if 15 ≤ ll then 0xF0 else ll * 16) + (if 15 ≤ ml then 0x0F else ml))

def extension (len : Nat) : List UInt8 :=
  if 15 ≤ len then runBytes (len - 15) else []

def offsetBytes (offset : Nat) : List UInt8 :=
  [UInt8.ofNat (offset % 256), UInt8.ofNat (offset / 256 % 256)]

/-- One sequence: literals, then optionally a match of `matchLen` bytes at `offset` bytes back. -/
def emit (literals : List UInt8) : Option (Nat × Nat) → List UInt8
  | none => token literals.length 0 :: (extension literals.length ++ literals)
  | some (offset, matchLen) =>
    let ml := matchLen - minMatch
    token literals.length ml ::
      (extension literals.length ++ literals ++ offsetBytes offset ++ extension ml)

/-- The bucket of the four bytes at `pos`. -/
def bucket (input : List UInt8) (pos : Nat) : Nat :=
  let byte (i : Nat) := (input.getD (pos + i) 0).toNat
  let seq := byte 0 + 256 * byte 1 + 256 ^ 2 * byte 2 + 256 ^ 3 * byte 3
  seq * 2654435761 % 2 ^ 32 / 2 ^ 20

/-- The match that the bucket of `pos` leads to: its offset and its length. -/
def findMatch (input : List UInt8) (table : Nat → Nat) (pos : Nat) : Option (Nat × Nat) :=
  let candPlus1 := table (bucket input pos)
  let c := candPlus1 - 1
  if candPlus1 ≠ 0 ∧ c < pos ∧ pos - c ≤ distanceMax then
    let len := Window.agreeing input (input.length - lastLiterals - pos) c pos
    if minMatch ≤ len then some (pos - c, len) else none
  else none

theorem le_of_findMatch {input : List UInt8} {table : Nat → Nat} {pos offset len : Nat}
    (h : findMatch input table pos = some (offset, len)) : minMatch ≤ len := by
  unfold findMatch at h
  dsimp only at h
  split at h
  · split at h
    · cases h
      assumption
    · cases h
  · cases h

/-- The search goes on from `pos`; the bytes from `anchor` on are not written yet. -/
def search (input : List UInt8) (table : Nat → Nat) (anchor pos : Nat) (out : List UInt8) :
    List UInt8 :=
  if pos + mfLimit ≤ input.length then
    let table' := Function.update table (bucket input pos) ((pos + 1) % 2 ^ 32)
    match _h : findMatch input table pos with
    | some (offset, len) =>
      search input table' (pos + len) (pos + len)
        (out ++ emit ((input.take pos).drop anchor) (some (offset, len)))
    | none => search input table' anchor (pos + 1) out
  else out ++ emit (input.drop anchor) none
termination_by input.length + 1 - pos
decreasing_by
  · have := le_of_findMatch _h
    unfold minMatch at this
    unfold mfLimit at *
    omega
  · unfold mfLimit at *
    omega

def compressBlock (input : List UInt8) : List UInt8 :=
  if input = [] then [0] else search input (fun _ => 0) 0 0 []

/-! ## The decoder -/

/-- Read extension bytes: none may be read from `before` on, nor end behind `after`. -/
@[grind =]
def readRun (before after : Nat) : List UInt8 → Nat → Nat → Except Stop (Nat × Nat × List UInt8)
  | rest, ip, len =>
    if before ≤ ip then .error .corrupt
    else
      match rest with
      | [] => .error .panicked
      | b :: rest =>
        if after < ip + 1 then .error .corrupt
        else if b ≠ 255 then .ok (len + b.toNat, ip + 1, rest)
        else readRun before after rest (ip + 1) (len + b.toNat)

/-- The literal run of a token; its extension stays out of the last 15 bytes. -/
def readLitLen (n : Nat) (tok : UInt8) (rest : List UInt8) (ip : Nat) :
    Except Stop (Nat × Nat × List UInt8) :=
  let litLen := tok.toNat / 16
  if litLen = 15 then
    if n < 15 then .error .corrupt else readRun (n - 15) (n - 15) rest ip litLen
  else .ok (litLen, ip, rest)

/-- The match run of a token; its extension stays out of the last four bytes. -/
def readMatchLen (n : Nat) (tok : UInt8) (rest : List UInt8) (ip : Nat) :
    Except Stop (Nat × Nat × List UInt8) :=
  let matchLen := tok.toNat % 16
  if matchLen = 15 then
    if n < lastLiterals - 1 then .error .corrupt
    else readRun n (n - (lastLiterals - 1)) rest ip matchLen
  else .ok (matchLen, ip, rest)

/-- Copy literals to the output, which has room for `outLen` bytes. -/
def copyLiterals (outLen litLen : Nat) (rest out : List UInt8) :
    Except Stop (List UInt8 × List UInt8) :=
  if rest.length < litLen ∨ outLen < out.length + litLen then .error .panicked
  else .ok (out ++ rest.take litLen, rest.drop litLen)

def readOffset (n ip : Nat) : List UInt8 → Except Stop (Nat × List UInt8)
  | rest =>
    if n < ip + 2 then .error .corrupt
    else
      match rest with
      | b₀ :: b₁ :: rest => .ok (b₀.toNat + 256 * b₁.toNat, rest)
      | _ => .error .panicked

/-- One sequence. The last leaves no input. -/
def decodeSequence (n outLen : Nat) (p : Progress) : Except Stop (Progress ⊕ Progress) :=
  match p.rest with
  | [] => .error .corrupt
  | tok :: rest => do
    let (litLen, ip, rest) ← readLitLen n tok rest (p.ip + 1)
    let litEnd := ip + litLen
    let opEnd := p.out.length + litLen
    if n - (2 + 1 + lastLiterals) < litEnd ∨ outLen - mfLimit < opEnd then
      if litEnd ≠ n ∨ outLen < opEnd then .error .corrupt
      else
        let (out, rest) ← copyLiterals outLen litLen rest p.out
        .ok (.inr ⟨litEnd, rest, out⟩)
    else
      let (out, rest) ← copyLiterals outLen litLen rest p.out
      let (offset, rest) ← readOffset n litEnd rest
      if offset = 0 ∨ out.length < offset then .error .corrupt
      else
        let (matchLen, ip, rest) ← readMatchLen n tok rest (litEnd + 2)
        let matchLen := matchLen + minMatch
        if outLen < lastLiterals ∨ outLen - lastLiterals < out.length + matchLen then .error .corrupt
        else
          let out ← copyMatch outLen offset matchLen out
          .ok (.inl ⟨ip, rest, out⟩)

/-- Sequence after sequence; the fuel bounds their number. -/
def decode (n outLen : Nat) : Nat → Progress → Except Stop (List UInt8)
  | 0, _ => .error .diverged
  | fuel + 1, p =>
    match decodeSequence n outLen p with
    | .error e => .error e
    | .ok (.inl p) => decode n outLen fuel p
    | .ok (.inr p) =>
      if p.out.length = outLen ∧ p.ip = n then .ok p.out else .error .corrupt

def decompressBlock (input : List UInt8) (outLen : Nat) : Except Stop (List UInt8) :=
  decode input.length outLen (input.length + 1) ⟨0, input, []⟩

end Toast.Lz4
