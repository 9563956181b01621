-- SUMMARY: Compressed values with their length in front, by either method; what they decompress to.
import Rustgres.Lib.Bytes
import Rustgres.Toast.Lz4Blocks
import Rustgres.Toast.PglzRoundTrip

/-!
# Compressed Values

A compressed value is the length of the value in four bytes, the lowest first, and a payload. The history
that the PGLZ encoder keeps between calls does not show in what it answers.
-/

namespace Toast

/-- The ways to compress a value. -/
inductive ToastCompression where
  | pglz
  | lz4
deriving DecidableEq, Repr

/-- A length in four bytes, the lowest first. -/
def lengthBytes (n : Nat) : List UInt8 := (Bytes.be 4 n).reverse

def readLength (bytes : List UInt8) : Nat := Bytes.ofBe (bytes.take 4).reverse

namespace Pglz

def frame (input : List UInt8) (payload : List UInt8) : List UInt8 :=
  lengthBytes input.length ++ payload

def compressPglz (hist : PglzHist) (input : List UInt8) :
    Except Stop (PglzHist × Option (List UInt8)) :=
  (compressPayload hist input).map fun (hist, payload) => (hist, payload.map (frame input))

def decompressPglz (input : List UInt8) : Except Stop (List UInt8) :=
  if input.length < 4 then .error .corrupt else decompressRaw (input.drop 4) (readLength input)

end Pglz

namespace Lz4

def compressLz4 (input : List UInt8) : Option (List UInt8) :=
  if 2 ^ 32 - 1 < input.length then none
  else
    let block := compressBlock input
    if input.length < block.length then none else some (lengthBytes input.length ++ block)

def decompressLz4 (input : List UInt8) : Except Stop (List UInt8) :=
  if input.length < 4 then .error .corrupt
  else if 1000000000 < readLength input then .error .corrupt
  else decompressBlock (input.drop 4) (readLength input)

end Lz4

def compressValue (hist : Pglz.PglzHist) (input : List UInt8) :
    ToastCompression → Except Stop (Pglz.PglzHist × Option (List UInt8))
  | .pglz => Pglz.compressPglz hist input
  | .lz4 => .ok (hist, Lz4.compressLz4 input)

def decompressValue (input : List UInt8) : ToastCompression → Except Stop (List UInt8)
  | .pglz => Pglz.decompressPglz input
  | .lz4 => Lz4.decompressLz4 input

/-! ## The history does not show -/

namespace Pglz

open Chains

theorem Linked.start_eq {next next' : Nat → Nat} {s s' : Nat} {l : List Nat} (h : Linked next s l)
    (h' : Linked next' s' l) : s = s' := by
  cases l with
  | nil =>
      have hs : s = 0 := h
      have hs' : s' = 0 := h'
      rw [hs, hs']
  | cons e l => exact h.1.trans h'.1.symm

variable {input : List UInt8} {hashsz dp : Nat} {hist hist' : PglzHist}

theorem searchChain_congr (js : List Nat) {fuel hent len off goodMatch : Nat}
    (h : Linked hist.next hent (js.map slot)) (h' : Linked hist'.next hent (js.map slot))
    (hpos : ∀ j ∈ js, hist.pos (slot j) = hist'.pos (slot j)) :
    searchChain hist input dp fuel hent len off goodMatch
      = searchChain hist' input dp fuel hent len off goodMatch := by
  induction js generalizing fuel hent len off goodMatch with
  | nil =>
      have hzero : hent = 0 := h
      cases fuel with
      | zero => rfl
      | succ fuel => rw [searchChain, if_pos hzero, searchChain, if_pos hzero]
  | cons j js ih =>
      obtain ⟨hhead, hne, hrest⟩ := h
      obtain ⟨-, -, hrest'⟩ := h'
      subst hhead
      cases fuel with
      | zero => rfl
      | succ fuel =>
          have hnext := Linked.start_eq hrest hrest'
          rw [← hnext] at hrest'
          rw [searchChain, if_neg hne, searchChain, if_neg hne, hpos j List.mem_cons_self, hnext]
          rw [hnext] at hrest hrest'
          have hih (len off goodMatch : Nat) := @ih fuel _ len off goodMatch hrest hrest'
            fun i hi => hpos i (List.mem_cons_of_mem j hi)
          simp only [hih]

/-- Two histories that remember the same positions answer the same. -/
theorem findMatch_congr (hr : Remembers input hashsz hist dp) (hr' : Remembers input hashsz hist' dp)
    (hsz : 0 < hashsz) : findMatch hist input dp hashsz = findMatch hist' input dp hashsz := by
  have hlt := histIdx_lt input dp hsz
  have hlinked := (hr.threads.chain _ hlt).linked
  have hlinked' := (hr'.threads.chain _ hlt).linked
  have hstart := Linked.start_eq hlinked hlinked'
  rw [hstart] at hlinked
  unfold findMatch
  rw [hstart, searchChain_congr _ hlinked hlinked' fun j hj => ?_]
  have hrecent := (mem_sameHash.1 hj).1
  rw [hr.threads.pos j hrecent, hr'.threads.pos j hrecent]

/-- Two coders that differ at most in what their histories hold of earlier calls. -/
structure Alike (input : List UInt8) (c c' : Coder) : Prop where
  hist : Remembers input (hashSize input.length) c.hist c.dp
  hist' : Remembers input (hashSize input.length) c'.hist c.dp
  output : c'.output = c.output
  dp : c'.dp = c.dp
  found : c'.foundMatch = c.foundMatch

/-- Alike coders give up together, or move on alike. -/
theorem Alike.codeItem {c c' : Coder} (h : Alike input c c') :
    (∃ e, Pglz.codeItem input c = .error e ∧ Pglz.codeItem input c' = .error e) ∨
      (Pglz.codeItem input c = .ok none ∧ Pglz.codeItem input c' = .ok none) ∨
      ∃ d d', Pglz.codeItem input c = .ok (some d) ∧ Pglz.codeItem input c' = .ok (some d') ∧
        Alike input d d' := by
  have hsz := hashSize_pos input.length
  unfold Pglz.codeItem
  dsimp only
  rw [h.output, h.dp, h.found, ← findMatch_congr h.hist h.hist' hsz]
  split
  · exact .inr (.inl ⟨rfl, rfl⟩)
  · split
    · exact .inr (.inl ⟨rfl, rfl⟩)
    · split
      · exact .inl ⟨_, rfl, rfl⟩
      · exact .inr (.inr ⟨_, _, rfl, rfl, h.hist.addAll hsz _, h.hist'.addAll hsz _, rfl, rfl, rfl⟩)
      · split
        · exact .inl ⟨_, rfl, rfl⟩
        · exact .inr (.inr ⟨_, _, rfl, rfl, h.hist.histAdd hsz, h.hist'.histAdd hsz, rfl, rfl, rfl⟩)

/-- What is answered, without the history that is left. -/
def answer (r : Except Stop (PglzHist × Option (List UInt8))) : Except Stop (Option (List UInt8)) :=
  r.map (·.2)

theorem Alike.codeItems (fuel : Nat) {c c' : Coder} (h : Alike input c c') :
    answer (Pglz.codeItems input fuel c') = answer (Pglz.codeItems input fuel c) := by
  induction fuel generalizing c c' with
  | zero => rfl
  | succ fuel ih =>
      unfold Pglz.codeItems
      rw [h.dp, h.output]
      split
      · rcases h.codeItem with ⟨e, he, he'⟩ | ⟨hnone, hnone'⟩ | ⟨d, d', hd, hd', halike⟩
        · rw [he, he']
        · rw [hnone, hnone']
          rfl
        · rw [hd, hd']
          exact ih halike
      · cases finish input c.output <;> rfl

/-- Whatever calls came before, the same payload is answered. -/
theorem answer_compressPayload (hist hist' : PglzHist) (input : List UInt8) :
    answer (compressPayload hist' input) = answer (compressPayload hist input) := by
  unfold compressPayload
  split
  · rfl
  · exact Alike.codeItems _ ⟨remembers_reset hist, remembers_reset hist', rfl, rfl, rfl⟩

end Pglz

/-! ## What is answered -/

/-- A value compressed by a method, if the method accepts it. -/
def compressed (input : List UInt8) (method : ToastCompression) : Option (List UInt8) :=
  match compressValue Pglz.newHist input method with
  | .ok (_, r) => r
  | .error _ => none

theorem length_lengthBytes (n : Nat) : (lengthBytes n).length = 4 := by
  unfold lengthBytes
  rw [List.length_reverse, Bytes.length_be]

theorem readLength_append {n : Nat} (h : n < 2 ^ 32) (rest : List UInt8) :
    readLength (lengthBytes n ++ rest) = n := by
  have hlen := length_lengthBytes n
  unfold readLength
  rw [List.take_append_of_le_length (Nat.le_of_eq hlen.symm), List.take_of_length_le (Nat.le_of_eq hlen)]
  unfold lengthBytes
  rw [List.reverse_reverse, Bytes.ofBe_be]
  exact Nat.mod_eq_of_lt h

theorem drop_lengthBytes (n : Nat) (rest : List UInt8) : (lengthBytes n ++ rest).drop 4 = rest := by
  rw [← length_lengthBytes n, List.drop_left]

theorem four_le_length (n : Nat) (rest : List UInt8) : ¬(lengthBytes n ++ rest).length < 4 := by
  rw [List.length_append, length_lengthBytes]
  omega

/-- Whatever calls came before, a value is compressed to the same bytes. -/
theorem compressValue_eq (hist : Pglz.PglzHist) (input : List UInt8) (method : ToastCompression) :
    ∃ hist', compressValue hist input method = .ok (hist', compressed input method) := by
  cases method with
  | lz4 => exact ⟨hist, rfl⟩
  | pglz =>
      have hanswer := Pglz.answer_compressPayload Pglz.newHist hist input
      obtain ⟨hist', r, hr, -⟩ := Pglz.compressPayload_spec hist input
      obtain ⟨hist₀, r₀, hr₀, -⟩ := Pglz.compressPayload_spec Pglz.newHist input
      rw [hr, hr₀] at hanswer
      have heq : r = r₀ := Except.ok.inj hanswer
      subst heq
      unfold compressed compressValue Pglz.compressPglz
      rw [hr, hr₀]
      exact ⟨hist', rfl⟩

/-- A compressed value decompresses to the value, up to the decoders' limit. -/
theorem decompressValue_compressed {input c : List UInt8} {method : ToastCompression}
    (h : compressed input method = some c) (hle : input.length ≤ 1000000000) :
    decompressValue c method = .ok input := by
  have hlt : input.length < 2 ^ 32 := by omega
  cases method with
  | pglz =>
      obtain ⟨hist', r, hr, hpayload⟩ := Pglz.compressPayload_spec Pglz.newHist input
      unfold compressed compressValue Pglz.compressPglz at h
      rw [hr] at h
      cases r with
      | none => cases h
      | some payload =>
          cases h
          obtain ⟨-, -, hdec⟩ := hpayload payload rfl
          unfold decompressValue Pglz.decompressPglz
          dsimp only
          unfold Pglz.frame
          rw [if_neg (four_le_length _ _), readLength_append hlt, drop_lengthBytes, hdec]
          exact if_pos hle
  | lz4 =>
      have hc : Lz4.compressLz4 input = some c := h
      unfold Lz4.compressLz4 at hc
      rw [if_neg (by omega)] at hc
      dsimp only at hc
      split at hc
      · cases hc
      · cases hc
        unfold decompressValue Lz4.decompressLz4
        dsimp only
        rw [if_neg (four_le_length _ _), readLength_append hlt, drop_lengthBytes,
          if_neg (Nat.not_lt.2 hle)]
        obtain ⟨seqs, last, hblock, hobeys, hplay⟩ := Lz4.compressBlock_encodes input
        exact Lz4.decompressBlock_of_encodes ⟨seqs, last, 0, by decide, hblock, hobeys, hplay⟩

end Toast
