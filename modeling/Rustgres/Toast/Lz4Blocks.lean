-- SUMMARY: What an LZ4 block is, that the encoder writes one for its input, and that the decoder reads just these.
import Rustgres.Toast.Lz4

/-!
# Well-Formed Blocks

A well-formed block is the code of sequences that obey the format. The encoder writes the code of
sequences that play its input, and the decoder inverts the code and refuses everything else.
-/

namespace Toast.Lz4

open Window (Step play copyBack Repeats agreeing)

/-! ## The format -/

/-- Literals, then a match. -/
structure Sequence where
  lits : List UInt8
  offset : Nat
  len : Nat

def Sequence.steps (s : Sequence) : List (Step UInt8) := [.lits s.lits, .copy s.offset s.len]

@[grind =]
def steps (seqs : List Sequence) (last : List UInt8) : List (Step UInt8) :=
  seqs.flatMap Sequence.steps ++ [.lits last]

def code (seqs : List Sequence) : List UInt8 :=
  seqs.flatMap fun s => emit s.lits (some (s.offset, s.len))

/-- The last sequence; the low half of its token means nothing. -/
def lastCode (low : Nat) (last : List UInt8) : List UInt8 :=
  token last.length low :: (extension last.length ++ last)

/-- The rules of the format for a text of `n` bytes, `p` of which are written: where matches point,
how short and how near to the end they may be. -/
def Obeys (n : Nat) : Nat → List Sequence → List UInt8 → Prop
  | p, [], last => p + last.length = n
  | p, s :: seqs, last =>
    let q := p + s.lits.length
    1 ≤ s.offset ∧ s.offset ≤ q ∧ s.offset ≤ distanceMax ∧ minMatch ≤ s.len ∧ q + mfLimit ≤ n ∧
      q + s.len + lastLiterals ≤ n ∧ Obeys n (q + s.len) seqs last

/-- `block` is a well-formed block of the `n` bytes `x`. -/
def Encodes (block : List UInt8) (n : Nat) (x : List UInt8) : Prop :=
  ∃ seqs last low, low < 16 ∧ block = code seqs ++ lastCode low last ∧ Obeys n 0 seqs last ∧
    play (steps seqs last) [] = some x

/-! ## Lengths -/

theorem toNat_token {ll ml : Nat} :
    (token ll ml).toNat / 16 = min ll 15 ∧ (token ll ml).toNat % 16 = min ml 15 := by
  have hhigh : (if 15 ≤ ll then 0xF0 else ll * 16) = min ll 15 * 16 := by
    split <;> omega
  have hlow : (if 15 ≤ ml then 0x0F else ml) = min ml 15 := by
    split <;> omega
  unfold token
  rw [hhigh, hlow, UInt8.toNat_ofNat']
  omega

/-- A token is the token of its halves. -/
theorem token_toNat (tok : UInt8) (ll ml : Nat) (hll : min ll 15 = tok.toNat / 16)
    (hml : min ml 15 = tok.toNat % 16) : token ll ml = tok := by
  have h := @toNat_token ll ml
  apply UInt8.toNat_inj.1
  omega

theorem one_le_length_runBytes (m : Nat) : 1 ≤ (runBytes m).length := by
  rw [runBytes]
  split
  · exact Nat.le_refl 1
  · exact Nat.succ_le_succ (Nat.zero_le _)

/-- A run is read back, if it ends early enough. -/
theorem readRun_runBytes {before after : Nat} (m : Nat) (more : List UInt8) (ip len : Nat)
    (hbefore : ip + (runBytes m).length ≤ before) (hafter : ip + (runBytes m).length ≤ after) :
    readRun before after (runBytes m ++ more) ip len
      = .ok (len + m, ip + (runBytes m).length, more) := by
  induction m using Nat.strongRecOn generalizing ip len with
  | ind m ih =>
      have hone := one_le_length_runBytes m
      have hrun : runBytes m = if m < 255 then [UInt8.ofNat m] else 255 :: runBytes (m - 255) := by
        rw [runBytes]
      by_cases hm : m < 255
      · rw [if_pos hm] at hrun
        have hbyte : (UInt8.ofNat m).toNat = m := by
          rw [UInt8.toNat_ofNat']
          omega
        have hne : UInt8.ofNat m ≠ 255 := by
          intro heq
          rw [heq] at hbyte
          change 255 = m at hbyte
          omega
        rw [hrun, List.cons_append, List.nil_append, readRun, if_neg (by omega)]
        rw [if_neg (by omega), if_pos hne, hbyte]
        rfl
      · rw [if_neg hm] at hrun
        have hlen : (runBytes m).length = (runBytes (m - 255)).length + 1 := by rw [hrun]; rfl
        rw [hrun, List.cons_append, readRun, if_neg (by omega)]
        have hbyte : (255 : UInt8).toNat = 255 := rfl
        rw [if_neg (by omega), if_neg (by simp), ih (m - 255) (by omega) _ _ (by omega) (by omega),
          List.length_cons, hbyte, Nat.add_assoc len, Nat.add_sub_cancel' (Nat.le_of_not_lt hm),
          Nat.add_assoc ip, Nat.add_comm 1]

/-- What is read as a run was a run that ended early enough. -/
theorem readRun_yields {before after n : Nat} (hbefore : before ≤ n) {rest : List UInt8} {ip : Nat}
    (hip : ip + rest.length = n) (len : Nat) :
    Yields (readRun before after rest ip len) fun (len', ip', rest') =>
      ∃ m, rest = runBytes m ++ rest' ∧ len' = len + m ∧ ip' = ip + (runBytes m).length ∧
        ip' ≤ before ∧ ip' ≤ after := by
  induction rest generalizing ip len with
  | nil =>
      rw [readRun, if_pos (by rw [List.length_nil] at hip; omega)]
      exact .corrupt
  | cons b rest ih =>
      rw [readRun]
      split
      · exact .corrupt
      · split
        · exact .corrupt
        · split
          · rename_i hne
            have hlt : b.toNat < 255 := by
              have hb := b.toNat_lt
              have : b.toNat ≠ 255 := fun heq => hne (UInt8.toNat_inj.1 heq)
              omega
            have hrun : runBytes b.toNat = [b] := by
              rw [runBytes, if_pos hlt, UInt8.ofNat_toNat]
            exact .ok ⟨b.toNat, by rw [hrun]; rfl, rfl, by rw [hrun]; rfl, by omega, by omega⟩
          · rename_i heq
            have heq : b = 255 := by simpa using heq
            rw [List.length_cons] at hip
            apply (ih (by omega) _).mono
            rintro ⟨len', ip', rest'⟩ ⟨m, hrest, hlen, hip', hb, ha⟩
            have hrun : runBytes (m + 255) = 255 :: runBytes m := by
              rw [runBytes, if_neg (by omega), Nat.add_sub_cancel]
            refine ⟨m + 255, by rw [hrun, hrest, heq]; rfl, ?_, ?_, hb, ha⟩
            · rw [hlen, heq]
              change len + 255 + m = _
              omega
            · rw [hip', hrun, List.length_cons]
              omega

theorem extension_of_lt {len : Nat} (h : len < 15) : extension len = [] :=
  if_neg (by omega)

theorem extension_add (m : Nat) : extension (15 + m) = runBytes m := by
  rw [extension, if_pos (by omega), Nat.add_sub_cancel_left]

theorem readLitLen_extension {n : Nat} {tok : UInt8} {len ip : Nat} (more : List UInt8)
    (htok : tok.toNat / 16 = min len 15) (hend : 15 ≤ len → ip + (extension len).length + 15 ≤ n) :
    readLitLen n tok (extension len ++ more) ip = .ok (len, ip + (extension len).length, more) := by
  unfold readLitLen
  rw [htok]
  dsimp only
  by_cases hlen : len < 15
  · rw [if_neg (by omega), extension_of_lt hlen, Nat.min_eq_left (by omega)]
    rfl
  · obtain ⟨m, rfl⟩ := Nat.exists_eq_add_of_le (Nat.le_of_not_lt hlen)
    have hend := hend (by omega)
    rw [extension_add] at hend ⊢
    rw [if_pos (by omega), if_neg (by omega), Nat.min_eq_right (by omega)]
    exact readRun_runBytes m more ip 15 (by omega) (by omega)

theorem readMatchLen_extension {n : Nat} {tok : UInt8} {len ip : Nat} (more : List UInt8)
    (htok : tok.toNat % 16 = min len 15) (hend : ip + (extension len).length + 4 ≤ n) :
    readMatchLen n tok (extension len ++ more) ip = .ok (len, ip + (extension len).length, more) := by
  unfold readMatchLen lastLiterals
  rw [htok]
  dsimp only
  by_cases hlen : len < 15
  · rw [if_neg (by omega), extension_of_lt hlen, Nat.min_eq_left (by omega)]
    rfl
  · obtain ⟨m, rfl⟩ := Nat.exists_eq_add_of_le (Nat.le_of_not_lt hlen)
    rw [extension_add] at hend ⊢
    rw [if_pos (by omega), if_neg (by omega), Nat.min_eq_right (by omega)]
    exact readRun_runBytes m more ip 15 (by omega) (by omega)

theorem readLitLen_yields {n : Nat} (tok : UInt8) {rest : List UInt8} {ip : Nat}
    (hip : ip + rest.length = n) :
    Yields (readLitLen n tok rest ip) fun (len, ip', rest') =>
      tok.toNat / 16 = min len 15 ∧ rest = extension len ++ rest' ∧
        ip' = ip + (extension len).length := by
  have htok := tok.toNat_lt
  unfold readLitLen
  dsimp only
  split
  · rename_i h15
    split
    · exact .corrupt
    · apply (readRun_yields (n := n) (by omega) hip _).mono
      rintro ⟨len, ip', rest'⟩ ⟨m, hrest, hlen, hip', -, -⟩
      rw [h15] at hlen
      subst hlen
      rw [extension_add]
      exact ⟨by omega, hrest, hip'⟩
  · refine .ok ⟨by omega, ?_, ?_⟩
    · rw [extension_of_lt (by omega)]
      rfl
    · rw [extension_of_lt (by omega)]
      rfl

theorem readMatchLen_yields {n : Nat} (tok : UInt8) {rest : List UInt8} {ip : Nat}
    (hip : ip + rest.length = n) :
    Yields (readMatchLen n tok rest ip) fun (len, ip', rest') =>
      tok.toNat % 16 = min len 15 ∧ rest = extension len ++ rest' ∧
        ip' = ip + (extension len).length := by
  unfold readMatchLen
  dsimp only
  split
  · rename_i h15
    split
    · exact .corrupt
    · apply (readRun_yields (Nat.le_refl n) hip _).mono
      rintro ⟨len, ip', rest'⟩ ⟨m, hrest, hlen, hip', -, -⟩
      rw [h15] at hlen
      subst hlen
      rw [extension_add]
      exact ⟨by omega, hrest, hip'⟩
  · refine .ok ⟨by omega, ?_, ?_⟩
    · rw [extension_of_lt (by omega)]
      rfl
    · rw [extension_of_lt (by omega)]
      rfl

/-! ## Offsets -/

theorem readOffset_offsetBytes {n ip offset : Nat} (hoffset : offset ≤ distanceMax) (more : List UInt8)
    (hip : ip + 2 ≤ n) : readOffset n ip (offsetBytes offset ++ more) = .ok (offset, more) := by
  unfold distanceMax at hoffset
  have hlow : (UInt8.ofNat (offset % 256)).toNat = offset % 256 := by
    rw [UInt8.toNat_ofNat']
    omega
  have hhigh : (UInt8.ofNat (offset / 256 % 256)).toNat = offset / 256 := by
    rw [UInt8.toNat_ofNat']
    omega
  unfold readOffset offsetBytes
  rw [if_neg (by omega), List.cons_append, List.cons_append, List.nil_append]
  dsimp only
  rw [hlow, hhigh, Nat.mod_add_div]

theorem readOffset_yields {n ip : Nat} {rest : List UInt8} (hip : ip + rest.length = n) :
    Yields (readOffset n ip rest) fun (offset, rest') =>
      rest = offsetBytes offset ++ rest' ∧ offset ≤ distanceMax := by
  unfold readOffset
  split
  · exact .corrupt
  · rcases rest with _ | ⟨b₀, _ | ⟨b₁, rest⟩⟩
    · rw [List.length_nil] at hip
      omega
    · rw [List.length_singleton] at hip
      omega
    · have h₀ := b₀.toNat_lt
      have h₁ := b₁.toNat_lt
      refine .ok ⟨?_, ?_⟩
      · unfold offsetBytes
        rw [show (b₀.toNat + 256 * b₁.toNat) % 256 = b₀.toNat by omega,
          show (b₀.toNat + 256 * b₁.toNat) / 256 % 256 = b₁.toNat by omega, UInt8.ofNat_toNat,
          UInt8.ofNat_toNat]
        rfl
      · unfold distanceMax
        omega

/-! ## One sequence -/

theorem length_offsetBytes (offset : Nat) : (offsetBytes offset).length = 2 := rfl

theorem emit_some (lits : List UInt8) (offset len : Nat) :
    emit lits (some (offset, len)) = token lits.length (len - minMatch) ::
      (extension lits.length ++ (lits ++ (offsetBytes offset ++ extension (len - minMatch)))) := by
  unfold emit
  simp only [List.append_assoc]

/-- The code of a sequence is decoded as its literals and its copy. -/
theorem decodeSequence_emit {n outLen : Nat} {p : Progress} {s : Sequence} {more out' : List UInt8}
    (hat : p.At n) (hrest : p.rest = emit s.lits (some (s.offset, s.len)) ++ more)
    (hmore : 6 ≤ more.length) (hoffset : 1 ≤ s.offset) (hmax : s.offset ≤ distanceMax)
    (hback : s.offset ≤ p.out.length + s.lits.length) (hlen : minMatch ≤ s.len)
    (hstart : p.out.length + s.lits.length + mfLimit ≤ outLen)
    (hend : p.out.length + s.lits.length + s.len + lastLiterals ≤ outLen)
    (hcopy : copyBack s.offset s.len (p.out ++ s.lits) = some out') :
    decodeSequence n outLen p = .ok (.inl ⟨n - more.length, more, out'⟩) := by
  obtain ⟨ip, rest, out⟩ := p
  obtain ⟨lits, offset, len⟩ := s
  dsimp only at *
  unfold Progress.At at hat
  subst hrest
  rw [emit_some] at hat ⊢
  unfold minMatch mfLimit lastLiterals at *
  simp only [List.cons_append, List.append_assoc, List.length_cons, List.length_append,
    length_offsetBytes] at hat
  unfold decodeSequence
  simp only [List.cons_append, List.append_assoc]
  have htok := @toNat_token lits.length (len - 4)
  rw [readLitLen_extension _ htok.1 (by omega)]
  dsimp only [bind, Except.bind]
  unfold lastLiterals mfLimit
  rw [if_neg (by omega)]
  unfold copyLiterals
  rw [if_neg (by simp only [List.length_append, length_offsetBytes]; omega), List.take_left,
    List.drop_left]
  dsimp only
  rw [readOffset_offsetBytes hmax _ (by omega)]
  dsimp only
  rw [if_neg (by rw [List.length_append]; omega)]
  unfold minMatch
  rw [readMatchLen_extension _ htok.2 (by omega)]
  dsimp only
  rw [Nat.sub_add_cancel hlen, if_neg (by rw [List.length_append]; omega),
    copyMatch_eq hcopy (by rw [List.length_append]; omega)
      (by rw [List.length_append]; omega)]
  dsimp only
  rw [show n - more.length = ip + 1 + (extension lits.length).length + lits.length + 2
    + (extension (len - 4)).length by omega]

theorem decodeSequence_last {n outLen low : Nat} {p : Progress} {last : List UInt8} (hat : p.At n)
    (hrest : p.rest = lastCode low last) (hroom : p.out.length + last.length ≤ outLen) :
    decodeSequence n outLen p = .ok (.inr ⟨n, [], p.out ++ last⟩) := by
  obtain ⟨ip, rest, out⟩ := p
  dsimp only at *
  unfold Progress.At at hat
  subst hrest
  unfold lastCode at hat ⊢
  simp only [List.length_cons, List.length_append] at hat
  unfold decodeSequence
  dsimp only
  have htok := @toNat_token last.length low
  rw [readLitLen_extension _ htok.1 (by omega)]
  dsimp only [bind, Except.bind]
  have hend : ip + 1 + (extension last.length).length + last.length = n := by omega
  unfold lastLiterals
  rw [hend, if_pos (.inl (by omega)), if_neg (by omega)]
  unfold copyLiterals
  rw [if_neg (by omega), List.take_length, List.drop_length]

/-- A sequence that is accepted: what it is the code of, and the rules it obeys. -/
structure Accepts (n outLen : Nat) (p p' : Progress) (s : Sequence) : Prop where
  rest : p.rest = emit s.lits (some (s.offset, s.len)) ++ p'.rest
  place : p'.At n
  offset : 1 ≤ s.offset
  back : s.offset ≤ p.out.length + s.lits.length
  distance : s.offset ≤ distanceMax
  len : minMatch ≤ s.len
  start : p.out.length + s.lits.length + mfLimit ≤ outLen
  fits : p.out.length + s.lits.length + s.len + lastLiterals ≤ outLen
  copy : copyBack s.offset s.len (p.out ++ s.lits) = some p'.out
  length : p'.out.length = p.out.length + s.lits.length + s.len

/-- A last sequence that is accepted. -/
structure Ends (n outLen : Nat) (p p' : Progress) (low : Nat) (last : List UInt8) : Prop where
  nibble : low < 16
  rest : p.rest = lastCode low last
  place : p'.ip = n
  fits : p.out.length + last.length ≤ outLen
  out : p'.out = p.out ++ last

theorem copyLiterals_yields {outLen litLen : Nat} {rest out : List UInt8} (hrest : litLen ≤ rest.length)
    (hroom : out.length + litLen ≤ outLen) :
    copyLiterals outLen litLen rest out = .ok (out ++ rest.take litLen, rest.drop litLen) := by
  unfold copyLiterals
  rw [if_neg (by omega)]

theorem decodeSequence_yields {n outLen : Nat} {p : Progress} (hat : p.At n) :
    Yields (decodeSequence n outLen p) fun
      | .inl p' => ∃ s, Accepts n outLen p p' s
      | .inr p' => ∃ low last, Ends n outLen p p' low last := by
  obtain ⟨ip, rest, out⟩ := p
  unfold Progress.At at hat
  unfold decodeSequence
  cases rest with
  | nil => exact .corrupt
  | cons tok rest =>
      rw [List.length_cons] at hat
      dsimp only at *
      apply (readLitLen_yields tok (by omega : ip + 1 + rest.length = n)).bind
      rintro ⟨litLen, ip₁, rest₁⟩ ⟨hlit, hrest, hip₁⟩
      dsimp only at *
      subst hrest hip₁
      rw [List.length_append] at hat
      split
      · split
        · exact .corrupt
        · rw [copyLiterals_yields (by omega) (by omega)]
          have hall : rest₁.take litLen = rest₁ := List.take_of_length_le (by omega)
          have hlen : litLen = rest₁.length := by omega
          refine .ok ⟨tok.toNat % 16, rest₁, by omega, ?_, by dsimp only; omega, by dsimp only; omega, ?_⟩
          · unfold lastCode
            rw [← hlen, token_toNat tok litLen (tok.toNat % 16) hlit.symm (by omega)]
          · rw [hall]
      · rename_i hmore
        unfold lastLiterals mfLimit at hmore
        rw [copyLiterals_yields (by omega) (by omega)]
        dsimp only [bind, Except.bind]
        apply (readOffset_yields (by rw [List.length_drop]; omega)).bind
        rintro ⟨offset, rest₂⟩ ⟨hrest₂, hdistance⟩
        dsimp only at *
        have hlen₁ : (rest₁.take litLen).length = litLen := List.length_take_of_le (by omega)
        have hlen₂ := congrArg List.length hrest₂
        rw [List.length_drop, List.length_append, length_offsetBytes] at hlen₂
        split
        · exact .corrupt
        · rename_i hoffset
          rw [List.length_append, hlen₁] at hoffset
          apply (readMatchLen_yields tok (by omega)).bind
          rintro ⟨matchLen, ip₃, rest₃⟩ ⟨hmatch, hrest₃, hip₃⟩
          dsimp only at *
          have hlen₃ := congrArg List.length hrest₃
          rw [List.length_append] at hlen₃
          split
          · exact .corrupt
          · rename_i hfits
            rw [List.length_append, hlen₁] at hfits
            unfold lastLiterals minMatch at hfits
            obtain ⟨out', hcopy, hout'⟩ := @Window.copyBack_isSome _ offset (by omega)
              (matchLen + minMatch) (out ++ rest₁.take litLen) (by rw [List.length_append, hlen₁]; omega)
            rw [List.length_append, hlen₁] at hout'
            have hroom : (out ++ rest₁.take litLen).length + (matchLen + minMatch) ≤ outLen := by
              rw [List.length_append, hlen₁]
              unfold minMatch
              omega
            rw [copyMatch_eq hcopy (by rw [List.length_append, hlen₁]; omega) hroom]
            refine .ok ⟨⟨rest₁.take litLen, offset, matchLen + minMatch⟩, ?_, ?_, ?_, ?_, hdistance,
              Nat.le_add_left .., ?_, ?_, hcopy, ?_⟩
            · rw [emit_some, hlen₁, Nat.add_sub_cancel, token_toNat tok _ _ hlit.symm hmatch.symm]
              simp only [List.cons_append, List.append_assoc]
              rw [← hrest₃, ← hrest₂, List.take_append_drop]
            · unfold Progress.At
              dsimp only
              omega
            · dsimp only
              omega
            · dsimp only
              omega
            · dsimp only
              unfold mfLimit
              omega
            · dsimp only
              unfold lastLiterals minMatch
              omega
            · dsimp only
              rw [hlen₁]
              exact hout'

/-! ## All sequences -/

theorem length_emit (lits : List UInt8) (m : Nat × Nat) : 3 ≤ (emit lits (some m)).length := by
  obtain ⟨offset, len⟩ := m
  rw [emit_some]
  simp only [List.length_cons, List.length_append, length_offsetBytes]
  omega

/-- Behind a match there are a token and five literals at least. -/
theorem length_code {n : Nat} (seqs : List Sequence) {p low : Nat} {last : List UInt8}
    (hobeys : Obeys n p seqs last) (hp : p + lastLiterals ≤ n) :
    6 ≤ (code seqs ++ lastCode low last).length := by
  unfold lastLiterals at hp
  induction seqs generalizing p with
  | nil =>
      have hlast : p + last.length = n := hobeys
      unfold code lastCode
      simp only [List.flatMap_nil, List.nil_append, List.length_cons, List.length_append]
      omega
  | cons s seqs ih =>
      obtain ⟨-, -, -, -, -, hend, hobeys⟩ := hobeys
      have := ih hobeys hend
      unfold code at *
      rw [List.flatMap_cons, List.append_assoc, List.length_append]
      omega

theorem play_steps_cons (s : Sequence) (seqs : List Sequence) (last out : List UInt8) :
    play (steps (s :: seqs) last) out
      = if 0 < s.offset ∧ s.offset ≤ (out ++ s.lits).length then
          (copyBack s.offset s.len (out ++ s.lits)).bind (play (steps seqs last))
        else none := by
  unfold steps
  rw [List.flatMap_cons, List.append_assoc]
  rfl

/-- The code of sequences that obey the format is decoded as what they play. -/
theorem decode_code {n outLen : Nat} (seqs : List Sequence) {p : Progress} {low fuel : Nat}
    {last x : List UInt8} (hat : p.At n) (hrest : p.rest = code seqs ++ lastCode low last)
    (hobeys : Obeys outLen p.out.length seqs last) (hplay : play (steps seqs last) p.out = some x)
    (hfuel : seqs.length < fuel) : decode n outLen fuel p = .ok x := by
  induction seqs generalizing p fuel with
  | nil =>
      obtain ⟨fuel, rfl⟩ := Nat.exists_eq_add_one_of_ne_zero (Nat.ne_zero_of_lt hfuel)
      have hlen : p.out.length + last.length = outLen := hobeys
      have hx : some (p.out ++ last) = some x := hplay
      rw [decode, decodeSequence_last hat hrest (by omega)]
      dsimp only
      rw [if_pos ⟨by rw [List.length_append]; exact hlen, rfl⟩, Option.some.inj hx]
  | cons s seqs ih =>
      obtain ⟨fuel, rfl⟩ := Nat.exists_eq_add_one_of_ne_zero (Nat.ne_zero_of_lt hfuel)
      obtain ⟨hoffset, hback, hmax, hlen, hstart, hend, hobeys⟩ := hobeys
      have hback' : s.offset ≤ (p.out ++ s.lits).length := by
        rw [List.length_append]
        exact hback
      obtain ⟨out', hcopy, hout'⟩ := Window.copyBack_isSome hoffset s.len hback'
      rw [play_steps_cons, if_pos ⟨hoffset, hback'⟩, hcopy, Option.bind_some] at hplay
      rw [List.length_append] at hout'
      have hcode : p.rest = emit s.lits (some (s.offset, s.len)) ++ (code seqs ++ lastCode low last) := by
        rw [hrest]
        unfold code
        rw [List.flatMap_cons, List.append_assoc]
      have hshort : (code seqs ++ lastCode low last).length ≤ n := by
        unfold Progress.At at hat
        rw [hcode, List.length_append] at hat
        omega
      rw [decode, decodeSequence_emit hat hcode (length_code seqs hobeys hend) hoffset hmax hback hlen
        hstart hend hcopy]
      apply ih
      · exact Nat.sub_add_cancel hshort
      · rfl
      · dsimp only
        rw [hout']
        exact hobeys
      · exact hplay
      · rw [List.length_cons] at hfuel
        omega

/-- What the decoder reads is such a code; it reads all of its input, and gives up otherwise. -/
theorem decode_yields {n outLen : Nat} (fuel : Nat) {p : Progress} (hat : p.At n)
    (hfuel : p.rest.length < fuel) :
    Yields (decode n outLen fuel p) fun x =>
      ∃ seqs last low, low < 16 ∧ p.rest = code seqs ++ lastCode low last ∧
        Obeys outLen p.out.length seqs last ∧ play (steps seqs last) p.out = some x := by
  induction fuel generalizing p with
  | zero => omega
  | succ fuel ih =>
      have hone := @decodeSequence_yields n outLen p hat
      rw [decode]
      cases hseq : decodeSequence n outLen p with
      | error e =>
          rw [hseq] at hone
          exact hone
      | ok r =>
          rw [hseq] at hone
          cases r with
          | inl p' =>
              obtain ⟨s, hs⟩ := hone
              have hlen := congrArg List.length hs.rest
              have hemit := length_emit s.lits (s.offset, s.len)
              rw [List.length_append] at hlen
              apply (ih hs.place (by omega)).mono
              rintro x ⟨seqs, last, low, hlow, hrest, hobeys, hplay⟩
              refine ⟨s :: seqs, last, low, hlow, ?_, ?_, ?_⟩
              · rw [hs.rest, hrest]
                unfold code
                rw [List.flatMap_cons, List.append_assoc]
              · rw [hs.length] at hobeys
                exact ⟨hs.offset, hs.back, hs.distance, hs.len, hs.start, hs.fits, hobeys⟩
              · rw [play_steps_cons, if_pos ⟨hs.offset, by rw [List.length_append]; exact hs.back⟩,
                  hs.copy, Option.bind_some, hplay]
          | inr p' =>
              obtain ⟨low, last, he⟩ := hone
              dsimp only
              split
              · rename_i hdone
                refine .ok ⟨[], last, low, he.nibble, he.rest, ?_, ?_⟩
                · rw [he.out, List.length_append] at hdone
                  exact hdone.1
                · change some (p.out ++ last) = some p'.out
                  rw [he.out]
              · exact .corrupt

/-- The decoder reads a well-formed block, and nothing else. -/
theorem decompressBlock_yields (block : List UInt8) (n : Nat) :
    Yields (decompressBlock block n) (Encodes block n) :=
  decode_yields _ (Nat.zero_add _) (Nat.lt_succ_self _)

theorem decompressBlock_of_encodes {block x : List UInt8} {n : Nat} (h : Encodes block n x) :
    decompressBlock block n = .ok x := by
  obtain ⟨seqs, last, low, -, hblock, hobeys, hplay⟩ := h
  have hlen : seqs.length ≤ (code seqs).length := by
    clear hblock hobeys hplay
    induction seqs with
    | nil => exact Nat.zero_le _
    | cons s seqs ih =>
        have hemit := length_emit s.lits (s.offset, s.len)
        unfold code at *
        rw [List.flatMap_cons, List.length_append, List.length_cons]
        omega
  apply @decode_code block.length n seqs ⟨0, block, []⟩ low _ last x (Nat.zero_add _) hblock hobeys hplay
  rw [hblock, List.length_append]
  omega

/-! ## The encoder -/

/-- A match found is a repetition that ends early enough. -/
theorem findMatch_spec {input : List UInt8} {table : Nat → Nat} {pos offset len : Nat}
    (h : findMatch input table pos = some (offset, len)) (hpos : pos + mfLimit ≤ input.length) :
    Repeats input pos offset len ∧ minMatch ≤ len ∧ offset ≤ distanceMax ∧
      pos + len + lastLiterals ≤ input.length := by
  have hmin := le_of_findMatch h
  unfold findMatch at h
  dsimp only at h
  split at h
  · rename_i hcand
    split at h
    · cases h
      have hle := Window.agreeing_le input (input.length - lastLiterals - pos)
        (table (bucket input pos) - 1) pos
      unfold mfLimit at hpos
      unfold lastLiterals at *
      refine ⟨⟨by omega, by omega, by omega, ?_⟩, hmin, hcand.2.2, by omega⟩
      intro i hi
      rw [Nat.sub_sub_self (Nat.le_of_lt hcand.2.1)]
      exact (Window.agrees_of_lt i hi).symm
    · cases h
  · cases h

/-- The bytes up to `anchor` are written as `seqs`, which obey the format whatever follows. -/
structure Written (input : List UInt8) (anchor : Nat) (out : List UInt8) (seqs : List Sequence) :
    Prop where
  out : out = code seqs
  play : play (seqs.flatMap Sequence.steps) [] = some (input.take anchor)
  obeys : ∀ tail last, Obeys input.length anchor tail last → Obeys input.length 0 (seqs ++ tail) last

theorem Written.emit {input : List UInt8} {anchor pos offset len : Nat} {out : List UInt8}
    {seqs : List Sequence} (h : Written input anchor out seqs) (hle : anchor ≤ pos)
    (hpos : pos + mfLimit ≤ input.length) (hrep : Repeats input pos offset len)
    (hlen : minMatch ≤ len) (hdistance : offset ≤ distanceMax)
    (hend : pos + len + lastLiterals ≤ input.length) :
    Written input (pos + len) (out ++ Lz4.emit ((input.take pos).drop anchor) (some (offset, len)))
      (seqs ++ [⟨(input.take pos).drop anchor, offset, len⟩]) := by
  have hlits : ((input.take pos).drop anchor).length = pos - anchor := by
    rw [List.length_drop, List.length_take_of_le (by omega)]
  constructor
  · rw [h.out]
    unfold code
    rw [List.flatMap_append]
    simp
  · have hplay := Window.play_copy (Window.play_lits hle h.play) hrep
    rw [List.append_assoc] at hplay
    rw [List.flatMap_append]
    exact hplay
  · intro tail last htail
    rw [List.append_assoc]
    apply h.obeys
    have hq : anchor + (pos - anchor) = pos := by omega
    rw [List.singleton_append, Obeys]
    dsimp only
    rw [hlits, hq]
    exact ⟨hrep.back, hrep.le, hdistance, hlen, hpos, hend, htail⟩

/-- The search ends with the code of sequences that obey the format and play the input. -/
theorem search_spec {input : List UInt8} (table : Nat → Nat) (anchor pos : Nat) (out : List UInt8)
    (seqs : List Sequence) (h : Written input anchor out seqs) (hle : anchor ≤ pos)
    (hpos : pos ≤ input.length) :
    ∃ seqs' last, search input table anchor pos out = code seqs' ++ lastCode 0 last ∧
      Obeys input.length 0 seqs' last ∧ play (steps seqs' last) [] = some input := by
  induction hn : input.length + 1 - pos using Nat.strongRecOn
    generalizing table anchor pos out seqs with
  | ind n ih =>
      subst hn
      rw [search]
      by_cases hmore : pos + mfLimit ≤ input.length
      · rw [if_pos hmore]
        have hstep : 0 < mfLimit := by decide
        split
        · rename_i offset len hfound
          obtain ⟨hrep, hmin, hdistance, hend⟩ := findMatch_spec hfound hmore
          have hmin' : 0 < len := Nat.lt_of_lt_of_le (by decide) hmin
          have hfits := hrep.fits
          exact ih _ (by omega) _ _ _ _ _ (h.emit hle hmore hrep hmin hdistance hend) (Nat.le_refl _)
            (by omega) rfl
        · exact ih _ (by omega) _ _ _ _ _ h (by omega) (by omega) rfl
      · rw [if_neg hmore]
        have hplay := @Window.play_lits _ input _ anchor input.length (by omega) h.play
        rw [List.take_length] at hplay
        refine ⟨seqs, input.drop anchor, ?_, ?_, hplay⟩
        · rw [h.out]
          rfl
        · have := h.obeys [] (input.drop anchor) (by
            change anchor + (input.drop anchor).length = input.length
            rw [List.length_drop]
            omega)
          rwa [List.append_nil] at this

theorem compressBlock_encodes (x : List UInt8) :
    ∃ seqs last, compressBlock x = code seqs ++ lastCode 0 last ∧ Obeys x.length 0 seqs last ∧
      play (steps seqs last) [] = some x := by
  unfold compressBlock
  split
  · rename_i hx
    subst hx
    exact ⟨[], [], by decide, rfl, rfl⟩
  · apply search_spec _ 0 0 [] [] _ (Nat.le_refl 0) (Nat.zero_le _)
    exact ⟨rfl, rfl, fun tail last h => h⟩

/-- The block of a text is well formed and decodes to the text; and a block decodes to a text of the
asked length exactly if it is a well-formed block of it, the decoder giving up on any other. -/
theorem lz4_round_trip (x block : List UInt8) (n : Nat) :
    (decompressBlock (compressBlock x) x.length = .ok x ∧
      ∃ seqs last, compressBlock x = code seqs ++ lastCode 0 last ∧ Obeys x.length 0 seqs last ∧
        play (steps seqs last) [] = some x) ∧
      ((∃ y, decompressBlock block n = .ok y ∧ Encodes block n y) ∨
        (decompressBlock block n = .error .corrupt ∧ ∀ y, ¬Encodes block n y)) := by
  obtain ⟨seqs, last, hblock, hobeys, hplay⟩ := compressBlock_encodes x
  refine ⟨⟨?_, seqs, last, hblock, hobeys, hplay⟩, ?_⟩
  · exact decompressBlock_of_encodes ⟨seqs, last, 0, by decide, hblock, hobeys, hplay⟩
  · have hyields := decompressBlock_yields block n
    cases hdec : decompressBlock block n with
    | ok y =>
        rw [hdec] at hyields
        exact .inl ⟨y, rfl, hyields⟩
    | error e =>
        rw [hdec] at hyields
        refine .inr ⟨congrArg Except.error hyields, fun y hy => ?_⟩
        rw [decompressBlock_of_encodes hy] at hdec
        cases hdec

end Toast.Lz4
