-- SUMMARY: PGLZ on zeros: the encoder accepts texts that are too long for the decoder.
import Rustgres.Toast.PglzRoundTrip

/-!
# Zeros

In a text of zeros every search finds the position before, and a match that goes as far as a tag can hold.
Such a text is compressed however long it is; the decoder refuses a long one unread.
-/

namespace Toast.Pglz

open Chains
open Window (agreeing)

variable {n dp : Nat} {hist : PglzHist}

def zeros (n : Nat) : List UInt8 := List.replicate n 0

theorem byteAt_zeros (n i : Nat) : byteAt (zeros n) i = 0 := by
  have hbyte : (zeros n).getD i 0 = 0 := by
    unfold zeros
    rw [List.getD_eq_getElem?_getD, List.getElem?_replicate]
    split <;> rfl
  unfold byteAt
  rw [hbyte]
  rfl

theorem histIdx_zeros (n pos hashsz : Nat) : histIdx (zeros n) pos hashsz = 0 := by
  have hxor : xor32 0 0 = 0 := by decide
  unfold histIdx
  simp only [byteAt_zeros, Int.zero_mul, hxor, ite_self, Int.zero_emod, Int.toNat_zero]

theorem sameHash_zeros (n hashsz : Nat) (js : List Nat) : sameHash (zeros n) hashsz 0 js = js := by
  unfold sameHash
  simp only [histIdx_zeros, decide_true, List.filter_true]

/-- The search at `dp` starts at the position before, which matches as far as possible. -/
theorem findMatch_zeros (hr : Remembers (zeros n) (hashSize n) hist dp) (hone : 1 ≤ dp) (hdp : dp ≤ n)
    (hn : n < 2 ^ 32) :
    ∃ off, findMatch hist (zeros n) dp (hashSize n)
      = .ok (if 2 < min (n - dp) maxMatch then some (min (n - dp) maxMatch, off) else none) := by
  have hlen : (zeros n).length = n := List.length_replicate
  obtain ⟨js, hlinked, hpos, hlength, hjs⟩ := hr.chain (hashSize_pos n) dp
  obtain ⟨dp, rfl⟩ := Nat.exists_eq_add_one_of_ne_zero (Nat.ne_of_gt hone)
  have hhead : js = dp :: recent (historySize - 1) dp := by
    rw [hjs, histIdx_zeros, sameHash_zeros]
    exact recent_succ (historySize - 1) dp
  subst hhead
  obtain ⟨hstart, hne, hrest⟩ := hlinked
  have hp : hist.pos (slot dp) = dp := by
    rw [hr.threads.pos dp (mem_recent.2 ⟨by unfold historySize; omega, Nat.lt_succ_self dp⟩)]
    exact Nat.mod_eq_of_lt (by omega)
  have hcand : candidate (zeros n) (dp + 1) dp 0 = .ok (min (n - (dp + 1)) maxMatch) := by
    unfold candidate
    dsimp only
    rw [if_neg (by decide), hlen, Window.agreeing_eq_max]
    intro i hi
    unfold zeros
    rw [List.getElem?_replicate, List.getElem?_replicate, if_pos (by omega), if_pos (by omega)]
  have hsearch : ∃ len off, searchChain hist (zeros n) (dp + 1) (historySize + 1)
      (hist.start (histIdx (zeros n) (dp + 1) (hashSize n))) 0 0 matchGood = .ok (len, off) ∧
      len = min (n - (dp + 1)) maxMatch := by
    obtain ⟨l, hl, hm, hmax⟩ := @candidate_spec (zeros n) (dp + 1) dp 0 (Nat.le_succ dp) (by omega)
      (Nat.zero_le _) (by omega)
    cases hcand.symm.trans hl
    have hone : dp + 1 - dp < maxOffset := by
      rw [Nat.add_sub_cancel_left]
      decide
    have hnone : Best (zeros n) (dp + 1) 0 0 := .inl rfl
    have hbest := hnone.better hm hmax (Nat.lt_succ_self dp) hone
    have hgrow : min (n - (dp + 1)) maxMatch
        ≤ (if 0 < min (n - (dp + 1)) maxMatch then (min (n - (dp + 1)) maxMatch, dp + 1 - dp)
            else (0, 0)).1 := by
      split
      · exact Nat.le_refl _
      · omega
    rw [hstart, searchChain, if_neg hne, hp]
    dsimp only
    rw [if_neg (by omega), if_neg (by rw [Nat.add_sub_cancel_left]; decide), hcand]
    dsimp only
    generalize (if 0 < min (n - (dp + 1)) maxMatch then (min (n - (dp + 1)) maxMatch, dp + 1 - dp)
      else (0, 0)) = best at *
    have hfits := hbest.fits (by omega)
    by_cases hend : hist.next (slot dp) = 0
    · rw [if_pos hend]
      exact ⟨_, _, rfl, by omega⟩
    · rw [if_neg hend]
      by_cases hgood : matchGood ≤ best.1
      · rw [if_pos hgood]
        exact ⟨_, _, rfl, by omega⟩
      · rw [if_neg hgood]
        rw [List.length_cons] at hlength
        obtain ⟨len, off, hs, hb, hle⟩ := @searchChain_spec (zeros n) (dp + 1) hist (by omega)
          (recent (historySize - 1) dp) historySize (hist.next (slot dp)) best.1 best.2
          (matchGood - matchGood * matchDrop / 100) hrest
          (fun j hj => hpos j (List.mem_cons_of_mem dp hj)) (by omega) hbest
        have hfits' := hb.fits (by omega)
        exact ⟨len, off, hs, by omega⟩
  obtain ⟨len, off, hs, hl⟩ := hsearch
  unfold findMatch
  rw [hs]
  dsimp only
  rw [hl]
  exact ⟨off, rfl⟩

/-! ## The size of the output -/

theorem length_outCtrl (o : Output) : (outCtrl o).out.length ≤ o.out.length + 1 := by
  unfold outCtrl
  split
  · dsimp only
    rw [List.length_append, List.length_singleton]
    split
    · rw [List.length_set]
    · exact Nat.le_refl _
  · exact Nat.le_succ _

theorem length_outLiteral (o : Output) (b : UInt8) : (outLiteral o b).out.length ≤ o.out.length + 2 := by
  have := length_outCtrl o
  unfold outLiteral
  dsimp only
  rw [List.length_append, List.length_singleton]
  omega

theorem length_outMatch (o : Output) (len off : Nat) :
    (outMatch o len off).out.length ≤ o.out.length + 4 := by
  have := length_outCtrl o
  have htag : (tagBytes len off).length ≤ 3 := by
    unfold tagBytes
    split
    · exact Nat.le_refl 3
    · exact Nat.le_succ 2
  unfold outMatch
  dsimp only
  rw [List.length_append]
  omega

/-- What the last bytes may cost beyond four bytes for 273. -/
def slack (left : Nat) : Nat := if 3 ≤ left then 542 else 1634 + (2 - left) * 546

/-- The output of a text of zeros stays small. -/
structure Small (n : Nat) (c : Coder) : Prop where
  size : 273 * c.output.out.length ≤ if c.dp = 0 then 0 else 4 * c.dp + slack (n - c.dp)
  found : c.dp ≤ 1 ∨ c.foundMatch = true

theorem Small.initial (hist : PglzHist) : Small n (initialCoder hist (zeros n)) := by
  refine ⟨?_, .inl (Nat.zero_le 1)⟩
  unfold initialCoder
  dsimp only
  rw [List.length_nil, if_pos rfl, Nat.mul_zero]

theorem slack_le (left : Nat) : slack left ≤ 2726 := by
  unfold slack
  split <;> omega

theorem Small.bound {c : Coder} (h : Small n c) : 273 * c.output.out.length ≤ 4 * c.dp + 2726 := by
  have hsize := h.size
  have hslack := slack_le (n - c.dp)
  split at hsize <;> omega

/-- The encoder does not give up on zeros. -/
theorem Small.codeItem {c : Coder} {is : List Item} (h : Small n c) (hc : Codes (zeros n) c is)
    (hlt : c.dp < n) (hlong : 1000 ≤ n) (hn : n < 2 ^ 32) (hmax : 4 * n + 2726 < 273 * resultMax n) :
    ∃ c', Pglz.codeItem (zeros n) c = .ok (some c') ∧ Small n c' := by
  have hlen : (zeros n).length = n := List.length_replicate
  have hbound := h.bound
  have hsize := h.size
  have hhist := hc.hist
  rw [hlen] at hhist
  have hgate : ¬((!c.foundMatch) = true ∧ firstSuccessBy ≤ c.output.out.length) := by
    rintro ⟨hno, hmany⟩
    unfold firstSuccessBy at hmany
    rcases h.found with hfirst | hfound
    · omega
    · rw [hfound] at hno
      cases hno
  have hbyte : (zeros n)[c.dp]? = some 0 := by
    unfold zeros
    rw [List.getElem?_replicate, if_pos hlt]
  unfold Pglz.codeItem
  dsimp only
  rw [hlen, if_neg (by omega), if_neg hgate]
  clear hgate hmax hlen
  have hlit := length_outLiteral c.output 0
  by_cases hzero : c.dp = 0
  · have hempty : findMatch c.hist (zeros n) c.dp (hashSize n) = .ok none := by
      obtain ⟨js, hlinked, -, -, hjs⟩ := hhist.chain (hashSize_pos n) c.dp
      have hnil : js = [] := by
        rw [hjs, hzero]
        rfl
      rw [hnil] at hlinked
      have hstart : c.hist.start (histIdx (zeros n) c.dp (hashSize n)) = 0 := hlinked
      unfold findMatch
      rw [hstart]
      rfl
    rw [hempty]
    dsimp only
    rw [hbyte]
    refine ⟨_, rfl, ?_, .inl (by dsimp only; omega)⟩
    rw [if_pos hzero] at hsize
    unfold slack
    dsimp only
    generalize (outLiteral c.output 0).out.length = size at hlit ⊢
    rw [if_neg (Nat.succ_ne_zero c.dp), if_pos (by omega)]
    omega
  · obtain ⟨off, hfound⟩ := findMatch_zeros hhist (by omega) (by omega) hn
    rw [if_neg hzero] at hsize
    unfold slack at hsize
    rw [hfound]
    unfold maxMatch
    by_cases htail : 2 < min (n - c.dp) 273
    · rw [if_pos htail]
      have htag := length_outMatch c.output (min (n - c.dp) 273) off
      refine ⟨_, rfl, ?_, .inr rfl⟩
      unfold slack
      dsimp only
      generalize (outMatch c.output (min (n - c.dp) 273) off).out.length = size at htag ⊢
      rw [if_pos (by omega)] at hsize
      rw [if_neg (by omega)]
      split <;> omega
    · rw [if_neg htail]
      dsimp only
      rw [hbyte]
      refine ⟨_, rfl, ?_, ?_⟩
      · unfold slack
        dsimp only
        generalize (outLiteral c.output 0).out.length = size at hlit ⊢
        rw [if_neg (Nat.succ_ne_zero c.dp), if_neg (by omega)]
        split at hsize <;> omega
      · dsimp only
        rcases h.found with hfirst | hfound
        · omega
        · exact .inr hfound

theorem codeItems_zeros (fuel : Nat) {c : Coder} {is : List Item} (h : Small n c)
    (hc : Codes (zeros n) c is) (hfuel : n < c.dp + fuel) (hlong : 1000 ≤ n) (hn : n < 2 ^ 32)
    (hmax : 4 * n + 2726 < 273 * resultMax n) :
    ∃ hist payload, codeItems (zeros n) fuel c = .ok (hist, some payload) := by
  have hlen : (zeros n).length = n := List.length_replicate
  induction fuel generalizing c is with
  | zero =>
      have := hc.place
      omega
  | succ fuel ih =>
      rw [codeItems]
      by_cases hlt : c.dp < (zeros n).length
      · rw [if_pos hlt]
        obtain ⟨c₁, hsome, hsmall⟩ := h.codeItem hc (by omega) hlong hn hmax
        rcases hc.codeItem hlt with hnone | ⟨c₂, i, hsome', hcodes, hmove⟩
        · rw [hnone] at hsome
          cases hsome
        · rw [hsome] at hsome'
          cases hsome'
          rw [hsome]
          exact ih hsmall hcodes (by omega)
      · rw [if_neg hlt]
        have hplace := hc.place
        have hbound := h.bound
        have hne := hc.started (by omega)
        rcases hc.written with ⟨his, -⟩ | ⟨done, g, hopen, -, -⟩
        · exact absurd his hne
        · unfold finish
          rw [hopen.ctrlp]
          dsimp only
          rw [List.length_set, hlen, if_neg (by omega)]
          exact ⟨_, _, rfl⟩

theorem compress_zeros (hist : PglzHist) (hlong : 1000 ≤ n) (hn : n < 2 ^ 32)
    (hmax : 4 * n + 2726 < 273 * resultMax n) :
    ∃ hist' payload, compressPayload hist (zeros n) = .ok (hist', some payload) := by
  have hlen : (zeros n).length = n := List.length_replicate
  unfold compressPayload
  rw [hlen, if_neg (by unfold minInput; omega)]
  apply codeItems_zeros (n + 1) (Small.initial hist) (Codes.initial hist (zeros n)) _ hlong hn hmax
  exact Nat.lt_of_lt_of_le (Nat.lt_succ_self n) (Nat.le_add_left _ _)

/-- A billion and one zeros are compressed, but their payload is refused; and a payload is read that no
text is compressed to. -/
theorem pglz_not_total :
    (∃ hist payload, compressPayload newHist (zeros 1000000001) = .ok (hist, some payload) ∧
      decompressRaw payload 1000000001 = .error .corrupt) ∧
      decompressRaw [0, 97] 1 = .ok [97] ∧ compressPayload newHist [97] = .ok (newHist, none) := by
  refine ⟨?_, by decide, rfl⟩
  obtain ⟨hist, payload, h⟩ := @compress_zeros 1000000001 newHist (by decide) (by decide) (by decide)
  exact ⟨hist, payload, h, rfl⟩

end Toast.Pglz
