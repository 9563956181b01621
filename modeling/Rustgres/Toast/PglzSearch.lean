-- SUMMARY: The PGLZ search ends, and what it finds is an earlier match within the limits of a tag.
import Rustgres.Toast.PglzHistory

/-!
# The Match Search

The search walks the chain of the next bytes, which threads positions passed already. What it has found so
far is always a match that was compared byte by byte.
-/

namespace Toast.Pglz

open Chains
open Window (Repeats agreeing)

variable {input : List UInt8} {hashsz dp : Nat} {hist : PglzHist}

/-! ## Candidates -/

/-- The next `len` bytes at `dp` repeat those at `hp`. -/
def Matches (input : List UInt8) (dp hp len : Nat) : Prop :=
  dp + len ≤ input.length ∧ ∀ i < len, input[dp + i]? = input[hp + i]?

theorem matches_agreeing {left hp : Nat} (hleft : dp + left ≤ input.length) :
    Matches input dp hp (agreeing input left dp hp) :=
  ⟨by have := Window.agreeing_le input left dp hp; omega, Window.agrees_of_lt⟩

theorem Matches.repeats {hp len : Nat} (h : Matches input dp hp len) (hlt : hp < dp) :
    Repeats input dp (dp - hp) len := by
  refine ⟨Nat.sub_pos_of_lt hlt, Nat.sub_le dp hp, h.1, fun i hi => ?_⟩
  rw [Nat.sub_sub_self (Nat.le_of_lt hlt)]
  exact h.2 i hi

/-- Equal stretches, followed by bytes that agree. -/
theorem Matches.extend {hp len more : Nat} (heq : (input.drop dp).take len = (input.drop hp).take len)
    (hfits : dp + len + more ≤ input.length)
    (hmore : ∀ i < more, input[dp + len + i]? = input[hp + len + i]?) :
    Matches input dp hp (len + more) := by
  refine ⟨by omega, fun i hi => ?_⟩
  by_cases hlt : i < len
  · have := congrArg (·[i]?) heq
    simpa only [List.getElem?_take_of_lt hlt, List.getElem?_drop] using this
  · have := hmore (i - len) (by omega)
    rwa [show dp + len + (i - len) = dp + i by omega, show hp + len + (i - len) = hp + i by omega] at this

theorem candidate_spec {hp len : Nat} (hhp : hp ≤ dp) (hlen : dp + len ≤ input.length)
    (hmax : len ≤ maxMatch) (hdp : dp ≤ input.length) :
    ∃ l, candidate input dp hp len = .ok l ∧ Matches input dp hp l ∧ l ≤ maxMatch := by
  unfold candidate
  dsimp only
  split
  · rw [if_neg (by omega)]
    split
    · rename_i heq
      have hle := Window.agreeing_le input (min (input.length - dp - len) (maxMatch - len)) (dp + len)
        (hp + len)
      exact ⟨_, rfl, .extend heq (by omega) Window.agrees_of_lt, by omega⟩
    · exact ⟨0, rfl, ⟨by omega, fun i hi => absurd hi (Nat.not_lt_zero i)⟩, Nat.zero_le _⟩
  · have hle := Window.agreeing_le input (min (input.length - dp) maxMatch) dp hp
    exact ⟨_, rfl, matches_agreeing (by omega), by omega⟩

/-! ## Walking a chain -/

/-- Nothing found yet, or an earlier match that a tag can hold. -/
def Best (input : List UInt8) (dp len off : Nat) : Prop :=
  len = 0 ∨ (Repeats input dp off len ∧ len ≤ maxMatch ∧ off < maxOffset)

theorem Best.fits {len off : Nat} (h : Best input dp len off) (hdp : dp ≤ input.length) :
    dp + len ≤ input.length ∧ len ≤ maxMatch := by
  rcases h with rfl | ⟨hrep, hlen, -⟩
  · exact ⟨hdp, Nat.zero_le _⟩
  · exact ⟨hrep.fits, hlen⟩

theorem Best.better {hp len off l : Nat} (h : Best input dp len off) (hm : Matches input dp hp l)
    (hl : l ≤ maxMatch) (hlt : hp < dp) (hoff : dp - hp < maxOffset) :
    Best input dp (if len < l then (l, dp - hp) else (len, off)).1
      (if len < l then (l, dp - hp) else (len, off)).2 := by
  split
  · exact .inr ⟨hm.repeats hlt, hl, hoff⟩
  · exact h

/-- The walk ends within the fuel that the chain needs, with the best match it has seen. -/
theorem searchChain_spec (hdp : dp ≤ input.length) (js : List Nat) {fuel hent len off goodMatch : Nat}
    (hlinked : Linked hist.next hent (js.map slot)) (hpos : ∀ j ∈ js, hist.pos (slot j) < dp)
    (hfuel : js.length < fuel) (hbest : Best input dp len off) :
    ∃ len' off', searchChain hist input dp fuel hent len off goodMatch = .ok (len', off') ∧
      Best input dp len' off' ∧ len ≤ len' := by
  induction js generalizing fuel hent len off goodMatch with
  | nil =>
      obtain ⟨fuel, rfl⟩ := Nat.exists_eq_add_one_of_ne_zero (Nat.ne_zero_of_lt hfuel)
      have hzero : hent = 0 := hlinked
      rw [searchChain, if_pos hzero]
      exact ⟨len, off, rfl, hbest, Nat.le_refl len⟩
  | cons j js ih =>
      obtain ⟨fuel, rfl⟩ := Nat.exists_eq_add_one_of_ne_zero (Nat.ne_zero_of_lt hfuel)
      obtain ⟨hhead, hne, hrest⟩ := hlinked
      subst hhead
      have hlt := hpos j List.mem_cons_self
      rw [List.length_cons] at hfuel
      rw [searchChain, if_neg hne]
      dsimp only
      rw [if_neg (by omega)]
      split
      · exact ⟨len, off, rfl, hbest, Nat.le_refl len⟩
      · rename_i hoff
        have hfits := hbest.fits hdp
        obtain ⟨l, hl, hm, hmax⟩ := candidate_spec (Nat.le_of_lt hlt) hfits.1 hfits.2 hdp
        have hbetter := hbest.better hm hmax hlt (Nat.lt_of_not_le hoff)
        have hgrow : len ≤ (if len < l then (l, dp - hist.pos (slot j)) else (len, off)).1 := by
          split
          · rename_i h
            exact Nat.le_of_lt h
          · exact Nat.le_refl len
        rw [hl]
        dsimp only
        generalize (if len < l then (l, dp - hist.pos (slot j)) else (len, off)) = best at *
        by_cases hend : hist.next (slot j) = 0
        · rw [if_pos hend]
          exact ⟨_, _, rfl, hbetter, hgrow⟩
        · rw [if_neg hend]
          by_cases hgood : goodMatch ≤ best.1
          · rw [if_pos hgood]
            exact ⟨_, _, rfl, hbetter, hgrow⟩
          · rw [if_neg hgood]
            obtain ⟨len', off', hs, hb, hle⟩ := @ih fuel _ best.1 best.2
              (goodMatch - goodMatch * matchDrop / 100) hrest
              (fun j hj => hpos j (List.mem_cons_of_mem _ hj)) (by omega) hbetter
            exact ⟨len', off', hs, hb, Nat.le_trans hgrow hle⟩

/-- The chain of a hash value: as long as the ring at most, and all positions passed. -/
theorem Remembers.chain (hr : Remembers input hashsz hist dp) (hsz : 0 < hashsz) (pos : Nat) :
    ∃ js, Linked hist.next (hist.start (histIdx input pos hashsz)) (js.map slot) ∧
      (∀ j ∈ js, hist.pos (slot j) < dp) ∧ js.length < historySize + 1 ∧
      js = sameHash input hashsz (histIdx input pos hashsz) (recent historySize dp) := by
  refine ⟨_, (hr.threads.chain _ (histIdx_lt input pos hsz)).linked, ?_, ?_, rfl⟩
  · intro j hj
    have hj := (mem_sameHash.1 hj).1
    rw [hr.threads.pos j hj]
    exact Nat.lt_of_le_of_lt (Nat.mod_le _ _) (mem_recent.1 hj).2
  · have hle : (sameHash input hashsz (histIdx input pos hashsz) (recent historySize dp)).length
        ≤ (recent historySize dp).length := List.length_filter_le _ _
    have hlen : (recent historySize dp).length = min dp historySize := by
      unfold recent
      rw [List.length_reverse, List.length_range']
    omega

/-- The search ends, and what it answers is an earlier match of three bytes at least. -/
theorem findMatch_spec (hr : Remembers input hashsz hist dp) (hsz : 0 < hashsz)
    (hdp : dp ≤ input.length) :
    ∃ r, findMatch hist input dp hashsz = .ok r ∧ ∀ len off, r = some (len, off) →
      3 ≤ len ∧ len ≤ maxMatch ∧ off < maxOffset ∧ Repeats input dp off len := by
  obtain ⟨js, hlinked, hpos, hlen, -⟩ := hr.chain hsz dp
  obtain ⟨len, off, hs, hbest, -⟩ := @searchChain_spec _ _ hist hdp js _ _ 0 0 matchGood hlinked hpos hlen
    (.inl rfl)
  unfold findMatch
  rw [hs]
  refine ⟨_, rfl, fun len' off' heq => ?_⟩
  split at heq
  · rename_i hlt
    cases heq
    rcases hbest with rfl | ⟨hrep, hmax, hoff⟩
    · omega
    · exact ⟨hlt, hmax, hoff, hrep⟩
  · cases heq

end Toast.Pglz
