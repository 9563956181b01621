-- SUMMARY: The PGLZ history: its chains thread just the positions of the last 4096 bytes.
import Mathlib.Data.List.Nodup
import Mathlib.Data.List.Range
import Rustgres.Lib.Chains
import Rustgres.Toast.Pglz

/-!
# The History of Positions

After any calls before, the history of a call that has passed `dp` bytes holds the last 4096 positions,
each in the entry of its turn, and each chain threads the positions of its hash value, the latest first.
Recycling an entry takes the oldest position off the end of its chain.
-/

namespace Toast.Pglz

open Chains

/-! ## Positions and entries -/

/-- The entry of a position. -/
def slot (j : Nat) : Nat := j % historySize + 1

/-- The last `m` positions before `dp`, the latest first. -/
def recent (m dp : Nat) : List Nat := (List.range' (dp - m) (min dp m)).reverse

theorem mem_recent {m dp j : Nat} : j ∈ recent m dp ↔ dp ≤ j + m ∧ j < dp := by
  unfold recent
  rw [List.mem_reverse, List.mem_range'_1]
  omega

theorem nodup_recent (m dp : Nat) : (recent m dp).Nodup :=
  List.nodup_reverse.2 (List.nodup_range' 1)

theorem recent_succ (m dp : Nat) : recent (m + 1) (dp + 1) = dp :: recent m dp := by
  unfold recent
  rw [show dp + 1 - (m + 1) = dp - m by omega, show min (dp + 1) (m + 1) = min dp m + 1 by omega,
    List.range'_1_concat, List.reverse_append]
  have : dp - m + min dp m = dp := by omega
  rw [this]
  rfl

theorem recent_of_le {m dp : Nat} (h : dp ≤ m) : recent (m + 1) dp = recent m dp := by
  unfold recent
  rw [show dp - (m + 1) = dp - m by omega, show min dp (m + 1) = min dp m by omega]

theorem recent_of_lt {m dp : Nat} (h : m < dp) : recent (m + 1) dp = recent m dp ++ [dp - (m + 1)] := by
  unfold recent
  rw [show min dp (m + 1) = min dp m + 1 by omega, List.range'_succ, List.reverse_cons,
    show dp - (m + 1) + 1 = dp - m by omega]

theorem slot_ne_zero (j : Nat) : slot j ≠ 0 := Nat.succ_ne_zero _

/-- Two positions that are close have different entries. -/
theorem slot_inj {dp i j : Nat} (hi : i ∈ recent historySize dp) (hj : j ∈ recent historySize dp)
    (h : slot i = slot j) : i = j := by
  rw [mem_recent] at hi hj
  unfold slot historySize at *
  omega

theorem slot_ne_of_mem {dp j : Nat} (hj : j ∈ recent (historySize - 1) dp) : slot j ≠ slot dp := by
  rw [mem_recent] at hj
  unfold slot historySize at *
  omega

/-! ## The invariant -/

variable {input : List UInt8} {hashsz dp : Nat} {hist : PglzHist}

/-- The positions among `js` with the hash value `h`. -/
def sameHash (input : List UInt8) (hashsz h : Nat) (js : List Nat) : List Nat :=
  js.filter fun j => histIdx input j hashsz = h

/-- Every hash value has its chain through the entries of the positions `js`, and these are filled. -/
structure Threads (input : List UInt8) (hashsz : Nat) (hist : PglzHist) (js : List Nat) : Prop where
  chain : ∀ h < hashsz, Chain hist.next hist.prev (hist.start h) ((sameHash input hashsz h js).map slot)
  hindex : ∀ j ∈ js, hist.hindex (slot j) = histIdx input j hashsz
  pos : ∀ j ∈ js, hist.pos (slot j) = j % 2 ^ 32

/-- The history of a call that has passed `dp` bytes. -/
structure Remembers (input : List UInt8) (hashsz : Nat) (hist : PglzHist) (dp : Nat) : Prop where
  histNext : hist.histNext = slot dp
  recycle : hist.recycle = decide (historySize ≤ dp)
  threads : Threads input hashsz hist (recent historySize dp)

theorem histIdx_lt (input : List UInt8) (pos : Nat) (h : 0 < hashsz) : histIdx input pos hashsz < hashsz := by
  unfold histIdx
  dsimp only
  generalize (if input.length - pos < 4 then byteAt input pos
    else xor32 (xor32 (xor32 (byteAt input pos * 2 ^ 6) (byteAt input (pos + 1) * 2 ^ 4))
      (byteAt input (pos + 2) * 2 ^ 2)) (byteAt input (pos + 3))) = z
  have hpos : (0 : Int) < hashsz := Int.natCast_pos.2 h
  have hlt := Int.emod_lt_of_pos z hpos
  have hnonneg := Int.emod_nonneg z (Int.ne_of_gt hpos)
  omega

theorem remembers_reset (hist : PglzHist) : Remembers input hashsz (resetHist hist hashsz) 0 := by
  refine ⟨rfl, rfl, ?_, ?_, ?_⟩
  · intro h hh
    have hstart : (resetHist hist hashsz).start h = 0 := if_pos hh
    rw [hstart]
    exact ⟨rfl, trivial⟩
  · exact fun j hj => (nomatch hj)
  · exact fun j hj => (nomatch hj)

/-! ## Unlinking -/

theorem sameHash_append (h : Nat) (js js' : List Nat) :
    sameHash input hashsz h (js ++ js') = sameHash input hashsz h js ++ sameHash input hashsz h js' :=
  List.filter_append ..

theorem mem_sameHash {h j : Nat} {js : List Nat} :
    j ∈ sameHash input hashsz h js ↔ j ∈ js ∧ histIdx input j hashsz = h := by
  unfold sameHash
  rw [List.mem_filter, decide_eq_true_iff]

theorem sameHash_singleton_self (j : Nat) : sameHash input hashsz (histIdx input j hashsz) [j] = [j] := by
  unfold sameHash
  rw [List.filter_cons_of_pos (by simp), List.filter_nil]

theorem sameHash_singleton_ne {h j : Nat} (hne : histIdx input j hashsz ≠ h) :
    sameHash input hashsz h [j] = [] := by
  unfold sameHash
  rw [List.filter_cons_of_neg (by simpa using hne), List.filter_nil]

theorem nodup_slots (h dp m : Nat) (hm : m ≤ historySize) :
    ((sameHash input hashsz h (recent m dp)).map slot).Nodup := by
  apply List.Nodup.map_on
  · intro i hi j hj heq
    have hi := (mem_sameHash.1 hi).1
    have hj := (mem_sameHash.1 hj).1
    rw [mem_recent] at hi hj
    exact slot_inj (mem_recent.2 ⟨by omega, hi.2⟩) (mem_recent.2 ⟨by omega, hj.2⟩) heq
  · exact (nodup_recent m dp).filter _

/-- Entries on the chains of two hash values are different. -/
theorem slot_ne_of_hash {h h' e e' dp m : Nat} (hm : m ≤ historySize) (hne : h ≠ h')
    (he : e ∈ (sameHash input hashsz h (recent m dp)).map slot)
    (he' : e' ∈ (sameHash input hashsz h' (recent m dp)).map slot) : e ≠ e' := by
  rintro rfl
  obtain ⟨i, hi, rfl⟩ := List.mem_map.1 he
  obtain ⟨j, hj, heq⟩ := List.mem_map.1 he'
  obtain ⟨hi, hih⟩ := mem_sameHash.1 hi
  obtain ⟨hj, hjh⟩ := mem_sameHash.1 hj
  rw [mem_recent] at hi hj
  have := slot_inj (mem_recent.2 ⟨by omega, hj.2⟩) (mem_recent.2 ⟨by omega, hi.2⟩) heq
  subst this
  exact hne (hih.symm.trans hjh)

/-- The entry before a recycled one ends its chain; a chain without another entry becomes empty. -/
theorem unlink_full {l : List Nat} (hrecycle : hist.recycle = true)
    (hchain : Chain hist.next hist.prev (hist.start (hist.hindex hist.histNext)) (l ++ [hist.histNext]))
    (hfresh : hist.histNext ∉ l) :
    (l = [] ∧ unlink hist =
        { hist with start := Function.update hist.start (hist.hindex hist.histNext) 0 }) ∨
      ∃ q, l.getLast? = some q ∧ unlink hist = { hist with next := Function.update hist.next q 0 } := by
  have hlast : hist.next hist.histNext = 0 := hchain.linked.next_last
  have hprev : hist.prev hist.histNext = l.getLast?.getD 0 := hchain.backed.prev_last
  unfold unlink
  rw [if_pos hrecycle]
  dsimp only
  cases hq : l.getLast? with
  | none =>
      rw [hq, Option.getD_none] at hprev
      have hbypass : bypass hist =
          { hist with start := Function.update hist.start (hist.hindex hist.histNext) 0 } := by
        unfold bypass
        dsimp only
        rw [if_pos hprev, hlast]
      refine .inl ⟨List.getLast?_eq_none_iff.1 hq, ?_⟩
      rw [hbypass]
      exact if_neg (not_not.2 hlast)
  | some q =>
      rw [hq, Option.getD_some] at hprev
      have hmem : q ∈ l := List.mem_of_getLast? hq
      have hne : q ≠ 0 := hchain.linked.ne_zero q (List.mem_append_left _ hmem)
      have hnq : hist.histNext ≠ q := fun heq => hfresh (heq ▸ hmem)
      have hbypass : bypass hist = { hist with next := Function.update hist.next q 0 } := by
        unfold bypass
        dsimp only
        rw [hprev, if_neg hne, hlast]
      refine .inr ⟨q, rfl, ?_⟩
      rw [hbypass]
      apply if_neg
      rw [not_not]
      dsimp only
      rw [Function.update_of_ne hnq, hlast]

theorem recent_full (h : historySize ≤ dp) :
    recent historySize dp = recent (historySize - 1) dp ++ [dp - historySize] := by
  unfold historySize at *
  exact recent_of_lt (by omega)

theorem slot_old (h : historySize ≤ dp) : slot (dp - historySize) = slot dp := by
  unfold slot historySize at *
  omega

/-- The recycled entry is the oldest, and the last of its chain. -/
theorem Remembers.unlink (hr : Remembers input hashsz hist dp) (hsz : 0 < hashsz) :
    Threads input hashsz (Pglz.unlink hist) (recent (historySize - 1) dp) := by
  obtain ⟨hnext, hrecycle, hchain, hhindex, hpos⟩ := hr
  by_cases hfull : historySize ≤ dp
  · rw [recent_full hfull] at hchain hhindex hpos
    rw [decide_eq_true hfull] at hrecycle
    have hin (j : Nat) (hj : j ∈ recent (historySize - 1) dp) :
        j ∈ recent (historySize - 1) dp ++ [dp - historySize] := List.mem_append_left _ hj
    have hidx := hhindex (dp - historySize) (List.mem_append_right _ (List.mem_singleton_self _))
    rw [slot_old hfull, ← hnext] at hidx
    have hlt := histIdx_lt input (dp - historySize) hsz
    -- The chain of the recycled entry, and the others, which keep all their entries.
    have hown := hchain _ hlt
    rw [sameHash_append, sameHash_singleton_self, List.map_append, List.map_singleton, slot_old hfull,
      ← hnext, ← hidx] at hown
    have hother (h : Nat) (hh : h < hashsz) (hne : h ≠ hist.hindex hist.histNext) :
        Chain hist.next hist.prev (hist.start h)
          ((sameHash input hashsz h (recent (historySize - 1) dp)).map slot) := by
      have := hchain h hh
      rwa [sameHash_append, sameHash_singleton_ne (hidx ▸ Ne.symm hne), List.append_nil] at this
    have hfresh : hist.histNext ∉
        (sameHash input hashsz (hist.hindex hist.histNext) (recent (historySize - 1) dp)).map slot := by
      intro hmem
      obtain ⟨j, hj, heq⟩ := List.mem_map.1 hmem
      exact slot_ne_of_mem (mem_sameHash.1 hj).1 (heq.trans hnext)
    rcases unlink_full hrecycle hown hfresh with ⟨hnil, hu⟩ | ⟨q, hq, hu⟩
    · rw [hu]
      refine ⟨?_, fun j hj => hhindex j (hin j hj), fun j hj => hpos j (hin j hj)⟩
      intro h hh
      by_cases hh0 : h = hist.hindex hist.histNext
      · subst hh0
        dsimp only
        rw [Function.update_self, hnil]
        exact ⟨rfl, trivial⟩
      · dsimp only
        rw [Function.update_of_ne hh0]
        exact hother h hh hh0
    · rw [hu]
      refine ⟨?_, fun j hj => hhindex j (hin j hj), fun j hj => hpos j (hin j hj)⟩
      intro h hh
      by_cases hh0 : h = hist.hindex hist.histNext
      · subst hh0
        exact ⟨hown.linked.cut hq (nodup_slots _ _ _ (Nat.sub_le _ _)), hown.backed.of_append⟩
      · apply (hother h hh hh0).congr
        · intro e he
          have hne := slot_ne_of_hash (Nat.sub_le _ _) hh0 he (List.mem_of_getLast? hq)
          exact Function.update_of_ne hne _ _
        · exact fun e he => rfl
  · have hle : dp ≤ historySize - 1 := by
      unfold historySize at *
      omega
    have hsame : recent (historySize - 1) dp = recent historySize dp := (recent_of_le hle).symm
    unfold Pglz.unlink
    rw [hrecycle, if_neg (by simpa using hfull), hsame]
    exact ⟨hchain, hhindex, hpos⟩

/-! ## Adding -/

theorem slot_succ (dp : Nat) : slot (dp + 1) = if slot dp + 1 > historySize then 1 else slot dp + 1 := by
  unfold slot historySize
  split <;> omega

theorem recycle_unlink (hist : PglzHist) : (unlink hist).recycle = hist.recycle := by
  have hbypass : (bypass hist).recycle = hist.recycle := by
    unfold bypass
    dsimp only
    split <;> rfl
  unfold unlink
  dsimp only
  split
  · split
    · exact hbypass
    · exact hbypass
  · rfl

/-- A new position is threaded before the others of its hash value. -/
theorem Remembers.histAdd (hr : Remembers input hashsz hist dp) (hsz : 0 < hashsz) :
    Remembers input hashsz (Pglz.histAdd hist input dp hashsz) (dp + 1) := by
  obtain ⟨hchain, hhindex, hpos⟩ := hr.unlink hsz
  have hlast : historySize = historySize - 1 + 1 := rfl
  have hne (j : Nat) (hj : j ∈ recent (historySize - 1) dp) : slot j ≠ slot dp := slot_ne_of_mem hj
  have hfresh (h : Nat) : slot dp ∉
      (sameHash input hashsz h (recent (historySize - 1) dp)).map slot := by
    intro hmem
    obtain ⟨j, hj, heq⟩ := List.mem_map.1 hmem
    exact hne j (mem_sameHash.1 hj).1 heq
  unfold Pglz.histAdd
  rw [hr.histNext]
  refine ⟨(slot_succ dp).symm, ?_, ?_, ?_, ?_⟩
  · dsimp only
    rw [recycle_unlink, hr.recycle, Bool.eq_iff_iff]
    simp only [Bool.or_eq_true, decide_eq_true_iff]
    unfold slot historySize
    omega
  · intro h hh
    rw [hlast, recent_succ]
    dsimp only
    by_cases hh0 : h = histIdx input dp hashsz
    · subst hh0
      rw [Function.update_self, ← List.singleton_append, sameHash_append, sameHash_singleton_self]
      exact (hchain _ hh).push (slot_ne_zero dp) (hfresh _) (nodup_slots _ _ _ (Nat.sub_le _ _))
    · rw [Function.update_of_ne hh0, ← List.singleton_append, sameHash_append,
        sameHash_singleton_ne (Ne.symm hh0), List.nil_append]
      have hhead := (hchain _ (histIdx_lt input dp hsz)).linked.head_eq
      apply (hchain h hh).congr
      · intro e he
        have hen : e ≠ slot dp := fun heq => hfresh h (heq ▸ he)
        exact Function.update_of_ne hen _ _
      · intro e he
        have hen : e ≠ slot dp := fun heq => hfresh h (heq ▸ he)
        have heh : e ≠ (Pglz.unlink hist).start (histIdx input dp hashsz) := by
          intro heq
          cases hl : (sameHash input hashsz (histIdx input dp hashsz) (recent (historySize - 1) dp)).map
              slot with
          | nil =>
              rw [hl] at hhead
              exact (hchain h hh).linked.ne_zero e he (heq.trans hhead)
          | cons e' l =>
              rw [hl] at hhead
              have he' : e ∈ (sameHash input hashsz (histIdx input dp hashsz)
                  (recent (historySize - 1) dp)).map slot := by
                rw [hl, heq, hhead]
                exact List.mem_cons_self
              exact slot_ne_of_hash (Nat.sub_le _ _) hh0 he he' rfl
        rw [Function.update_of_ne heh, Function.update_of_ne hen]
  · intro j hj
    rw [hlast, recent_succ] at hj
    dsimp only
    rcases List.mem_cons.1 hj with rfl | hj
    · exact Function.update_self ..
    · rw [Function.update_of_ne (hne j hj)]
      exact hhindex j hj
  · intro j hj
    rw [hlast, recent_succ] at hj
    dsimp only
    rcases List.mem_cons.1 hj with rfl | hj
    · exact Function.update_self ..
    · rw [Function.update_of_ne (hne j hj)]
      exact hpos j hj

theorem Remembers.addAll (hsz : 0 < hashsz) (n : Nat) (hr : Remembers input hashsz hist dp) :
    Remembers input hashsz (Pglz.addAll input hashsz n hist dp) (dp + n) := by
  induction n generalizing hist dp with
  | zero => exact hr
  | succ n ih =>
      have := ih (hr.histAdd hsz)
      rwa [Nat.add_right_comm] at this

end Toast.Pglz
