-- SUMMARY: PGLZ: a payload decodes to its input whatever calls came before, up to the decoder's limit.
import Rustgres.Toast.PglzPayload
import Rustgres.Toast.PglzSearch

/-!
# Round Trip

While it runs, the encoder has written the groups of items that play the bytes passed, the last one still
open, and its history remembers these bytes.
-/

namespace Toast.Pglz

open Window (Step play copyBack Repeats)

/-! ## The output so far -/

/-- `done` are written, and `g` stands behind a control byte that is open. -/
structure Open (o : Output) (done : List (List Item)) (g : List Item) : Prop where
  out : o.out = pack done ++ 0 :: g.flatMap Item.bytes
  ctrlp : o.ctrlp = some (pack done).length
  ctrlb : o.ctrlb = bits g
  ctrl : o.ctrl = 2 ^ g.length
  full : ∀ g' ∈ done, g'.length = 8
  room : g.length ≤ 8

/-- The output of the items `is`. -/
def Written (o : Output) (is : List Item) : Prop :=
  (is = [] ∧ o = ⟨[], none, 0, 0⟩) ∨ ∃ done g, Open o done g ∧ 1 ≤ g.length ∧ done.flatten ++ g = is

theorem set_control (done : List (List Item)) (g : List Item) :
    (pack done ++ 0 :: g.flatMap Item.bytes).set (pack done).length (UInt8.ofNat (bits g))
      = pack (done ++ [g]) := by
  unfold pack groupBytes
  rw [List.set_append_right _ _ (Nat.le_refl _), Nat.sub_self, List.set_cons_zero, List.flatMap_append]
  simp

/-- There is a control byte with room for an item. -/
theorem Written.outCtrl {o : Output} {is : List Item} (h : Written o is) :
    ∃ done g, Open (Pglz.outCtrl o) done g ∧ g.length < 8 ∧ done.flatten ++ g = is := by
  unfold Pglz.outCtrl
  rcases h with ⟨his, ho⟩ | ⟨done, g, hopen, hone, his⟩
  · subst his ho
    exact ⟨[], [], ⟨rfl, rfl, rfl, rfl, fun g hg => (nomatch hg), by decide⟩, by decide, rfl⟩
  · have hroom := hopen.room
    by_cases hfull : g.length = 8
    · rw [hopen.ctrl, hfull, if_pos (by decide), hopen.ctrlp, hopen.out, hopen.ctrlb]
      dsimp only
      rw [set_control]
      refine ⟨done ++ [g], [], ⟨rfl, rfl, rfl, rfl, ?_, by decide⟩, by decide, ?_⟩
      · intro g' hg'
        rcases List.mem_append.1 hg' with hg' | hg'
        · exact hopen.full g' hg'
        · rw [List.mem_singleton.1 hg', hfull]
      · rw [List.flatten_append, List.append_nil, ← his]
        simp
    · have hlt : 2 ^ g.length % 256 = 2 ^ g.length :=
        Nat.mod_eq_of_lt (Nat.pow_lt_pow_right (by decide) (by omega : g.length < 8))
      rw [hopen.ctrl, hlt, if_neg (Nat.ne_of_gt (Nat.pow_pos (by decide)))]
      exact ⟨done, g, hopen, by omega, his⟩

/-- An item is appended: its bytes, and its bit. -/
theorem Open.snoc {o : Output} {done : List (List Item)} {g : List Item} (h : Open o done g)
    (hlt : g.length < 8) (i : Item) :
    Written { o with out := o.out ++ i.bytes, ctrlb := bits (g ++ [i]), ctrl := o.ctrl * 2 }
      (done.flatten ++ (g ++ [i])) := by
  refine .inr ⟨done, g ++ [i], ⟨?_, h.ctrlp, rfl, ?_, h.full, ?_⟩, ?_, rfl⟩
  · dsimp only
    rw [h.out]
    simp
  · dsimp only
    rw [h.ctrl, List.length_append, List.length_singleton, Nat.pow_succ]
  · rw [List.length_append, List.length_singleton]
    exact hlt
  · rw [List.length_append, List.length_singleton]
    exact Nat.le_add_left 1 _

theorem Written.outLiteral {o : Output} {is : List Item} (h : Written o is) (b : UInt8) :
    Written (Pglz.outLiteral o b) (is ++ [.lit b]) := by
  obtain ⟨done, g, hopen, hlt, his⟩ := h.outCtrl
  have := hopen.snoc hlt (.lit b)
  rw [bits_append, Item.bit, Nat.zero_mul, Nat.add_zero, ← hopen.ctrlb, ← List.append_assoc, his] at this
  exact this

theorem Written.outMatch {o : Output} {is : List Item} (h : Written o is) (len off : Nat) :
    Written (Pglz.outMatch o len off) (is ++ [.tag len off]) := by
  obtain ⟨done, g, hopen, hlt, his⟩ := h.outCtrl
  have hpow : 2 ^ g.length % 256 = 2 ^ g.length :=
    Nat.mod_eq_of_lt (Nat.pow_lt_pow_right (by decide) hlt)
  have hor : (Pglz.outCtrl o).ctrlb ||| ((Pglz.outCtrl o).ctrl % 256)
      = bits (g ++ [.tag len off]) := by
    rw [hopen.ctrlb, hopen.ctrl, hpow, Nat.or_comm]
    have hadd := @Nat.two_pow_add_eq_or_of_lt g.length (bits g) (bits_lt g) 1
    rw [Nat.mul_one] at hadd
    rw [← hadd, bits_append, Item.bit, Nat.one_mul, Nat.add_comm]
  have := hopen.snoc hlt (.tag len off)
  rw [← hor, ← List.append_assoc, his] at this
  exact this

theorem shaped_of_full {done : List (List Item)} {g : List Item} (hfull : ∀ g' ∈ done, g'.length = 8)
    (hone : 1 ≤ g.length) (hroom : g.length ≤ 8) : Shaped (done ++ [g]) := by
  induction done with
  | nil => exact ⟨hone, hroom⟩
  | cons g' done ih =>
      have hg' := hfull g' List.mem_cons_self
      have hrest := ih fun g'' hg'' => hfull g'' (List.mem_cons_of_mem g' hg'')
      rw [List.cons_append]
      cases hd : done ++ [g] with
      | nil => exact absurd hd (by simp)
      | cons g'' gs => exact ⟨hg', hd ▸ hrest⟩

/-! ## The encoder -/

theorem hashSize_pos (slen : Nat) : 0 < hashSize slen := by
  unfold hashSize
  split
  · decide
  · split
    · decide
    · split
      · decide
      · split <;> decide

/-- A coder that has passed `dp` bytes of its input. -/
structure Codes (input : List UInt8) (c : Coder) (is : List Item) : Prop where
  hist : Remembers input (hashSize input.length) c.hist c.dp
  place : c.dp ≤ input.length
  plays : play (steps is) [] = some (input.take c.dp)
  fits : ∀ i ∈ is, i.Fits
  written : Written c.output is
  started : 0 < c.dp → is ≠ []

theorem Codes.initial (hist : PglzHist) (input : List UInt8) : Codes input (initialCoder hist input) [] :=
  ⟨remembers_reset hist, Nat.zero_le _, rfl, fun _ hi => (nomatch hi), .inl ⟨rfl, rfl⟩,
    fun h => absurd h (Nat.lt_irrefl 0)⟩

/-- The steps of the encoder that are reached on an input. -/
inductive Reached (hist : PglzHist) (input : List UInt8) : Coder → Prop where
  | initial : Reached hist input (initialCoder hist input)
  | next {c c' : Coder} : Reached hist input c → c.dp < input.length →
      codeItem input c = .ok (some c') → Reached hist input c'

/-- One item: the coder moves on, or gives up. -/
theorem Codes.codeItem {input : List UInt8} {c : Coder} {is : List Item} (h : Codes input c is)
    (hlt : c.dp < input.length) :
    Pglz.codeItem input c = .ok none ∨
      ∃ c' i, Pglz.codeItem input c = .ok (some c') ∧ Codes input c' (is ++ [i]) ∧ c.dp < c'.dp := by
  have hsz := hashSize_pos input.length
  unfold Pglz.codeItem
  dsimp only
  split
  · exact .inl rfl
  · split
    · exact .inl rfl
    · obtain ⟨r, hfound, hmatch⟩ := findMatch_spec h.hist hsz h.place
      rw [hfound]
      cases r with
      | none =>
          dsimp only
          rw [List.getElem?_eq_getElem hlt]
          refine .inr ⟨_, .lit input[c.dp], rfl, ⟨h.hist.histAdd hsz, hlt, ?_, ?_, h.written.outLiteral _,
            fun _ => by simp⟩, Nat.lt_succ_self _⟩
          · have hplay := @Window.play_lits _ input _ c.dp (c.dp + 1) (Nat.le_succ _) h.plays
            have hone : (input.take (c.dp + 1)).drop c.dp = [input[c.dp]] := by
              rw [← List.take_append_getElem hlt, List.drop_append_of_le_length (by
                rw [List.length_take_of_le (Nat.le_of_lt hlt)]), List.drop_of_length_le (by
                rw [List.length_take_of_le (Nat.le_of_lt hlt)]), List.nil_append]
            rw [hone] at hplay
            unfold steps
            rw [List.map_append]
            exact hplay
          · intro i hi
            rcases List.mem_append.1 hi with hi | hi
            · exact h.fits i hi
            · rw [List.mem_singleton.1 hi]
              trivial
      | some m =>
          obtain ⟨len, off⟩ := m
          obtain ⟨hmin, hmax, hoff, hrep⟩ := hmatch len off rfl
          refine .inr ⟨_, .tag len off, rfl, ⟨h.hist.addAll hsz len, hrep.fits, ?_, ?_,
            h.written.outMatch len off, fun _ => by simp⟩, by dsimp only; omega⟩
          · have hplay := Window.play_copy h.plays hrep
            unfold steps
            rw [List.map_append]
            exact hplay
          · intro i hi
            rcases List.mem_append.1 hi with hi | hi
            · exact h.fits i hi
            · rw [List.mem_singleton.1 hi]
              exact ⟨hmin, hmax, Nat.lt_trans hoff (by decide)⟩

theorem Reached.codes {hist : PglzHist} {input : List UInt8} {c : Coder} (h : Reached hist input c) :
    ∃ is, Codes input c is := by
  induction h with
  | initial => exact ⟨[], .initial hist input⟩
  | next _ hlt hc ih =>
      obtain ⟨is, his⟩ := ih
      rcases his.codeItem hlt with hnone | ⟨c', i, hsome, hcodes, -⟩
      · rw [hnone] at hc
        cases hc
      · rw [hsome] at hc
        cases hc
        exact ⟨_, hcodes⟩

/-- At the end, the payload is refused or packs items that play the input. -/
theorem Codes.finish {input : List UInt8} {c : Coder} {is : List Item} (h : Codes input c is)
    (hend : c.dp = input.length) (hpos : 0 < input.length) :
    ∃ r, Pglz.finish input c.output = .ok r ∧ ∀ payload ∈ r,
      payload.length < resultMax input.length ∧
        ∃ gs, payload = pack gs ∧ Shaped gs ∧ (∀ i ∈ gs.flatten, i.Fits) ∧
          play (steps gs.flatten) [] = some input := by
  have hne := h.started (by omega)
  rcases h.written with ⟨his, -⟩ | ⟨done, g, hopen, hone, his⟩
  · exact absurd his hne
  · unfold Pglz.finish
    rw [hopen.ctrlp]
    dsimp only
    rw [hopen.out, hopen.ctrlb, set_control]
    refine ⟨_, rfl, fun payload hp => ?_⟩
    split at hp
    · cases hp
    · rename_i hsmall
      cases hp
      have hflat : (done ++ [g]).flatten = is := by
        rw [List.flatten_append, ← his]
        simp
      refine ⟨Nat.lt_of_not_le hsmall, _, rfl, shaped_of_full hopen.full hone hopen.room, ?_, ?_⟩
      · rw [hflat]
        exact h.fits
      · rw [hflat, h.plays, hend, List.take_length]

theorem codeItems_spec {input : List UInt8} (hpos : 0 < input.length) (fuel : Nat) {c : Coder}
    {is : List Item} (h : Codes input c is) (hfuel : input.length < c.dp + fuel) :
    ∃ hist r, codeItems input fuel c = .ok (hist, r) ∧ ∀ payload ∈ r,
      payload.length < resultMax input.length ∧
        ∃ gs, payload = pack gs ∧ Shaped gs ∧ (∀ i ∈ gs.flatten, i.Fits) ∧
          play (steps gs.flatten) [] = some input := by
  induction fuel generalizing c is with
  | zero =>
      have := h.place
      omega
  | succ fuel ih =>
      rw [codeItems]
      by_cases hlt : c.dp < input.length
      · rw [if_pos hlt]
        rcases h.codeItem hlt with hnone | ⟨c', i, hsome, hcodes, hmove⟩
        · rw [hnone]
          exact ⟨c.hist, none, rfl, fun payload hp => (nomatch hp)⟩
        · rw [hsome]
          exact ih hcodes (by omega)
      · rw [if_neg hlt]
        have hplace := h.place
        obtain ⟨r, hr, hpayload⟩ := h.finish (by omega) hpos
        rw [hr]
        exact ⟨c.hist, r, rfl, hpayload⟩

theorem resultMax_le (slen : Nat) : resultMax slen * 4 ≤ slen * 3 := by
  unfold resultMax resultPct
  split <;> omega

/-- Whatever calls came before, the encoder ends, and a payload saves enough and decodes to its input up to
the decoder's limit. -/
theorem compressPayload_spec (hist : PglzHist) (x : List UInt8) :
    ∃ hist' r, compressPayload hist x = .ok (hist', r) ∧ ∀ payload ∈ r,
      payload.length < resultMax x.length ∧ payload.length * 4 < x.length * 3 ∧
        decompressRaw payload x.length = if x.length ≤ maxRawLen then .ok x else .error .corrupt := by
  unfold compressPayload
  split
  · exact ⟨hist, none, rfl, fun payload hp => (nomatch hp)⟩
  · rename_i hlong
    unfold minInput at hlong
    obtain ⟨hist', r, hr, hpayload⟩ := @codeItems_spec x (by omega) (x.length + 1) _ _
      (Codes.initial hist x) (Nat.lt_of_lt_of_le (Nat.lt_succ_self _) (Nat.le_add_left _ _))
    refine ⟨hist', r, hr, fun payload hp => ?_⟩
    obtain ⟨hsmall, gs, hgs, hshaped, hfits, hplay⟩ := hpayload payload hp
    have hmax := resultMax_le x.length
    refine ⟨hsmall, by omega, ?_⟩
    split
    · rename_i hle
      rw [hgs]
      exact decompressRaw_pack hshaped hfits hplay hle
    · rename_i hnot
      exact if_pos (Nat.lt_of_not_le hnot)

/-- Whatever calls came before: a payload is shorter than three quarters of its input, and decodes to it up
to the decoder's limit; every search of the encoder ends, with an earlier match that a tag can hold; and on
any source the decoder gives up or yields a text of the asked length. -/
theorem pglz_round_trip (hist : PglzHist) (x src : List UInt8) (origLen : Nat) :
    (∃ hist' r, compressPayload hist x = .ok (hist', r) ∧ ∀ payload ∈ r,
      payload.length < resultMax x.length ∧ payload.length * 4 < x.length * 3 ∧
        decompressRaw payload x.length = if x.length ≤ maxRawLen then .ok x else .error .corrupt) ∧
      (∀ c, Reached hist x c → c.dp < x.length →
        ∃ r, findMatch c.hist x c.dp (hashSize x.length) = .ok r ∧ ∀ len off, r = some (len, off) →
          3 ≤ len ∧ len ≤ maxMatch ∧ off < maxOffset ∧ Repeats x c.dp off len) ∧
      (decompressRaw src origLen = .error .corrupt ∨
        ∃ y, decompressRaw src origLen = .ok y ∧ y.length = origLen) := by
  refine ⟨compressPayload_spec hist x, ?_, ?_⟩
  · intro c hc hlt
    obtain ⟨is, h⟩ := hc.codes
    exact findMatch_spec h.hist (hashSize_pos _) h.place
  · have hyields := decompressRaw_yields src origLen
    cases hdec : decompressRaw src origLen with
    | ok y =>
        rw [hdec] at hyields
        exact .inr ⟨y, rfl, hyields⟩
    | error e =>
        rw [hdec] at hyields
        exact .inl (congrArg Except.error hyields)

end Toast.Pglz
