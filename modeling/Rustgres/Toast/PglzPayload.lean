-- SUMMARY: PGLZ payloads as groups of items, and what the decoder makes of them and of anything else.
import Mathlib.Data.Nat.Bitwise
import Rustgres.Toast.Pglz

/-!
# Payloads

A payload is a list of groups: a control byte, and the codes of eight items, of fewer in the last group. The
decoder plays the items of a payload, and gives up on what it cannot read.
-/

namespace Toast.Pglz

open Window (Step play copyBack)

/-! ## Items and groups -/

inductive Item where
  | lit (b : UInt8)
  | tag (len off : Nat)

namespace Item

def bytes : Item → List UInt8
  | lit b => [b]
  | tag len off => tagBytes len off

/-- The control bit. -/
def bit : Item → Nat
  | lit _ => 0
  | tag _ _ => 1

def step : Item → Step UInt8
  | lit b => .lits [b]
  | tag len off => .copy off len

/-- A tag can hold the item. -/
def Fits : Item → Prop
  | lit _ => True
  | tag len off => 3 ≤ len ∧ len ≤ maxMatch ∧ off < 4096

end Item

/-- The control byte of a group, lowest bit first. -/
@[grind =]
def bits : List Item → Nat
  | [] => 0
  | i :: is => i.bit + 2 * bits is

def groupBytes (g : List Item) : List UInt8 := UInt8.ofNat (bits g) :: g.flatMap Item.bytes

def pack (gs : List (List Item)) : List UInt8 := gs.flatMap groupBytes

def steps (is : List Item) : List (Step UInt8) := is.map Item.step

/-- All groups but the last are full, and none is empty. -/
def Shaped : List (List Item) → Prop
  | [] => True
  | [g] => 1 ≤ g.length ∧ g.length ≤ 8
  | g :: gs => g.length = 8 ∧ Shaped gs

theorem Item.bit_le (i : Item) : i.bit ≤ 1 := by
  cases i with
  | lit b => exact Nat.zero_le 1
  | tag len off => exact Nat.le_refl 1

theorem bits_lt (g : List Item) : bits g < 2 ^ g.length := by
  induction g with
  | nil => exact Nat.one_pos
  | cons i g ih =>
      have := i.bit_le
      rw [bits, List.length_cons, Nat.pow_succ]
      omega

theorem bits_append (g : List Item) (i : Item) : bits (g ++ [i]) = bits g + i.bit * 2 ^ g.length := by
  induction g with
  | nil => simp [bits]
  | cons i' g ih =>
      rw [List.cons_append, bits, ih, bits, List.length_cons, Nat.pow_succ, Nat.mul_add, Nat.mul_left_comm,
        Nat.mul_comm 2 (2 ^ g.length)]
      omega

theorem Item.one_le_length_bytes (i : Item) : 1 ≤ i.bytes.length := by
  cases i with
  | lit b => exact Nat.le_refl 1
  | tag len off =>
      change 1 ≤ (tagBytes len off).length
      unfold tagBytes
      split <;> exact Nat.succ_le_succ (Nat.zero_le _)

/-- Every item writes something. -/
theorem length_play {is : List Item} {out out' : List UInt8} (hfits : ∀ i ∈ is, i.Fits)
    (h : play (steps is) out = some out') : out.length + is.length ≤ out'.length := by
  induction is generalizing out with
  | nil =>
      cases h
      exact Nat.le_refl _
  | cons i is ih =>
      have hrest := fun j hj => hfits j (List.mem_cons_of_mem i hj)
      cases i with
      | lit b =>
          have := ih hrest h
          rw [List.length_append, List.length_singleton] at this
          rw [List.length_cons]
          omega
      | tag len off =>
          obtain ⟨hlen, -, -⟩ := hfits _ List.mem_cons_self
          unfold steps at h
          rw [List.map_cons, Item.step, play] at h
          split at h
          · rename_i hoff
            obtain ⟨out₁, hcopy, h⟩ := Option.bind_eq_some_iff.1 h
            obtain ⟨out₂, hcopy', hlen₂⟩ := Window.copyBack_isSome hoff.1 len hoff.2
            cases hcopy.symm.trans hcopy'
            have := ih hrest h
            rw [List.length_cons]
            omega
          · cases h

/-! ## Decoding a payload -/

/-- A tag is read back, and its copy made. -/
theorem decodeTag_tagBytes {n origLen len off : Nat} {p : Progress} {more out' : List UInt8}
    (hat : p.At n) (hrest : p.rest = tagBytes len off ++ more) (hfits : (Item.tag len off).Fits)
    (hoff : 0 < off ∧ off ≤ p.out.length) (hcopy : copyBack off len p.out = some out')
    (hroom : p.out.length + len ≤ origLen) :
    decodeTag n origLen p = .ok ⟨n - more.length, more, out'⟩ := by
  obtain ⟨ip, rest, out⟩ := p
  obtain ⟨hmin, hmax, hwindow⟩ := hfits
  dsimp only at *
  unfold Progress.At at hat
  unfold maxMatch at hmax
  dsimp only at hat
  have hcopy' := copyMatch_eq hcopy hoff.2 (Nat.le_refl _)
  subst hrest
  unfold decodeTag
  unfold tagBytes at hat ⊢
  have h₁ : (UInt8.ofNat (off % 256)).toNat = off % 256 := by
    rw [UInt8.toNat_ofNat']
    omega
  by_cases hlong : 17 < len
  · rw [if_pos hlong] at hat ⊢
    simp only [List.cons_append, List.nil_append, List.length_cons] at hat ⊢
    have h₀ : (UInt8.ofNat (off / 256 % 16 * 16 + 15)).toNat = off / 256 * 16 + 15 := by
      rw [UInt8.toNat_ofNat']
      omega
    have h₂ : (UInt8.ofNat (len - 18)).toNat = len - 18 := by
      rw [UInt8.toNat_ofNat']
      omega
    have hmoff : (off / 256 * 16 + 15) / 16 * 256 + off % 256 = off := by omega
    have hread : readTagLen n ((off / 256 * 16 + 15) % 16 + 3) (ip + 2) (UInt8.ofNat (len - 18) :: more)
        = .ok (len, n - more.length, more) := by
      unfold readTagLen
      rw [if_pos (by omega), if_neg (by omega)]
      dsimp only
      rw [h₂, show (off / 256 * 16 + 15) % 16 + 3 + (len - 18) = len by omega,
        show ip + 2 + 1 = n - more.length by omega]
    rw [if_neg (by omega), h₀, h₁, hmoff, hread]
    dsimp only [bind, Except.bind]
    rw [if_neg (by omega), Nat.min_eq_left (by omega), hcopy']
  · rw [if_neg hlong] at hat ⊢
    simp only [List.cons_append, List.nil_append, List.length_cons] at hat ⊢
    have h₀ : (UInt8.ofNat (off / 256 % 16 * 16 + (len - 3))).toNat = off / 256 * 16 + (len - 3) := by
      rw [UInt8.toNat_ofNat']
      omega
    have hmoff : (off / 256 * 16 + (len - 3)) / 16 * 256 + off % 256 = off := by omega
    have hread : readTagLen n ((off / 256 * 16 + (len - 3)) % 16 + 3) (ip + 2) more
        = .ok (len, n - more.length, more) := by
      unfold readTagLen
      rw [if_neg (by omega), show (off / 256 * 16 + (len - 3)) % 16 + 3 = len by omega,
        show ip + 2 = n - more.length by omega]
    rw [if_neg (by omega), h₀, h₁, hmoff, hread]
    dsimp only [bind, Except.bind]
    rw [if_neg (by omega), Nat.min_eq_left (by omega), hcopy']

/-- One item after its control bit. -/
theorem decode_item {n origLen : Nat} {i : Item} {p : Progress} {more out₁ : List UInt8}
    (hat : p.At n) (hrest : p.rest = i.bytes ++ more) (hfits : i.Fits)
    (hplay : play [i.step] p.out = some out₁) (hroom : out₁.length ≤ origLen) :
    (if i.bit ≠ 0 then decodeTag n origLen p else decodeLiteral p)
      = .ok ⟨n - more.length, more, out₁⟩ := by
  cases i with
  | lit b =>
      have hout : p.out ++ [b] = out₁ := Option.some.inj hplay
      have hrest : p.rest = b :: more := hrest
      unfold Progress.At at hat
      rw [hrest, List.length_cons] at hat
      rw [if_neg (fun h => h rfl), decodeLiteral, hrest]
      dsimp only
      rw [hout, show p.ip + 1 = n - more.length by omega]
  | tag len off =>
      rw [Item.step, play] at hplay
      split at hplay
      · rename_i hoff
        obtain ⟨out₂, hcopy, heq⟩ := Option.bind_eq_some_iff.1 hplay
        cases heq
        obtain ⟨out₃, hcopy', hlen⟩ := Window.copyBack_isSome hoff.1 len hoff.2
        cases hcopy.symm.trans hcopy'
        rw [if_pos (show (Item.tag len off).bit ≠ 0 from Nat.one_ne_zero)]
        exact decodeTag_tagBytes hat hrest hfits hoff hcopy (by omega)
      · cases hplay

/-- The items of a group; one with room left is the last. -/
theorem decodeItems_bits {n origLen : Nat} (g : List Item) {k : Nat} {p : Progress}
    {more out' : List UInt8} (hat : p.At n) (hrest : p.rest = g.flatMap Item.bytes ++ more)
    (hfits : ∀ i ∈ g, i.Fits) (hplay : play (steps g) p.out = some out')
    (hroom : out'.length ≤ origLen) (hk : g.length ≤ k) (hlast : g.length < k → more = []) :
    decodeItems n origLen k (bits g) p = .ok ⟨n - more.length, more, out'⟩ := by
  induction g generalizing k p with
  | nil =>
      have hout : p.out = out' := Option.some.inj hplay
      have hrest : p.rest = more := hrest
      unfold Progress.At at hat
      rw [hrest] at hat
      have hp : p = ⟨n - more.length, more, out'⟩ := by
        obtain ⟨ip, rest, out⟩ := p
        dsimp only at *
        rw [hout, hrest, show n - more.length = ip by omega]
      cases k with
      | zero => rw [decodeItems, ← hp]
      | succ k =>
          have hnil := hlast (Nat.succ_pos k)
          rw [hnil, List.length_nil] at hat
          rw [decodeItems, if_pos (.inl (by omega)), ← hp]
  | cons i g ih =>
      cases k with
      | zero => cases hk
      | succ k =>
          have hlen := length_play hfits hplay
          have hbytes := i.one_le_length_bytes
          unfold Progress.At at hat
          rw [hrest, List.flatMap_cons, List.length_append, List.length_append] at hat
          rw [List.flatMap_cons, List.append_assoc] at hrest
          rw [List.length_cons] at hlen hk
          have hsplit : steps (i :: g) = [i.step] ++ steps g := rfl
          rw [hsplit, Window.play_append] at hplay
          obtain ⟨out₁, hone, hplay⟩ := Option.bind_eq_some_iff.1 hplay
          have hfits' := fun j hj => hfits j (List.mem_cons_of_mem i hj)
          have hlen' := length_play hfits' hplay
          have hbit := i.bit_le
          rw [decodeItems, if_neg (by omega), bits, show (i.bit + 2 * bits g) % 2 = i.bit by omega,
            show (i.bit + 2 * bits g) / 2 = bits g by omega,
            decode_item (by unfold Progress.At; rw [hrest]; simp only [List.length_append]; omega) hrest
              (hfits i List.mem_cons_self) hone (by omega)]
          apply ih _ rfl hfits' hplay (by omega)
          · intro hlt
            exact hlast (Nat.succ_lt_succ hlt)
          · unfold Progress.At
            dsimp only
            rw [List.length_append]
            omega

theorem decodeGroups_pack {n origLen : Nat} (gs : List (List Item)) {fuel : Nat} {p : Progress}
    {out' : List UInt8} (hat : p.At n) (hrest : p.rest = pack gs) (hshaped : Shaped gs)
    (hfits : ∀ i ∈ gs.flatten, i.Fits) (hplay : play (steps gs.flatten) p.out = some out')
    (hlen : out'.length = origLen) (hfuel : gs.length < fuel) :
    decodeGroups n origLen fuel p = .ok ⟨n, [], out'⟩ := by
  induction gs generalizing fuel p with
  | nil =>
      obtain ⟨fuel, rfl⟩ := Nat.exists_eq_add_one_of_ne_zero (Nat.ne_zero_of_lt hfuel)
      have hout : p.out = out' := Option.some.inj hplay
      have hrest : p.rest = [] := hrest
      unfold Progress.At at hat
      rw [hrest, List.length_nil] at hat
      rw [decodeGroups, if_neg (by omega), ← hout, ← hrest]
      cases p
      dsimp only at *
      congr
  | cons g gs ih =>
      obtain ⟨fuel, rfl⟩ := Nat.exists_eq_add_one_of_ne_zero (Nat.ne_zero_of_lt hfuel)
      have hg : 1 ≤ g.length ∧ g.length ≤ 8 ∧ (g.length < 8 → gs = []) := by
        cases gs with
        | nil => exact ⟨hshaped.1, hshaped.2, fun _ => rfl⟩
        | cons g' gs => exact ⟨by have := hshaped.1; omega, by have := hshaped.1; omega,
            fun h => absurd hshaped.1 (Nat.ne_of_lt h)⟩
      have hshaped' : Shaped gs := by
        cases gs with
        | nil => trivial
        | cons g' gs => exact hshaped.2
      rw [List.flatten_cons] at hfits hplay
      have hfitsg := fun i hi => hfits i (List.mem_append_left _ hi)
      have hfitsr := fun i hi => hfits i (List.mem_append_right _ hi)
      have hsplit : steps (g ++ gs.flatten) = steps g ++ steps gs.flatten := List.map_append
      rw [hsplit, Window.play_append] at hplay
      obtain ⟨out₁, hone, hplay⟩ := Option.bind_eq_some_iff.1 hplay
      have hlen₁ := length_play hfitsg hone
      have hlen₂ := length_play hfitsr hplay
      have hctrl : (UInt8.ofNat (bits g)).toNat = bits g := by
        have hlt := bits_lt g
        have hpow : 2 ^ g.length ≤ 2 ^ 8 := Nat.pow_le_pow_right (by decide) hg.2.1
        rw [UInt8.toNat_ofNat']
        omega
      have hrest : p.rest = UInt8.ofNat (bits g) :: (g.flatMap Item.bytes ++ pack gs) := by
        rw [hrest]
        unfold pack groupBytes
        rw [List.flatMap_cons, List.cons_append]
      unfold Progress.At at hat
      rw [hrest, List.length_cons, List.length_append] at hat
      rw [decodeGroups, if_pos ⟨by omega, by omega⟩, hrest]
      dsimp only
      rw [hctrl, @decodeItems_bits n origLen g 8 ⟨p.ip + 1, g.flatMap Item.bytes ++ pack gs, p.out⟩
        (pack gs) out₁ (by unfold Progress.At; simp only [List.length_append]; omega) rfl hfitsg hone
        (by omega) hg.2.1 (fun h => by rw [hg.2.2 h]; rfl)]
      rw [List.length_cons] at hfuel
      apply ih _ rfl hshaped' hfitsr hplay
      · omega
      · unfold Progress.At
        dsimp only
        omega

/-! ## Anything else -/

theorem readTagLen_yields {n mlen ip : Nat} {rest : List UInt8} (hip : ip + rest.length = n) :
    Yields (readTagLen n mlen ip rest) fun (_, ip', rest') => ip' + rest'.length = n ∧ ip ≤ ip' := by
  unfold readTagLen
  split
  · split
    · exact .corrupt
    · cases rest with
      | nil =>
          rw [List.length_nil] at hip
          omega
      | cons b rest =>
          rw [List.length_cons] at hip
          exact .ok ⟨by omega, Nat.le_succ ip⟩
  · exact .ok ⟨hip, Nat.le_refl ip⟩

theorem decodeTag_yields {n origLen : Nat} {p : Progress} (hat : p.At n) :
    Yields (decodeTag n origLen p) fun p' => p'.At n ∧ p.ip < p'.ip := by
  obtain ⟨ip, rest, out⟩ := p
  unfold Progress.At at hat
  unfold decodeTag
  dsimp only at *
  split
  · exact .corrupt
  · rcases rest with _ | ⟨b₀, _ | ⟨b₁, rest⟩⟩
    · rw [List.length_nil] at hat
      omega
    · rw [List.length_singleton] at hat
      omega
    · simp only [List.length_cons] at hat
      apply (readTagLen_yields (by omega : ip + 2 + rest.length = n)).bind
      rintro ⟨mlen, ip', rest'⟩ ⟨hip, hlt⟩
      dsimp only
      split
      · exact .corrupt
      · rename_i hoff
        obtain ⟨out', hcopy, -⟩ := @Window.copyBack_isSome _ (b₀.toNat / 16 * 256 + b₁.toNat) (by omega)
          (min mlen (origLen - out.length)) out (by omega)
        rw [copyMatch_eq hcopy (by omega) (Nat.le_refl _)]
        exact .ok ⟨hip, Nat.lt_of_lt_of_le (by omega) hlt⟩

theorem decodeLiteral_yields {n : Nat} {p : Progress} (hat : p.At n) (hlt : p.ip < n) :
    Yields (decodeLiteral p) fun p' => p'.At n ∧ p.ip < p'.ip := by
  unfold Progress.At at hat
  unfold decodeLiteral
  split
  · rename_i hnil
    rw [hnil, List.length_nil] at hat
    omega
  · rename_i b rest hrest
    rw [hrest, List.length_cons] at hat
    refine .ok ⟨?_, Nat.lt_succ_self _⟩
    unfold Progress.At
    dsimp only
    omega

theorem decodeItems_yields {n origLen : Nat} (k : Nat) {ctrl : Nat} {p : Progress} (hat : p.At n) :
    Yields (decodeItems n origLen k ctrl p) fun p' => p'.At n ∧ p.ip ≤ p'.ip := by
  induction k generalizing ctrl p with
  | zero => exact .ok ⟨hat, Nat.le_refl _⟩
  | succ k ih =>
      rw [decodeItems]
      split
      · exact .ok ⟨hat, Nat.le_refl _⟩
      · rename_i hmore
        have hone : Yields (if ctrl % 2 ≠ 0 then decodeTag n origLen p else decodeLiteral p)
            fun p' => p'.At n ∧ p.ip < p'.ip := by
          split
          · exact decodeTag_yields hat
          · exact decodeLiteral_yields hat (by omega)
        cases hitem : if ctrl % 2 ≠ 0 then decodeTag n origLen p else decodeLiteral p with
        | error e =>
            rw [hitem] at hone
            exact hone
        | ok p' =>
            rw [hitem] at hone
            apply (ih hone.1).mono
            rintro p'' ⟨hat'', hle⟩
            exact ⟨hat'', Nat.le_trans (Nat.le_of_lt hone.2) hle⟩

theorem decodeGroups_yields {n origLen : Nat} (fuel : Nat) {p : Progress} (hat : p.At n)
    (hfuel : p.rest.length < fuel) : Yields (decodeGroups n origLen fuel p) fun p' => p'.At n := by
  induction fuel generalizing p with
  | zero => omega
  | succ fuel ih =>
      rw [decodeGroups]
      split
      · rename_i hmore
        cases hrest : p.rest with
        | nil =>
            unfold Progress.At at hat
            rw [hrest, List.length_nil] at hat
            omega
        | cons ctrl rest =>
            dsimp only
            have hat' : Progress.At ⟨p.ip + 1, rest, p.out⟩ n := by
              unfold Progress.At at hat ⊢
              rw [hrest, List.length_cons] at hat
              dsimp only
              omega
            have hone := @decodeItems_yields n origLen 8 ctrl.toNat _ hat'
            cases hitems : decodeItems n origLen 8 ctrl.toNat ⟨p.ip + 1, rest, p.out⟩ with
            | error e =>
                rw [hitems] at hone
                exact hone
            | ok p' =>
                rw [hitems] at hone
                apply ih hone.1
                obtain ⟨hplace, hle⟩ := hone
                unfold Progress.At at hplace hat'
                rw [hrest, List.length_cons] at hfuel
                dsimp only at hle hat'
                omega
      · exact .ok hat

/-- Whatever the source, the decoder gives up or yields a text of the asked length. -/
theorem decompressRaw_yields (src : List UInt8) (origLen : Nat) :
    Yields (decompressRaw src origLen) fun y => y.length = origLen := by
  unfold decompressRaw
  split
  · exact .corrupt
  · have hgroups := @decodeGroups_yields src.length origLen (src.length + 1) ⟨0, src, []⟩ (Nat.zero_add _)
      (Nat.lt_succ_self _)
    cases hdec : decodeGroups src.length origLen (src.length + 1) ⟨0, src, []⟩ with
    | error e =>
        rw [hdec] at hgroups
        exact hgroups
    | ok p =>
        dsimp only
        split
        · rename_i hdone
          exact .ok hdone.1
        · exact .corrupt

/-- The payload of items that play a text decodes to it, unless the text is too long. -/
theorem decompressRaw_pack {gs : List (List Item)} {x : List UInt8} (hshaped : Shaped gs)
    (hfits : ∀ i ∈ gs.flatten, i.Fits) (hplay : play (steps gs.flatten) [] = some x)
    (hlen : x.length ≤ maxRawLen) : decompressRaw (pack gs) x.length = .ok x := by
  have hfuel : gs.length ≤ (pack gs).length := by
    clear hshaped hfits hplay
    induction gs with
    | nil => exact Nat.zero_le _
    | cons g gs ih =>
        unfold pack groupBytes at *
        rw [List.flatMap_cons, List.length_append, List.length_cons, List.length_cons]
        omega
  unfold decompressRaw
  rw [if_neg (by omega), @decodeGroups_pack (pack gs).length x.length gs _ ⟨0, pack gs, []⟩ x
    (Nat.zero_add _) rfl hshaped hfits hplay rfl (by omega)]
  dsimp only
  rw [if_pos ⟨rfl, rfl⟩]

end Toast.Pglz
