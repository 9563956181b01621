-- SUMMARY: Long division of numbers given by digits, with an estimated quotient digit that is corrected.
import Rustgres.Lib.Limbs
import Mathlib.Tactic.LinearCombination
import Mathlib.Tactic.Zify

/-!
# Long division

Each quotient digit is estimated from the top two digits of the remainder, corrected with a third, and
multiplied out; while the difference is negative the divisor is added back. The estimate never falls below
the digit, so the steps after it make the division exact for any leading digit of the divisor.
-/

namespace Limbs

variable {b : Nat}

/-! ## Reading digits at the top -/

theorem value_take_drop (k : Nat) (l : List Nat) :
    Nat.ofDigits b l = Nat.ofDigits b (l.take k) + b ^ min k l.length * Nat.ofDigits b (l.drop k) := by
  conv_lhs => rw [← List.take_append_drop k l]
  rw [Nat.ofDigits_append, List.length_take]

theorem drop_getD {k : Nat} {l : List Nat} (h : k < l.length) :
    l.drop k = l.getD k 0 :: l.drop (k + 1) := by
  rw [List.drop_eq_getElem_cons h, List.getD_eq_getElem?_getD, List.getElem?_eq_getElem h,
    Option.getD_some]

theorem below_take {l : List Nat} (h : Below b l) (k : Nat) : Below b (l.take k) :=
  fun x hx => h x (List.mem_of_mem_take hx)

theorem getD_lt (hb : 0 < b) {l : List Nat} (h : Below b l) (k : Nat) : l.getD k 0 < b := by
  rw [List.getD_eq_getElem?_getD]
  cases hk : l[k]? with
  | none => exact hb
  | some x => exact h x (List.mem_of_getElem? hk)

/-! ## The quotient digit -/

/-- Lower the estimate while it is too large by the second digits. -/
def correct (b v₁ v₂ w₂ : Nat) : Nat → Nat → Nat
  | 0, _ => 0
  | q + 1, r =>
    if b ≤ q + 1 ∨ b * r + w₂ < (q + 1) * v₂ then
      if b ≤ r + v₁ then q else correct b v₁ v₂ w₂ q (r + v₁)
    else q + 1

theorem correct_le (v₁ v₂ w₂ q r : Nat) : correct b v₁ v₂ w₂ q r ≤ q := by
  induction q generalizing r with
  | zero => exact Nat.le_refl 0
  | succ q ih =>
      rw [correct]
      split
      · split
        · exact Nat.le_succ q
        · exact Nat.le_succ_of_le (ih _)
      · exact Nat.le_refl _

/-- A digit too large by its second test is larger than the quotient. -/
theorem lt_of_test {v₁ v₂ w₂ q r num P V W s : Nat} (hnum : num = q * v₁ + r)
    (hV : (v₁ * b + v₂) * P ≤ V) (hW : W < (num * b + w₂ + 1) * P) (hs : s * V ≤ W)
    (htest : b * r + w₂ < q * v₂) : s < q := by
  by_contra hcon
  have hq : q ≤ s := Nat.le_of_not_lt hcon
  have hchain : q * (v₁ * b + v₂) * P < (num * b + w₂ + 1) * P := by
    calc q * (v₁ * b + v₂) * P = q * ((v₁ * b + v₂) * P) := Nat.mul_assoc _ _ _
      _ ≤ s * V := Nat.mul_le_mul hq hV
      _ ≤ W := hs
      _ < (num * b + w₂ + 1) * P := hW
  have hlt := Nat.lt_of_mul_lt_mul_right hchain
  have hexp : q * (v₁ * b + v₂) = q * v₁ * b + q * v₂ := by ring
  have hnum' : num * b = q * v₁ * b + b * r := by
    rw [hnum]
    ring
  omega

theorem le_correct {v₁ v₂ w₂ q r num P V W s : Nat} (hnum : num = q * v₁ + r)
    (hV : (v₁ * b + v₂) * P ≤ V) (hW : W < (num * b + w₂ + 1) * P) (hs : s * V ≤ W) (hsb : s < b)
    (hsq : s ≤ q) : s ≤ correct b v₁ v₂ w₂ q r := by
  induction q generalizing r with
  | zero => exact hsq
  | succ q ih =>
      rw [correct]
      split
      · rename_i htest
        have hlt : s < q + 1 := by
          rcases htest with htest | htest
          · exact Nat.lt_of_lt_of_le hsb htest
          · exact lt_of_test hnum hV hW hs htest
        split
        · exact Nat.le_of_lt_succ hlt
        · refine ih ?_ (Nat.le_of_lt_succ hlt)
          rw [hnum]
          ring
      · exact hsq

/-- The digits less `q` times the divisor's, and what is borrowed from above them. -/
@[grind =]
def mulSub (b q : Nat) : List Nat → List Nat → Nat → List Nat × Nat
  | w :: ws, v :: vs, c =>
    if (q * v + c) % b ≤ w then
      ((w - (q * v + c) % b) :: (mulSub b q ws vs ((q * v + c) / b)).1,
        (mulSub b q ws vs ((q * v + c) / b)).2)
    else
      ((w + b - (q * v + c) % b) :: (mulSub b q ws vs ((q * v + c) / b + 1)).1,
        (mulSub b q ws vs ((q * v + c) / b + 1)).2)
  | _, _, c => ([], c)

theorem value_mulSub (hb : 0 < b) (q : Nat) {ws vs : List Nat} (hlen : ws.length = vs.length) (c : Nat) :
    Nat.ofDigits b (mulSub b q ws vs c).1 + q * Nat.ofDigits b vs + c
      = Nat.ofDigits b ws + b ^ ws.length * (mulSub b q ws vs c).2 := by
  induction ws generalizing vs c with
  | nil =>
      cases vs with
      | nil => simp [mulSub]
      | cons v vs => cases hlen
  | cons w ws ih =>
      cases vs with
      | nil => cases hlen
      | cons v vs =>
          have hdiv := Nat.mod_add_div (q * v + c) b
          have hmod := Nat.mod_lt (q * v + c) hb
          unfold mulSub
          split
          · rename_i hle
            have hrest := ih (Nat.succ.inj hlen) ((q * v + c) / b)
            simp only [Nat.ofDigits_cons, List.length_cons, pow_succ]
            generalize mulSub b q ws vs ((q * v + c) / b) = rest at hrest ⊢
            generalize (q * v + c) / b = hi at hdiv hrest
            generalize (q * v + c) % b = lo at hdiv hmod hle
            zify [hle] at hdiv hrest ⊢
            linear_combination (b : Int) * hrest - hdiv
          · rename_i hlt
            have hle : (q * v + c) % b ≤ w + b := by omega
            have hrest := ih (Nat.succ.inj hlen) ((q * v + c) / b + 1)
            simp only [Nat.ofDigits_cons, List.length_cons, pow_succ]
            generalize mulSub b q ws vs ((q * v + c) / b + 1) = rest at hrest ⊢
            generalize (q * v + c) / b = hi at hdiv hrest
            generalize (q * v + c) % b = lo at hdiv hmod hle
            zify [hle] at hdiv hrest ⊢
            linear_combination (b : Int) * hrest - hdiv

theorem length_mulSub (q : Nat) {ws vs : List Nat} (hlen : ws.length = vs.length) (c : Nat) :
    (mulSub b q ws vs c).1.length = vs.length := by
  induction ws generalizing vs c with
  | nil =>
      cases vs with
      | nil => rfl
      | cons v vs => cases hlen
  | cons w ws ih =>
      cases vs with
      | nil => cases hlen
      | cons v vs =>
          unfold mulSub
          split
          · rw [List.length_cons, List.length_cons, ih (Nat.succ.inj hlen)]
          · rw [List.length_cons, List.length_cons, ih (Nat.succ.inj hlen)]

theorem below_mulSub (q : Nat) {ws vs : List Nat} (hws : Below b ws) (c : Nat) :
    Below b (mulSub b q ws vs c).1 := by
  induction ws generalizing vs c with
  | nil =>
      cases vs with
      | nil => exact below_nil
      | cons v vs => exact below_nil
  | cons w ws ih =>
      cases vs with
      | nil => exact below_nil
      | cons v vs =>
          obtain ⟨hw, hws⟩ := below_cons.1 hws
          unfold mulSub
          split
          · exact below_cons.2 ⟨by omega, ih hws _⟩
          · exact below_cons.2 ⟨by omega, ih hws _⟩

/-- Addition of as many digits, with the carry left over. -/
def addFixed (b : Nat) : List Nat → List Nat → Nat → List Nat × Nat
  | u :: us, v :: vs, c =>
    ((u + v + c) % b :: (addFixed b us vs ((u + v + c) / b)).1, (addFixed b us vs ((u + v + c) / b)).2)
  | _, _, c => ([], c)

theorem value_addFixed {us vs : List Nat} (hlen : us.length = vs.length) (c : Nat) :
    Nat.ofDigits b (addFixed b us vs c).1 + b ^ us.length * (addFixed b us vs c).2
      = Nat.ofDigits b us + Nat.ofDigits b vs + c := by
  induction us generalizing vs c with
  | nil =>
      cases vs with
      | nil => simp [addFixed]
      | cons v vs => cases hlen
  | cons u us ih =>
      cases vs with
      | nil => cases hlen
      | cons v vs =>
          have hdiv := Nat.mod_add_div (u + v + c) b
          have hrest := ih (Nat.succ.inj hlen) ((u + v + c) / b)
          simp only [addFixed, Nat.ofDigits_cons, List.length_cons, pow_succ]
          zify at hdiv hrest ⊢
          linear_combination hdiv + (b : Int) * hrest

theorem length_addFixed {us vs : List Nat} (hlen : us.length = vs.length) (c : Nat) :
    (addFixed b us vs c).1.length = vs.length := by
  induction us generalizing vs c with
  | nil =>
      cases vs with
      | nil => rfl
      | cons v vs => cases hlen
  | cons u us ih =>
      cases vs with
      | nil => cases hlen
      | cons v vs => simp only [addFixed, List.length_cons, ih (Nat.succ.inj hlen)]

theorem below_addFixed (hb : 0 < b) (us vs : List Nat) (c : Nat) : Below b (addFixed b us vs c).1 := by
  induction us generalizing vs c with
  | nil =>
      cases vs with
      | nil => exact below_nil
      | cons v vs => exact below_nil
  | cons u us ih =>
      cases vs with
      | nil => exact below_nil
      | cons v vs => exact below_cons.2 ⟨Nat.mod_lt _ hb, ih _ _⟩

/-- Add the divisor back while the digit above is negative. -/
def addBack (b : Nat) (vs : List Nat) : Nat → List Nat → Int → Nat × List Nat
  | 0, us, _ => (0, us)
  | q + 1, us, top =>
    if top < 0 then addBack b vs q (addFixed b us vs 0).1 (top + (addFixed b us vs 0).2)
    else (q + 1, us)

/-- The digits `us` with `top` above them are `W` less `q` times the divisor, and `q` is not too small. -/
structure Owed (b : Nat) (vs : List Nat) (W q : Nat) (us : List Nat) (top : Int) : Prop where
  length : us.length = vs.length
  below : Below b us
  value : (W : Int) = q * Nat.ofDigits b vs + Nat.ofDigits b us + (b ^ vs.length : Nat) * top
  lt : W < (q + 1) * Nat.ofDigits b vs

/-- Nothing is owed when the digit above is not negative. -/
theorem Owed.done (hb : 1 < b) {vs us : List Nat} {q W : Nat} {top : Int} (h : Owed b vs W q us top)
    (hvs : Below b vs) (htop : 0 ≤ top) :
    W = q * Nat.ofDigits b vs + Nat.ofDigits b us ∧ Nat.ofDigits b us < Nat.ofDigits b vs := by
  have hpow : Nat.ofDigits b vs < b ^ vs.length := value_lt hb hvs
  have hW := h.value
  have hlt := h.lt
  have hexp : (q + 1) * Nat.ofDigits b vs = q * Nat.ofDigits b vs + Nat.ofDigits b vs := by ring
  rw [hexp] at hlt
  have hzero : top = 0 := by
    by_contra hne
    have hle : ((b ^ vs.length : Nat) : Int) * 1 ≤ (b ^ vs.length : Nat) * top := by
      apply mul_le_mul_of_nonneg_left (by omega) (by positivity)
    have hcast : ((q * Nat.ofDigits b vs : Nat) : Int) = q * (Nat.ofDigits b vs : Nat) := by push_cast; rfl
    omega
  rw [hzero, mul_zero, add_zero] at hW
  have hW' : W = q * Nat.ofDigits b vs + Nat.ofDigits b us := by exact_mod_cast hW
  exact ⟨hW', by omega⟩

/-- A negative digit above leaves something to take back, and adding the divisor does. -/
theorem Owed.step (hb : 1 < b) {vs us : List Nat} {q W : Nat} {top : Int} (h : Owed b vs W q us top) (htop : top < 0) :
    ∃ p, q = p + 1 ∧ Owed b vs W p (addFixed b us vs 0).1 (top + (addFixed b us vs 0).2) := by
  have hle : ((b ^ vs.length : Nat) : Int) * top ≤ (b ^ vs.length : Nat) * (-1) := by
    apply mul_le_mul_of_nonneg_left (by omega) (by positivity)
  have hul := value_lt hb h.below
  rw [h.length] at hul
  have hW := h.value
  cases q with
  | zero =>
      simp only [Nat.cast_zero, zero_mul, zero_add] at hW
      omega
  | succ p =>
      have hadd := value_addFixed (b := b) h.length 0
      rw [h.length] at hadd
      refine ⟨p, rfl, by rw [length_addFixed h.length], below_addFixed (by omega) us vs 0, ?_, ?_⟩
      · rw [hW]
        push_cast at hadd ⊢
        zify at hadd
        linear_combination -hadd
      · have hcast : (((p + 1) * Nat.ofDigits b vs : Nat) : Int)
            = ((p + 1 : Nat) : Int) * (Nat.ofDigits b vs : Nat) := by push_cast; rfl
        omega

/-- With a quotient digit that is not too small, what is left is the division. -/
theorem addBack_spec (hb : 1 < b) {vs us : List Nat} {q W : Nat} {top : Int} (h : Owed b vs W q us top)
    (hvs : Below b vs) :
    Below b (addBack b vs q us top).2 ∧ (addBack b vs q us top).2.length = vs.length ∧
      W = (addBack b vs q us top).1 * Nat.ofDigits b vs + Nat.ofDigits b (addBack b vs q us top).2 ∧
      Nat.ofDigits b (addBack b vs q us top).2 < Nat.ofDigits b vs := by
  induction q generalizing us top with
  | zero =>
      have htop : 0 ≤ top := by
        by_contra hneg
        obtain ⟨p, hp, -⟩ := h.step hb (not_le.1 hneg)
        cases hp
      obtain ⟨hval, hless⟩ := h.done hb hvs htop
      exact ⟨h.below, h.length, hval, hless⟩
  | succ q ih =>
      unfold addBack
      split
      · rename_i hneg
        obtain ⟨p, hp, hrest⟩ := h.step hb hneg
        cases hp
        exact ih hrest
      · rename_i hge
        obtain ⟨hval, hless⟩ := h.done hb hvs (by omega)
        exact ⟨h.below, h.length, hval, hless⟩

/-! ## The division -/

/-- One quotient digit and the remainder, from a window one digit longer than the divisor. -/
def divStep (b : Nat) (vs ws : List Nat) : Nat × List Nat :=
  let n := vs.length
  let v₁ := vs.getD (n - 1) 0
  let num := ws.getD n 0 * b + ws.getD (n - 1) 0
  let q := correct b v₁ (vs.getD (n - 2) 0) (ws.getD (n - 2) 0) (num / v₁) (num % v₁)
  let diff := mulSub b q (ws.take n) vs 0
  addBack b vs q diff.1 ((ws.getD n 0 : Int) - diff.2)

theorem top_three {l : List Nat} {n : Nat} (hn : 2 ≤ n) (hlen : l.length = n + 1) :
    Nat.ofDigits b l = Nat.ofDigits b (l.take (n - 2))
      + b ^ (n - 2) * (l.getD (n - 2) 0 + b * (l.getD (n - 1) 0 + b * l.getD n 0)) := by
  rw [value_take_drop (n - 2) l, drop_getD (by omega), show n - 2 + 1 = n - 1 by omega,
    drop_getD (by omega), show n - 1 + 1 = n by omega, drop_getD (by omega),
    List.drop_eq_nil_of_le (by omega), Nat.min_eq_left (by omega)]
  simp only [Nat.ofDigits_cons, Nat.ofDigits_nil, Nat.mul_zero, Nat.add_zero]

theorem top_two {l : List Nat} {n : Nat} (hn : 2 ≤ n) (hlen : l.length = n) :
    Nat.ofDigits b l = Nat.ofDigits b (l.take (n - 2))
      + b ^ (n - 2) * (l.getD (n - 2) 0 + b * l.getD (n - 1) 0) := by
  rw [value_take_drop (n - 2) l, drop_getD (by omega), show n - 2 + 1 = n - 1 by omega,
    drop_getD (by omega), List.drop_eq_nil_of_le (by omega), Nat.min_eq_left (by omega)]
  simp only [Nat.ofDigits_cons, Nat.ofDigits_nil, Nat.mul_zero, Nat.add_zero]

theorem top_one {l : List Nat} {n : Nat} (hlen : l.length = n + 1) :
    Nat.ofDigits b l = Nat.ofDigits b (l.take n) + b ^ n * l.getD n 0 := by
  rw [value_take_drop n l, drop_getD (by omega), List.drop_eq_nil_of_le (by omega),
    Nat.min_eq_left (by omega)]
  simp only [Nat.ofDigits_cons, Nat.ofDigits_nil, Nat.mul_zero, Nat.add_zero]

/-- The corrected estimate, multiplied out, is not too small. -/
theorem divStep_owed (hb : 1 < b) {vs ws : List Nat} (hn : 2 ≤ vs.length)
    (hlen : ws.length = vs.length + 1) (hws : Below b ws)
    (hlead : 0 < vs.getD (vs.length - 1) 0) (hlt : Nat.ofDigits b ws < b * Nat.ofDigits b vs) :
    let num := ws.getD vs.length 0 * b + ws.getD (vs.length - 1) 0
    let v₁ := vs.getD (vs.length - 1) 0
    let q := correct b v₁ (vs.getD (vs.length - 2) 0) (ws.getD (vs.length - 2) 0) (num / v₁) (num % v₁)
    let diff := mulSub b q (ws.take vs.length) vs 0
    Owed b vs (Nat.ofDigits b ws) q diff.1 ((ws.getD vs.length 0 : Int) - diff.2) := by
  have hb0 : 0 < b := by omega
  have htake : (ws.take vs.length).length = vs.length := by
    rw [List.length_take]
    omega
  have hlow := value_lt hb (below_take hws (vs.length - 2))
  have hvpos : 0 < Nat.ofDigits b vs := by
    rw [top_two hn rfl]
    have hpos : 0 < b ^ (vs.length - 2) * (vs.getD (vs.length - 2) 0 + b * vs.getD (vs.length - 1) 0) :=
      Nat.mul_pos (Nat.pow_pos hb0) (Nat.add_pos_right _ (Nat.mul_pos hb0 hlead))
    omega
  have hsdig : Nat.ofDigits b ws / Nat.ofDigits b vs < b := by
    rwa [Nat.div_lt_iff_lt_mul hvpos]
  have hsval := Nat.div_mul_le_self (Nat.ofDigits b ws) (Nat.ofDigits b vs)
  dsimp only
  generalize hv₁ : vs.getD (vs.length - 1) 0 = v₁ at *
  generalize hv₂ : vs.getD (vs.length - 2) 0 = v₂ at *
  have hV : (v₁ * b + v₂) * b ^ (vs.length - 2) ≤ Nat.ofDigits b vs := by
    rw [top_two hn rfl, hv₁, hv₂]
    calc (v₁ * b + v₂) * b ^ (vs.length - 2) = b ^ (vs.length - 2) * (v₂ + b * v₁) := by ring
      _ ≤ _ := Nat.le_add_left _ _
  generalize hnum : ws.getD vs.length 0 * b + ws.getD (vs.length - 1) 0 = num at *
  generalize hw₂ : ws.getD (vs.length - 2) 0 = w₂ at *
  have hW : Nat.ofDigits b ws < (num * b + w₂ + 1) * b ^ (vs.length - 2) := by
    rw [top_three hn hlen, hw₂, ← hnum]
    have hlen₂ : (ws.take (vs.length - 2)).length = vs.length - 2 := by
      rw [List.length_take]
      omega
    rw [hlen₂] at hlow
    calc Nat.ofDigits b (ws.take (vs.length - 2)) + b ^ (vs.length - 2)
          * (w₂ + b * (ws.getD (vs.length - 1) 0 + b * ws.getD vs.length 0))
        < b ^ (vs.length - 2) + b ^ (vs.length - 2)
          * (w₂ + b * (ws.getD (vs.length - 1) 0 + b * ws.getD vs.length 0)) := by omega
      _ = _ := by ring
  have hfirst : Nat.ofDigits b ws / Nat.ofDigits b vs ≤ num / v₁ := by
    rw [Nat.le_div_iff_mul_le hlead]
    apply Nat.le_of_lt_succ
    apply Nat.lt_of_mul_lt_mul_right (a := b * b ^ (vs.length - 2))
    calc Nat.ofDigits b ws / Nat.ofDigits b vs * v₁ * (b * b ^ (vs.length - 2))
        = Nat.ofDigits b ws / Nat.ofDigits b vs * ((v₁ * b) * b ^ (vs.length - 2)) := by ring
      _ ≤ Nat.ofDigits b ws / Nat.ofDigits b vs * ((v₁ * b + v₂) * b ^ (vs.length - 2)) := by
          apply Nat.mul_le_mul_left
          apply Nat.mul_le_mul_right
          omega
      _ ≤ Nat.ofDigits b ws / Nat.ofDigits b vs * Nat.ofDigits b vs := Nat.mul_le_mul_left _ hV
      _ ≤ Nat.ofDigits b ws := hsval
      _ < (num * b + w₂ + 1) * b ^ (vs.length - 2) := hW
      _ ≤ (num * b + b) * b ^ (vs.length - 2) := by
          apply Nat.mul_le_mul_right
          have hw : w₂ < b := by
            rw [← hw₂]
            exact getD_lt hb0 hws _
          omega
      _ = (num + 1) * (b * b ^ (vs.length - 2)) := by ring
  have hq := le_correct (Nat.div_add_mod' num v₁).symm hV hW hsval hsdig hfirst
  generalize correct b v₁ v₂ w₂ (num / v₁) (num % v₁) = q at *
  have hsub := value_mulSub hb0 q htake 0
  refine ⟨length_mulSub q htake 0, below_mulSub q (below_take hws _) 0, ?_, ?_⟩
  · rw [top_one hlen]
    rw [htake] at hsub
    push_cast
    zify at hsub
    linear_combination -hsub
  · calc Nat.ofDigits b ws
        < (Nat.ofDigits b ws / Nat.ofDigits b vs + 1) * Nat.ofDigits b vs := by
          rw [Nat.mul_comm]
          exact Nat.lt_mul_div_succ _ hvpos
      _ ≤ (q + 1) * Nat.ofDigits b vs := Nat.mul_le_mul_right _ (by omega)

theorem divStep_spec (hb : 1 < b) {vs ws : List Nat} (hn : 2 ≤ vs.length)
    (hlen : ws.length = vs.length + 1) (hvs : Below b vs) (hws : Below b ws)
    (hlead : 0 < vs.getD (vs.length - 1) 0) (hlt : Nat.ofDigits b ws < b * Nat.ofDigits b vs) :
    Below b (divStep b vs ws).2 ∧ (divStep b vs ws).2.length = vs.length ∧
      Nat.ofDigits b ws
        = (divStep b vs ws).1 * Nat.ofDigits b vs + Nat.ofDigits b (divStep b vs ws).2 ∧
      Nat.ofDigits b (divStep b vs ws).2 < Nat.ofDigits b vs :=
  addBack_spec hb (divStep_owed hb hn hlen hws hlead hlt) hvs

/-- Quotient digits from the low digits of the dividend, its top digits being the first remainder. -/
def longDiv (b : Nat) (vs top : List Nat) : List Nat → List Nat × List Nat
  | [] => ([], top)
  | x :: low =>
    ((divStep b vs (x :: (longDiv b vs top low).2)).1 :: (longDiv b vs top low).1,
      (divStep b vs (x :: (longDiv b vs top low).2)).2)

theorem longDiv_spec (hb : 1 < b) {vs top low : List Nat} (hn : 2 ≤ vs.length)
    (htop : top.length = vs.length) (hvs : Below b vs) (hbt : Below b top) (hlow : Below b low)
    (hlead : 0 < vs.getD (vs.length - 1) 0) (hlt : Nat.ofDigits b top < Nat.ofDigits b vs) :
    Below b (longDiv b vs top low).2 ∧ (longDiv b vs top low).2.length = vs.length ∧
      Nat.ofDigits b (low ++ top) = Nat.ofDigits b (longDiv b vs top low).1 * Nat.ofDigits b vs
        + Nat.ofDigits b (longDiv b vs top low).2 ∧
      Nat.ofDigits b (longDiv b vs top low).2 < Nat.ofDigits b vs ∧
      Below b (longDiv b vs top low).1 := by
  induction low with
  | nil => exact ⟨hbt, htop, by simp [longDiv], hlt, below_nil⟩
  | cons x low ih =>
      obtain ⟨hx, hlow⟩ := below_cons.1 hlow
      obtain ⟨hbr, hlr, hval, hless, hbq⟩ := ih hlow
      unfold longDiv
      generalize longDiv b vs top low = rest at hbr hlr hval hless hbq ⊢
      dsimp only
      have hwin : Nat.ofDigits b (x :: rest.2) < b * Nat.ofDigits b vs := by
        have hmul := Nat.mul_le_mul_left b (Nat.succ_le_of_lt hless)
        rw [Nat.mul_succ] at hmul
        rw [Nat.ofDigits_cons]
        omega
      obtain ⟨hbs, hls, hstep, hrem⟩ := divStep_spec hb hn (by rw [List.length_cons, hlr]) hvs
        (below_cons.2 ⟨hx, hbr⟩) hlead hwin
      refine ⟨hbs, hls, ?_, hrem, below_cons.2 ⟨?_, hbq⟩⟩
      · rw [List.cons_append, Nat.ofDigits_cons, hval, Nat.ofDigits_cons]
        rw [Nat.ofDigits_cons] at hstep
        linarith
      · by_contra hcon
        have hmul := Nat.mul_le_mul_right (Nat.ofDigits b vs) (Nat.le_of_not_lt hcon)
        omega

/-! ## Scaling both operands -/

/-- A product with a digit in as many digits, with the carry left over. -/
def mulFixed (b d : Nat) : List Nat → Nat → List Nat × Nat
  | [], c => ([], c)
  | x :: xs, c => ((x * d + c) % b :: (mulFixed b d xs ((x * d + c) / b)).1,
      (mulFixed b d xs ((x * d + c) / b)).2)

theorem value_mulFixed (d : Nat) (xs : List Nat) (c : Nat) :
    Nat.ofDigits b (mulFixed b d xs c).1 + b ^ xs.length * (mulFixed b d xs c).2
      = Nat.ofDigits b xs * d + c := by
  induction xs generalizing c with
  | nil => simp [mulFixed]
  | cons x xs ih =>
      have hdiv := Nat.mod_add_div (x * d + c) b
      have hrest := ih ((x * d + c) / b)
      simp only [mulFixed, Nat.ofDigits_cons, List.length_cons, pow_succ]
      zify at hdiv hrest ⊢
      linear_combination hdiv + (b : Int) * hrest

theorem length_mulFixed (d : Nat) (xs : List Nat) (c : Nat) :
    (mulFixed b d xs c).1.length = xs.length := by
  induction xs generalizing c with
  | nil => rfl
  | cons x xs ih => simp only [mulFixed, List.length_cons, ih]

theorem below_mulFixed (hb : 0 < b) (d : Nat) (xs : List Nat) (c : Nat) :
    Below b (mulFixed b d xs c).1 := by
  induction xs generalizing c with
  | nil => exact below_nil
  | cons x xs ih => exact below_cons.2 ⟨Nat.mod_lt _ hb, ih _⟩

theorem carry_mulFixed_lt {d : Nat} {xs : List Nat} (hxs : Below b xs) {c : Nat} (hc : c < d) :
    (mulFixed b d xs c).2 < d := by
  induction xs generalizing c with
  | nil => exact hc
  | cons x xs ih =>
      obtain ⟨hx, hxs⟩ := below_cons.1 hxs
      apply ih hxs
      apply Nat.div_lt_of_lt_mul
      calc x * d + c < x * d + d := by omega
        _ = (x + 1) * d := by ring
        _ ≤ b * d := Nat.mul_le_mul_right d hx

/-- Quotient and remainder for a divisor of two digits or more: both operands are scaled until the
divisor's leading digit is large, and the remainder is scaled back. -/
def divFull (b : Nat) (us vs : List Nat) : List Nat × List Nat :=
  let n := vs.length
  let m := us.length - n
  let d := b / (vs.getD (n - 1) 0 + 1)
  let v := (mulFixed b d vs 0).1
  let u := (mulFixed b d us 0).1 ++ [(mulFixed b d us 0).2]
  let out := longDiv b v (u.drop (m + 1)) (u.take (m + 1))
  (out.1, (divSmall b d out.2).1)

theorem getLast_eq_getD {l : List Nat} (hne : l ≠ []) : l.getLast hne = l.getD (l.length - 1) 0 := by
  have hpos := List.length_pos_of_ne_nil hne
  have hlt : l.length - 1 < l.length := by omega
  rw [List.getLast_eq_getElem, List.getD_eq_getElem?_getD, List.getElem?_eq_getElem hlt,
    Option.getD_some]

/-- A multiple of the divisor leaves nothing. -/
theorem divSmall_exact {d : Nat} (hd : 0 < d) {xs : List Nat} {k : Nat} (h : Nat.ofDigits b xs = k * d) :
    Nat.ofDigits b (divSmall b d xs).1 = k ∧ (divSmall b d xs).2 = 0 := by
  have hval := value_divSmall (b := b) d xs
  have hunique := (Nat.div_mod_unique (a := Nat.ofDigits b xs) (d := Nat.ofDigits b (divSmall b d xs).1) hd).2
    ⟨by rw [Nat.add_comm, Nat.mul_comm d]; exact hval, divSmall_lt hd xs⟩
  rw [h, Nat.mul_div_cancel _ hd, Nat.mul_mod_left] at hunique
  exact ⟨hunique.1.symm, hunique.2.symm⟩

/-- Both operands multiplied by `d`: the divisor keeps its length and the dividend gets one more digit. -/
structure Scaled (b : Nat) (us vs : List Nat) (d : Nat) : Prop where
  pos : 0 < d
  le_base : d ≤ b
  carry : (mulFixed b d vs 0).2 = 0
  divisor : Nat.ofDigits b (mulFixed b d vs 0).1 = Nat.ofDigits b vs * d
  lead : b / 2 ≤ (mulFixed b d vs 0).1.getD (vs.length - 1) 0
  dividend : Nat.ofDigits b ((mulFixed b d us 0).1 ++ [(mulFixed b d us 0).2]) = Nat.ofDigits b us * d
  below : Below b ((mulFixed b d us 0).1 ++ [(mulFixed b d us 0).2])
  length : ((mulFixed b d us 0).1 ++ [(mulFixed b d us 0).2]).length = us.length + 1
  top : Nat.ofDigits b (((mulFixed b d us 0).1 ++ [(mulFixed b d us 0).2]).drop (us.length - vs.length + 1))
    < Nat.ofDigits b (mulFixed b d vs 0).1

/-- A leading digit times its scale is at least half the base. -/
theorem half_le_lead {v : Nat} (hv : 0 < v) (hlt : v < b) : b / 2 ≤ b / (v + 1) * v := by
  have hd : 0 < b / (v + 1) := Nat.div_pos (by omega) (by omega)
  have hdiv := Nat.lt_mul_div_succ b (show 0 < v + 1 by omega)
  generalize b / (v + 1) = d at hd hdiv ⊢
  have hprod : v + d ≤ d * v + 1 := by
    obtain ⟨v, rfl⟩ := Nat.exists_eq_add_of_lt hv
    obtain ⟨d, rfl⟩ := Nat.exists_eq_add_of_lt hd
    ring_nf
    omega
  have hexp : (v + 1) * (d + 1) = d * v + v + d + 1 := by ring
  omega

theorem value_lt_lead (hb : 1 < b) {vs : List Nat} (hn : 2 ≤ vs.length) (hvs : Below b vs) :
    Nat.ofDigits b vs < b ^ (vs.length - 1) * (vs.getD (vs.length - 1) 0 + 1) := by
  have hlow := value_lt hb (below_take hvs (vs.length - 1))
  have htl : (vs.take (vs.length - 1)).length = vs.length - 1 := by
    rw [List.length_take]
    omega
  rw [htl] at hlow
  rw [top_one (n := vs.length - 1) (by omega)]
  calc _ < b ^ (vs.length - 1) + b ^ (vs.length - 1) * vs.getD (vs.length - 1) 0 := by omega
    _ = _ := by ring

theorem scaled_divFull (hb : 1 < b) {us vs : List Nat} (hn : 2 ≤ vs.length) (hlen : vs.length ≤ us.length)
    (hus : Below b us) (hvs : Below b vs) (htv : Trimmed vs) :
    Scaled b us vs (b / (vs.getD (vs.length - 1) 0 + 1)) := by
  have hb0 : 0 < b := by omega
  have hne : vs ≠ [] := by
    rintro rfl
    cases hn
  have hlast := htv hne
  rw [getLast_eq_getD hne] at hlast
  have hbelowLast : vs.getD (vs.length - 1) 0 < b := getD_lt hb0 hvs _
  have hpow : b ^ (vs.length - 1) ≤ Nat.ofDigits b vs := pow_le_value htv hne
  have hsplit : b ^ vs.length = b ^ (vs.length - 1) * b := by
    rw [← pow_succ, show vs.length - 1 + 1 = vs.length by omega]
  have hhalf := half_le_lead (Nat.pos_of_ne_zero hlast) hbelowLast
  generalize hd : b / (vs.getD (vs.length - 1) 0 + 1) = d at hhalf ⊢
  have hdpos : 0 < d := by
    rw [← hd]
    exact Nat.div_pos (by omega) (by omega)
  have hdle : d ≤ b := by
    rw [← hd]
    exact Nat.div_le_self _ _
  have hdmul : d * (vs.getD (vs.length - 1) 0 + 1) ≤ b := by
    rw [← hd]
    exact Nat.div_mul_le_self _ _
  -- the divisor keeps its length
  have hval := value_mulFixed (b := b) d vs 0
  have hfit : Nat.ofDigits b vs * d < b ^ vs.length := by
    calc Nat.ofDigits b vs * d
        < b ^ (vs.length - 1) * (vs.getD (vs.length - 1) 0 + 1) * d :=
          Nat.mul_lt_mul_of_pos_right (value_lt_lead hb hn hvs) hdpos
      _ = b ^ (vs.length - 1) * (d * (vs.getD (vs.length - 1) 0 + 1)) := by ring
      _ ≤ b ^ (vs.length - 1) * b := Nat.mul_le_mul_left _ hdmul
      _ = b ^ vs.length := hsplit.symm
  have hcarry : (mulFixed b d vs 0).2 = 0 := by
    by_contra hc
    have hmul := Nat.mul_le_mul_left (b ^ vs.length) (Nat.one_le_iff_ne_zero.2 hc)
    omega
  have hdivisor : Nat.ofDigits b (mulFixed b d vs 0).1 = Nat.ofDigits b vs * d := by
    rw [hcarry] at hval
    omega
  -- the dividend gets one more digit
  have huval := value_mulFixed (b := b) d us 0
  have hulen := length_mulFixed (b := b) d us 0
  have hdividend : Nat.ofDigits b ((mulFixed b d us 0).1 ++ [(mulFixed b d us 0).2]) = Nat.ofDigits b us * d := by
    rw [Nat.ofDigits_append, hulen, Nat.ofDigits_singleton]
    omega
  have hucarry : (mulFixed b d us 0).2 < b := Nat.lt_of_lt_of_le (carry_mulFixed_lt hus hdpos) hdle
  have hlength : ((mulFixed b d us 0).1 ++ [(mulFixed b d us 0).2]).length = us.length + 1 := by
    rw [List.length_append, hulen, List.length_singleton]
  refine ⟨hdpos, hdle, hcarry, hdivisor, ?_, hdividend,
    below_append.2 ⟨below_mulFixed hb0 d us 0, below_cons.2 ⟨hucarry, below_nil⟩⟩, hlength, ?_⟩
  · -- the top digit of the scaled divisor is at least the scaled top digit
    have hvlen := length_mulFixed (b := b) d vs 0
    have htop := value_lt_lead hb (by omega) (below_mulFixed (b := b) hb0 d vs 0)
    rw [hvlen, hdivisor, top_one (l := vs) (n := vs.length - 1) (by omega)] at htop
    have hlt : d * vs.getD (vs.length - 1) 0 < (mulFixed b d vs 0).1.getD (vs.length - 1) 0 + 1 := by
      apply Nat.lt_of_mul_lt_mul_left (a := b ^ (vs.length - 1))
      calc b ^ (vs.length - 1) * (d * vs.getD (vs.length - 1) 0)
          = b ^ (vs.length - 1) * vs.getD (vs.length - 1) 0 * d := by ring
        _ ≤ (Nat.ofDigits b (vs.take (vs.length - 1)) + b ^ (vs.length - 1) * vs.getD (vs.length - 1) 0) * d :=
          Nat.mul_le_mul_right d (Nat.le_add_left _ _)
        _ < _ := htop
    omega
  · have hsum := value_take_drop (b := b) (us.length - vs.length + 1)
      ((mulFixed b d us 0).1 ++ [(mulFixed b d us 0).2])
    rw [Nat.min_eq_left (by omega), hdividend] at hsum
    apply Nat.lt_of_mul_lt_mul_left (a := b ^ (us.length - vs.length + 1))
    calc _ ≤ Nat.ofDigits b us * d := by omega
      _ < b ^ us.length * d := Nat.mul_lt_mul_of_pos_right (value_lt hb hus) hdpos
      _ = b ^ (us.length - vs.length + 1) * (b ^ (vs.length - 1) * d) := by
          rw [← Nat.mul_assoc, ← pow_add, show us.length - vs.length + 1 + (vs.length - 1) = us.length by omega]
      _ ≤ b ^ (us.length - vs.length + 1) * Nat.ofDigits b (mulFixed b d vs 0).1 := by
          rw [hdivisor]
          exact Nat.mul_le_mul_left _ (Nat.mul_le_mul_right d hpow)

/-- The division of the scaled operands. -/
theorem Scaled.longDiv (hb : 1 < b) {us vs : List Nat} {d : Nat} (h : Scaled b us vs d) (hn : 2 ≤ vs.length)
    (hlen : vs.length ≤ us.length) :
    let out := longDiv b (mulFixed b d vs 0).1
      (((mulFixed b d us 0).1 ++ [(mulFixed b d us 0).2]).drop (us.length - vs.length + 1))
      (((mulFixed b d us 0).1 ++ [(mulFixed b d us 0).2]).take (us.length - vs.length + 1))
    Below b out.2 ∧ Below b out.1 ∧ Nat.ofDigits b out.1 * Nat.ofDigits b vs ≤ Nat.ofDigits b us ∧
      Nat.ofDigits b out.2 = (Nat.ofDigits b us - Nat.ofDigits b out.1 * Nat.ofDigits b vs) * d ∧
      Nat.ofDigits b us - Nat.ofDigits b out.1 * Nat.ofDigits b vs < Nat.ofDigits b vs := by
  have hlength := h.length
  have hvlen := length_mulFixed (b := b) d vs 0
  have hlead : 0 < (mulFixed b d vs 0).1.getD ((mulFixed b d vs 0).1.length - 1) 0 := by
    have hhalf := h.lead
    rw [hvlen]
    omega
  obtain ⟨hbr, -, hval, hless, hbq⟩ := longDiv_spec hb (by omega)
    (by rw [List.length_drop]; omega) (below_mulFixed (by omega) d vs 0)
    (fun x hx => h.below x (List.mem_of_mem_drop hx)) (below_take h.below (us.length - vs.length + 1))
    hlead h.top
  rw [List.take_append_drop, h.dividend, h.divisor] at hval
  rw [h.divisor] at hless
  dsimp only
  generalize Limbs.longDiv b (mulFixed b d vs 0).1 _ _ = out at *
  have hquot : Nat.ofDigits b out.1 * Nat.ofDigits b vs ≤ Nat.ofDigits b us := by
    apply Nat.le_of_mul_le_mul_right (c := d) _ h.pos
    rw [Nat.mul_assoc]
    omega
  have hrem : Nat.ofDigits b out.2
      = (Nat.ofDigits b us - Nat.ofDigits b out.1 * Nat.ofDigits b vs) * d := by
    rw [Nat.sub_mul, Nat.mul_assoc]
    omega
  refine ⟨hbr, hbq, hquot, hrem, ?_⟩
  apply Nat.lt_of_mul_lt_mul_right (a := d)
  rw [← hrem]
  exact hless

theorem divFull_spec (hb : 1 < b) {us vs : List Nat} (hn : 2 ≤ vs.length) (hlen : vs.length ≤ us.length)
    (hus : Below b us) (hvs : Below b vs) (htv : Trimmed vs) :
    Below b (divFull b us vs).1 ∧ Below b (divFull b us vs).2 ∧
      Nat.ofDigits b (divFull b us vs).1 = Nat.ofDigits b us / Nat.ofDigits b vs ∧
      Nat.ofDigits b (divFull b us vs).2 = Nat.ofDigits b us % Nat.ofDigits b vs := by
  have hscaled := scaled_divFull hb hn hlen hus hvs htv
  obtain ⟨hbr, hbq, hquot, hrem, hsmall⟩ := hscaled.longDiv hb hn hlen
  unfold divFull
  dsimp only
  generalize b / (vs.getD (vs.length - 1) 0 + 1) = d at *
  generalize longDiv b (mulFixed b d vs 0).1 _ _ = out at *
  have hunique := (Nat.div_mod_unique (a := Nat.ofDigits b us) (d := Nat.ofDigits b out.1)
    (Nat.zero_lt_of_lt hsmall)).2 ⟨by rw [Nat.mul_comm (Nat.ofDigits b vs)]; omega, hsmall⟩
  refine ⟨hbq, below_divSmall (by omega) d hbr, hunique.1.symm, ?_⟩
  rw [(divSmall_exact hscaled.pos hrem).1]
  exact hunique.2.symm

end Limbs
