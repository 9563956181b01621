-- SUMMARY: The digit algorithms on machine words, with every operation checked, and that no check fails.
import Rustgres.Lib.LongDivision

/-!
# Limbs in Machine Words

The algorithms again, step by step on words that hold numbers up to `M`. A sum or a product that is larger, a
difference below zero or a cast that does not fit has no result. In a base that is small for the words there always is
one, and it is that of the algorithms on numbers.
-/

namespace Limbs

/-! ## Words -/

/-- A word that holds the number. -/
def fit (M n : Nat) : Option Nat := if n ≤ M then some n else none

/-- A difference of words. -/
def less (m n : Nat) : Option Nat := if n ≤ m then some (m - n) else none

/-- A signed word. -/
def fitSigned (M : Nat) (z : Int) : Option Int := if -(M : Int) - 1 ≤ z ∧ z ≤ M then some z else none

/-- A check that the program makes on itself. -/
def ensure (p : Prop) [Decidable p] : Option Unit := if p then some () else none

variable {α : Type*} {M n : Nat}

theorem fit_bind (h : n ≤ M) (f : Nat → Option α) : (fit M n).bind f = f n := by
  rw [fit, if_pos h]
  rfl

theorem less_bind {m : Nat} (h : n ≤ m) (f : Nat → Option α) : (less m n).bind f = f (m - n) := by
  rw [less, if_pos h]
  rfl

theorem fitSigned_bind {z : Int} (hlo : -(M : Int) - 1 ≤ z) (hhi : z ≤ M) (f : Int → Option α) :
    (fitSigned M z).bind f = f z := by
  rw [fitSigned, if_pos ⟨hlo, hhi⟩]
  rfl

theorem ensure_bind {p : Prop} [Decidable p] (h : p) (f : Unit → Option α) : (ensure p).bind f = f () := by
  rw [ensure, if_pos h]
  rfl

/-! ## The algorithms -/

variable {b : Nat}

def addW (M b : Nat) : List Nat → List Nat → Nat → Option (List Nat)
  | [], [], c => some (Nat.digits b c)
  | x :: xs, [], c =>
    (fit M (x + c)).bind fun s => (addW M b xs [] (s / b)).bind fun rest => some (s % b :: rest)
  | [], y :: ys, c =>
    (fit M (y + c)).bind fun s => (addW M b [] ys (s / b)).bind fun rest => some (s % b :: rest)
  | x :: xs, y :: ys, c =>
    (fit M (x + y)).bind fun s => (fit M (s + c)).bind fun s =>
      (addW M b xs ys (s / b)).bind fun rest => some (s % b :: rest)

def mulSmallW (M b m : Nat) : List Nat → Nat → Option (List Nat)
  | [], c => some (Nat.digits b c)
  | x :: xs, c =>
    (fit M (x * m)).bind fun p => (fit M (p + c)).bind fun t =>
      (mulSmallW M b m xs (t / b)).bind fun rest => some (t % b :: rest)

/-- A row of the schoolbook product, added into the columns. -/
def addRowW (M x : Nat) : List Nat → List Nat → Option (List Nat)
  | a :: acc, y :: ys =>
    (fit M (x * y)).bind fun p => (fit M (a + p)).bind fun s =>
      (addRowW M x acc ys).bind fun rest => some (s :: rest)
  | acc, _ => some acc

/-- Row after row, each a column further up. -/
def mulColsW (M : Nat) (ys : List Nat) : List Nat → List Nat → Option (List Nat)
  | acc, [] => some acc
  | acc, x :: xs =>
    (addRowW M x acc ys).bind fun cols =>
      match cols with
      | [] => some []
      | a :: cols => (mulColsW M ys cols xs).bind fun rest => some (a :: rest)

/-- The columns of the product, and their carries passed on. -/
def mulW (M b : Nat) (xs ys : List Nat) : Option (List Nat) :=
  (mulColsW M ys (List.replicate (xs.length + ys.length) 0) xs).bind fun cols => mulSmallW M b 1 cols 0

def mulFixedW (M b d : Nat) : List Nat → Nat → Option (List Nat × Nat)
  | [], c => some ([], c)
  | x :: xs, c =>
    (fit M (x * d)).bind fun p => (fit M (p + c)).bind fun t =>
      (mulFixedW M b d xs (t / b)).bind fun rest => some (t % b :: rest.1, rest.2)

/-- The estimate lowered by one, unless the rest of the division becomes a digit too large. -/
def lowerW (M b v₁ : Nat) (next : Nat → Option Nat) (q r : Nat) : Option Nat :=
  (fit M (r + v₁)).bind fun r' => if b ≤ r' then some q else next r'

def correctW (M b v₁ v₂ w₂ : Nat) : Nat → Nat → Option Nat
  | 0, r => (fit M (b * r)).bind fun s => (fit M (s + w₂)).bind fun _ => some 0
  | q + 1, r =>
    if b ≤ q + 1 then lowerW M b v₁ (correctW M b v₁ v₂ w₂ q) q r
    else
      (fit M ((q + 1) * v₂)).bind fun p => (fit M (b * r)).bind fun s => (fit M (s + w₂)).bind fun s =>
        if s < p then lowerW M b v₁ (correctW M b v₁ v₂ w₂ q) q r else some (q + 1)

def mulSubW (M b q : Nat) : List Nat → List Nat → Nat → Option (List Nat × Nat)
  | w :: ws, v :: vs, c =>
    (fit M (q * v)).bind fun p => (fit M (p + c)).bind fun p =>
      if p % b ≤ w then
        (mulSubW M b q ws vs (p / b)).bind fun rest => some ((w - p % b) :: rest.1, rest.2)
      else
        (fit M (w + b)).bind fun t => (less t (p % b)).bind fun t => (fit M (p / b + 1)).bind fun c =>
          (mulSubW M b q ws vs c).bind fun rest => some (t :: rest.1, rest.2)
  | _, _, c => some ([], c)

def addFixedW (M b : Nat) : List Nat → List Nat → Nat → Option (List Nat × Nat)
  | u :: us, v :: vs, c =>
    (fit M (u + v)).bind fun s => (fit M (s + c)).bind fun s =>
      (addFixedW M b us vs (s / b)).bind fun rest => some (s % b :: rest.1, rest.2)
  | _, _, c => some ([], c)

/-- The digit above is a signed word up to `top`. -/
def addBackW (M top b : Nat) (vs : List Nat) : Nat → List Nat → Int → Option (Nat × List Nat)
  | q, us, t =>
    if t < 0 then
      match q with
      | 0 => none
      | q + 1 =>
        (addFixedW M b us vs 0).bind fun s => (fitSigned top s.2).bind fun c => (fitSigned top (t + c)).bind fun t =>
          addBackW M top b vs q s.1 t
    else some (q, us)

def divStepW (M top b : Nat) (vs ws : List Nat) : Option (Nat × List Nat) :=
  let n := vs.length
  let v₁ := vs.getD (n - 1) 0
  (fit M (ws.getD n 0 * b)).bind fun s => (fit M (s + ws.getD (n - 1) 0)).bind fun num =>
    (ensure (v₁ ≠ 0)).bind fun _ =>
      (correctW M b v₁ (vs.getD (n - 2) 0) (ws.getD (n - 2) 0) (num / v₁) (num % v₁)).bind fun q =>
        (mulSubW M b q (ws.take n) vs 0).bind fun diff =>
          (fitSigned top (ws.getD n 0)).bind fun w => (fitSigned top diff.2).bind fun c =>
            (fitSigned top (w - c)).bind fun t =>
              (addBackW M top b vs q diff.1 t).bind fun out => (ensure (out.1 < b)).bind fun _ => some out

def longDivW (M top b : Nat) (vs rest : List Nat) : List Nat → Option (List Nat × List Nat)
  | [] => some ([], rest)
  | x :: low =>
    (longDivW M top b vs rest low).bind fun out =>
      (divStepW M top b vs (x :: out.2)).bind fun step => some (step.1 :: out.1, step.2)

def divSmallW (M b d : Nat) : List Nat → Option (List Nat × Nat)
  | [] => some ([], 0)
  | x :: xs =>
    (divSmallW M b d xs).bind fun out =>
      (fit M (out.2 * b)).bind fun s => (fit M (s + x)).bind fun cur => (ensure (cur / d < b)).bind fun _ =>
        some (cur / d :: out.1, cur % d)

def divFullW (M top b : Nat) (us vs : List Nat) : Option (List Nat × List Nat) :=
  let n := vs.length
  (less us.length n).bind fun m => (fit M (vs.getD (n - 1) 0 + 1)).bind fun lead =>
    let d := b / lead
    (ensure (1 ≤ d)).bind fun _ => (mulFixedW M b d vs 0).bind fun v => (ensure (v.2 = 0)).bind fun _ =>
      (mulFixedW M b d us 0).bind fun u => (ensure (b / 2 ≤ v.1.getD (n - 1) 0)).bind fun _ =>
        (longDivW M top b v.1 ((u.1 ++ [u.2]).drop (m + 1)) ((u.1 ++ [u.2]).take (m + 1))).bind fun out =>
          (divSmallW M b d out.2).bind fun rem => (ensure (rem.2 = 0)).bind fun _ => some (out.1, rem.1)

/-! ## No check fails -/

theorem addW_eq (hb : 2 < b) (hfit : 3 * b ≤ M) {xs ys : List Nat} (hxs : Below b xs) (hys : Below b ys) {c : Nat}
    (hc : c < b) : addW M b xs ys c = some (add b xs ys c) := by
  have hcarry : ∀ {s : Nat}, s < 3 * b → s / b < b := fun hs =>
    Nat.div_lt_of_lt_mul (Nat.lt_of_lt_of_le hs (Nat.mul_le_mul_right b hb))
  induction xs, ys, c using add.induct b with
  | case1 c => rw [addW, add]
  | case2 x xs c ih =>
      obtain ⟨hx, hxs⟩ := below_cons.1 hxs
      rw [addW, fit_bind (by omega), ih hxs hys (hcarry (by omega)), add]
      rfl
  | case3 y ys c ih =>
      obtain ⟨hy, hys⟩ := below_cons.1 hys
      rw [addW, fit_bind (by omega), ih hxs hys (hcarry (by omega)), add]
      rfl
  | case4 x xs y ys c ih =>
      obtain ⟨hx, hxs⟩ := below_cons.1 hxs
      obtain ⟨hy, hys⟩ := below_cons.1 hys
      rw [addW, fit_bind (by omega), fit_bind (by omega), ih hxs hys (hcarry (by omega)), add]
      rfl

/-- Digits up to `top`, not only below the base, with carries up to `k`. -/
theorem mulSmallW_eq {m top k : Nat} (hfit : top * m + k ≤ M) (hcarry : top * m + k < b * (k + 1)) {xs : List Nat}
    (hxs : ∀ x ∈ xs, x ≤ top) {c : Nat} (hc : c ≤ k) : mulSmallW M b m xs c = some (mulSmall b m xs c) := by
  induction xs generalizing c with
  | nil => rfl
  | cons x xs ih =>
      obtain ⟨hx, hxs⟩ := List.forall_mem_cons.1 hxs
      have hprod : x * m ≤ top * m := Nat.mul_le_mul_right m hx
      have hsum : x * m + c < b * (k + 1) := Nat.lt_of_le_of_lt (Nat.add_le_add hprod hc) hcarry
      have hnext : (x * m + c) / b ≤ k := Nat.le_of_lt_succ (Nat.div_lt_of_lt_mul hsum)
      rw [mulSmallW, fit_bind (by omega), fit_bind (by omega), ih hxs hnext]
      rfl

/-- A row raises every column by less than a digit squared. -/
theorem addRowW_spec {x s : Nat} (hx : x < b) {acc ys : List Nat} (hacc : ∀ a ∈ acc, a ≤ s) (hys : Below b ys)
    (hlen : ys.length ≤ acc.length) (hfit : s + b * b ≤ M) :
    ∃ cols, addRowW M x acc ys = some cols ∧ cols.length = acc.length ∧ (∀ a ∈ cols, a ≤ s + b * b) ∧
      Nat.ofDigits b cols = Nat.ofDigits b acc + x * Nat.ofDigits b ys := by
  induction ys generalizing acc with
  | nil =>
      refine ⟨acc, by cases acc <;> rfl, rfl, fun a ha => Nat.le_add_right_of_le (hacc a ha), ?_⟩
      rw [Nat.ofDigits_nil, Nat.mul_zero, Nat.add_zero]
  | cons y ys ih =>
      cases acc with
      | nil => cases hlen
      | cons a acc =>
          obtain ⟨hy, hys⟩ := below_cons.1 hys
          obtain ⟨ha, hacc⟩ := List.forall_mem_cons.1 hacc
          obtain ⟨cols, hrow, hcl, hle, hval⟩ := ih hacc hys (Nat.le_of_succ_le_succ hlen)
          have hxy : x * y ≤ b * b := Nat.mul_le_mul hx.le hy.le
          refine ⟨(a + x * y) :: cols, ?_, by rw [List.length_cons, List.length_cons, hcl],
            List.forall_mem_cons.2 ⟨by omega, hle⟩, ?_⟩
          · rw [addRowW, fit_bind (by omega), fit_bind (by omega), hrow]
            rfl
          · rw [Nat.ofDigits_cons, Nat.ofDigits_cons, Nat.ofDigits_cons, hval]
            ring

theorem mulColsW_spec {ys xs acc : List Nat} {s : Nat} (hxs : Below b xs) (hys : Below b ys) (hacc : ∀ a ∈ acc, a ≤ s)
    (hlen : xs.length + ys.length ≤ acc.length) (hfit : s + xs.length * (b * b) ≤ M) :
    ∃ cols, mulColsW M ys acc xs = some cols ∧ (∀ a ∈ cols, a ≤ s + xs.length * (b * b)) ∧
      Nat.ofDigits b cols = Nat.ofDigits b acc + Nat.ofDigits b xs * Nat.ofDigits b ys := by
  induction xs generalizing acc s with
  | nil =>
      refine ⟨acc, rfl, fun a ha => Nat.le_add_right_of_le (hacc a ha), ?_⟩
      rw [Nat.ofDigits_nil, Nat.zero_mul, Nat.add_zero]
  | cons x xs ih =>
      obtain ⟨hx, hxs⟩ := below_cons.1 hxs
      have hsplit : (xs.length + 1) * (b * b) = b * b + xs.length * (b * b) := by ring
      rw [List.length_cons] at hlen hfit ⊢
      obtain ⟨cols, hrow, hcl, hle, hval⟩ := addRowW_spec (M := M) hx hacc hys (by omega) (by omega)
      cases cols with
      | nil =>
          rw [List.length_nil] at hcl
          omega
      | cons a cols =>
          obtain ⟨ha, hle⟩ := List.forall_mem_cons.1 hle
          rw [List.length_cons] at hcl
          obtain ⟨out, hout, hbound, hsum⟩ := ih hxs hle (by omega) (by omega)
          refine ⟨a :: out, ?_, List.forall_mem_cons.2 ⟨by omega, fun z hz => ?_⟩, ?_⟩
          · rw [mulColsW, hrow, Option.bind_some]
            dsimp only
            rw [hout]
            rfl
          · have := hbound z hz
            omega
          · rw [Nat.ofDigits_cons] at hval ⊢
            rw [hsum, Nat.ofDigits_cons, Nat.mul_add, ← Nat.add_assoc, hval]
            ring

/-- The columns stay in a word when the first operand is not too long. -/
theorem mulW_spec (hb : 2 ≤ b) {xs ys : List Nat} (hxs : Below b xs) (hys : Below b ys)
    (hfit : 2 * (xs.length * (b * b)) ≤ M) :
    ∃ out, mulW M b xs ys = some out ∧ Below b out ∧ Nat.ofDigits b out = Nat.ofDigits b xs * Nat.ofDigits b ys := by
  have hzero : ∀ a ∈ List.replicate (xs.length + ys.length) 0, a ≤ 0 := fun a ha => (List.eq_of_mem_replicate ha).le
  obtain ⟨cols, hcols, hbound, hval⟩ := mulColsW_spec (M := M) hxs hys hzero (by rw [List.length_replicate]) (by omega)
  rw [Nat.zero_add] at hbound
  rw [Nat.ofDigits_replicate_zero, Nat.zero_add] at hval
  generalize xs.length * (b * b) = k at hbound hfit
  have hcarry : k * 1 + k < b * (k + 1) := by
    have := Nat.mul_le_mul_right (k + 1) hb
    omega
  refine ⟨mulSmall b 1 cols 0, ?_, below_mulSmall (by omega) 1 cols 0, ?_⟩
  · rw [mulW, hcols, Option.bind_some]
    exact mulSmallW_eq (by omega) hcarry hbound (Nat.zero_le k)
  · rw [value_mulSmall, hval, Nat.mul_one, Nat.add_zero]

theorem mulFixedW_eq {d : Nat} (hfit : b * d ≤ M) {xs : List Nat} (hxs : Below b xs) {c : Nat} (hc : c < d) :
    mulFixedW M b d xs c = some (mulFixed b d xs c) := by
  induction xs generalizing c with
  | nil => rfl
  | cons x xs ih =>
      obtain ⟨hx, hxs⟩ := below_cons.1 hxs
      have hsum : x * d + c < b * d := by
        calc x * d + c < x * d + d := by omega
          _ = (x + 1) * d := by ring
          _ ≤ b * d := Nat.mul_le_mul_right d hx
      rw [mulFixedW, fit_bind (by omega), fit_bind (by omega), ih hxs (Nat.div_lt_of_lt_mul hsum)]
      rfl

/-- In a base whose square times three fits a word. -/
theorem correctW_eq {v₁ v₂ w₂ q r : Nat} (hfit : 3 * b * b ≤ M) (hb : 0 < b) (hv₁ : v₁ < b) (hv₂ : v₂ < b) (hw₂ : w₂ < b)
    (hq : q ≤ 3 * b) (hr : r < b) : correctW M b v₁ v₂ w₂ q r = some (correct b v₁ v₂ w₂ q r) := by
  have hbr : ∀ r, r < b → b * r + w₂ ≤ M := by
    intro r hr
    have : b * (r + 1) ≤ b * b := Nat.mul_le_mul_left b hr
    nlinarith
  induction q generalizing r with
  | zero =>
      have := hbr r hr
      rw [correctW, fit_bind (by omega), fit_bind (by omega), correct]
  | succ q ih =>
      have hsum := hbr r hr
      have hprod : (q + 1) * v₂ ≤ M := by
        calc (q + 1) * v₂ ≤ 3 * b * b := Nat.mul_le_mul hq hv₂.le
          _ ≤ M := hfit
      have hlower : lowerW M b v₁ (correctW M b v₁ v₂ w₂ q) q r
          = some (if b ≤ r + v₁ then q else correct b v₁ v₂ w₂ q (r + v₁)) := by
        have hadd : r + v₁ ≤ M := by nlinarith
        rw [lowerW, fit_bind hadd]
        split
        · rfl
        · exact ih (by omega) (by omega)
      rw [correctW, correct]
      by_cases hlarge : b ≤ q + 1
      · rw [if_pos hlarge, if_pos (.inl hlarge), hlower]
      · rw [if_neg hlarge, fit_bind hprod, fit_bind (by omega), fit_bind (by omega)]
        by_cases htest : b * r + w₂ < (q + 1) * v₂
        · rw [if_pos htest, if_pos (.inr htest), hlower]
        · rw [if_neg htest, if_neg (by omega)]

/-- What is borrowed stays below the digit multiplied by. -/
theorem carry_step {q v w c : Nat} (hv : v < b) (hc : c ≤ q) :
    q * v + c ≤ q * b ∧ (q * v + c) / b ≤ q ∧ (w < (q * v + c) % b → (q * v + c) / b + 1 ≤ q) := by
  have hle : q * v + c ≤ q * b := by
    calc q * v + c ≤ q * v + q := by omega
      _ = q * (v + 1) := by ring
      _ ≤ q * b := Nat.mul_le_mul_left q hv
  have hdiv : (q * v + c) / b ≤ q := Nat.div_le_of_le_mul (by rwa [Nat.mul_comm b])
  refine ⟨hle, hdiv, fun hlt => ?_⟩
  -- a borrow leaves a digit that is not zero, so the product is not the largest one
  by_contra hcon
  have heq : (q * v + c) / b = q := by omega
  have hmod := Nat.mod_add_div (q * v + c) b
  rw [heq, Nat.mul_comm b] at hmod
  omega

theorem carry_mulSub_le {q : Nat} {ws vs : List Nat} (hvs : Below b vs) {c : Nat} (hc : c ≤ q) :
    (mulSub b q ws vs c).2 ≤ q := by
  induction ws generalizing vs c with
  | nil =>
      cases vs with
      | nil => exact hc
      | cons v vs => exact hc
  | cons w ws ih =>
      cases vs with
      | nil => exact hc
      | cons v vs =>
          obtain ⟨hv, hvs⟩ := below_cons.1 hvs
          obtain ⟨-, hdiv, hborrow⟩ := carry_step (w := w) hv hc
          rw [mulSub]
          split
          · exact ih hvs hdiv
          · exact ih hvs (hborrow (by omega))

theorem mulSubW_eq {q : Nat} (hfit : 3 * b * b ≤ M) (hb : 1 < b) (hq : q ≤ 3 * b) {ws vs : List Nat} (hws : Below b ws)
    (hvs : Below b vs) {c : Nat} (hc : c ≤ q) : mulSubW M b q ws vs c = some (mulSub b q ws vs c) := by
  have hprod : q * b ≤ M := Nat.le_trans (Nat.mul_le_mul_right b hq) hfit
  have hsquare : b * 2 ≤ b * b := Nat.mul_le_mul_left b hb
  have htwo : 2 * b ≤ M := by nlinarith
  induction ws generalizing vs c with
  | nil =>
      cases vs with
      | nil => rfl
      | cons v vs => rfl
  | cons w ws ih =>
      cases vs with
      | nil => rfl
      | cons v vs =>
          obtain ⟨hv, hvs⟩ := below_cons.1 hvs
          obtain ⟨hw, hws⟩ := below_cons.1 hws
          obtain ⟨hle, hdiv, hborrow⟩ := carry_step (w := w) hv hc
          have hmod := Nat.mod_lt (q * v + c) (show 0 < b by omega)
          rw [mulSubW, mulSub, fit_bind (by omega), fit_bind (by omega)]
          by_cases htest : (q * v + c) % b ≤ w
          · rw [if_pos htest, if_pos htest, ih hws hvs hdiv]
            rfl
          · have hnext := hborrow (by omega)
            have hcarry : (q * v + c) / b + 1 ≤ M := by nlinarith
            rw [if_neg htest, if_neg htest, fit_bind (by omega), less_bind (by omega), fit_bind hcarry,
              ih hws hvs hnext]
            rfl

theorem carry_addFixed_le {us vs : List Nat} (hus : Below b us) (hvs : Below b vs) {c : Nat} (hc : c ≤ 1) :
    (addFixed b us vs c).2 ≤ 1 := by
  induction us generalizing vs c with
  | nil =>
      cases vs with
      | nil => exact hc
      | cons v vs => exact hc
  | cons u us ih =>
      cases vs with
      | nil => exact hc
      | cons v vs =>
          obtain ⟨hv, hvs⟩ := below_cons.1 hvs
          obtain ⟨hu, hus⟩ := below_cons.1 hus
          exact ih hus hvs (Nat.le_of_lt_succ (Nat.div_lt_of_lt_mul (by omega)))

theorem addFixedW_eq (hfit : 2 * b ≤ M) {us vs : List Nat} (hus : Below b us) (hvs : Below b vs) {c : Nat} (hc : c ≤ 1) :
    addFixedW M b us vs c = some (addFixed b us vs c) := by
  induction us generalizing vs c with
  | nil =>
      cases vs with
      | nil => rfl
      | cons v vs => rfl
  | cons u us ih =>
      cases vs with
      | nil => rfl
      | cons v vs =>
          obtain ⟨hv, hvs⟩ := below_cons.1 hvs
          obtain ⟨hu, hus⟩ := below_cons.1 hus
          rw [addFixedW, fit_bind (by omega), fit_bind (by omega),
            ih hus hvs (Nat.le_of_lt_succ (Nat.div_lt_of_lt_mul (by omega)))]
          rfl

/-- Taking the divisor back ends before the digit is exhausted. -/
theorem addBackW_eq {top : Nat} (hfit : 2 * b ≤ M) (hb : 1 < b) (htop : 1 ≤ top) {vs us : List Nat} (hvs : Below b vs)
    {q W : Nat} {t : Int} (h : Owed b vs W q us t) (ht : -(top : Int) ≤ t) :
    addBackW M top b vs q us t = some (addBack b vs q us t) := by
  induction q generalizing us t with
  | zero =>
      have hpos : ¬ t < 0 := by
        intro hneg
        obtain ⟨p, hp, -⟩ := h.step hb hneg
        cases hp
      rw [addBackW, if_neg hpos, addBack]
  | succ q ih =>
      rw [addBackW, addBack]
      by_cases hneg : t < 0
      · obtain ⟨p, hp, hrest⟩ := h.step hb hneg
        cases hp
        have hcarry := carry_addFixed_le h.below hvs (Nat.zero_le 1)
        rw [if_pos hneg, if_pos hneg]
        rw [addFixedW_eq hfit h.below hvs (Nat.zero_le 1), Option.bind_some, fitSigned_bind (by omega) (by omega),
          fitSigned_bind (by omega) (by omega)]
        exact ih hrest (by omega)
      · rw [if_neg hneg, if_neg hneg]

/-- Words for a base: the product of three digits' worth and a signed digit three times too large. -/
structure Roomy (b M top : Nat) : Prop where
  one_lt : 1 < b
  square : 3 * b * b ≤ M
  signed : 3 * b ≤ top

theorem Roomy.double {top : Nat} (h : Roomy b M top) : 2 * b ≤ M := by
  have hone := h.one_lt
  have hsquare := h.square
  nlinarith

theorem divStepW_eq {top : Nat} (hroom : Roomy b M top) {vs ws : List Nat} (hn : 2 ≤ vs.length)
    (hlen : ws.length = vs.length + 1) (hvs : Below b vs) (hws : Below b ws) (hlead : b / 2 ≤ vs.getD (vs.length - 1) 0)
    (hlt : Nat.ofDigits b ws < b * Nat.ofDigits b vs) : divStepW M top b vs ws = some (divStep b vs ws) := by
  have hb := hroom.one_lt
  have hsquare := hroom.square
  have hsigned := hroom.signed
  have hpos : 0 < vs.getD (vs.length - 1) 0 := by omega
  have howed := divStep_owed hb hn hlen hws hpos hlt
  obtain ⟨-, -, hval, hless⟩ := divStep_spec hb hn hlen hvs hws hpos hlt
  have hdigit : (divStep b vs ws).1 < b := by
    by_contra hcon
    have hmul := Nat.mul_le_mul_right (Nat.ofDigits b vs) (Nat.le_of_not_lt hcon)
    omega
  have hw := getD_lt (by omega) hws vs.length
  have hw₁ := getD_lt (by omega) hws (vs.length - 1)
  have hv₁ := getD_lt (by omega) hvs (vs.length - 1)
  have hnum : ws.getD vs.length 0 * b + ws.getD (vs.length - 1) 0 < b * b := by
    calc _ < ws.getD vs.length 0 * b + b := by omega
      _ = (ws.getD vs.length 0 + 1) * b := by ring
      _ ≤ b * b := Nat.mul_le_mul_right b hw
  have hestimate : (ws.getD vs.length 0 * b + ws.getD (vs.length - 1) 0) / vs.getD (vs.length - 1) 0 ≤ 3 * b := by
    apply Nat.div_le_of_le_mul
    calc _ ≤ b * b := hnum.le
      _ ≤ (3 * vs.getD (vs.length - 1) 0) * b := Nat.mul_le_mul_right b (by omega)
      _ = _ := by ring
  have hrest := Nat.mod_lt (ws.getD vs.length 0 * b + ws.getD (vs.length - 1) 0) hpos
  have hcorrect := correctW_eq (M := M) hsquare (by omega) hv₁ (getD_lt (by omega) hvs (vs.length - 2))
    (getD_lt (by omega) hws (vs.length - 2)) hestimate (Nat.lt_trans hrest hv₁)
  have hle := Nat.le_trans (correct_le (b := b) (vs.getD (vs.length - 1) 0) (vs.getD (vs.length - 2) 0)
    (ws.getD (vs.length - 2) 0) _ ((ws.getD vs.length 0 * b + ws.getD (vs.length - 1) 0) % vs.getD (vs.length - 1) 0)) hestimate
  have hbb : b * b ≤ M := by nlinarith
  rw [divStep] at hdigit ⊢
  rw [divStepW]
  dsimp only at howed hdigit ⊢
  rw [fit_bind (by omega), fit_bind (by omega), ensure_bind (by omega), hcorrect, Option.bind_some]
  generalize correct b _ _ _ _ _ = q at howed hdigit hle ⊢
  have hborrow : (mulSub b q (ws.take vs.length) vs 0).2 ≤ q := carry_mulSub_le hvs (Nat.zero_le q)
  rw [mulSubW_eq hsquare hb hle (below_take hws _) hvs (Nat.zero_le q), Option.bind_some,
    fitSigned_bind (by omega) (by omega), fitSigned_bind (by omega) (by omega), fitSigned_bind (by omega) (by omega),
    addBackW_eq hroom.double hb (by omega) hvs howed (by omega), Option.bind_some, ensure_bind hdigit]

theorem longDivW_eq {top : Nat} (hroom : Roomy b M top) {vs rest low : List Nat} (hn : 2 ≤ vs.length)
    (hlen : rest.length = vs.length) (hvs : Below b vs) (hrest : Below b rest) (hlow : Below b low)
    (hlead : b / 2 ≤ vs.getD (vs.length - 1) 0) (hlt : Nat.ofDigits b rest < Nat.ofDigits b vs) :
    longDivW M top b vs rest low = some (longDiv b vs rest low) := by
  have hb := hroom.one_lt
  induction low with
  | nil => rfl
  | cons x low ih =>
      obtain ⟨hx, hlow⟩ := below_cons.1 hlow
      obtain ⟨hbr, hlr, -, hless, -⟩ := longDiv_spec hb hn hlen hvs hrest hlow (by omega) hlt
      have hwin : Nat.ofDigits b (x :: (longDiv b vs rest low).2) < b * Nat.ofDigits b vs := by
        have hmul := Nat.mul_le_mul_left b (Nat.succ_le_of_lt hless)
        rw [Nat.mul_succ] at hmul
        rw [Nat.ofDigits_cons]
        omega
      rw [longDivW, ih hlow, Option.bind_some,
        divStepW_eq hroom hn (by rw [List.length_cons, hlr]) hvs (below_cons.2 ⟨hx, hbr⟩) hlead hwin]
      rfl

theorem divSmallW_eq {d : Nat} (hfit : d * b ≤ M) (hd : 0 < d) {xs : List Nat} (hxs : Below b xs) :
    divSmallW M b d xs = some (divSmall b d xs) := by
  induction xs with
  | nil => rfl
  | cons x xs ih =>
      obtain ⟨hx, hxs⟩ := below_cons.1 hxs
      have hrem := divSmall_lt (b := b) hd xs
      have hcur : (divSmall b d xs).2 * b + x < d * b := by
        calc _ < (divSmall b d xs).2 * b + b := by omega
          _ = ((divSmall b d xs).2 + 1) * b := by ring
          _ ≤ d * b := Nat.mul_le_mul_right b hrem
      rw [divSmallW, ih hxs, Option.bind_some, fit_bind (by omega), fit_bind (by omega),
        ensure_bind (Nat.div_lt_of_lt_mul hcur)]
      rfl

theorem divFullW_eq {top : Nat} (hroom : Roomy b M top) {us vs : List Nat} (hn : 2 ≤ vs.length)
    (hlen : vs.length ≤ us.length) (hus : Below b us) (hvs : Below b vs) (htv : Trimmed vs) :
    divFullW M top b us vs = some (divFull b us vs) := by
  have hb := hroom.one_lt
  have hdouble := hroom.double
  have hscaled := scaled_divFull hb hn hlen hus hvs htv
  obtain ⟨hbr, -, -, hrem, -⟩ := hscaled.longDiv hb hn hlen
  have hlast := getD_lt (by omega) hvs (vs.length - 1)
  have hlength := hscaled.length
  have hvlen := length_mulFixed (b := b) (b / (vs.getD (vs.length - 1) 0 + 1)) vs 0
  have hone : 1 ≤ b / (vs.getD (vs.length - 1) 0 + 1) := hscaled.pos
  rw [divFullW, divFull]
  dsimp only
  rw [less_bind hlen, fit_bind (by omega), ensure_bind hone]
  generalize b / (vs.getD (vs.length - 1) 0 + 1) = d at *
  have hscale : b * d ≤ M := by
    have hle := Nat.mul_le_mul_left b hscaled.le_base
    have hsquare := hroom.square
    nlinarith
  have hlead := hscaled.lead
  rw [mulFixedW_eq hscale hvs hscaled.pos, Option.bind_some, ensure_bind hscaled.carry, mulFixedW_eq hscale hus hscaled.pos,
    Option.bind_some, ensure_bind hlead, longDivW_eq hroom (by omega) (by rw [List.length_drop]; omega)
      (below_mulFixed (by omega) d vs 0) (fun x hx => hscaled.below x (List.mem_of_mem_drop hx))
      (below_take hscaled.below _) (by rwa [hvlen]) hscaled.top, Option.bind_some,
    divSmallW_eq (by rwa [Nat.mul_comm]) hscaled.pos hbr, Option.bind_some]
  rw [ensure_bind (divSmall_exact hscaled.pos hrem).2]

end Limbs
