-- SUMMARY: Numbers as lists of digits, least significant first: schoolbook arithmetic with carries.
import Mathlib.Data.Nat.Digits.Lemmas
import Mathlib.Tactic.Ring

/-!
# Limbs

Arithmetic on lists of digits in a base, digit by digit with carries and borrows. What a list denotes is
`Nat.ofDigits`; each operation comes with its effect on that number and on the bound of the digits.
-/

namespace Limbs

variable {b : Nat}

/-- Every digit is below the base. -/
def Below (b : Nat) (l : List Nat) : Prop := ∀ x ∈ l, x < b

/-- No leading zeros; the most significant digit is the last one. -/
def Trimmed (l : List Nat) : Prop := ∀ h : l ≠ [], l.getLast h ≠ 0

theorem below_nil : Below b [] := fun _ h => absurd h List.not_mem_nil

theorem below_cons {x : Nat} {l : List Nat} : Below b (x :: l) ↔ x < b ∧ Below b l :=
  List.forall_mem_cons

theorem below_append {l r : List Nat} : Below b (l ++ r) ↔ Below b l ∧ Below b r :=
  List.forall_mem_append

theorem below_replicate_zero (hb : 0 < b) (n : Nat) : Below b (List.replicate n 0) := by
  intro x hx
  rw [List.eq_of_mem_replicate hx]
  exact hb

theorem below_digits (hb : 1 < b) (n : Nat) : Below b (Nat.digits b n) :=
  fun _ h => Nat.digits_lt_base hb h

theorem value_lt (hb : 1 < b) {l : List Nat} (h : Below b l) : Nat.ofDigits b l < b ^ l.length :=
  Nat.ofDigits_lt_base_pow_length hb h

/-! ## Leading zeros -/

def trim : List Nat → List Nat
  | [] => []
  | x :: l => if (trim l).isEmpty && x = 0 then [] else x :: trim l

theorem value_trim (l : List Nat) : Nat.ofDigits b (trim l) = Nat.ofDigits b l := by
  induction l with
  | nil => rfl
  | cons x l ih =>
      rw [trim, Nat.ofDigits_cons, ← ih]
      split
      · rename_i h
        rw [Bool.and_eq_true, List.isEmpty_iff, decide_eq_true_eq] at h
        rw [h.1, h.2]
        simp
      · rw [Nat.ofDigits_cons]

theorem trimmed_trim (l : List Nat) : Trimmed (trim l) := by
  induction l with
  | nil => exact fun h => absurd rfl h
  | cons x l ih =>
      rw [trim]
      split
      · exact fun h => absurd rfl h
      · rename_i h
        generalize trim l = r at h ih
        intro hne
        cases r with
        | nil => simpa using h
        | cons y r =>
            rw [List.getLast_cons (List.cons_ne_nil y r)]
            exact ih (List.cons_ne_nil y r)

theorem below_trim {l : List Nat} (h : Below b l) : Below b (trim l) := by
  induction l with
  | nil => exact h
  | cons x l ih =>
      obtain ⟨hx, hl⟩ := below_cons.1 h
      rw [trim]
      split
      · exact below_nil
      · exact below_cons.2 ⟨hx, ih hl⟩

/-- Without leading zeros there is one list of digits for a number. -/
theorem eq_digits (hb : 1 < b) {l : List Nat} (h : Below b l) (ht : Trimmed l) :
    l = Nat.digits b (Nat.ofDigits b l) :=
  (Nat.digits_ofDigits b hb l h ht).symm

theorem trimmed_digits (b n : Nat) : Trimmed (Nat.digits b n) := fun h =>
  Nat.getLast_digit_ne_zero b fun hn => h (by rw [hn, Nat.digits_zero])

theorem Trimmed.tail {x y : Nat} {l : List Nat} (h : Trimmed (x :: y :: l)) : Trimmed (y :: l) :=
  fun hne => by
    have hlast := h (List.cons_ne_nil _ _)
    rwa [List.getLast_cons hne] at hlast

theorem Trimmed.append {l r : List Nat} (hr : Trimmed r) (hne : r ≠ []) : Trimmed (l ++ r) := fun _ => by
  rw [List.getLast_append_of_ne_nil _ hne]
  exact hr hne

theorem Trimmed.cons {x : Nat} {l : List Nat} (hl : Trimmed l) (hx : l = [] → x ≠ 0) :
    Trimmed (x :: l) := fun _ => by
  cases l with
  | nil =>
      rw [List.getLast_singleton]
      exact hx rfl
  | cons y l =>
      rw [List.getLast_cons (List.cons_ne_nil y l)]
      exact hl (List.cons_ne_nil y l)

theorem Trimmed.rest {x : Nat} {l : List Nat} (h : Trimmed (x :: l)) : Trimmed l := by
  cases l with
  | nil => exact fun hne => absurd rfl hne
  | cons y l => exact h.tail

theorem Trimmed.head_ne_zero {x : Nat} (h : Trimmed [x]) : x ≠ 0 := by
  have hlast := h (List.cons_ne_nil x [])
  rwa [List.getLast_singleton] at hlast

theorem digits_eq_nil {n : Nat} (h : Nat.digits b n = []) : n = 0 :=
  Nat.digits_eq_nil_iff_eq_zero.1 h

/-! ## Addition and subtraction -/

/-- Missing digits count as zero. -/
@[grind =]
def add (b : Nat) : List Nat → List Nat → Nat → List Nat
  | [], [], c => Nat.digits b c
  | x :: xs, [], c => (x + c) % b :: add b xs [] ((x + c) / b)
  | [], y :: ys, c => (y + c) % b :: add b [] ys ((y + c) / b)
  | x :: xs, y :: ys, c => (x + y + c) % b :: add b xs ys ((x + y + c) / b)

theorem value_add (xs ys : List Nat) (c : Nat) :
    Nat.ofDigits b (add b xs ys c) = Nat.ofDigits b xs + Nat.ofDigits b ys + c := by
  induction xs, ys, c using add.induct b with
  | case1 c => simp [add, Nat.ofDigits_digits]
  | case2 x xs c ih =>
      have hdiv := Nat.mod_add_div (x + c) b
      rw [add, Nat.ofDigits_cons, ih, Nat.ofDigits_cons, Nat.ofDigits_nil]
      linarith
  | case3 y ys c ih =>
      have hdiv := Nat.mod_add_div (y + c) b
      rw [add, Nat.ofDigits_cons, ih, Nat.ofDigits_cons, Nat.ofDigits_nil]
      linarith
  | case4 x xs y ys c ih =>
      have hdiv := Nat.mod_add_div (x + y + c) b
      rw [add, Nat.ofDigits_cons, ih, Nat.ofDigits_cons, Nat.ofDigits_cons]
      linarith

theorem below_add (hb : 1 < b) (xs ys : List Nat) (c : Nat) : Below b (add b xs ys c) := by
  have hpos : 0 < b := by omega
  induction xs, ys, c using add.induct b with
  | case1 c =>
      rw [add]
      exact below_digits hb c
  | case2 _ _ _ ih | case3 _ _ _ ih | case4 _ _ _ _ _ ih =>
      rw [add]
      exact below_cons.2 ⟨Nat.mod_lt _ hpos, ih⟩

theorem add_eq_nil {xs ys : List Nat} {c : Nat} (h : add b xs ys c = []) :
    xs = [] ∧ ys = [] ∧ c = 0 := by
  cases xs with
  | nil =>
      cases ys with
      | nil =>
          rw [add] at h
          exact ⟨rfl, rfl, digits_eq_nil h⟩
      | cons y ys =>
          rw [add] at h
          cases h
  | cons x xs =>
      cases ys with
      | nil =>
          rw [add] at h
          cases h
      | cons y ys =>
          rw [add] at h
          cases h

theorem trimmed_add (hb : 0 < b) {xs ys : List Nat} (hxs : Trimmed xs) (hys : Trimmed ys) (c : Nat) :
    Trimmed (add b xs ys c) := by
  have hlow : ∀ {s : Nat}, s / b = 0 → s ≠ 0 → s % b ≠ 0 := by
    intro s hdiv hne
    rw [Nat.mod_eq_of_lt (((Nat.div_eq_zero_iff).1 hdiv).resolve_left (by omega))]
    exact hne
  induction xs, ys, c using add.induct b with
  | case1 c =>
      rw [add]
      exact trimmed_digits b c
  | case2 x xs c ih =>
      rw [add]
      refine (ih hxs.rest hys).cons fun hnil => ?_
      obtain ⟨rfl, -, hc⟩ := add_eq_nil hnil
      exact hlow hc (by have hx := hxs.head_ne_zero; omega)
  | case3 y ys c ih =>
      rw [add]
      refine (ih hxs hys.rest).cons fun hnil => ?_
      obtain ⟨-, rfl, hc⟩ := add_eq_nil hnil
      exact hlow hc (by have hy := hys.head_ne_zero; omega)
  | case4 x xs y ys c ih =>
      rw [add]
      refine (ih hxs.rest hys.rest).cons fun hnil => ?_
      obtain ⟨rfl, rfl, hc⟩ := add_eq_nil hnil
      exact hlow hc (by have hx := hxs.head_ne_zero; omega)

/-- The first list less the second, with a borrow of zero or one. -/
@[grind =]
def sub (b : Nat) : List Nat → List Nat → Nat → List Nat
  | [], _, _ => []
  | x :: xs, ys, c =>
    if x < ys.headD 0 + c then (x + b - (ys.headD 0 + c)) :: sub b xs ys.tail 1
    else (x - (ys.headD 0 + c)) :: sub b xs ys.tail 0

theorem value_headD_tail (ys : List Nat) :
    Nat.ofDigits b ys = ys.headD 0 + b * Nat.ofDigits b ys.tail := by
  cases ys with
  | nil => simp
  | cons y ys => rw [Nat.ofDigits_cons]; rfl

theorem headD_lt (hb : 0 < b) {ys : List Nat} (h : Below b ys) : ys.headD 0 < b := by
  cases ys with
  | nil => exact hb
  | cons y ys => exact (below_cons.1 h).1

theorem below_tail {ys : List Nat} (h : Below b ys) : Below b ys.tail :=
  fun x hx => h x (List.mem_of_mem_tail hx)

theorem value_sub {xs ys : List Nat} {c : Nat} (hxs : Below b xs) (hys : Below b ys) (hc : c ≤ 1)
    (h : Nat.ofDigits b ys + c ≤ Nat.ofDigits b xs) (hb : 0 < b) :
    Nat.ofDigits b (sub b xs ys c) + (Nat.ofDigits b ys + c) = Nat.ofDigits b xs := by
  induction xs generalizing ys c with
  | nil =>
      rw [sub]
      rw [Nat.ofDigits_nil] at h ⊢
      omega
  | cons x xs ih =>
      have hhead := headD_lt hb hys
      obtain ⟨hx, hxs⟩ := below_cons.1 hxs
      rw [value_headD_tail ys, Nat.ofDigits_cons] at h ⊢
      rw [sub]
      split
      · rename_i hlt
        have hle : Nat.ofDigits b ys.tail + 1 ≤ Nat.ofDigits b xs := by
          by_contra hcon
          have hle : Nat.ofDigits b xs ≤ Nat.ofDigits b ys.tail := by omega
          have hmul := Nat.mul_le_mul_left b hle
          omega
        have hrest := ih hxs (below_tail hys) (Nat.le_refl 1) hle
        have hmul : b * Nat.ofDigits b xs
            = b * Nat.ofDigits b (sub b xs ys.tail 1) + b * Nat.ofDigits b ys.tail + b := by
          rw [← hrest]
          ring
        rw [Nat.ofDigits_cons]
        omega
      · rename_i hlt
        have hle : Nat.ofDigits b ys.tail + 0 ≤ Nat.ofDigits b xs := by
          by_contra hcon
          have hle : Nat.ofDigits b xs + 1 ≤ Nat.ofDigits b ys.tail := by omega
          have hmul := Nat.mul_le_mul_left b hle
          rw [Nat.mul_add, Nat.mul_one] at hmul
          omega
        have hrest := ih hxs (below_tail hys) (Nat.zero_le 1) hle
        have hmul : b * Nat.ofDigits b xs
            = b * Nat.ofDigits b (sub b xs ys.tail 0) + b * Nat.ofDigits b ys.tail := by
          rw [← hrest]
          ring
        rw [Nat.ofDigits_cons]
        omega

theorem below_sub {xs ys : List Nat} {c : Nat} (hxs : Below b xs) (hys : Below b ys) :
    Below b (sub b xs ys c) := by
  induction xs generalizing ys c with
  | nil => exact below_nil
  | cons x xs ih =>
      obtain ⟨hx, hxs⟩ := below_cons.1 hxs
      rw [sub]
      split
      · exact below_cons.2 ⟨by omega, ih hxs (below_tail hys)⟩
      · exact below_cons.2 ⟨by omega, ih hxs (below_tail hys)⟩

theorem length_sub (xs ys : List Nat) (c : Nat) : (sub b xs ys c).length = xs.length := by
  induction xs generalizing ys c with
  | nil => rfl
  | cons x xs ih =>
      rw [sub]
      split
      · rw [List.length_cons, ih, List.length_cons]
      · rw [List.length_cons, ih, List.length_cons]

/-! ## Multiplication -/

def mulSmall (b m : Nat) : List Nat → Nat → List Nat
  | [], c => Nat.digits b c
  | x :: xs, c => (x * m + c) % b :: mulSmall b m xs ((x * m + c) / b)

theorem value_mulSmall (m : Nat) (xs : List Nat) (c : Nat) :
    Nat.ofDigits b (mulSmall b m xs c) = Nat.ofDigits b xs * m + c := by
  induction xs generalizing c with
  | nil => simp [mulSmall, Nat.ofDigits_digits]
  | cons x xs ih =>
      have hdiv := Nat.mod_add_div (x * m + c) b
      rw [mulSmall, Nat.ofDigits_cons, ih, Nat.ofDigits_cons]
      linarith

theorem below_mulSmall (hb : 1 < b) (m : Nat) (xs : List Nat) (c : Nat) :
    Below b (mulSmall b m xs c) := by
  induction xs generalizing c with
  | nil => exact below_digits hb c
  | cons x xs ih => exact below_cons.2 ⟨Nat.mod_lt _ (by omega), ih _⟩

theorem trimmed_mulSmall (hb : 0 < b) {m : Nat} (hm : 0 < m) {xs : List Nat} (h : Trimmed xs) (c : Nat) :
    Trimmed (mulSmall b m xs c) := by
  induction xs generalizing c with
  | nil => exact trimmed_digits b c
  | cons x xs ih =>
      refine (ih h.rest _).cons fun hnil => ?_
      cases xs with
      | nil =>
          have hzero : (x * m + c) / b = 0 := digits_eq_nil hnil
          rw [Nat.mod_eq_of_lt (((Nat.div_eq_zero_iff).1 hzero).resolve_left (by omega))]
          have hmul := Nat.mul_pos (Nat.pos_of_ne_zero h.head_ne_zero) hm
          omega
      | cons y ys => cases hnil

/-- Multiply by a power of the base. -/
def shift (k : Nat) (l : List Nat) : List Nat := List.replicate k 0 ++ l

theorem value_shift (k : Nat) (l : List Nat) :
    Nat.ofDigits b (shift k l) = Nat.ofDigits b l * b ^ k := by
  rw [shift, Nat.ofDigits_append, Nat.ofDigits_replicate_zero, List.length_replicate, Nat.zero_add,
    Nat.mul_comm]

theorem below_shift (hb : 0 < b) (k : Nat) {l : List Nat} (h : Below b l) : Below b (shift k l) :=
  below_append.2 ⟨below_replicate_zero hb k, h⟩

/-- Columns added without carries. -/
def addCols : List Nat → List Nat → List Nat
  | [], l => l
  | l, [] => l
  | x :: xs, y :: ys => (x + y) :: addCols xs ys

theorem value_addCols (xs ys : List Nat) :
    Nat.ofDigits b (addCols xs ys) = Nat.ofDigits b xs + Nat.ofDigits b ys := by
  induction xs, ys using addCols.induct with
  | case1 l => simp [addCols]
  | case2 l h => simp [addCols]
  | case3 x xs y ys ih =>
      rw [addCols, Nat.ofDigits_cons, ih, Nat.ofDigits_cons, Nat.ofDigits_cons]
      ring

/-- The columns of the schoolbook product. -/
def mulCols : List Nat → List Nat → List Nat
  | [], _ => []
  | x :: xs, ys => addCols (ys.map (x * ·)) (0 :: mulCols xs ys)

theorem value_map_mul (x : Nat) (ys : List Nat) :
    Nat.ofDigits b (ys.map (x * ·)) = x * Nat.ofDigits b ys := by
  induction ys with
  | nil => simp
  | cons y ys ih =>
      rw [List.map_cons, Nat.ofDigits_cons, ih, Nat.ofDigits_cons]
      ring

theorem value_mulCols (xs ys : List Nat) :
    Nat.ofDigits b (mulCols xs ys) = Nat.ofDigits b xs * Nat.ofDigits b ys := by
  induction xs with
  | nil => simp [mulCols]
  | cons x xs ih =>
      rw [mulCols, value_addCols, value_map_mul, Nat.ofDigits_cons, ih, Nat.ofDigits_cons]
      ring

def mul (b : Nat) (xs ys : List Nat) : List Nat := mulSmall b 1 (mulCols xs ys) 0

theorem value_mul (xs ys : List Nat) :
    Nat.ofDigits b (mul b xs ys) = Nat.ofDigits b xs * Nat.ofDigits b ys := by
  rw [mul, value_mulSmall, value_mulCols, Nat.mul_one, Nat.add_zero]

theorem below_mul (hb : 1 < b) (xs ys : List Nat) : Below b (mul b xs ys) := below_mulSmall hb 1 _ 0

/-! ## Division by a digit -/

/-- From the most significant digit down: quotient digits and remainder. -/
def divSmall (b d : Nat) : List Nat → List Nat × Nat
  | [] => ([], 0)
  | x :: xs =>
    (((divSmall b d xs).2 * b + x) / d :: (divSmall b d xs).1, ((divSmall b d xs).2 * b + x) % d)

theorem value_divSmall (d : Nat) (xs : List Nat) :
    Nat.ofDigits b (divSmall b d xs).1 * d + (divSmall b d xs).2 = Nat.ofDigits b xs := by
  induction xs with
  | nil => simp [divSmall]
  | cons x xs ih =>
      have hdiv := Nat.div_add_mod ((divSmall b d xs).2 * b + x) d
      simp only [divSmall, Nat.ofDigits_cons]
      rw [← ih]
      linarith

theorem divSmall_lt {d : Nat} (hd : 0 < d) (xs : List Nat) : (divSmall b d xs).2 < d := by
  cases xs with
  | nil => exact hd
  | cons x xs => exact Nat.mod_lt _ hd

theorem below_divSmall (hb : 0 < b) (d : Nat) {xs : List Nat} (h : Below b xs) :
    Below b (divSmall b d xs).1 := by
  induction xs with
  | nil => exact below_nil
  | cons x xs ih =>
      obtain ⟨hx, hxs⟩ := below_cons.1 h
      refine below_cons.2 ⟨?_, ih hxs⟩
      rcases Nat.eq_zero_or_pos d with rfl | hd
      · rw [Nat.div_zero]
        exact hb
      · have hrem := divSmall_lt (b := b) hd xs
        rw [Nat.div_lt_iff_lt_mul hd]
        calc (divSmall b d xs).2 * b + x < (divSmall b d xs).2 * b + b := by omega
          _ = ((divSmall b d xs).2 + 1) * b := by ring
          _ ≤ d * b := Nat.mul_le_mul_right b hrem
          _ = b * d := Nat.mul_comm d b

theorem length_divSmall (d : Nat) (xs : List Nat) : (divSmall b d xs).1.length = xs.length := by
  induction xs with
  | nil => rfl
  | cons x xs ih => simp only [divSmall, List.length_cons, ih]

/-! ## Comparison -/

/-- The most significant digits that differ decide. -/
def compareTop : List Nat → List Nat → Ordering
  | x :: xs, y :: ys => (compareTop xs ys).then (compare x y)
  | _, _ => .eq

def compareLimbs (xs ys : List Nat) : Ordering :=
  if xs.length = ys.length then compareTop xs ys else compare xs.length ys.length

theorem compareTop_eq {xs ys : List Nat} (hlen : xs.length = ys.length)
    (hxs : Below b xs) (hys : Below b ys) :
    compareTop xs ys = compare (Nat.ofDigits b xs) (Nat.ofDigits b ys) := by
  induction xs generalizing ys with
  | nil =>
      cases ys with
      | nil => rfl
      | cons y ys => cases hlen
  | cons x xs ih =>
      cases ys with
      | nil => cases hlen
      | cons y ys =>
          obtain ⟨hx, hxs⟩ := below_cons.1 hxs
          obtain ⟨hy, hys⟩ := below_cons.1 hys
          rw [compareTop, ih (Nat.succ.inj hlen) hxs hys, Nat.ofDigits_cons, Nat.ofDigits_cons]
          generalize Nat.ofDigits b xs = X
          generalize Nat.ofDigits b ys = Y
          rcases Nat.lt_trichotomy X Y with h | rfl | h
          · have hmul := Nat.mul_le_mul_left b (Nat.succ_le_of_lt h)
            rw [Nat.mul_succ] at hmul
            have hlt : x + b * X < y + b * Y := by omega
            rw [Nat.compare_eq_lt.2 h, Nat.compare_eq_lt.2 hlt]
            rfl
          · rw [Nat.compare_eq_eq.2 rfl]
            rcases Nat.lt_trichotomy x y with h | rfl | h
            · have hlt : x + b * X < y + b * X := by omega
              rw [Nat.compare_eq_lt.2 h, Nat.compare_eq_lt.2 hlt]
              rfl
            · simp
            · have hlt : y + b * X < x + b * X := by omega
              rw [Nat.compare_eq_gt.2 h, Nat.compare_eq_gt.2 hlt]
              rfl
          · have hmul := Nat.mul_le_mul_left b (Nat.succ_le_of_lt h)
            rw [Nat.mul_succ] at hmul
            have hlt : y + b * Y < x + b * X := by omega
            rw [Nat.compare_eq_gt.2 h, Nat.compare_eq_gt.2 hlt]
            rfl

theorem pow_le_value {l : List Nat} (ht : Trimmed l) (hne : l ≠ []) :
    b ^ (l.length - 1) ≤ Nat.ofDigits b l := by
  induction l with
  | nil => exact absurd rfl hne
  | cons x l ih =>
      cases l with
      | nil =>
          have hx := ht hne
          rw [List.getLast_singleton] at hx
          simp only [List.length_singleton, Nat.sub_self, pow_zero, Nat.ofDigits_singleton]
          omega
      | cons y l =>
          have hrest := ih ht.tail (List.cons_ne_nil y l)
          have hmul := Nat.mul_le_mul_left b hrest
          rw [Nat.ofDigits_cons]
          simp only [List.length_cons, Nat.add_sub_cancel] at hmul ⊢
          rw [pow_succ, Nat.mul_comm]
          omega

theorem compareLimbs_eq {xs ys : List Nat} (hb : 1 < b) (hxs : Below b xs) (hys : Below b ys)
    (htx : Trimmed xs) (hty : Trimmed ys) :
    compareLimbs xs ys = compare (Nat.ofDigits b xs) (Nat.ofDigits b ys) := by
  have hlong : ∀ {s l : List Nat}, Below b s → Trimmed l → s.length < l.length →
      Nat.ofDigits b s < Nat.ofDigits b l := by
    intro s l hs hl hlen
    have hne : l ≠ [] := by
      rintro rfl
      cases hlen
    calc Nat.ofDigits b s < b ^ s.length := value_lt hb hs
      _ ≤ b ^ (l.length - 1) := Nat.pow_le_pow_right (by omega) (by omega)
      _ ≤ Nat.ofDigits b l := pow_le_value hl hne
  unfold compareLimbs
  split
  · rename_i h
    exact compareTop_eq h hxs hys
  · rename_i h
    rcases Nat.lt_or_gt_of_ne h with h | h
    · rw [Nat.compare_eq_lt.2 h, Nat.compare_eq_lt.2 (hlong hxs hty h)]
    · rw [Nat.compare_eq_gt.2 h, Nat.compare_eq_gt.2 (hlong hys htx h)]

end Limbs
