-- SUMMARY: FETCH and MOVE on a cursor, and where they follow a cursor that moves one row at a time.
import Mathlib.Data.Fin.Basic
import Mathlib.Logic.Function.Iterate
import Mathlib.Tactic.Linarith

/-!
# Cursors

A cursor stands before the first row, on a row, or after the last one. The code computes the rows of a
FETCH and the new position in closed form; the reference takes single steps.
-/

namespace Cursor

/-! ## The window of a FETCH -/

inductive FetchDir where
  | forward (count : Option Int)
  | backward (count : Option Int)
  | absolute (c : Int)
  | relative (c : Int)
  | first
  | last
deriving DecidableEq

inductive Kind where
  | fwd
  | bwd
  | at_
deriving DecidableEq

def InI64 (z : Int) : Prop := -2 ^ 63 ≤ z ∧ z < 2 ^ 63

instance (z : Int) : Decidable (InI64 z) := inferInstanceAs (Decidable (_ ∧ _))

/-- Sums of machine integers wrap, or stop the program in a debug build. -/
def wrap64 (z : Int) : Int := Int.bmod z (2 ^ 64)

/-- The bounds before they are clamped, and what kind of movement it is. -/
def bounds (dir : FetchDir) (pos n : Int) : Int × Int × Kind :=
  match dir with
  | .forward none => (wrap64 (pos + 1), n, .fwd)
  | .forward (some c) =>
    if c ≥ 0 then (wrap64 (pos + 1), wrap64 (wrap64 (pos + 1) + c), .fwd) else (wrap64 (pos + c), pos, .bwd)
  | .backward none => (0, pos, .bwd)
  | .backward (some c) =>
    if c ≥ 0 then (wrap64 (pos - c), pos, .bwd) else (wrap64 (pos + 1), wrap64 (wrap64 (pos + 1) - c), .fwd)
  | .absolute c =>
    let t := if c > 0 then wrap64 (c - 1) else wrap64 (n + c)
    (t, wrap64 (t + 1), .at_)
  | .relative c => (wrap64 (pos + c), wrap64 (wrap64 (pos + c) + 1), .at_)
  | .first => (0, 1, .at_)
  | .last => (wrap64 (n - 1), n, .at_)

def clamp (z n : Int) : Int := max 0 (min z n)

/-- The rows from the first bound to the second, and the new position. -/
def cursorWindow (dir : FetchDir) (pos : Int) (len : Nat) : Nat × Nat × Int :=
  let n : Int := len
  if dir = .absolute 0 then (0, 0, -1)
  else
    let b := bounds dir pos n
    let neg := b.1 < 0
    let s := clamp b.1 n
    let e := clamp b.2.1 n
    if s ≥ e then
      (0, 0, match b.2.2 with
        | .fwd => n
        | .bwd => -1
        | .at_ => if neg then -1 else n)
    else
      (s.toNat, e.toNat, match b.2.2 with
        | .fwd => if e = n then n else e - 1
        | .bwd => if dir = .backward none ∨ neg then -1 else s
        | .at_ => e - 1)

/-- The rows a FETCH delivers and the position it leaves. -/
def cursorFetch {α : Type} (rows : List α) (pos : Int) (dir : FetchDir) : List α × Int :=
  let w := cursorWindow dir pos rows.length
  let found := (rows.take w.2.1).drop w.1
  (match dir with
    | .backward _ => found.reverse
    | _ => found, w.2.2)

/-- The sums that the bounds take, as they should be. -/
def sums (dir : FetchDir) (pos n : Int) : List Int :=
  match dir with
  | .forward none => [pos + 1]
  | .forward (some c) => if c ≥ 0 then [pos + 1, pos + 1 + c] else [pos + c]
  | .backward none => []
  | .backward (some c) => if c ≥ 0 then [pos - c] else [pos + 1, pos + 1 - c]
  | .absolute c => if c > 0 then [c - 1, c] else if c = 0 then [] else [n + c, n + c + 1]
  | .relative c => [pos + c, pos + c + 1]
  | .first => []
  | .last => [n - 1]

/-! ## One row at a time -/

inductive Place (n : Nat) where
  | before
  | on (i : Fin n)
  | after

namespace Place

variable {n : Nat}

def next : Place n → Place n
  | .before => if h : 0 < n then .on ⟨0, h⟩ else .after
  | .on i => if h : i.val + 1 < n then .on ⟨i.val + 1, h⟩ else .after
  | .after => .after

def prev : Place n → Place n
  | .before => .before
  | .on i => if h : 0 < i.val then .on ⟨i.val - 1, by omega⟩ else .before
  | .after => if h : 0 < n then .on ⟨n - 1, by omega⟩ else .before

def row : Place n → List Nat
  | .on i => [i.val]
  | _ => []

def position : Place n → Int
  | .before => -1
  | .on i => i.val
  | .after => n

@[simp] theorem position_before : (before : Place n).position = -1 := rfl
@[simp] theorem position_on (i : Fin n) : (on i).position = i.val := rfl
@[simp] theorem position_after : (after : Place n).position = n := rfl

theorem position_range (p : Place n) : -1 ≤ p.position ∧ p.position ≤ n := by
  cases p with
  | before =>
      rw [position_before]
      omega
  | on i =>
      have hi := i.isLt
      rw [position_on]
      omega
  | after =>
      rw [position_after]
      omega

theorem position_next (p : Place n) : p.next.position = min (p.position + 1) n := by
  cases p with
  | before =>
      by_cases h : 0 < n
      · rw [next, dif_pos h, position_on, position_before]
        dsimp only
        omega
      · rw [next, dif_neg h, position_after, position_before]
        omega
  | on i =>
      have hi := i.isLt
      by_cases h : i.val + 1 < n
      · rw [next, dif_pos h, position_on, position_on]
        dsimp only
        omega
      · rw [next, dif_neg h, position_after, position_on]
        omega
  | after =>
      rw [next, position_after]
      omega

theorem position_prev (p : Place n) : p.prev.position = max (p.position - 1) (-1) := by
  cases p with
  | before => rfl
  | on i =>
      by_cases h : 0 < i.val
      · rw [prev, dif_pos h, position_on, position_on]
        dsimp only
        omega
      · rw [prev, dif_neg h, position_before, position_on]
        omega
  | after =>
      by_cases h : 0 < n
      · rw [prev, dif_pos h, position_on, position_after]
        dsimp only
        omega
      · rw [prev, dif_neg h, position_before, position_after]
        omega

theorem mem_row (p : Place n) (i : Nat) : i ∈ p.row ↔ p.position = i ∧ i < n := by
  cases p with
  | before =>
      rw [position_before]
      simp only [row, List.not_mem_nil, false_iff]
      omega
  | on j =>
      have hj := j.isLt
      rw [position_on]
      simp only [row, List.mem_singleton]
      omega
  | after =>
      rw [position_after]
      simp only [row, List.not_mem_nil, false_iff]
      omega

/-- So many steps, with the rows met. -/
@[grind =]
def walk (step : Place n → Place n) : Nat → Place n → List Nat × Place n
  | 0, p => ([], p)
  | k + 1, p => ((step p).row ++ (walk step k (step p)).1, (walk step k (step p)).2)

/-- So many steps, with the row they end on. -/
def jump (step : Place n → Place n) (k : Nat) (p : Place n) : List Nat × Place n :=
  ((step^[k] p).row, step^[k] p)

theorem walk_next (k : Nat) (p : Place n) :
    (walk next k p).2.position = min (p.position + k) n ∧
      ∀ i : Nat, i ∈ (walk next k p).1 ↔ p.position < i ∧ (i : Int) ≤ p.position + k ∧ i < n := by
  induction k generalizing p with
  | zero =>
      have hrange := p.position_range
      refine ⟨?_, fun i => ?_⟩
      · simp only [walk]
        omega
      · simp only [walk, List.not_mem_nil, false_iff]
        omega
  | succ k ih =>
      obtain ⟨hpos, hmem⟩ := ih p.next
      have hnext := p.position_next
      have hrange := p.position_range
      refine ⟨?_, fun i => ?_⟩
      · simp only [walk]
        rw [hpos, hnext]
        omega
      · simp only [walk, List.mem_append]
        rw [hmem, mem_row, hnext]
        omega

theorem walk_prev (k : Nat) (p : Place n) :
    (walk prev k p).2.position = max (p.position - k) (-1) ∧
      ∀ i : Nat, i ∈ (walk prev k p).1 ↔ p.position - k ≤ i ∧ (i : Int) < p.position := by
  induction k generalizing p with
  | zero =>
      have hrange := p.position_range
      refine ⟨?_, fun i => ?_⟩
      · simp only [walk]
        omega
      · simp only [walk, List.not_mem_nil, false_iff]
        omega
  | succ k ih =>
      obtain ⟨hpos, hmem⟩ := ih p.prev
      have hprev := p.position_prev
      have hrange := p.position_range
      refine ⟨?_, fun i => ?_⟩
      · simp only [walk]
        rw [hpos, hprev]
        omega
      · simp only [walk, List.mem_append]
        rw [hmem, mem_row, hprev]
        omega

theorem walk_snd (step : Place n → Place n) (k : Nat) (p : Place n) : (walk step k p).2 = step^[k] p := by
  induction k generalizing p with
  | zero => rfl
  | succ k ih =>
      rw [walk, ih, Function.iterate_succ_apply]

theorem jump_next (k : Nat) (p : Place n) : (jump next k p).2.position = min (p.position + k) n := by
  rw [jump, ← walk_snd]
  exact (walk_next k p).1

theorem jump_prev (k : Nat) (p : Place n) : (jump prev k p).2.position = max (p.position - k) (-1) := by
  rw [jump, ← walk_snd]
  exact (walk_prev k p).1

theorem mem_jump (step : Place n → Place n) (k : Nat) (p : Place n) (i : Nat) :
    i ∈ (jump step k p).1 ↔ (jump step k p).2.position = i ∧ i < n :=
  mem_row _ _

end Place

open Place

/-- A count of rows in a direction; a negative one turns around, and none is the row the cursor is on. -/
def steps {n : Nat} (step back : Place n → Place n) (c : Int) (p : Place n) : List Nat × Place n :=
  if c > 0 then walk step c.toNat p
  else if c = 0 then (p.row, p)
  else walk back (-c).toNat p

/-- The rows met and the place reached, taking single steps. -/
def reference {n : Nat} (dir : FetchDir) (p : Place n) : List Nat × Place n :=
  match dir with
  | .forward none => walk next (n + 1) p
  | .forward (some c) => steps next prev c p
  | .backward none => walk prev (n + 1) p
  | .backward (some c) => steps prev next c p
  | .absolute c =>
    if c > 0 then jump next c.toNat .before
    else if c = 0 then ([], .before)
    else jump prev (-c).toNat .after
  | .relative c => if c ≥ 0 then jump next c.toNat p else jump prev (-c).toNat p
  | .first => jump next 1 .before
  | .last => jump prev 1 .after

/-! ## Agreement -/

def FetchDir.InRange : FetchDir → Prop
  | .forward (some c) => InI64 c
  | .backward (some c) => InI64 c
  | .absolute c => InI64 c
  | .relative c => InI64 c
  | _ => True

/-- No sum overflows, the position is that of the reference, and so are the rows of the window. -/
def Agrees {n : Nat} (dir : FetchDir) (p : Place n) : Prop :=
  (∀ z ∈ sums dir p.position n, InI64 z) ∧
    (cursorWindow dir p.position n).2.2 = (reference dir p).2.position ∧
    ∀ i, (cursorWindow dir p.position n).1 ≤ i ∧ i < (cursorWindow dir p.position n).2.1 ↔ i ∈ (reference dir p).1

/-- A count of rows forward that neither overflows nor stops on the last row. -/
def ForwardOk (n pos c : Int) : Prop := pos + 1 + c < 2 ^ 63 ∧ pos + c ≠ n - 1

/-- What FETCH gets right: counts forward that do not end on the last row, a count of zero only at the end it
moves to, and sums within the machine integers. -/
def Regular (dir : FetchDir) (n pos : Int) : Prop :=
  match dir with
  | .forward (some c) => if c > 0 then ForwardOk n pos c else if c = 0 then pos = n else -2 ^ 63 ≤ pos + c
  | .backward (some c) => if c > 0 then True else if c = 0 then pos = -1 else ForwardOk n pos (-c)
  | .relative c => -2 ^ 63 ≤ pos + c ∧ pos + c + 1 < 2 ^ 63
  | _ => True

/-! ## The window in terms of its bounds -/

theorem wrap64_of_range {z : Int} (h : InI64 z) : wrap64 z = z := by
  unfold InI64 at h
  exact Int.bmod_eq_of_le (by omega) (by omega)

theorem clamp_range (z : Int) (n : Nat) : 0 ≤ clamp z n ∧ clamp z n ≤ n := by
  unfold clamp
  omega

theorem mem_window {dir : FetchDir} (hne : dir ≠ .absolute 0) (pos : Int) (len : Nat) (i : Nat) :
    (cursorWindow dir pos len).1 ≤ i ∧ i < (cursorWindow dir pos len).2.1
      ↔ (bounds dir pos len).1 ≤ i ∧ (i : Int) < (bounds dir pos len).2.1 ∧ i < len := by
  unfold cursorWindow
  rw [if_neg hne]
  dsimp only
  unfold clamp
  split
  · dsimp only
    omega
  · dsimp only
    omega

section

variable {dir : FetchDir} {pos : Int} {len : Nat} {s e : Int}

/-- The position after a movement of each kind. -/
theorem position_fwd (hne : dir ≠ .absolute 0) (hb : bounds dir pos len = (s, e, .fwd)) :
    (cursorWindow dir pos len).2.2
      = if clamp s len ≥ clamp e len ∨ clamp e len = len then (len : Int) else clamp e len - 1 := by
  unfold cursorWindow
  rw [if_neg hne, hb]
  dsimp only
  by_cases hle : clamp s len ≥ clamp e len
  · rw [if_pos hle, if_pos (Or.inl hle)]
  · rw [if_neg hle]
    simp only [hle, false_or]

theorem position_bwd (hne : dir ≠ .absolute 0) (hb : bounds dir pos len = (s, e, .bwd)) :
    (cursorWindow dir pos len).2.2
      = if clamp s len ≥ clamp e len ∨ dir = .backward none ∨ s < 0 then -1 else clamp s len := by
  unfold cursorWindow
  rw [if_neg hne, hb]
  dsimp only
  by_cases hle : clamp s len ≥ clamp e len
  · rw [if_pos hle, if_pos (Or.inl hle)]
  · rw [if_neg hle]
    simp only [hle, false_or]

theorem position_at (hne : dir ≠ .absolute 0) (hb : bounds dir pos len = (s, e, .at_)) :
    (cursorWindow dir pos len).2.2
      = if clamp s len ≥ clamp e len then (if s < 0 then -1 else (len : Int)) else clamp e len - 1 := by
  unfold cursorWindow
  rw [if_neg hne, hb]
  dsimp only
  by_cases hle : clamp s len ≥ clamp e len
  · rw [if_pos hle, if_pos hle]
  · rw [if_neg hle, if_neg hle]

end

/-- The position stays between before the first row and after the last one. -/
theorem window_range (dir : FetchDir) (pos : Int) (len : Nat) :
    -1 ≤ (cursorWindow dir pos len).2.2 ∧ (cursorWindow dir pos len).2.2 ≤ len := by
  by_cases hne : dir = .absolute 0
  · unfold cursorWindow
    rw [if_pos hne]
    dsimp only
    omega
  · obtain ⟨⟨s, e, kind⟩, hb⟩ : ∃ b, bounds dir pos len = b := ⟨_, rfl⟩
    have hs := clamp_range s len
    have he := clamp_range e len
    cases kind with
    | fwd =>
        rw [position_fwd hne hb]
        split
        · omega
        · omega
    | bwd =>
        rw [position_bwd hne hb]
        split
        · omega
        · omega
    | at_ =>
        rw [position_at hne hb]
        split
        · split
          · omega
          · omega
        · omega

/-! ## Movements -/

section

variable {n : Nat} {p : Place n}

/-- A count forward whose sums are machine integers. -/
theorem agrees_forward {dir : FetchDir} {c : Int} (hc : 0 < c) (hne : dir ≠ .absolute 0)
    (hb : bounds dir p.position n = (p.position + 1, p.position + 1 + c, .fwd))
    (href : reference dir p = walk next c.toNat p) :
    ((cursorWindow dir p.position n).2.2 = (reference dir p).2.position ∧
      ∀ i, (cursorWindow dir p.position n).1 ≤ i ∧ i < (cursorWindow dir p.position n).2.1 ↔ i ∈ (reference dir p).1)
      ↔ p.position + c ≠ n - 1 := by
  have hrange := p.position_range
  obtain ⟨hpos, hmem⟩ := walk_next c.toNat p
  have hrows : ∀ i, (cursorWindow dir p.position n).1 ≤ i ∧ i < (cursorWindow dir p.position n).2.1
      ↔ i ∈ (reference dir p).1 := by
    intro i
    rw [mem_window hne, hb, href, hmem]
    dsimp only
    omega
  simp only [hrows, implies_true, and_true]
  rw [position_fwd hne hb, href, hpos]
  unfold clamp
  split
  · omega
  · omega

/-- A count backward whose sums are machine integers. -/
theorem agrees_backward {dir : FetchDir} {c : Int} (hc : 0 < c) (hne : dir ≠ .absolute 0) (hall : dir ≠ .backward none)
    (hb : bounds dir p.position n = (p.position - c, p.position, .bwd))
    (href : reference dir p = walk prev c.toNat p) :
    (cursorWindow dir p.position n).2.2 = (reference dir p).2.position ∧
      ∀ i, (cursorWindow dir p.position n).1 ≤ i ∧ i < (cursorWindow dir p.position n).2.1
        ↔ i ∈ (reference dir p).1 := by
  have hrange := p.position_range
  obtain ⟨hpos, hmem⟩ := walk_prev c.toNat p
  refine ⟨?_, fun i => ?_⟩
  · rw [position_bwd hne hb, href, hpos]
    simp only [hall, false_or]
    unfold clamp
    split
    · omega
    · omega
  · rw [mem_window hne, hb, href, hmem]
    dsimp only
    omega

/-- A single row at a place that the reference reaches. -/
theorem agrees_at {dir : FetchDir} {t : Int} (hne : dir ≠ .absolute 0)
    (hb : bounds dir p.position n = (t, t + 1, .at_))
    (hpos : (reference dir p).2.position = max (min t n) (-1))
    (hmem : ∀ i : Nat, i ∈ (reference dir p).1 ↔ (reference dir p).2.position = i ∧ i < n) :
    (cursorWindow dir p.position n).2.2 = (reference dir p).2.position ∧
      ∀ i, (cursorWindow dir p.position n).1 ≤ i ∧ i < (cursorWindow dir p.position n).2.1
        ↔ i ∈ (reference dir p).1 := by
  refine ⟨?_, fun i => ?_⟩
  · rw [position_at hne hb, hpos]
    unfold clamp
    split
    · split
      · omega
      · omega
    · omega
  · rw [mem_window hne, hb, hmem, hpos]
    dsimp only
    omega

/-! ## Which movements agree -/

theorem agrees_all_backward : Agrees (.backward none) p := by
  have hrange := p.position_range
  obtain ⟨hpos, hmem⟩ := walk_prev (n + 1) p
  have hb : bounds (.backward none) p.position n = (0, p.position, .bwd) := rfl
  refine ⟨fun z hz => (nomatch hz), ?_, fun i => ?_⟩
  · rw [position_bwd (by simp) hb, if_pos (Or.inr (Or.inl rfl)), reference, hpos]
    omega
  · rw [mem_window (by simp), hb, reference, hmem]
    dsimp only
    omega

/-- Counts of zero move to the end of the direction, and return nothing. -/
theorem agrees_zero {dir : FetchDir} (hne : dir ≠ .absolute 0) (t : Int)
    (hsums : ∀ z ∈ sums dir p.position n, InI64 z) (hrow : t = n ∨ t = -1)
    (hpos : (cursorWindow dir p.position n).2.2 = t)
    (hempty : (bounds dir p.position n).1 = (bounds dir p.position n).2.1)
    (href : reference dir p = (p.row, p)) : Agrees dir p ↔ p.position = t := by
  have hwindow : ∀ i, ¬((cursorWindow dir p.position n).1 ≤ i ∧ i < (cursorWindow dir p.position n).2.1) := by
    intro i
    rw [mem_window hne, hempty]
    omega
  unfold Agrees
  rw [hpos, href]
  dsimp only
  constructor
  · rintro ⟨-, h, -⟩
    exact h.symm
  · intro h
    refine ⟨hsums, h.symm, fun i => ?_⟩
    rw [mem_row]
    have hno := hwindow i
    omega

theorem agrees_single {dir : FetchDir} {t : Int} (hne : dir ≠ .absolute 0) (hsums : sums dir p.position n = [t, t + 1])
    (hb : bounds dir p.position n = (wrap64 t, wrap64 (wrap64 t + 1), .at_))
    (hpos : (reference dir p).2.position = max (min t n) (-1))
    (hmem : ∀ i : Nat, i ∈ (reference dir p).1 ↔ (reference dir p).2.position = i ∧ i < n) :
    Agrees dir p ↔ -2 ^ 63 ≤ t ∧ t + 1 < 2 ^ 63 := by
  unfold Agrees
  rw [hsums]
  simp only [List.forall_mem_cons, List.not_mem_nil, false_imp_iff, implies_true, and_true]
  by_cases hsum : InI64 t ∧ InI64 (t + 1)
  · obtain ⟨ht, ht'⟩ := hsum
    rw [wrap64_of_range ht, wrap64_of_range ht'] at hb
    have hagrees := agrees_at hne hb hpos hmem
    simp only [ht, ht', hagrees, true_and, true_iff, implies_true]
    unfold InI64 at ht ht'
    omega
  · simp only [hsum, false_and, false_iff]
    unfold InI64 at hsum
    omega

variable (hn : (n : Int) + 1 < 2 ^ 63)

include hn

theorem agrees_all_forward : Agrees (.forward none) p := by
  have hrange := p.position_range
  obtain ⟨hpos, hmem⟩ := walk_next (n + 1) p
  have hb : bounds (.forward none) p.position n = (p.position + 1, (n : Int), Kind.fwd) := by
    rw [bounds, wrap64_of_range (by unfold InI64; omega)]
  refine ⟨?_, ?_, fun i => ?_⟩
  · intro z hz
    rw [List.mem_singleton.1 hz]
    unfold InI64
    omega
  · rw [position_fwd (by simp) hb, reference, hpos]
    unfold clamp
    split
    · omega
    · omega
  · rw [mem_window (by simp), hb, reference, hmem]
    dsimp only
    omega

theorem agrees_count_forward {dir : FetchDir} {c : Int} (hc : 0 < c) (hne : dir ≠ .absolute 0)
    (hsums : sums dir p.position n = [p.position + 1, p.position + 1 + c])
    (hb : bounds dir p.position n = (wrap64 (p.position + 1), wrap64 (wrap64 (p.position + 1) + c), .fwd))
    (href : reference dir p = walk next c.toNat p) : Agrees dir p ↔ ForwardOk n p.position c := by
  have hrange := p.position_range
  have hfirst : InI64 (p.position + 1) := by
    unfold InI64
    omega
  unfold Agrees ForwardOk
  rw [hsums]
  simp only [List.forall_mem_cons, List.not_mem_nil, false_imp_iff, implies_true, and_true]
  by_cases hsum : InI64 (p.position + 1 + c)
  · rw [wrap64_of_range hfirst, wrap64_of_range hsum] at hb
    have hagrees := agrees_forward hc hne hb href
    rw [hagrees]
    unfold InI64 at hsum
    simp only [hfirst, hsum, true_and]
    unfold InI64
    omega
  · simp only [hsum, and_false, false_and, false_iff]
    unfold InI64 at hsum
    omega

theorem agrees_count_backward {dir : FetchDir} {c : Int} (hc : 0 < c) (hne : dir ≠ .absolute 0)
    (hall : dir ≠ .backward none) (hsums : sums dir p.position n = [p.position - c])
    (hb : bounds dir p.position n = (wrap64 (p.position - c), p.position, .bwd))
    (href : reference dir p = walk prev c.toNat p) : Agrees dir p ↔ -2 ^ 63 ≤ p.position - c := by
  have hrange := p.position_range
  unfold Agrees
  rw [hsums]
  simp only [List.forall_mem_cons, List.not_mem_nil, false_imp_iff, implies_true, and_true]
  by_cases hsum : InI64 (p.position - c)
  · rw [wrap64_of_range hsum] at hb
    have hagrees := agrees_backward hc hne hall hb href
    simp only [hsum, hagrees, true_and, true_iff, implies_true]
    unfold InI64 at hsum
    omega
  · simp only [hsum, false_and, false_iff]
    unfold InI64 at hsum
    omega

theorem agrees_forward_iff {c : Int} :
    Agrees (.forward (some c)) p ↔ Regular (.forward (some c)) n p.position := by
  have hrange := p.position_range
  unfold Regular
  dsimp only
  rcases Int.lt_trichotomy c 0 with hc | rfl | hc
  · have hagrees := @agrees_count_backward n p hn (.forward (some c)) (-c) (by omega) (by simp) (by simp)
      (by rw [sums, if_neg (by omega), Int.sub_neg]) (by rw [bounds, if_neg (by omega), Int.sub_neg])
      (by rw [reference, steps, if_neg (by omega), if_neg (by omega)])
    rw [hagrees, if_neg (by omega), if_neg (by omega), Int.sub_neg]
  · have hb : bounds (.forward (some 0)) p.position n = (p.position + 1, p.position + 1, .fwd) := by
      have hfirst : InI64 (p.position + 1) := by
        unfold InI64
        omega
      rw [bounds, if_pos (by omega), wrap64_of_range hfirst, Int.add_zero, wrap64_of_range hfirst]
    rw [if_neg (by omega), if_pos rfl]
    apply agrees_zero (by simp) n
    · intro z hz
      rw [sums, if_pos (by omega), Int.add_zero] at hz
      unfold InI64
      rcases List.mem_cons.1 hz with rfl | hz
      · omega
      · rw [List.mem_singleton.1 hz]
        omega
    · exact Or.inl rfl
    · rw [position_fwd (by simp) hb, if_pos (Or.inl (Int.le_refl _))]
    · rw [hb]
    · rw [reference, steps, if_neg (by omega), if_pos rfl]
  · rw [if_pos hc]
    exact agrees_count_forward hn hc (by simp) (by rw [sums, if_pos (by omega)]) (by rw [bounds, if_pos (by omega)])
      (by rw [reference, steps, if_pos hc])

theorem agrees_backward_iff {c : Int} (hr : InI64 c) :
    Agrees (.backward (some c)) p ↔ Regular (.backward (some c)) n p.position := by
  have hrange := p.position_range
  unfold Regular
  dsimp only
  rcases Int.lt_trichotomy c 0 with hc | rfl | hc
  · rw [if_neg (by omega), if_neg (by omega)]
    exact agrees_count_forward hn (Int.neg_pos_of_neg hc) (by simp)
      (by rw [sums, if_neg (by omega), Int.sub_eq_add_neg]) (by rw [bounds, if_neg (by omega), Int.sub_eq_add_neg])
      (by rw [reference, steps, if_neg (by omega), if_neg (by omega)])
  · have hb : bounds (.backward (some 0)) p.position n = (p.position, p.position, .bwd) := by
      rw [bounds, if_pos (by omega), Int.sub_zero, wrap64_of_range]
      unfold InI64
      omega
    rw [if_neg (by omega), if_pos rfl]
    apply agrees_zero (by simp) (-1)
    · intro z hz
      rw [sums, if_pos (by omega), Int.sub_zero] at hz
      rw [List.mem_singleton.1 hz]
      unfold InI64
      omega
    · exact Or.inr rfl
    · rw [position_bwd (by simp) hb, if_pos (Or.inl (Int.le_refl _))]
    · rw [hb]
    · rw [reference, steps, if_neg (by omega), if_pos rfl]
  · have hagrees := @agrees_count_backward n p hn (.backward (some c)) c hc (by simp) (by simp)
      (by rw [sums, if_pos (by omega)]) (by rw [bounds, if_pos (by omega)])
      (by rw [reference, steps, if_pos hc])
    rw [hagrees, if_pos hc]
    unfold InI64 at hr
    constructor
    · exact fun _ => trivial
    · omega

theorem agrees_absolute {c : Int} (hr : InI64 c) : Agrees (.absolute c) p := by
  rcases Int.lt_trichotomy c 0 with hc | rfl | hc
  · have hagrees := @agrees_single n p (.absolute c) (n + c) (by simp; omega)
      (by rw [sums, if_neg (by omega), if_neg (by omega)])
      (by rw [bounds, if_neg (by omega)])
      (by
        rw [reference, if_neg (by omega), if_neg (by omega), jump_prev, position_after]
        omega)
      (by
        rw [reference, if_neg (by omega), if_neg (by omega)]
        exact mem_jump _ _ _)
    rw [hagrees]
    unfold InI64 at hr
    omega
  · have hwindow : cursorWindow (.absolute 0) p.position n = (0, 0, -1) := by
      unfold cursorWindow
      rw [if_pos rfl]
    have href : reference (.absolute 0) p = ([], .before) := by
      rw [reference, if_neg (by omega), if_pos rfl]
    refine ⟨fun z hz => (nomatch hz), ?_, fun i => ?_⟩
    · rw [hwindow, href, position_before]
    · rw [hwindow, href]
      simp
  · have hagrees := @agrees_single n p (.absolute c) (c - 1) (by simp; omega)
      (by rw [sums, if_pos (by omega), Int.sub_add_cancel])
      (by rw [bounds, if_pos (by omega)])
      (by
        rw [reference, if_pos (by omega), jump_next, position_before]
        omega)
      (by
        rw [reference, if_pos (by omega)]
        exact mem_jump _ _ _)
    rw [hagrees]
    unfold InI64 at hr
    omega

theorem agrees_relative_iff {c : Int} : Agrees (.relative c) p ↔ Regular (.relative c) n p.position := by
  have hrange := p.position_range
  apply agrees_single (by simp)
  · rfl
  · rfl
  · by_cases hc : c ≥ 0
    · rw [reference, if_pos hc, jump_next]
      omega
    · rw [reference, if_neg hc, jump_prev]
      omega
  · by_cases hc : c ≥ 0
    · rw [reference, if_pos hc]
      exact mem_jump _ _ _
    · rw [reference, if_neg hc]
      exact mem_jump _ _ _

theorem agrees_first : Agrees .first p := by
  have hb : bounds .first p.position n = (0, 0 + 1, .at_) := rfl
  obtain ⟨hpos, hmem⟩ := agrees_at (by simp) hb
    (by
      rw [reference, jump_next, position_before]
      omega)
    (mem_jump _ _ _)
  exact ⟨fun z hz => (nomatch hz), hpos, hmem⟩

theorem agrees_last : Agrees .last p := by
  have hb : bounds .last p.position n = ((n : Int) - 1, (n : Int) - 1 + 1, .at_) := by
    rw [bounds, wrap64_of_range, Int.sub_add_cancel]
    unfold InI64
    omega
  obtain ⟨hpos, hmem⟩ := agrees_at (by simp) hb
    (by
      rw [reference, jump_prev, position_after]
      omega)
    (mem_jump _ _ _)
  refine ⟨fun z hz => ?_, hpos, hmem⟩
  rw [List.mem_singleton.1 hz]
  unfold InI64
  omega

theorem agrees_iff_regular {dir : FetchDir} (hr : dir.InRange) : Agrees dir p ↔ Regular dir n p.position := by
  cases dir with
  | forward count =>
      cases count with
      | none => exact iff_of_true (agrees_all_forward hn) trivial
      | some c => exact agrees_forward_iff hn
  | backward count =>
      cases count with
      | none => exact iff_of_true agrees_all_backward trivial
      | some c => exact agrees_backward_iff hn hr
  | absolute c => exact iff_of_true (agrees_absolute hn hr) trivial
  | relative c => exact agrees_relative_iff hn
  | first => exact iff_of_true (agrees_first hn) trivial
  | last => exact iff_of_true (agrees_last hn) trivial

end

/-! ## Runs -/

/-- The position after a sequence of movements. -/
def runPosition (n : Nat) (dirs : List FetchDir) (pos : Int) : Int :=
  dirs.foldl (fun pos dir => (cursorWindow dir pos n).2.2) pos

theorem runPosition_range {n : Nat} {pos : Int} (h : -1 ≤ pos ∧ pos ≤ n) (dirs : List FetchDir) :
    -1 ≤ runPosition n dirs pos ∧ runPosition n dirs pos ≤ n := by
  induction dirs generalizing pos with
  | nil => exact h
  | cons dir dirs ih => exact ih (window_range dir pos n)

/-- Step by step the cursor agrees with the reference, which stands at the same place. -/
def AgreesRun {n : Nat} : List FetchDir → Int → Place n → Prop
  | [], pos, p => pos = p.position
  | dir :: dirs, pos, p =>
    pos = p.position ∧ Agrees dir p ∧ AgreesRun dirs (cursorWindow dir pos n).2.2 (reference dir p).2

/-- Every movement of the run is one that FETCH gets right. -/
def RegularRun {n : Nat} : List FetchDir → Place n → Prop
  | [], _ => True
  | dir :: dirs, p => Regular dir n p.position ∧ RegularRun dirs (reference dir p).2

theorem agreesRun_iff {n : Nat} (hn : (n : Int) + 1 < 2 ^ 63) {dirs : List FetchDir}
    (hr : ∀ dir ∈ dirs, dir.InRange) (p : Place n) : AgreesRun dirs p.position p ↔ RegularRun dirs p := by
  induction dirs generalizing p with
  | nil => exact iff_of_true rfl trivial
  | cons dir dirs ih =>
      have hstep := @agrees_iff_regular n p hn dir (hr dir List.mem_cons_self)
      have hrest := ih (fun d hd => hr d (List.mem_cons_of_mem dir hd)) (reference dir p).2
      unfold AgreesRun RegularRun
      constructor
      · rintro ⟨-, hagrees, hrun⟩
        rw [hagrees.2.1] at hrun
        exact ⟨hstep.1 hagrees, hrest.1 hrun⟩
      · rintro ⟨hregular, hrun⟩
        have hagrees := hstep.2 hregular
        refine ⟨rfl, hagrees, ?_⟩
        rw [hagrees.2.1]
        exact hrest.2 hrun

/-- The cursor follows the reference exactly in regular movements, one at a time and in runs, and it is always
before the rows, on one of them or after them. -/
theorem cursor_refines (n : Nat) (hn : (n : Int) + 1 < 2 ^ 63) :
    (∀ (dir : FetchDir) (p : Place n), dir.InRange → (Agrees dir p ↔ Regular dir n p.position)) ∧
      (∀ dirs : List FetchDir, (∀ dir ∈ dirs, dir.InRange) →
        (AgreesRun dirs (-1) (before : Place n) ↔ RegularRun dirs (before : Place n))) ∧
      ∀ dirs : List FetchDir, -1 ≤ runPosition n dirs (-1) ∧ runPosition n dirs (-1) ≤ n :=
  ⟨fun _ _ hr => agrees_iff_regular hn hr, fun _ hr => agreesRun_iff hn hr .before,
    fun dirs => runPosition_range ⟨Int.le_refl _, by omega⟩ dirs⟩

theorem cursor_refines_three :
    (∀ (dir : FetchDir) (p : Place 3), dir.InRange → (Agrees dir p ↔ Regular dir (3 : Nat) p.position)) ∧
      (∀ dirs : List FetchDir, (∀ dir ∈ dirs, dir.InRange) →
        (AgreesRun dirs (-1) (before : Place 3) ↔ RegularRun dirs (before : Place 3))) ∧
      ∀ dirs : List FetchDir, -1 ≤ runPosition 3 dirs (-1) ∧ runPosition 3 dirs (-1) ≤ (3 : Nat) :=
  cursor_refines 3 (by decide)

/-- A count that ends on the last row leaves the cursor after it. -/
theorem fetch_last_overshoots : ¬Agrees (.forward (some 1)) (before : Place 1) := by
  rintro ⟨-, hpos, -⟩
  exact absurd hpos (by decide)

end Cursor
