-- SUMMARY: Comparisons that are total orders of some values, and how they are put together.
import Mathlib.Order.Compare
import Mathlib.Data.Ordering.Basic
import Mathlib.Data.List.Forall2
import Mathlib.Order.Nat

/-!
# Orderings

Results of comparing `a` with `b`, `b` with `c` and `a` with `c`. They fit together when the comparison is an order,
and so do comparisons by a first and then by a second criterion. A comparison may be an order of some values only:
of those of one kind, or of well-formed ones.
-/

namespace Orderings

variable {α : Type*} {x y z x' y' z' : Ordering}

theorem lt_ne_eq : Ordering.lt ≠ .eq := by decide

theorem gt_ne_eq : Ordering.gt ≠ .eq := by decide

theorem lt_ne_gt : Ordering.lt ≠ .gt := by decide

structure Consistent (x y z : Ordering) : Prop where
  left : x = .eq → z = y
  right : y = .eq → z = x
  same : x = y → z = x

namespace Consistent

theorem le_trans (h : Consistent x y z) (hx : x ≠ .gt) (hy : y ≠ .gt) : z ≠ .gt := by
  cases x with
  | gt => exact absurd rfl hx
  | eq =>
      rw [h.left rfl]
      exact hy
  | lt =>
      cases y with
      | gt => exact absurd rfl hy
      | eq =>
          rw [h.right rfl]
          exact hx
      | lt =>
          rw [h.same rfl]
          exact hx

theorem first (hx : x ≠ .eq) : Consistent x y x := ⟨fun h => absurd h hx, fun _ => rfl, fun _ => rfl⟩

theorem second (hy : y ≠ .eq) : Consistent x y y := ⟨fun _ => rfl, fun h => absurd h hy, fun h => h.symm⟩

theorem of_ne (hx : x ≠ .eq) (hy : y ≠ .eq) (hne : x ≠ y) : Consistent x y z :=
  ⟨fun h => absurd h hx, fun h => absurd h hy, fun h => absurd h hne⟩

theorem of_eq : Consistent .eq .eq .eq := ⟨fun _ => rfl, fun _ => rfl, fun _ => rfl⟩

theorem comm (h : Consistent x y z) : Consistent y x z :=
  ⟨h.right, h.left, fun heq => (h.same heq.symm).trans heq.symm⟩

/-- The first criterion decides, and where it does not the second. -/
theorem andThen (h : Consistent x y z) (h' : x = .eq → y = .eq → Consistent x' y' z') :
    Consistent (x.then x') (y.then y') (z.then z') := by
  obtain ⟨hl, hr, hs⟩ := h
  cases x with
  | eq =>
      rw [hl rfl]
      cases y with
      | eq => exact h' rfl rfl
      | lt => exact second lt_ne_eq
      | gt => exact second gt_ne_eq
  | lt =>
      cases y with
      | eq =>
          rw [hr rfl]
          exact first lt_ne_eq
      | lt =>
          rw [hs rfl]
          exact first lt_ne_eq
      | gt => exact of_ne lt_ne_eq gt_ne_eq lt_ne_gt
  | gt =>
      cases y with
      | eq =>
          rw [hr rfl]
          exact first gt_ne_eq
      | lt => exact of_ne gt_ne_eq lt_ne_eq lt_ne_gt.symm
      | gt =>
          rw [hs rfl]
          exact first gt_ne_eq

theorem of_trans {cmp : α → α → Ordering} [Std.TransCmp cmp] (a b c : α) :
    Consistent (cmp a b) (cmp b c) (cmp a c) := by
  refine ⟨Std.TransCmp.congr_left, fun h => (Std.TransCmp.congr_right h).symm, fun h => ?_⟩
  cases hab : cmp a b with
  | lt => exact Std.TransCmp.lt_trans hab (h ▸ hab)
  | eq => exact Std.TransCmp.eq_trans hab (h ▸ hab)
  | gt => exact Std.TransCmp.gt_trans hab (h ▸ hab)

end Consistent

/-! ## Lawful comparisons -/

/-- A total order of the values in `P`, up to those that compare as equal. -/
structure LawfulOn {α : Type*} (P : α → Prop) (cmp : α → α → Ordering) : Prop where
  refl : ∀ {a}, P a → cmp a a = .eq
  swap : ∀ {a b}, P a → P b → cmp b a = (cmp a b).swap
  consistent : ∀ {a b c}, P a → P b → P c → Consistent (cmp a b) (cmp b c) (cmp a c)

/-- A missing value is the least. -/
def noneFirst {α : Type*} (cmp : α → α → Ordering) : Option α → Option α → Ordering
  | none, none => .eq
  | none, some _ => .lt
  | some _, none => .gt
  | some a, some b => cmp a b

/-- A missing value is the greatest. -/
def noneLast {α : Type*} (cmp : α → α → Ordering) : Option α → Option α → Ordering
  | none, none => .eq
  | none, some _ => .gt
  | some _, none => .lt
  | some a, some b => cmp a b

/-- By the first place that differs, and then by length. -/
@[grind =]
def lexCmp {α : Type*} (cmp : α → α → Ordering) : List α → List α → Ordering
  | [], [] => .eq
  | [], _ :: _ => .lt
  | _ :: _, [] => .gt
  | a :: x, b :: y => (cmp a b).then (lexCmp cmp x y)

/-- The value at each place is in the set of the place. -/
def Placed {α : Type*} : (Nat → α → Prop) → List α → Prop
  | _, [] => True
  | P, a :: x => P 0 a ∧ Placed (fun i => P (i + 1)) x

theorem compare_succ (m n : Nat) : compare (m + 1) (n + 1) = compare m n := by
  rcases lt_trichotomy m n with h | h | h
  · rw [compare_lt_iff_lt.2 h, compare_lt_iff_lt.2 (Nat.succ_lt_succ h)]
  · rw [h, compare_eq_iff_eq.2 rfl, compare_eq_iff_eq.2 rfl]
  · rw [compare_gt_iff_gt.2 h, compare_gt_iff_gt.2 (Nat.succ_lt_succ h)]

/-- The first result that is not equality, and the lengths if there is none. -/
theorem find_eq_lexCmp {α : Type*} (cmp : α → α → Ordering) (x y : List α) :
    (((x.zip y).map fun p => cmp p.1 p.2).find? (· ≠ .eq)).getD (compare x.length y.length) = lexCmp cmp x y := by
  induction x generalizing y with
  | nil =>
      cases y with
      | nil => rfl
      | cons b y => exact compare_lt_iff_lt.2 (Nat.succ_pos _)
  | cons a x ih =>
      cases y with
      | nil => exact compare_gt_iff_gt.2 (Nat.succ_pos _)
      | cons b y =>
          unfold lexCmp
          rw [List.zip_cons_cons, List.map_cons, List.find?_cons, List.length_cons, List.length_cons, compare_succ, ← ih]
          cases cmp a b with
          | lt => rfl
          | eq => rfl
          | gt => rfl

/-- Lists of one length are equal where all their places are. -/
theorem lexCmp_eq_iff {α : Type*} {cmp : α → α → Ordering} {R : α → α → Prop} {P : Nat → α → Prop}
    (h : ∀ i {a b}, P i a → P i b → (cmp a b = .eq ↔ R a b)) {x y : List α} (hx : Placed P x) (hy : Placed P y) :
    lexCmp cmp x y = .eq ↔ List.Forall₂ R x y := by
  induction x generalizing P y with
  | nil =>
      cases y with
      | nil => exact ⟨fun _ => .nil, fun _ => rfl⟩
      | cons b y => exact ⟨fun h => absurd h lt_ne_eq, fun h => by cases h⟩
  | cons a x ih =>
      cases y with
      | nil => exact ⟨fun h => absurd h gt_ne_eq, fun h => by cases h⟩
      | cons b y =>
          unfold lexCmp
          rw [Ordering.then_eq_eq, h 0 hx.1 hy.1, ih (fun i => h (i + 1)) hx.2 hy.2, List.forall₂_cons]

theorem placed_const {α : Type*} {P : α → Prop} {x : List α} (h : ∀ a ∈ x, P a) : Placed (fun _ => P) x := by
  induction x with
  | nil => trivial
  | cons a x ih => exact ⟨h a List.mem_cons_self, ih fun b hb => h b (List.mem_cons_of_mem _ hb)⟩

namespace LawfulOn

variable {α β : Type*} {P : α → Prop} {Q : β → Prop} {cmp cmp' : α → α → Ordering}

theorem of_transCmp [Std.TransCmp cmp] : LawfulOn (fun _ => True) cmp where
  refl _ := Std.ReflCmp.compare_self
  swap _ _ := Std.OrientedCmp.eq_swap
  consistent _ _ _ := Consistent.of_trans _ _ _

theorem congr (hl : LawfulOn P cmp) (h : ∀ {a b}, P a → P b → cmp' a b = cmp a b) : LawfulOn P cmp' where
  refl ha := by rw [h ha ha, hl.refl ha]
  swap ha hb := by rw [h hb ha, h ha hb, hl.swap ha hb]
  consistent ha hb hc := by
    rw [h ha hb, h hb hc, h ha hc]
    exact hl.consistent ha hb hc

theorem comap {cmp : β → β → Ordering} (hl : LawfulOn Q cmp) (f : α → β) (h : ∀ {a}, P a → Q (f a)) :
    LawfulOn P fun a b => cmp (f a) (f b) where
  refl ha := hl.refl (h ha)
  swap ha hb := hl.swap (h ha) (h hb)
  consistent ha hb hc := hl.consistent (h ha) (h hb) (h hc)

theorem of_key [LinearOrder β] (f : α → β) (h : ∀ {a b}, P a → P b → cmp a b = compare (f a) (f b)) :
    LawfulOn P cmp :=
  ((of_transCmp ).comap f fun _ => trivial).congr h

/-- What lies in the image of an order is ordered. -/
theorem of_image (f : β → α) (hl : LawfulOn Q fun x y => cmp (f x) (f y)) (h : ∀ {a}, P a → ∃ x, a = f x ∧ Q x) :
    LawfulOn P cmp where
  refl ha := by
    obtain ⟨x, rfl, hx⟩ := h ha
    exact hl.refl hx
  swap ha hb := by
    obtain ⟨x, rfl, hx⟩ := h ha
    obtain ⟨y, rfl, hy⟩ := h hb
    exact hl.swap hx hy
  consistent ha hb hc := by
    obtain ⟨x, rfl, hx⟩ := h ha
    obtain ⟨y, rfl, hy⟩ := h hb
    obtain ⟨z, rfl, hz⟩ := h hc
    exact hl.consistent hx hy hz

theorem of_range (f : β → α) (hl : LawfulOn (fun _ => True) fun x y => cmp (f x) (f y))
    (h : ∀ {a}, P a → ∃ x, a = f x) : LawfulOn P cmp :=
  hl.of_image f fun ha => (h ha).imp fun _ heq => ⟨heq, trivial⟩

theorem andThen (hl : LawfulOn P cmp) (hl' : LawfulOn P cmp') : LawfulOn P fun a b => (cmp a b).then (cmp' a b) where
  refl ha := by rw [hl.refl ha, hl'.refl ha, Ordering.eq_then]
  swap ha hb := by rw [hl.swap ha hb, hl'.swap ha hb, Ordering.swap_then]
  consistent ha hb hc := (hl.consistent ha hb hc).andThen fun _ _ => hl'.consistent ha hb hc

/-- The other way round. -/
theorem dual (hl : LawfulOn P cmp) : LawfulOn P fun a b => cmp b a where
  refl ha := hl.refl ha
  swap ha hb := hl.swap hb ha
  consistent ha hb hc := (hl.consistent hc hb ha).comm

theorem noneFirst (hl : LawfulOn P cmp) : LawfulOn (fun o => ∀ a ∈ o, P a) (noneFirst cmp) where
  refl {a} ha := by
    cases a with
    | none => rfl
    | some a => exact hl.refl (ha a rfl)
  swap {a b} ha hb := by
    cases a with
    | none =>
        cases b with
        | none => rfl
        | some b => rfl
    | some a =>
        cases b with
        | none => rfl
        | some b => exact hl.swap (ha a rfl) (hb b rfl)
  consistent {a b c} ha hb hc := by
    cases a with
    | none =>
        cases b with
        | none =>
            cases c with
            | none => exact Consistent.of_eq
            | some c => exact Consistent.second lt_ne_eq
        | some b =>
            cases c with
            | none => exact Consistent.of_ne lt_ne_eq gt_ne_eq lt_ne_gt
            | some c => exact ⟨fun h => absurd h lt_ne_eq, fun _ => rfl, fun _ => rfl⟩
    | some a =>
        cases b with
        | none =>
            cases c with
            | none => exact Consistent.first gt_ne_eq
            | some c => exact Consistent.of_ne gt_ne_eq lt_ne_eq lt_ne_gt.symm
        | some b =>
            cases c with
            | none => exact ⟨fun _ => rfl, fun h => absurd h gt_ne_eq, fun h => h.symm⟩
            | some c => exact hl.consistent (ha a rfl) (hb b rfl) (hc c rfl)

theorem noneLast (hl : LawfulOn P cmp) : LawfulOn (fun o => ∀ a ∈ o, P a) (noneLast cmp) := by
  refine hl.dual.noneFirst.dual.congr fun {a b} _ _ => ?_
  cases a with
  | none =>
      cases b with
      | none => rfl
      | some b => rfl
  | some a =>
      cases b with
      | none => rfl
      | some b => rfl

/-- Lists whose places are each ordered are ordered by their first difference. -/
theorem lex {P : Nat → α → Prop} (hl : ∀ i, LawfulOn (P i) cmp) : LawfulOn (Placed P) (lexCmp cmp) where
  refl {x} hx := by
    induction x generalizing P with
    | nil => rfl
    | cons a x ih =>
        unfold lexCmp
        rw [(hl 0).refl hx.1, ih (fun i => hl (i + 1)) hx.2, Ordering.eq_then]
  swap {x y} hx hy := by
    induction x generalizing P y with
    | nil =>
        cases y with
        | nil => rfl
        | cons b y => rfl
    | cons a x ih =>
        cases y with
        | nil => rfl
        | cons b y =>
            unfold lexCmp
            rw [(hl 0).swap hx.1 hy.1, ih (fun i => hl (i + 1)) hx.2 hy.2, Ordering.swap_then]
  consistent {x y z} hx hy hz := by
    induction x generalizing P y z with
    | nil =>
        cases y with
        | nil =>
            cases z with
            | nil => exact Consistent.of_eq
            | cons c z => exact Consistent.second lt_ne_eq
        | cons b y =>
            cases z with
            | nil => exact Consistent.of_ne lt_ne_eq gt_ne_eq lt_ne_gt
            | cons c z => exact ⟨fun h => absurd h lt_ne_eq, fun _ => rfl, fun _ => rfl⟩
    | cons a x ih =>
        cases y with
        | nil =>
            cases z with
            | nil => exact Consistent.first gt_ne_eq
            | cons c z => exact Consistent.of_ne gt_ne_eq lt_ne_eq lt_ne_gt.symm
        | cons b y =>
            cases z with
            | nil => exact ⟨fun _ => rfl, fun h => absurd h gt_ne_eq, fun h => h.symm⟩
            | cons c z =>
                exact ((hl 0).consistent hx.1 hy.1 hz.1).andThen fun _ _ =>
                  ih (fun i => hl (i + 1)) hx.2 hy.2 hz.2

end LawfulOn

end Orderings
