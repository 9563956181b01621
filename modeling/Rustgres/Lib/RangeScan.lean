-- SUMMARY: Scans of a sorted map that start at a key and stop at the end of a range.
import Rustgres.Lib.Orderings

/-!
# Range Scans

The keys of a sorted map are lists, compared by their first difference. A scan for the keys with some first parts, and a
next part within a range, starts at the least such key and stops at the first key behind the range. It finds all of them.
-/

open Orderings

namespace RangeScan

variable {α β : Type*}

/-! ## Scans -/

/-- What a scan does at a key. -/
inductive Step where
  | take
  | skip
  | stop
deriving DecidableEq

/-- The values at the keys that are taken, up to the first stop. -/
def scan (f : α → Step) : List (α × List β) → List β
  | [] => []
  | (key, values) :: entries =>
      match f key with
      | .take => values ++ scan f entries
      | .skip => scan f entries
      | .stop => []

/-- A scan finds everything if nothing is behind a stop. -/
theorem scan_eq_filter {f : α → Step} {entries : List (α × List β)}
    (h : entries.Pairwise fun a b => f a.1 = .stop → f b.1 ≠ .take) :
    scan f entries = (entries.filter fun e => f e.1 = .take).flatMap Prod.snd := by
  induction entries with
  | nil => rfl
  | cons e entries ih =>
      obtain ⟨hstop, hrest⟩ := List.pairwise_cons.1 h
      obtain ⟨key, values⟩ := e
      unfold scan
      cases hf : f key with
      | take =>
          rw [List.filter_cons_of_pos (by simpa using hf), List.flatMap_cons, ih hrest]
      | skip =>
          rw [List.filter_cons_of_neg (by simp [hf]), ih hrest]
      | stop =>
          have hnone : (entries.filter fun e => f e.1 = .take) = [] :=
            List.filter_eq_nil_iff.2 fun e he => by simpa using hstop e he hf
          rw [List.filter_cons_of_neg (by simp [hf]), hnone]
          rfl

/-! ## Ranges -/

/-- The first parts of a key, and the range of the next one: its ends, and whether they belong to it. -/
structure Bounds (α : Type*) where
  parts : List α
  lo : Option (α × Bool)
  hi : Option (α × Bool)
deriving DecidableEq

/-- The keys have the order of their first difference, and none stands twice. -/
def Ascending (cmp : α → α → Ordering) (entries : List (List α × β)) : Prop :=
  entries.Pairwise fun a b => lexCmp cmp a.1 b.1 = .lt

section

variable (cmp : α → α → Ordering)

@[grind =]
def startsWith : List α → List α → Bool
  | [], _ => true
  | _ :: _, [] => false
  | a :: parts, b :: key => cmp b a = .eq && startsWith parts key

def aboveLo (lo : Option (α × Bool)) (c : α) : Bool :=
  match lo with
  | none => true
  | some (v, inclusive) =>
      match cmp c v with
      | .lt => false
      | .eq => inclusive
      | .gt => true

def belowHi (hi : Option (α × Bool)) (c : α) : Bool :=
  match hi with
  | none => true
  | some (v, inclusive) =>
      match cmp c v with
      | .gt => false
      | .eq => inclusive
      | .lt => true

variable {cmp}

theorem aboveLo_some {v c : α} {inclusive : Bool} :
    aboveLo cmp (some (v, inclusive)) c = true ↔ cmp c v = .gt ∨ inclusive = true ∧ cmp c v = .eq := by
  dsimp only [aboveLo]
  cases h : cmp c v <;> simp

theorem belowHi_some {v c : α} {inclusive : Bool} :
    belowHi cmp (some (v, inclusive)) c = true ↔ cmp c v = .lt ∨ inclusive = true ∧ cmp c v = .eq := by
  dsimp only [belowHi]
  cases h : cmp c v <;> simp

variable (cmp)

namespace Bounds

variable (b : Bounds α)

def hasRange : Bool := b.lo.isSome || b.hi.isSome

/-- The least key of the range. -/
def start : List α := b.parts ++ (b.lo.map Prod.fst).toList

/-- A key without the next part ends the scan. -/
def step (key : List α) : Step :=
  if startsWith cmp b.parts key then
    if b.hasRange then
      match key[b.parts.length]? with
      | none => .stop
      | some c => if aboveLo cmp b.lo c then if belowHi cmp b.hi c then .take else .stop else .skip
    else .take
  else .stop

/-- The entries from the least key on, up to the end of the range. -/
def find (entries : List (List α × List β)) : List β :=
  scan (b.step cmp) (entries.dropWhile fun e => lexCmp cmp e.1 b.start = .lt)

end Bounds

end

/-! ## The order of the keys -/

variable {cmp : α → α → Ordering} (hl : LawfulOn (fun _ => True) cmp)
include hl

omit hl in
theorem Bounds.step_eq_take {b : Bounds α} {key : List α} :
    b.step cmp key = .take ↔ startsWith cmp b.parts key = true ∧ (b.hasRange = true →
      ∃ c, key[b.parts.length]? = some c ∧ aboveLo cmp b.lo c = true ∧ belowHi cmp b.hi c = true) := by
  unfold step
  cases startsWith cmp b.parts key with
  | false => simp
  | true =>
      cases b.hasRange with
      | false => simp
      | true =>
          cases key[b.parts.length]? with
          | none => simp
          | some c =>
              cases ha : aboveLo cmp b.lo c <;> cases hb : belowHi cmp b.hi c <;> simp [ha, hb]

theorem gt_of_lt {a c : α} (h : cmp a c = .lt) : cmp c a = .gt := by
  rw [hl.swap trivial trivial, h]
  rfl

theorem lt_of_eq_of_lt {a c c' : α} (h : cmp c a = .eq) (h' : cmp c c' = .lt) : cmp a c' = .lt := by
  have hac : cmp a c = .eq := by
    rw [hl.swap trivial trivial, h]
    rfl
  exact ((hl.consistent (a := a) (b := c) (c := c') trivial trivial trivial).left hac).trans h'

theorem lt_of_gt_of_ne {a c c' : α} (h : cmp c a = .gt) (h' : cmp c c' ≠ .gt) : cmp a c' = .lt := by
  have hac : cmp a c = .lt := by
    rw [hl.swap trivial trivial, h]
    rfl
  have hcons := hl.consistent (a := a) (b := c) (c := c') trivial trivial trivial
  cases hcc : cmp c c' with
  | lt => exact (hcons.same (hac.trans hcc.symm)).trans hac
  | eq => exact (hcons.right hcc).trans hac
  | gt => exact absurd hcc h'

/-- Behind a key that is past the first parts there is none that has them. -/
theorem startsWith_behind {parts rest key key' : List α} (hstart : lexCmp cmp key (parts ++ rest) ≠ .lt)
    (hnot : startsWith cmp parts key = false) (hlt : lexCmp cmp key key' = .lt) :
    startsWith cmp parts key' = false := by
  induction parts generalizing key key' with
  | nil => cases hnot
  | cons a parts ih =>
      cases key with
      | nil => exact absurd rfl hstart
      | cons c key =>
          cases key' with
          | nil => cases hlt
          | cons c' key' =>
              have hfirst : cmp a c' = .lt → startsWith cmp (a :: parts) (c' :: key') = false := fun h => by
                simp [startsWith, gt_of_lt hl h]
              rw [List.cons_append] at hstart
              unfold lexCmp at hstart hlt
              cases hca : cmp c a with
              | lt => exact absurd (by rw [hca]; rfl) hstart
              | gt =>
                  refine hfirst (lt_of_gt_of_ne hl hca fun hcc => ?_)
                  rw [hcc] at hlt
                  cases hlt
              | eq =>
                  cases hcc : cmp c c' with
                  | lt => exact hfirst (lt_of_eq_of_lt hl hca hcc)
                  | gt =>
                      rw [hcc] at hlt
                      cases hlt
                  | eq =>
                      rw [hca] at hstart
                      rw [hcc] at hlt
                      have hnot' : startsWith cmp parts key = false := by simpa [startsWith, hca] using hnot
                      have hrest := ih hstart hnot' hlt
                      simp [startsWith, hrest]

/-- Under the same first parts the next part ascends. -/
theorem part_behind {parts key key' : List α} {c c' : α} (h : startsWith cmp parts key = true)
    (h' : startsWith cmp parts key' = true) (hlt : lexCmp cmp key key' = .lt)
    (hc : key[parts.length]? = some c) (hc' : key'[parts.length]? = some c') : cmp c c' ≠ .gt := by
  induction parts generalizing key key' with
  | nil =>
      cases key with
      | nil => cases hc
      | cons d key =>
          cases key' with
          | nil => cases hc'
          | cons d' key' =>
              cases hc
              cases hc'
              intro hgt
              unfold lexCmp at hlt
              rw [hgt] at hlt
              cases hlt
  | cons a parts ih =>
      cases key with
      | nil => cases h
      | cons d key =>
          cases key' with
          | nil => cases h'
          | cons d' key' =>
              simp only [startsWith, Bool.and_eq_true, decide_eq_true_eq] at h h'
              have hdd : cmp d d' = .eq := by
                have hcons := hl.consistent (a := d) (b := a) (c := d') trivial trivial trivial
                rw [hcons.left h.1, hl.swap trivial trivial, h'.1]
                rfl
              unfold lexCmp at hlt
              rw [hdd] at hlt
              exact ih h.2 h'.2 hlt hc hc'

omit hl in
/-- A key before the least one has not the parts, or is below the range. -/
theorem below_start {parts : List α} {lo : Option (α × Bool)} {key : List α}
    (hlt : lexCmp cmp key (parts ++ (lo.map Prod.fst).toList) = .lt) (h : startsWith cmp parts key = true) {c : α}
    (hc : key[parts.length]? = some c) : aboveLo cmp lo c = false := by
  induction parts generalizing key with
  | nil =>
      cases key with
      | nil => cases hc
      | cons d key =>
          obtain rfl : d = c := Option.some.inj hc
          cases lo with
          | none => cases hlt
          | some lo =>
              obtain ⟨v, inclusive⟩ := lo
              have hthen : (cmp d v).then (lexCmp cmp key []) = .lt := hlt
              have hdv : cmp d v = .lt := by
                cases hdv : cmp d v with
                | lt => rfl
                | gt =>
                    rw [hdv] at hthen
                    cases hthen
                | eq =>
                    rw [hdv] at hthen
                    cases key with
                    | nil => cases hthen
                    | cons e key => cases hthen
              simp [aboveLo, hdv]
  | cons a parts ih =>
      cases key with
      | nil => cases h
      | cons d key =>
          simp only [startsWith, Bool.and_eq_true, decide_eq_true_eq] at h
          rw [List.cons_append] at hlt
          unfold lexCmp at hlt
          rw [h.1] at hlt
          exact ih hlt h.2 hc

omit hl in
theorem not_startsWith_below {parts key : List α} (hlt : lexCmp cmp key parts = .lt) :
    startsWith cmp parts key = false := by
  induction parts generalizing key with
  | nil =>
      cases key with
      | nil => cases hlt
      | cons d key => cases hlt
  | cons a parts ih =>
      cases key with
      | nil => rfl
      | cons d key =>
          unfold lexCmp at hlt
          cases hda : cmp d a with
          | lt => simp [startsWith, hda]
          | gt => simp [startsWith, hda]
          | eq =>
              rw [hda] at hlt
              simp [startsWith, ih hlt]

theorem belowHi_behind {hi : Option (α × Bool)} {c c' : α} (h : belowHi cmp hi c = false) (hcc : cmp c c' ≠ .gt) :
    belowHi cmp hi c' = false := by
  cases hi with
  | none => cases h
  | some hi =>
      obtain ⟨v, inclusive⟩ := hi
      have hcons := hl.consistent (a := c) (b := c') (c := v) trivial trivial trivial
      dsimp only [belowHi] at h ⊢
      cases hcv : cmp c' v with
      | gt => rfl
      | eq =>
          cases hcc' : cmp c c' with
          | gt => exact absurd hcc' hcc
          | eq =>
              rw [hcons.left hcc', hcv] at h
              exact h
          | lt =>
              rw [hcons.right hcv, hcc'] at h
              cases h
      | lt =>
          have hlt : cmp c v = .lt := by
            cases hcc' : cmp c c' with
            | gt => exact absurd hcc' hcc
            | eq => exact (hcons.left hcc').trans hcv
            | lt => exact (hcons.same (hcc'.trans hcv.symm)).trans hcc'
          rw [hlt] at h
          cases h

/-- Behind a stop there is nothing to take. -/
theorem Bounds.step_behind {b : Bounds α} {key key' : List α} (hstart : lexCmp cmp key b.start ≠ .lt)
    (hlen : b.hasRange = true → b.parts.length < key.length) (hlt : lexCmp cmp key key' = .lt)
    (hstop : b.step cmp key = .stop) : b.step cmp key' ≠ .take := by
  intro htake
  obtain ⟨hparts', hrange'⟩ := step_eq_take.1 htake
  cases hparts : startsWith cmp b.parts key with
  | false =>
      rw [startsWith_behind hl hstart hparts hlt] at hparts'
      cases hparts'
  | true =>
      unfold step at hstop
      rw [if_pos hparts] at hstop
      split at hstop
      · rename_i hrange
        obtain ⟨c', hc', -, hhi'⟩ := hrange' hrange
        obtain ⟨c, hc⟩ : ∃ c, key[b.parts.length]? = some c := ⟨_, List.getElem?_eq_getElem (hlen hrange)⟩
        rw [hc] at hstop
        dsimp only at hstop
        split at hstop
        · split at hstop
          · cases hstop
          · rename_i hhi
            rw [belowHi_behind hl (by simpa using hhi) (part_behind hl hparts hparts' hlt hc hc')] at hhi'
            cases hhi'
        · cases hstop
      · cases hstop

omit hl in
theorem Bounds.not_take_below {b : Bounds α} {key : List α} (hlt : lexCmp cmp key b.start = .lt) :
    b.step cmp key ≠ .take := by
  intro htake
  obtain ⟨hparts, hrange⟩ := step_eq_take.1 htake
  cases hlo : b.lo with
  | none =>
      have hbelow : startsWith cmp b.parts key = false := by
        refine not_startsWith_below ?_
        rw [start, hlo, Option.map_none, Option.toList_none, List.append_nil] at hlt
        exact hlt
      rw [hbelow] at hparts
      cases hparts
  | some lo =>
      obtain ⟨c, hc, habove, -⟩ := hrange (by simp [hasRange, hlo])
      rw [below_start hlt hparts hc] at habove
      cases habove

/-- The first entries go, up to the first that is not below. -/
theorem dropWhile_eq_filter {entries : List (List α × β)} (h : Ascending cmp entries) (start : List α) :
    (entries.dropWhile fun e => lexCmp cmp e.1 start = .lt) = entries.filter fun e => lexCmp cmp e.1 start ≠ .lt := by
  have hlex : LawfulOn (Placed fun _ _ => True) (lexCmp cmp) := LawfulOn.lex fun _ => hl
  have hall : ∀ key : List α, Placed (fun _ _ => True) key := fun key => placed_const fun _ _ => trivial
  induction entries with
  | nil => rfl
  | cons e entries ih =>
      obtain ⟨hlt, hrest⟩ := List.pairwise_cons.1 h
      by_cases he : lexCmp cmp e.1 start = .lt
      · rw [List.dropWhile_cons_of_pos (by simpa using he), List.filter_cons_of_neg (by simpa using he), ih hrest]
      · rw [List.dropWhile_cons_of_neg (by simpa using he), List.filter_cons_of_pos (by simpa using he)]
        refine congrArg (e :: ·) (List.filter_eq_self.2 fun e' he' => ?_).symm
        refine decide_eq_true fun hlt' => he ?_
        have hcons := hlex.consistent (hall e.1) (hall e'.1) (hall start)
        exact (hcons.same ((hlt e' he').trans hlt'.symm)).trans (hlt e' he')

/-- The scan of a range finds the keys of the range. -/
theorem Bounds.find_eq_filter {b : Bounds α} {entries : List (List α × List β)} (h : Ascending cmp entries)
    (hlen : ∀ e ∈ entries, b.hasRange = true → b.parts.length < e.1.length) :
    b.find cmp entries = (entries.filter fun e => b.step cmp e.1 = .take).flatMap Prod.snd := by
  unfold find
  rw [dropWhile_eq_filter hl h]
  have hpair : (entries.filter fun e => lexCmp cmp e.1 b.start ≠ .lt).Pairwise fun x y =>
      b.step cmp x.1 = .stop → b.step cmp y.1 ≠ .take := by
    refine (h.filter _).imp_of_mem fun {x y} hx _ hlt hstop => ?_
    obtain ⟨hx, hstart⟩ := List.mem_filter.1 hx
    exact step_behind hl (of_decide_eq_true hstart) (hlen x hx) hlt hstop
  rw [scan_eq_filter hpair, List.filter_filter]
  refine congrArg (List.flatMap Prod.snd) (List.filter_congr fun e _ => ?_)
  by_cases htake : b.step cmp e.1 = .take
  · have hstart : lexCmp cmp e.1 b.start ≠ .lt := fun hlt => not_take_below hlt htake
    simp [htake, hstart]
  · simp [htake]

end RangeScan
