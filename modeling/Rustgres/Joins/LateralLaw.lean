-- SUMMARY: When a join with a LATERAL side that does not look at the left row is the ordinary join.
import Mathlib.Algebra.Order.BigOperators.Group.List
import Mathlib.Data.List.Perm.Basic
import Rustgres.Joins.Loops
import Rustgres.Lib.Loops

/-!
# Joins that Need not Be Lateral

Both loops keep the same pairs. The ordinary one looks for right rows that no left row matched, the lateral one for
those that a left row did not match, once for each left row.
-/

namespace Joins

variable {E V : Type}

/-! ## Loops over conditions without errors -/

section

variable (keep : QRow V → QRow V → Except ExecError Bool) (combine : QRow V → QRow V → QRow V)

/-- The value of a condition; what an error stops does not matter. -/
def kept (l r : QRow V) : Bool :=
  match keep l r with
  | .ok k => k
  | .error _ => false

/-- The conditions of a left row in turn, up to the first error. -/
def checkRow (rrows : List (QRow V)) (l : QRow V) : Except ExecError Unit :=
  rrows.forM fun r => (keep l r).map fun _ => ()

/-- The conditions of all pairs in turn. -/
def checkPairs (lrows rrows : List (QRow V)) : Except ExecError Unit := lrows.forM (checkRow keep rrows)

/-- The rows of a left row besides the unmatched right rows. -/
def leftRows (kind : JoinKind) (nullR : QRow V) (rrows : List (QRow V)) (l : QRow V) : List (QRow V) :=
  (rrows.filter (kept keep l)).map (combine l) ++
    if !rrows.any (kept keep l) && preserveLeft kind then [combine l nullR] else []

/-- The right rows that a left row does not match. -/
def aloneRight (nullL : QRow V) (rrows : List (QRow V)) (matched : QRow V → Bool) : List (QRow V) :=
  (rrows.filter fun r => !matched r).map (combine nullL)

variable {keep combine}

theorem kept_ok {l r : QRow V} {k : Bool} (h : keep l r = .ok k) : kept keep l r = k := by
  rw [kept, h]

theorem unmatchedRight_map (nullL : QRow V) (rrows : List (QRow V)) (matched : QRow V → Bool) :
    unmatchedRight combine nullL rrows (rrows.map matched) = aloneRight combine nullL rrows matched := by
  induction rrows with
  | nil => rfl
  | cons r rrows ih =>
    unfold unmatchedRight aloneRight at ih ⊢
    cases h : matched r <;> simp [h, ih]

theorem scanRight_eq {l : QRow V} {rrows : List (QRow V)} {matched : QRow V → Bool} :
    scanRight keep combine l rrows (rrows.map matched) =
      (checkRow keep rrows l).map fun _ =>
        ((rrows.filter (kept keep l)).map (combine l), rrows.map fun r => kept keep l r || matched r,
          rrows.any (kept keep l)) := by
  induction rrows with
  | nil => rfl
  | cons r rrows ih =>
    rw [checkRow] at ih ⊢
    rw [List.map_cons, scanRight, ih, Loops.forM_cons]
    cases hkeep : keep l r with
    | error e => rfl
    | ok k =>
      have hk := kept_ok hkeep
      cases rrows.forM fun r => (keep l r).map fun _ => () with
      | error e => rfl
      | ok _ => cases k <;> simp [hk, bind, Except.bind, Except.map]

theorem joinLoop_eq {kind : JoinKind} {nullR : QRow V} {lrows rrows : List (QRow V)} {matched : QRow V → Bool} :
    joinLoop keep combine kind nullR rrows lrows (rrows.map matched) =
      (checkPairs keep lrows rrows).map fun _ =>
        (lrows.flatMap (leftRows keep combine kind nullR rrows),
          rrows.map fun r => lrows.any (fun l => kept keep l r) || matched r) := by
  induction lrows generalizing matched with
  | nil => simp [joinLoop, checkPairs, Except.map, pure, Except.pure]
  | cons l lrows ih =>
    rw [checkPairs] at ih ⊢
    rw [joinLoop, scanRight_eq, Loops.forM_cons]
    cases checkRow keep rrows l with
    | error e => rfl
    | ok _ =>
      simp only [Except.map, bind, Except.bind, ih]
      cases lrows.forM (checkRow keep rrows) with
      | error e => rfl
      | ok _ => simp [leftRows, Bool.or_assoc, Bool.or_comm]

theorem lateralLoop_eq {kind : JoinKind} {nullL nullR : QRow V} {lrows rrows : List (QRow V)}
    {evalRight : QRow V → Except ExecError (List (QRow V))} (hright : ∀ l ∈ lrows, evalRight l = .ok rrows) :
    lateralLoop keep combine kind nullL nullR evalRight lrows =
      (checkPairs keep lrows rrows).map fun _ =>
        lrows.flatMap fun l => leftRows keep combine kind nullR rrows l ++
          if preserveRight kind then aloneRight combine nullL rrows (kept keep l) else [] := by
  induction lrows with
  | nil => rfl
  | cons l lrows ih =>
    rw [checkPairs] at ih ⊢
    rw [lateralLoop, hright l List.mem_cons_self, Loops.forM_cons]
    simp only [bind, Except.bind]
    rw [scanRight_eq, ih fun l' hl' => hright l' (List.mem_cons_of_mem l hl')]
    cases checkRow keep rrows l with
    | error e => rfl
    | ok _ =>
      simp only [Except.map, unmatchedRight_map]
      cases lrows.forM (checkRow keep rrows) with
      | error e => rfl
      | ok _ => simp [leftRows]

/-- Unmatched right rows that come once for each left row are those of the whole join if and only if there is one left
row, no right row, or every pair matches. -/
theorem aloneRight_perm_iff {nullL : QRow V} {lrows rrows : List (QRow V)} :
    (lrows.flatMap fun l => aloneRight combine nullL rrows (kept keep l)).Perm
        (aloneRight combine nullL rrows fun r => lrows.any fun l => kept keep l r) ↔
      lrows.length = 1 ∨ rrows = [] ∨ lrows ≠ [] ∧ ∀ l ∈ lrows, ∀ r ∈ rrows, kept keep l r = true := by
  constructor
  · intro hperm
    have hlen := hperm.length_eq
    rw [List.length_flatMap] at hlen
    have hle : ∀ l ∈ lrows, (aloneRight combine nullL rrows fun r => lrows.any fun l => kept keep l r).length ≤
        (aloneRight combine nullL rrows (kept keep l)).length := by
      intro l hl
      simp only [aloneRight, List.length_map]
      refine (List.monotone_filter_right rrows fun r h => ?_).length_le
      simp only [Bool.not_eq_true', List.any_eq_false, Bool.not_eq_true] at h ⊢
      exact h l hl
    have hnone : ∀ l, (aloneRight combine nullL rrows (kept keep l)).length = 0 → ∀ r ∈ rrows, kept keep l r = true := by
      intro l hl r hr
      simp only [aloneRight, List.length_map, List.length_eq_zero_iff, List.filter_eq_nil_iff, Bool.not_eq_true',
        Bool.not_eq_false] at hl
      exact hl r hr
    match lrows with
    | [] =>
      refine .inr (.inl ?_)
      simpa [aloneRight, eq_comm] using hlen
    | [l] => exact .inl rfl
    | a :: b :: lrows =>
      refine .inr (.inr ⟨List.cons_ne_nil _ _, fun l hl => hnone l ?_⟩)
      rw [List.map_cons, List.sum_cons] at hlen
      have hb := hle b (by simp)
      have ha := hle a (by simp)
      have hrest : ∀ l ∈ b :: lrows, (aloneRight combine nullL rrows (kept keep l)).length ≤
          ((b :: lrows).map fun l => (aloneRight combine nullL rrows (kept keep l)).length).sum := fun l hl =>
        List.single_le_sum (fun _ _ => Nat.zero_le _) _ (List.mem_map_of_mem hl)
      rcases List.mem_cons.1 hl with rfl | hl
      · have hsecond := hrest b List.mem_cons_self
        omega
      · have hlater := hrest l hl
        omega
  · rintro (h | rfl | ⟨hne, hall⟩)
    · obtain ⟨l, rfl⟩ := List.length_eq_one_iff.1 h
      simp
    · simp [aloneRight]
    · have hleft : (lrows.flatMap fun l => aloneRight combine nullL rrows (kept keep l)) = [] := by
        rw [List.flatMap_eq_nil_iff]
        intro l hl
        simp only [aloneRight, List.map_eq_nil_iff, List.filter_eq_nil_iff, Bool.not_eq_true', Bool.not_eq_false]
        exact hall l hl
      have hright : (aloneRight combine nullL rrows fun r => lrows.any fun l => kept keep l r) = [] := by
        obtain ⟨l, hl⟩ := List.exists_mem_of_ne_nil lrows hne
        simp only [aloneRight, List.map_eq_nil_iff, List.filter_eq_nil_iff, Bool.not_eq_true', Bool.not_eq_false,
          List.any_eq_true]
        exact fun r hr => ⟨l, hl, hall l hl r hr⟩
      rw [hleft, hright]

theorem scanRight_congr {keep' : QRow V → QRow V → Except ExecError Bool} {l : QRow V} {rrows : List (QRow V)}
    {flags : List Bool} (h : ∀ r ∈ rrows, keep l r = keep' l r) :
    scanRight keep combine l rrows flags = scanRight keep' combine l rrows flags := by
  induction rrows generalizing flags with
  | nil => cases flags <;> rfl
  | cons r rrows ih =>
    cases flags with
    | nil => rfl
    | cons m flags =>
      rw [scanRight, scanRight, h r List.mem_cons_self, ih fun r' hr' => h r' (List.mem_cons_of_mem r hr')]

theorem joinLoop_congr {keep' : QRow V → QRow V → Except ExecError Bool} {kind : JoinKind} {nullR : QRow V}
    {lrows rrows : List (QRow V)} {flags : List Bool} (h : ∀ l ∈ lrows, ∀ r ∈ rrows, keep l r = keep' l r) :
    joinLoop keep combine kind nullR rrows lrows flags = joinLoop keep' combine kind nullR rrows lrows flags := by
  induction lrows generalizing flags with
  | nil => rfl
  | cons l lrows ih =>
    rw [joinLoop, joinLoop, scanRight_congr (h l List.mem_cons_self)]
    have hrest : ∀ flags, joinLoop keep combine kind nullR rrows lrows flags =
        joinLoop keep' combine kind nullR rrows lrows flags := fun flags =>
      ih fun l' hl' => h l' (List.mem_cons_of_mem l hl')
    simp only [hrest]

theorem checkPairs_ok {lrows rrows : List (QRow V)} :
    checkPairs keep lrows rrows = .ok () ↔ ∀ l ∈ lrows, ∀ r ∈ rrows, ∃ k, keep l r = .ok k := by
  unfold checkPairs checkRow
  rw [Loops.forM_eq_ok]
  refine forall₂_congr fun l _ => ?_
  rw [Loops.forM_eq_ok]
  refine forall₂_congr fun r _ => ?_
  cases keep l r with
  | error e => simp [Except.map]
  | ok k => simp [Except.map]

end

/-! ## The same bag -/

/-- The same error, or the same columns and the same rows, each as often. -/
def SameBag : Except ExecError (List QCol × List (QRow V)) → Except ExecError (List QCol × List (QRow V)) → Prop
  | .ok a, .ok b => a.1 = b.1 ∧ a.2.Perm b.2
  | .error e, .error e' => e = e'
  | _, _ => False

/-- For the right rows that are kept in any case: one left row, no right row, a match of every pair, or an error. -/
def Settled (keep : QRow V → QRow V → Except ExecError Bool) (lrows rrows : List (QRow V)) : Prop :=
  lrows.length = 1 ∨ rrows = [] ∨ (lrows ≠ [] ∧ ∀ l ∈ lrows, ∀ r ∈ rrows, keep l r = .ok true) ∨
    ∃ l ∈ lrows, ∃ r ∈ rrows, ∃ e, keep l r = .error e

theorem loops_sameBag {keep : QRow V → QRow V → Except ExecError Bool} {combine : QRow V → QRow V → QRow V}
    {kind : JoinKind} {nullL nullR : QRow V} {schema : List QCol} {lrows rrows : List (QRow V)}
    {evalRight : QRow V → Except ExecError (List (QRow V))} (hright : ∀ l ∈ lrows, evalRight l = .ok rrows) :
    SameBag
        ((lateralLoop keep combine kind nullL nullR evalRight lrows).map fun rows => (schema, rows))
        ((joinLoop keep combine kind nullR rrows lrows (rrows.map fun _ => false)).map fun out =>
          (schema, out.1 ++ if preserveRight kind then unmatchedRight combine nullL rrows out.2 else [])) ↔
      (preserveRight kind = true → Settled keep lrows rrows) := by
  rw [lateralLoop_eq hright, joinLoop_eq]
  cases hcheck : checkPairs keep lrows rrows with
  | error e =>
    have herror : ∃ l ∈ lrows, ∃ r ∈ rrows, ∃ e, keep l r = .error e := by
      by_contra hno
      have hok : checkPairs keep lrows rrows = .ok () := checkPairs_ok.2 fun l hl r hr => by
        cases hkeep : keep l r with
        | ok k => exact ⟨k, rfl⟩
        | error e => exact absurd ⟨l, hl, r, hr, e, hkeep⟩ hno
      rw [hcheck] at hok
      cases hok
    exact iff_of_true rfl fun _ => .inr (.inr (.inr herror))
  | ok _ =>
    have hpairs := checkPairs_ok.1 hcheck
    have hkept : ∀ l ∈ lrows, ∀ r ∈ rrows, kept keep l r = true ↔ keep l r = .ok true := by
      intro l hl r hr
      obtain ⟨k, hk⟩ := hpairs l hl r hr
      rw [kept_ok hk, hk, Except.ok.injEq]
    have hnoError : ¬∃ l ∈ lrows, ∃ r ∈ rrows, ∃ e, keep l r = .error e := by
      rintro ⟨l, hl, r, hr, e, he⟩
      obtain ⟨k, hk⟩ := hpairs l hl r hr
      rw [hk] at he
      cases he
    simp only [Except.map, SameBag, true_and, unmatchedRight_map, Bool.or_false]
    cases preserveRight kind with
    | false => simp
    | true =>
      have hperm := List.flatMap_append_perm lrows (leftRows keep combine kind nullR rrows)
        fun l => aloneRight combine nullL rrows (kept keep l)
      simp only [if_true, true_implies]
      rw [← hperm.congr_left, List.perm_append_left_iff, aloneRight_perm_iff, Settled]
      have hall : (∀ l ∈ lrows, ∀ r ∈ rrows, kept keep l r = true) ↔ ∀ l ∈ lrows, ∀ r ∈ rrows, keep l r = .ok true :=
        forall₂_congr fun l hl => forall₂_congr fun r hr => hkept l hl r hr
      rw [hall]
      constructor
      · rintro (h | h | h)
        · exact .inl h
        · exact .inr (.inl h)
        · exact .inr (.inr (.inl h))
      · rintro (h | h | h | h)
        · exact .inl h
        · exact .inr (.inl h)
        · exact .inr (.inr h)
        · exact absurd h hnoError

/-! ## The joins -/

section

variable [Inhabited V] (C : Conditions E V) (J : JoinSpec E)

/-- Whether a join keeps a pair, by the merged row. -/
def keepMerged (layout : JoinLayout) : QRow V → QRow V → Except ExecError Bool :=
  keepPair (evalMerged C J layout) (J.onPred layout)

/-- Where the ordinary join evaluates the condition on the two rows apart, its columns are found there, and it is what
it is on the merged row. -/
def SameCondition (layout : JoinLayout) (lrows rrows : List (QRow V)) : Prop :=
  ∀ p, J.onPred layout = some p → joinFastPath C p J.lschema J.rschema = true →
    (lrows ≠ [] → rrows ≠ [] → C.resolve p [J.lschema, J.rschema] = .ok ()) ∧
      ∀ l ∈ lrows, ∀ r ∈ rrows, evalApart C J p l r = evalMerged C J layout p l r

variable {C J} {layout : JoinLayout} {lrows rrows : List (QRow V)}

theorem planJoin_keys {lschema rschema : List QCol} {clause : JoinClause}
    (hplan : planJoin lschema rschema clause = .ok layout) :
    joinKeys lschema rschema (mergedNames lschema rschema clause.usingCols clause.natural) = .ok layout.keys := by
  obtain ⟨keys, hkeys, hplan⟩ := Loops.bind_eq_ok hplan
  obtain ⟨_, -, hplan⟩ := Loops.bind_eq_ok hplan
  obtain ⟨_, -, hplan⟩ := Loops.bind_eq_ok hplan
  cases hplan
  exact hkeys

/-- CROSS has no condition in any of the joins. -/
theorem onPred_eq (hplan : planJoin J.lschema J.rschema J.clause = .ok layout) :
    J.onPred layout = J.onExpr layout := by
  unfold JoinSpec.onPred
  split
  · rename_i hcross
    obtain ⟨hon, husing, hnatural⟩ := J.cross (beq_iff_eq.1 hcross)
    have hkeys := planJoin_keys hplan
    rw [husing, hnatural] at hkeys
    have hnil : joinKeys J.lschema J.rschema (mergedNames J.lschema J.rschema [] false) = .ok [] := rfl
    rw [hnil] at hkeys
    rw [JoinSpec.onExpr, ← Except.ok.inj hkeys, hon]
    rfl
  · rfl

omit [Inhabited V] in
theorem fast_onPred {p : OnExpr E} (hon : J.onPred layout = some p) (hfast : J.fast C layout = true) :
    joinFastPath C p J.lschema J.rschema = true := by
  rw [JoinSpec.fast, hon, Bool.or_eq_true] at hfast
  rcases hfast with hcross | hpath
  · rw [JoinSpec.onPred, if_pos hcross] at hon
    cases hon
  · exact hpath

/-- The ordinary join as a loop over the merged rows. -/
theorem nestedLoopJoin_eq (hplan : planJoin J.lschema J.rschema J.clause = .ok layout)
    (hcond : SameCondition C J layout lrows rrows) :
    nestedLoopJoin C J lrows rrows =
      (joinLoop (keepMerged C J layout) (fun l r => combineJoinPair C.isNull l r layout J.kind) J.kind
        (nullRow C J.rschema) rrows lrows (rrows.map fun _ => false)).map fun out =>
          (layout.schema, out.1 ++
            if preserveRight J.kind then
              unmatchedRight (fun l r => combineJoinPair C.isNull l r layout J.kind) (nullRow C J.lschema) rrows out.2
            else []) := by
  have hresolve : resolveOn C J (J.fast C layout) lrows rrows (J.onPred layout) = .ok () := by
    cases hon : J.onPred layout with
    | none => rfl
    | some p =>
      rw [resolveOn]
      split
      · rename_i hfast
        simp only [Bool.and_eq_true, Bool.not_eq_true', List.isEmpty_eq_false_iff] at hfast
        exact (hcond p hon (fast_onPred hon hfast.1.1)).1 hfast.1.2 hfast.2
      · rfl
  have hkeep : ∀ l ∈ lrows, ∀ r ∈ rrows,
      keepPair (if J.fast C layout then evalApart C J else evalMerged C J layout) (J.onPred layout) l r =
        keepMerged C J layout l r := by
    intro l hl r hr
    unfold keepMerged
    cases hon : J.onPred layout with
    | none => rfl
    | some p =>
      split
      · rename_i hfast
        exact (hcond p hon (fast_onPred hon hfast)).2 l hl r hr
      · rfl
  simp only [nestedLoopJoin, bind, Except.bind, hplan, hresolve]
  rw [joinLoop_congr hkeep]
  cases joinLoop (keepMerged C J layout) (fun l r => combineJoinPair C.isNull l r layout J.kind) J.kind
    (nullRow C J.rschema) rrows lrows (rrows.map fun _ => false) with
  | error e => rfl
  | ok out => rfl

theorem evalLateralJoin_eq (hplan : planJoin J.lschema J.rschema J.clause = .ok layout)
    (evalRight : QRow V → Except ExecError (List (QRow V))) :
    evalLateralJoin C J lrows evalRight =
      (lateralLoop (keepMerged C J layout) (fun l r => combineJoinPair C.isNull l r layout J.kind) J.kind
        (nullRow C J.lschema) (nullRow C J.rschema) evalRight lrows).map fun rows => (layout.schema, rows) := by
  simp only [evalLateralJoin, bind, Except.bind, hplan]
  rw [← onPred_eq hplan, show keepPair (evalMerged C J layout) (J.onPred layout) = keepMerged C J layout from rfl]
  cases lateralLoop (keepMerged C J layout) (fun l r => combineJoinPair C.isNull l r layout J.kind) J.kind
    (nullRow C J.lschema) (nullRow C J.rschema) evalRight lrows with
  | error e => rfl
  | ok rows => rfl

/-- The join over a right side built again for each left row is the LATERAL join. -/
theorem evalCrossNestJoin_eq (evalRight : QRow V → Except ExecError (List (QRow V))) :
    evalCrossNestJoin C J lrows evalRight = evalLateralJoin C J lrows evalRight := by
  simp only [evalCrossNestJoin, evalLateralJoin, bind, Except.bind]
  cases hplan : planJoin J.lschema J.rschema J.clause with
  | error e => rfl
  | ok layout => simp only [onPred_eq hplan]

/-- A condition that fails on the merged rows only makes the LATERAL join fail where the ordinary one does not. -/
theorem not_sameBag_of_error {p : OnExpr E} {evalRight : QRow V → Except ExecError (List (QRow V))}
    (hright : ∀ l ∈ lrows, evalRight l = .ok rrows) (hplan : planJoin J.lschema J.rschema J.clause = .ok layout)
    (hon : J.onPred layout = some p) (hpath : joinFastPath C p J.lschema J.rschema = true)
    (hresolve : C.resolve p [J.lschema, J.rschema] = .ok ()) (hl : lrows ≠ []) (hr : rrows ≠ [])
    (hpairs : ∀ l ∈ lrows, ∀ r ∈ rrows,
      (∃ k, evalApart C J p l r = .ok k) ∧ ∃ e, evalMerged C J layout p l r = .error e) :
    ¬SameBag (evalLateralJoin C J lrows evalRight) (nestedLoopJoin C J lrows rrows) := by
  have hmerged : ∃ e, checkPairs (keepMerged C J layout) lrows rrows = .error e := by
    cases hcheck : checkPairs (keepMerged C J layout) lrows rrows with
    | error e => exact ⟨e, rfl⟩
    | ok _ =>
      obtain ⟨l, hl⟩ := List.exists_mem_of_ne_nil lrows hl
      obtain ⟨r, hr⟩ := List.exists_mem_of_ne_nil rrows hr
      obtain ⟨k, hk⟩ := checkPairs_ok.1 hcheck l hl r hr
      obtain ⟨-, e, he⟩ := hpairs l hl r hr
      rw [keepMerged, hon, keepPair, he] at hk
      cases hk
  have hapart : checkPairs (keepPair (evalApart C J) (some p)) lrows rrows = .ok () :=
    checkPairs_ok.2 fun l hl r hr => (hpairs l hl r hr).1
  have hfast : J.fast C layout = true := by
    rw [JoinSpec.fast, hon, Option.any_some, hpath, Bool.or_true]
  have hfound : resolveOn C J true lrows rrows (some p) = .ok () := by
    rw [resolveOn, hresolve, ite_self]
  obtain ⟨e, he⟩ := hmerged
  rw [evalLateralJoin_eq hplan, lateralLoop_eq hright, he]
  simp only [nestedLoopJoin, bind, Except.bind, hplan, hon, hfast, hfound, if_true, joinLoop_eq, hapart, Except.map]
  exact id

/-- With a right side that is the same for every left row, the LATERAL joins are the ordinary join if and only if no
right row is kept in any case or that comes to the same, as long as the condition is the same on the merged row. Where
it fails on the merged rows only, they are not. -/
theorem lateral_joins_sameBag (C : Conditions E V) (J : JoinSpec E) (lrows rrows : List (QRow V))
    (evalRight : QRow V → Except ExecError (List (QRow V))) (hright : ∀ l ∈ lrows, evalRight l = .ok rrows) :
    ((∀ layout, planJoin J.lschema J.rschema J.clause = .ok layout → SameCondition C J layout lrows rrows) →
      (SameBag (evalLateralJoin C J lrows evalRight) (nestedLoopJoin C J lrows rrows) ↔
        ∀ layout, planJoin J.lschema J.rschema J.clause = .ok layout → preserveRight J.kind = true →
          Settled (keepMerged C J layout) lrows rrows) ∧
        (SameBag (evalCrossNestJoin C J lrows evalRight) (nestedLoopJoin C J lrows rrows) ↔
          ∀ layout, planJoin J.lschema J.rschema J.clause = .ok layout → preserveRight J.kind = true →
            Settled (keepMerged C J layout) lrows rrows)) ∧
      ∀ layout p, planJoin J.lschema J.rschema J.clause = .ok layout → J.onPred layout = some p →
        joinFastPath C p J.lschema J.rschema = true → C.resolve p [J.lschema, J.rschema] = .ok () →
        lrows ≠ [] → rrows ≠ [] →
        (∀ l ∈ lrows, ∀ r ∈ rrows,
          (∃ k, evalApart C J p l r = .ok k) ∧ ∃ e, evalMerged C J layout p l r = .error e) →
        ¬SameBag (evalLateralJoin C J lrows evalRight) (nestedLoopJoin C J lrows rrows) ∧
          ¬SameBag (evalCrossNestJoin C J lrows evalRight) (nestedLoopJoin C J lrows rrows) := by
  rw [evalCrossNestJoin_eq, and_self]
  refine ⟨fun hcond => ?_, fun layout p hplan hon hpath hresolve hl hr hpairs => ?_⟩
  · cases hplan : planJoin J.lschema J.rschema J.clause with
    | error e =>
      have hlateral : evalLateralJoin C J lrows evalRight = .error e := by
        rw [evalLateralJoin, hplan]
        rfl
      have hnested : nestedLoopJoin C J lrows rrows = .error e := by
        rw [nestedLoopJoin, hplan]
        rfl
      rw [hlateral, hnested]
      exact iff_of_true rfl nofun
    | ok layout =>
      rw [evalLateralJoin_eq hplan, nestedLoopJoin_eq hplan (hcond layout hplan), loops_sameBag hright]
      constructor
      · intro h layout' hlayout
        rw [← Except.ok.inj hlayout]
        exact h
      · exact fun h => h layout rfl
  · rw [and_self]
    exact not_sameBag_of_error hright hplan hon hpath hresolve hl hr hpairs

end

/-- The condition `x = y` on cells that are numbers, with 0 for NULL. -/
def firstEqual : Conditions Unit Nat where
  columnRefs _ := [(some "a", "x"), (some "b", "y")]
  resolve _ _ := .ok ()
  eval _ frames :=
    match frames.flatMap (·.row) with
    | x :: y :: _ => .ok (x != 0 && x == y)
    | _ => .error (execError "42703" "column \"y\" does not exist")
  isNull v := v == 0
  null := 0

/-- A join of one column on each side, on `a.x = b.y`. -/
def columnJoin (kind : JoinKind) (hkind : kind ≠ .cross) : JoinSpec Unit where
  lschema := [⟨"a", "x", .int, false, 0⟩]
  rschema := [⟨"b", "y", .int, false, 0⟩]
  kind := kind
  on := some ()
  clause := ⟨[], false, none, none, []⟩
  cross h := absurd h hkind

def columnLayout : JoinLayout :=
  ⟨[], [.left 0, .right 0], [⟨"a", "x", .int, false, 0⟩, ⟨"b", "y", .int, false, 0⟩]⟩

theorem planJoin_columnJoin {kind : JoinKind} {hkind : kind ≠ .cross} :
    planJoin (columnJoin kind hkind).lschema (columnJoin kind hkind).rschema (columnJoin kind hkind).clause =
      .ok columnLayout := rfl

theorem lateral_joins_sameBag_left :
    SameBag
      (evalLateralJoin firstEqual (columnJoin .left nofun) [⟨[1], []⟩, ⟨[2], []⟩] fun _ => .ok [⟨[1], []⟩])
      (nestedLoopJoin firstEqual (columnJoin .left nofun) [⟨[1], []⟩, ⟨[2], []⟩] [⟨[1], []⟩]) := by
  refine ((lateral_joins_sameBag firstEqual (columnJoin .left nofun) [⟨[1], []⟩, ⟨[2], []⟩] [⟨[1], []⟩]
    (fun _ => .ok [⟨[1], []⟩]) fun _ _ => rfl).1 fun layout hplan => ?_).1.2 fun _ _ hright => nomatch hright
  rw [planJoin_columnJoin] at hplan
  rw [← Except.ok.inj hplan]
  refine fun p _ _ => ⟨fun _ _ => rfl, fun l hl r hr => ?_⟩
  rw [List.mem_singleton.1 hr]
  simp only [List.mem_cons, List.not_mem_nil, or_false] at hl
  rcases hl with rfl | rfl
  · rfl
  · rfl

/-- A right row that one of two left rows matches comes with nulls too. -/
theorem matched_row_unmatched :
    ¬SameBag
      (evalLateralJoin firstEqual (columnJoin .right nofun) [⟨[1], []⟩, ⟨[2], []⟩] fun _ => .ok [⟨[1], []⟩])
      (nestedLoopJoin firstEqual (columnJoin .right nofun) [⟨[1], []⟩, ⟨[2], []⟩] [⟨[1], []⟩]) := by
  have hlateral : evalLateralJoin firstEqual (columnJoin .right nofun) [⟨[1], []⟩, ⟨[2], []⟩]
      (fun _ => .ok [⟨[1], []⟩]) = .ok (columnLayout.schema, [⟨[1, 1], []⟩, ⟨[0, 1], []⟩]) := rfl
  have hnested : nestedLoopJoin firstEqual (columnJoin .right nofun) [⟨[1], []⟩, ⟨[2], []⟩] [⟨[1], []⟩] =
      .ok (columnLayout.schema, [⟨[1, 1], []⟩]) := rfl
  rw [hlateral, hnested]
  intro h
  exact absurd h.2.length_eq (by decide)

end Joins
