-- SUMMARY: Window calls get the number of their own specification where the walk comes to them.
import Mathlib.Data.List.Basic
import Rustgres.Windows.Expressions

/-!
# Numbers of Window Calls

The walk that collects specifications and the one that gives numbers come to the same calls. A call that they do not
come to keeps the number that the parser left, which is that of the first specification.
-/

namespace Windows

variable {O Q : Type}

/-! ## Parts of an expression -/

/-- The parts that the walk goes on to. -/
def walked : Expr O Q → List (Expr O Q)
  | .arith _ left right | .and left right | .or left right | .concat left right | .cmp _ left right
  | .isDistinctFrom _ left right => [left, right]
  | .like _ expr pattern _ | .regex _ expr pattern => [expr, pattern]
  | .between _ expr low high => [expr, low, high]
  | .not x | .bitNot x | .neg x | .isNull _ x | .isBool _ x | .cast _ x | .extract _ x | .inSub _ x _ => [x]
  | .func _ args => args
  | .agg _ arg arg2 _ _ => arg.toList ++ arg2.toList
  | _ => []

/-- The parts that it leaves out. -/
def skipped : Expr O Q → List (Expr O Q)
  | .like _ _ _ escape => escape.toList
  | .agg _ _ _ aggOrderBy filter => aggOrderBy.map (·.expr) ++ filter.toList
  | .castNamed _ x | .collate _ x | .collationFor x | .fieldAccess _ x | .namedArg _ x | .quantified _ x _ => [x]
  | .atTimeZone expr zone => expr :: zone.toList
  | .row elems | .arrayCtor _ elems => elems
  | .jsonOp _ left right | .userOp _ left right => [left, right]
  | .case operand whens otherwise =>
    operand.toList ++ whens.flatMap (fun w => [w.1, w.2]) ++ otherwise.toList
  | .withinGroup _ directArgs withinOrderBy filter =>
    directArgs ++ withinOrderBy.map (·.expr) ++ filter.toList
  | .subscript array indices => array :: indices
  | .slice array bounds => array :: bounds.flatMap fun b => b.1.toList ++ b.2.toList
  | .window _ args _ partitionBy orderBy _ _ filter _ =>
    args ++ partitionBy ++ orderBy.map (·.expr) ++ filter.toList
  | _ => []

/-- `x` is somewhere in an expression, at its query level. -/
inductive Within (x : Expr O Q) : Expr O Q → Prop
  | refl : Within x x
  | walked {e c : Expr O Q} : c ∈ walked e → Within x c → Within x e
  | skipped {e c : Expr O Q} : c ∈ skipped e → Within x c → Within x e

/-- The walk over an expression comes to `x`. -/
inductive Visited (x : Expr O Q) : Expr O Q → Prop
  | refl : Visited x x
  | step {e c : Expr O Q} : c ∈ walked e → Visited x c → Visited x e

/-- `x` is in a part that the walk leaves out. -/
inductive Missed (x : Expr O Q) : Expr O Q → Prop
  | skip {e c : Expr O Q} : c ∈ skipped e → Within x c → Missed x e
  | step {e c : Expr O Q} : c ∈ walked e → Missed x c → Missed x e

/-- The number of a window call. -/
def widOf : Expr O Q → Nat
  | .window _ _ _ _ _ _ wid _ _ => wid
  | _ => 0

theorem within_of_visited {x e : Expr O Q} (h : Visited x e) : Within x e := by
  induction h with
  | refl => exact .refl
  | step hc _ ih => exact .walked hc ih

theorem within_of_missed {x e : Expr O Q} (h : Missed x e) : Within x e := by
  induction h with
  | skip hc h => exact .skipped hc h
  | step hc _ ih => exact .walked hc ih

/-! ## The walk -/

theorem walkAll_eq (es : List (Expr O Q)) : walkAll es = es.flatMap walk := by
  induction es with
  | nil => rfl
  | cons e es ih => rw [walkAll, ih, List.flatMap_cons]

theorem walkOpt_eq (e : Option (Expr O Q)) : walkOpt e = e.toList.flatMap walk := by
  cases e with
  | none => rfl
  | some e => simp [walkOpt]

/-- The walk takes a call itself, and goes on to the parts otherwise. -/
theorem walk_eq (e : Expr O Q) : walk e = (specOf e).toList ++ (walked e).flatMap walk := by
  cases e <;> simp [walk, walked, specOf, walkAll_eq, walkOpt_eq]

theorem sizeOf_walked {e c : Expr O Q} (h : c ∈ walked e) : sizeOf c < sizeOf e := by
  cases e with
  | func d args =>
    have := List.sizeOf_lt_of_mem (show c ∈ args from h)
    simp
    omega
  | agg d arg arg2 aggOrderBy filter =>
    rcases List.mem_append.1 h with h | h
    all_goals
      rw [Option.mem_toList] at h
      subst h
      simp
      omega
  | _ =>
    simp only [walked, List.mem_cons, List.not_mem_nil, or_false] at h
    all_goals
      rcases h with rfl | rfl | rfl <;> simp <;> omega

theorem mem_walk {e : Expr O Q} {w : ExecWindow (Expr O Q)} :
    w ∈ walk e ↔ ∃ x, Visited x e ∧ specOf x = some w := by
  constructor
  · intro h
    induction hn : sizeOf e using Nat.strong_induction_on generalizing e with
    | _ n ih =>
      rw [walk_eq, List.mem_append] at h
      rcases h with h | h
      · exact ⟨e, .refl, Option.mem_toList.1 h⟩
      · obtain ⟨c, hc, hw⟩ := List.mem_flatMap.1 h
        obtain ⟨x, hx, hspec⟩ := ih (sizeOf c) (hn ▸ sizeOf_walked hc) hw rfl
        exact ⟨x, .step hc hx, hspec⟩
  · rintro ⟨x, hx, hspec⟩
    induction hx with
    | refl =>
      rw [walk_eq, hspec]
      exact List.mem_append_left _ List.mem_cons_self
    | step hc _ ih =>
      rw [walk_eq]
      exact List.mem_append_right _ (List.mem_flatMap.2 ⟨_, hc, ih⟩)

/-! ## The numbers -/

section

variable (same : ExecWindow (Expr O Q) → ExecWindow (Expr O Q) → Bool) (windows : List (ExecWindow (Expr O Q)))

theorem stampAll_eq (es : List (Expr O Q)) : stampAll same windows es = es.map (stamp same windows) := by
  induction es with
  | nil => rfl
  | cons e es ih => rw [stampAll, ih, List.map_cons]

theorem stampOpt_eq (e : Option (Expr O Q)) : stampOpt same windows e = e.map (stamp same windows) := by
  cases e <;> rfl

theorem walked_stamp (e : Expr O Q) : walked (stamp same windows e) = (walked e).map (stamp same windows) := by
  cases e with
  | agg d arg arg2 aggOrderBy filter => cases arg <;> cases arg2 <;> rfl
  | func d args => exact stampAll_eq same windows args
  | _ => rfl

theorem skipped_stamp (e : Expr O Q) : skipped (stamp same windows e) = skipped e := by
  cases e <;> rfl

theorem specOf_stamp (e : Expr O Q) : specOf (stamp same windows e) = specOf e := by
  cases e <;> rfl

theorem widOf_stamp {e : Expr O Q} {w : ExecWindow (Expr O Q)} (h : specOf e = some w) :
    widOf (stamp same windows e) = windowId same windows w := by
  cases e with
  | window => cases h; rfl
  | _ => cases h

/-- What is in an expression with numbers is a call that was given one, or was left out. -/
theorem within_stamp {x e : Expr O Q} :
    Within x (stamp same windows e) ↔ (∃ y, Visited y e ∧ x = stamp same windows y) ∨ Missed x e := by
  constructor
  · intro h
    generalize he : stamp same windows e = e' at h
    induction h generalizing e with
    | refl => exact .inl ⟨e, .refl, he.symm⟩
    | walked hc _ ih =>
      rw [← he, walked_stamp, List.mem_map] at hc
      obtain ⟨c, hc, rfl⟩ := hc
      rcases ih rfl with ⟨y, hy, hx⟩ | hmissed
      · exact .inl ⟨y, .step hc hy, hx⟩
      · exact .inr (.step hc hmissed)
    | skipped hc h _ =>
      rw [← he, skipped_stamp] at hc
      exact .inr (.skip hc h)
  · rintro (⟨y, hy, rfl⟩ | hmissed)
    · induction hy with
      | refl => exact .refl
      | step hc _ ih =>
        refine .walked ?_ ih
        rw [walked_stamp]
        exact List.mem_map_of_mem hc
    · induction hmissed with
      | skip hc h =>
        refine .skipped ?_ h
        rwa [skipped_stamp]
      | step hc _ ih =>
        refine .walked ?_ ih
        rw [walked_stamp]
        exact List.mem_map_of_mem hc

end

/-! ## The specifications -/

section

variable {same : ExecWindow (Expr O Q) → ExecWindow (Expr O Q) → Bool} {ws out : List (ExecWindow (Expr O Q))}

theorem foldl_pushWindow_keeps {w : ExecWindow (Expr O Q)} (h : w ∈ out) : w ∈ ws.foldl (pushWindow same) out := by
  induction ws generalizing out with
  | nil => exact h
  | cons x ws ih =>
    refine ih ?_
    unfold pushWindow
    split
    · exact h
    · exact List.mem_append_left _ h

/-- A specification that equals itself is found among those that are collected. -/
theorem foldl_pushWindow_finds {w : ExecWindow (Expr O Q)} (h : w ∈ ws) (hw : same w w = true) :
    ∃ found ∈ ws.foldl (pushWindow same) out, same found w = true := by
  induction ws generalizing out with
  | nil => cases h
  | cons x ws ih =>
    rcases List.mem_cons.1 h with rfl | h
    · by_cases hany : out.any (same · w) = true
      · obtain ⟨found, hfound, hsame⟩ := List.any_eq_true.1 hany
        refine ⟨found, ?_, hsame⟩
        rw [List.foldl_cons, pushWindow, if_pos hany]
        exact foldl_pushWindow_keeps hfound
      · refine ⟨w, ?_, hw⟩
        rw [List.foldl_cons, pushWindow, if_neg hany]
        exact foldl_pushWindow_keeps (List.mem_append_right _ List.mem_cons_self)
    · exact ih h

theorem foldl_pushWindow_head {first : ExecWindow (Expr O Q)} (h : out.head? = some first) :
    (ws.foldl (pushWindow same) out).head? = some first := by
  induction ws generalizing out with
  | nil => exact h
  | cons x ws ih =>
    refine ih ?_
    unfold pushWindow
    split
    · exact h
    · rw [List.head?_append, h]
      rfl

/-- The first specification is the first that the walk comes to. -/
theorem collectWindows_head (stmt : SelectStmt O Q) :
    (collectWindows same stmt)[0]? = (walkAll stmt.exprs).head? := by
  rw [← List.head?_eq_getElem?, collectWindows]
  cases walkAll stmt.exprs with
  | nil => rfl
  | cons w ws => exact @foldl_pushWindow_head _ _ same ws [w] w rfl

theorem windowId_of_found {windows : List (ExecWindow (Expr O Q))} {w : ExecWindow (Expr O Q)}
    (h : ∃ found ∈ windows, same found w = true) :
    ∃ found, windows[windowId same windows w]? = some found ∧ same found w = true := by
  obtain ⟨found, hfound, hsame⟩ := h
  cases hidx : windows.findIdx? (same · w) with
  | none =>
    rw [List.findIdx?_eq_none_iff] at hidx
    have hno := hidx found hfound
    rw [hsame] at hno
    cases hno
  | some i =>
    obtain ⟨hi, hsame, -⟩ := List.findIdx?_eq_some_iff_getElem.1 hidx
    refine ⟨windows[i], ?_, hsame⟩
    rw [windowId, hidx]
    exact List.getElem?_eq_getElem hi

end

/-! ## Every call its own values -/

/-- Every window call of the expressions has the number of a specification that equals its own. -/
def CallsNumbered (same : ExecWindow (Expr O Q) → ExecWindow (Expr O Q) → Bool) (windows : List (ExecWindow (Expr O Q)))
    (stmt : SelectStmt O Q) : Prop :=
  ∀ e ∈ stmt.exprs, ∀ x, Within x e → ∀ w, specOf x = some w →
    ∃ found, windows[widOf x]? = some found ∧ same found w = true

/-- The parser leaves the number 0. -/
def Unnumbered (stmt : SelectStmt O Q) : Prop := ∀ e ∈ stmt.exprs, ∀ x, Within x e → widOf x = 0

theorem exprs_assignWindowIds (same : ExecWindow (Expr O Q) → ExecWindow (Expr O Q) → Bool)
    (windows : List (ExecWindow (Expr O Q))) (stmt : SelectStmt O Q) :
    (assignWindowIds same stmt windows).exprs = stmt.exprs.map (stamp same windows) := by
  have hitems : itemExprs (stmt.items.map (stampItem same windows)) =
      (itemExprs stmt.items).map (stamp same windows) := by
    unfold itemExprs
    induction stmt.items with
    | nil => rfl
    | cons item items ih => cases item <;> simp_all [stampItem]
  simp only [SelectStmt.exprs, assignWindowIds, List.map_append, List.map_map, hitems]
  rfl

/-- Every window call gets a specification that equals its own if and only if those that the walk comes to equal
themselves and those that it leaves out equal the first that it comes to. -/
theorem assignWindowIds_numbered (same : ExecWindow (Expr O Q) → ExecWindow (Expr O Q) → Bool)
    (hsymm : ∀ a b, same a b = true → same b a = true)
    (htrans : ∀ a b c, same a b = true → same b c = true → same a c = true) (stmt : SelectStmt O Q)
    (hparsed : Unnumbered stmt) :
    CallsNumbered same (collectWindows same stmt) (assignWindowIds same stmt (collectWindows same stmt)) ↔
      (∀ e ∈ stmt.exprs, ∀ x, Visited x e → ∀ w, specOf x = some w → same w w = true) ∧
        ∀ e ∈ stmt.exprs, ∀ x, Missed x e → ∀ w, specOf x = some w →
          ∃ first, (walkAll stmt.exprs).head? = some first ∧ same first w = true := by
  constructor
  · intro h
    rw [CallsNumbered, exprs_assignWindowIds] at h
    refine ⟨fun e he x hx w hw => ?_, fun e he x hx w hw => ?_⟩
    · obtain ⟨found, -, hsame⟩ := h _ (List.mem_map_of_mem he) _ ((within_stamp _ _).2 (.inl ⟨x, hx, rfl⟩)) w
        (by rw [specOf_stamp, hw])
      exact htrans w found w (hsymm found w hsame) hsame
    · obtain ⟨found, hfound, hsame⟩ := h _ (List.mem_map_of_mem he) _ ((within_stamp _ _).2 (.inr hx)) w hw
      rw [hparsed e he x (within_of_missed hx), collectWindows_head] at hfound
      exact ⟨found, hfound, hsame⟩
  · rintro ⟨hvisited, hmissed⟩
    rw [CallsNumbered, exprs_assignWindowIds]
    intro e' he' x hx w hw
    obtain ⟨e, he, rfl⟩ := List.mem_map.1 he'
    rcases (within_stamp _ _).1 hx with ⟨y, hy, rfl⟩ | hx
    · rw [specOf_stamp] at hw
      rw [widOf_stamp _ _ hw]
      have hmem : w ∈ walkAll stmt.exprs := by
        rw [walkAll_eq]
        exact List.mem_flatMap.2 ⟨e, he, mem_walk.2 ⟨y, hy, hw⟩⟩
      exact windowId_of_found (foldl_pushWindow_finds hmem (hvisited e he y hy w hw))
    · obtain ⟨first, hfirst, hsame⟩ := hmissed e he x hx w hw
      refine ⟨first, ?_, hsame⟩
      rw [hparsed e he x (within_of_missed hx), collectWindows_head]
      exact hfirst

open Classical in
/-- Specifications of calls without floating-point literals are equal if they are the same. -/
noncomputable def specEq (a b : ExecWindow (Expr String Unit)) : Bool := decide (a = b)

theorem specEq_iff {a b : ExecWindow (Expr String Unit)} : specEq a b = true ↔ a = b := by
  simp [specEq]

/-- A call without arguments, in the order of a column. -/
def rankingCall (func : WindowFunc) (column : String) : Expr String Unit :=
  .window func [] false [] [⟨.column column, false, none⟩] .default 0 none .noOthers

def noFilterOps : FilterOps String Unit := ⟨fun _ => false, fun _ => false, fun _ => false⟩

theorem within_rankingCall {x : Expr String Unit} {func : WindowFunc} {column : String}
    (h : Within x (rankingCall func column)) : x = rankingCall func column ∨ x = .column column := by
  cases h with
  | refl => exact .inl rfl
  | walked hc => cases hc
  | skipped hc h =>
    have hcolumn : _ ∈ [Expr.column column] := hc
    rw [List.mem_singleton] at hcolumn
    subst hcolumn
    cases h with
    | refl => exact .inr rfl
    | walked hc => cases hc
    | skipped hc => cases hc

theorem not_missed_rankingCall {x : Expr String Unit} {func : WindowFunc} {column : String}
    {w : ExecWindow (Expr String Unit)} (hw : specOf x = some w) : ¬Missed x (rankingCall func column) := by
  intro h
  cases h with
  | step hc => cases hc
  | skip hc h =>
    have hcolumn : _ ∈ [Expr.column column] := hc
    rw [List.mem_singleton] at hcolumn
    subst hcolumn
    cases h with
    | refl => cases hw
    | walked hc => cases hc
    | skipped hc => cases hc

/-- Two calls beside each other. -/
def twoCalls : SelectStmt String Unit :=
  ⟨[.expr (rankingCall .rank "a"), .expr (rankingCall .rowNumber "b")], [], []⟩

theorem mem_twoCalls {e : Expr String Unit} (h : e ∈ twoCalls.exprs) : ∃ func column, e = rankingCall func column := by
  have hexprs : e ∈ [rankingCall .rank "a", rankingCall .rowNumber "b"] := h
  simp only [List.mem_cons, List.not_mem_nil, or_false] at hexprs
  rcases hexprs with rfl | rfl
  · exact ⟨.rank, "a", rfl⟩
  · exact ⟨.rowNumber, "b", rfl⟩

theorem assignWindowIds_numbered_two :
    validateWindows noFilterOps twoCalls = .ok () ∧
      CallsNumbered specEq (collectWindows specEq twoCalls)
        (assignWindowIds specEq twoCalls (collectWindows specEq twoCalls)) := by
  refine ⟨rfl, (assignWindowIds_numbered specEq (fun a b h => ?_) (fun a b c h h' => ?_) twoCalls ?_).2 ⟨?_, ?_⟩⟩
  · exact specEq_iff.2 (specEq_iff.1 h).symm
  · exact specEq_iff.2 ((specEq_iff.1 h).trans (specEq_iff.1 h'))
  · intro e he x hx
    obtain ⟨func, column, rfl⟩ := mem_twoCalls he
    rcases within_rankingCall hx with rfl | rfl
    · rfl
    · rfl
  · intro e _ x _ w _
    exact specEq_iff.2 rfl
  · intro e he x hx w hw
    obtain ⟨func, column, rfl⟩ := mem_twoCalls he
    exact absurd hx (not_missed_rankingCall hw)

/-- A call in an arm of a CASE, with another call beside it. -/
def callInCase : SelectStmt String Unit :=
  ⟨[.expr (.case none [(.literal "true", rankingCall .rank "a")] none), .expr (rankingCall .rowNumber "b")], [], []⟩

/-- The call in the CASE is accepted, and gets the values of the other one. -/
theorem case_call_misnumbered :
    validateWindows noFilterOps callInCase = .ok () ∧
      ¬CallsNumbered specEq (collectWindows specEq callInCase)
        (assignWindowIds specEq callInCase (collectWindows specEq callInCase)) := by
  refine ⟨rfl, fun h => ?_⟩
  have hwindows : collectWindows specEq callInCase =
      [⟨.rowNumber, [], false, [], [⟨.column "b", false, none⟩], .default, none, .noOthers⟩] := rfl
  have hwithin : Within (rankingCall .rank "a")
      (.case none [(.literal "true", rankingCall .rank "a")] none) :=
    .skipped (show _ ∈ [Expr.literal "true", rankingCall .rank "a"] from by simp) .refl
  obtain ⟨found, hfound, hsame⟩ := h _ (List.mem_cons_self) _ hwithin _ rfl
  rw [hwindows] at hfound
  cases hfound
  have hspec := specEq_iff.1 hsame
  cases hspec

end Windows
