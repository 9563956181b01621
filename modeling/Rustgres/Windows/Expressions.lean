-- SUMMARY: Expressions, and the four traversals that look for window functions in them.
import Rustgres.Windows.Standard

/-!
# Window Calls in Expressions

A window call is looked up by its number among the specifications of the query level. One traversal validates where
the calls stand, one tells whether there are any, one collects their specifications, and one gives them their numbers.
-/

namespace Windows

/-! ## Expressions -/

/-- An expression; `O` holds the fields of a node that are no expressions, and `Q` the statements of subqueries, which
are query levels of their own. -/
inductive Expr (O Q : Type) where
  | column (d : O)
  | resolvedCol (d : O)
  | literal (d : O)
  | param (d : O)
  | arith (d : O) (left right : Expr O Q)
  | cast (d : O) (expr : Expr O Q)
  | castNamed (d : O) (expr : Expr O Q)
  | collate (d : O) (expr : Expr O Q)
  | collationFor (expr : Expr O Q)
  | atTimeZone (expr : Expr O Q) (zone : Option (Expr O Q))
  | row (elems : List (Expr O Q))
  | fieldAccess (d : O) (expr : Expr O Q)
  | concat (left right : Expr O Q)
  | jsonOp (d : O) (left right : Expr O Q)
  | like (d : O) (expr pattern : Expr O Q) (escape : Option (Expr O Q))
  | regex (d : O) (expr pattern : Expr O Q)
  | between (d : O) (expr low high : Expr O Q)
  | isBool (d : O) (expr : Expr O Q)
  | func (d : O) (args : List (Expr O Q))
  | namedArg (d : O) (expr : Expr O Q)
  | extract (d : O) (source : Expr O Q)
  | cmp (d : O) (left right : Expr O Q)
  | and (left right : Expr O Q)
  | or (left right : Expr O Q)
  | not (expr : Expr O Q)
  | bitNot (expr : Expr O Q)
  | neg (expr : Expr O Q)
  | case (operand : Option (Expr O Q)) (whens : List (Expr O Q × Expr O Q)) (otherwise : Option (Expr O Q))
  | isNull (d : O) (expr : Expr O Q)
  | isDistinctFrom (d : O) (left right : Expr O Q)
  | agg (d : O) (arg arg2 : Option (Expr O Q)) (aggOrderBy : List (OrderTerm (Expr O Q))) (filter : Option (Expr O Q))
  | withinGroup (d : O) (directArgs : List (Expr O Q)) (withinOrderBy : List (OrderTerm (Expr O Q)))
    (filter : Option (Expr O Q))
  | scalarSub (sub : Q)
  | jsonArraySubq (d : O) (query : Q)
  | arraySubquery (sub : Q)
  | arrayCtor (d : O) (elems : List (Expr O Q))
  | subscript (array : Expr O Q) (indices : List (Expr O Q))
  | slice (array : Expr O Q) (bounds : List (Option (Expr O Q) × Option (Expr O Q)))
  | wholeRow (d : O)
  | inSub (d : O) (expr : Expr O Q) (sub : Q)
  | quantified (d : O) (left : Expr O Q) (sub : Q)
  | userOp (d : O) (left right : Expr O Q)
  | «exists» (d : O) (sub : Q)
  | window (func : WindowFunc) (args : List (Expr O Q)) (distinct : Bool) (partitionBy : List (Expr O Q))
    (orderBy : List (OrderTerm (Expr O Q))) (frame : WindowFrame) (wid : Nat) (filter : Option (Expr O Q))
    (exclusion : FrameExclusion)

inductive SelectItem (O Q : Type) where
  | all
  | allOf (qualifier : String)
  | expr (expr : Expr O Q)

/-- The parts of a statement where window calls are legal. -/
structure SelectStmt (O Q : Type) where
  items : List (SelectItem O Q)
  orderBy : List (OrderTerm (Expr O Q))
  distinctOn : List (Expr O Q)

variable {O Q : Type}

/-! ## Whether there is a window call -/

mutual

def containsWindow : Expr O Q → Bool
  | .window .. => true
  | .namedArg _ expr => containsWindow expr
  | .collate _ expr | .collationFor expr => containsWindow expr
  | .column _ | .resolvedCol _ | .wholeRow _ | .literal _ | .param _ => false
  | .arith _ left right | .and left right | .or left right | .concat left right | .jsonOp _ left right =>
    containsWindow left || containsWindow right
  | .arrayCtor _ elems => containsAny elems
  | .row elems => containsAny elems
  | .castNamed _ expr | .fieldAccess _ expr => containsWindow expr
  | .atTimeZone expr zone => containsWindow expr || containsOpt zone
  | .subscript array indices => containsWindow array || containsAny indices
  | .slice array bounds => containsWindow array || containsBounds bounds
  | .cmp _ left right => containsWindow left || containsWindow right
  | .like _ expr pattern _ => containsWindow expr || containsWindow pattern
  | .regex _ expr pattern => containsWindow expr || containsWindow pattern
  | .between _ expr low high => containsWindow expr || containsWindow low || containsWindow high
  | .not x | .bitNot x | .neg x | .isNull _ x | .isBool _ x => containsWindow x
  | .case operand whens otherwise => containsOpt operand || containsWhens whens || containsOpt otherwise
  | .isDistinctFrom _ left right => containsWindow left || containsWindow right
  | .cast _ expr => containsWindow expr
  | .func _ args => containsAny args
  | .agg _ arg arg2 _ _ => containsOpt arg || containsOpt arg2
  | .withinGroup _ directArgs withinOrderBy filter =>
    containsAny directArgs || containsTerms withinOrderBy || containsOpt filter
  | .extract _ source => containsWindow source
  | .inSub _ expr _ => containsWindow expr
  | .quantified _ left _ => containsWindow left
  | .userOp _ left right => containsWindow left || containsWindow right
  | .scalarSub _ | .jsonArraySubq _ _ | .arraySubquery _ | .exists _ _ => false

def containsAny : List (Expr O Q) → Bool
  | [] => false
  | e :: es => containsWindow e || containsAny es

def containsOpt : Option (Expr O Q) → Bool
  | none => false
  | some e => containsWindow e

def containsWhens : List (Expr O Q × Expr O Q) → Bool
  | [] => false
  | (k, r) :: whens => containsWindow k || containsWindow r || containsWhens whens

def containsBounds : List (Option (Expr O Q) × Option (Expr O Q)) → Bool
  | [] => false
  | (l, u) :: bounds => containsOpt l || containsOpt u || containsBounds bounds

def containsTerms : List (OrderTerm (Expr O Q)) → Bool
  | [] => false
  | ⟨e, _, _⟩ :: terms => containsWindow e || containsTerms terms

end

/-! ## Where window calls may stand -/

/-- Traversals that a FILTER is checked with: grouping operations, aggregates and set-returning functions in it. -/
structure FilterOps (O Q : Type) where
  containsGrouping : Expr O Q → Bool
  containsAgg : Expr O Q → Bool
  containsSrf : Expr O Q → Bool

def checkAggWindowArity (f : AggFunc) (n : Nat) : Bool :=
  match f with
  | .count => n ≤ 1
  | .sum | .avg | .min | .max | .boolAnd | .bitAnd | .bitOr | .bitXor | .varianceSamp | .variancePop
  | .stddevSamp | .stddevPop | .arrayAgg => n == 1
  | .stringAgg => false
  | .jsonAgg | .jsonbAgg => n == 1
  | .jsonObjectAgg | .jsonbObjectAgg => false
  | .jsonArrayAgg => n == 1
  | .jsonObjectAggSql => n == 2
  | .rangeAgg | .rangeIntersectAgg => n == 1

def windowArityOk (func : WindowFunc) (n : Nat) : Bool :=
  match func with
  | .rowNumber | .rank | .denseRank => n == 0
  | .ntile => n == 1
  | .lag | .lead => 1 ≤ n && n ≤ 3
  | .firstValue | .lastValue => n == 1
  | .nthValue => n == 2
  | .agg f => checkAggWindowArity f n

def checkWindowArity (func : WindowFunc) (n : Nat) : Except ExecError Unit :=
  if windowArityOk func n then .ok ()
  else .error (execError "42883" ("wrong number of arguments to window function (got " ++ toString n ++ ")"))

def errNested : ExecError := execError "42803" "window functions cannot be nested"

/-- What a FILTER may not hold. -/
def checkFilter (F : FilterOps O Q) (filter : Expr O Q) : Except ExecError Unit :=
  if F.containsGrouping filter then
    .error (execError "42803" "grouping operations are not allowed in FILTER")
  else if F.containsAgg filter then
    .error (execError "42803" "aggregate functions are not allowed in FILTER")
  else if containsWindow filter then
    .error (execError "42803" "window functions are not allowed in FILTER")
  else if F.containsSrf filter then
    .error (execError "0A000" "set-returning functions are not allowed in FILTER")
  else .ok ()

section

variable (F : FilterOps O Q)

mutual

def validateWindowExpr (inAgg : Bool) : Expr O Q → Except ExecError Unit
  | .window func args distinct partitionBy orderBy frame _ _ _ => do
    if inAgg then .error (execError "42803" "window functions are not allowed in aggregate arguments")
    checkWindowArity func args.length
    if distinct then .error (execError "0A000" "DISTINCT is not implemented for window functions")
    validateInputs args
    validateInputs partitionBy
    validateInputTerms orderBy
    checkWindowFrame frame orderBy.length
  | .agg _ arg arg2 aggOrderBy filter => do
    validateOpt true arg
    validateOpt true arg2
    validateTerms true aggOrderBy
    validateFilter filter
  | .withinGroup _ directArgs withinOrderBy filter => do
    validateAll true directArgs
    validateTerms true withinOrderBy
    validateFilter filter
  | .arith _ left right | .and left right | .or left right | .jsonOp _ left right | .concat left right => do
    validateWindowExpr inAgg left
    validateWindowExpr inAgg right
  | .namedArg _ expr => validateWindowExpr inAgg expr
  | .collate _ expr | .collationFor expr => validateWindowExpr inAgg expr
  | .cmp _ left right => do
    validateWindowExpr inAgg left
    validateWindowExpr inAgg right
  | .castNamed _ expr | .fieldAccess _ expr => validateWindowExpr inAgg expr
  | .row elems => validateAll inAgg elems
  | .like _ expr pattern _ => do
    validateWindowExpr inAgg expr
    validateWindowExpr inAgg pattern
  | .regex _ expr pattern => do
    validateWindowExpr inAgg expr
    validateWindowExpr inAgg pattern
  | .between _ expr low high => do
    validateWindowExpr inAgg expr
    validateWindowExpr inAgg low
    validateWindowExpr inAgg high
  | .not x | .bitNot x | .neg x | .isNull _ x | .isBool _ x => validateWindowExpr inAgg x
  | .arrayCtor _ elems => validateAll inAgg elems
  | .subscript array indices => do
    validateWindowExpr inAgg array
    validateAll inAgg indices
  | .slice array bounds => do
    validateWindowExpr inAgg array
    validateBounds inAgg bounds
  | .case operand whens otherwise => do
    validateOpt inAgg operand
    validateWhens inAgg whens
    validateOpt inAgg otherwise
  | .isDistinctFrom _ left right => do
    validateWindowExpr inAgg left
    validateWindowExpr inAgg right
  | .cast _ expr => validateWindowExpr inAgg expr
  | .atTimeZone expr zone => do
    validateWindowExpr inAgg expr
    validateOpt inAgg zone
  | .func _ args => validateAll inAgg args
  | .extract _ source => validateWindowExpr inAgg source
  | .inSub _ expr _ => validateWindowExpr inAgg expr
  | .quantified _ left _ => validateWindowExpr inAgg left
  | .userOp _ left right => do
    validateWindowExpr inAgg left
    validateWindowExpr inAgg right
  | .column _ | .resolvedCol _ | .wholeRow _ | .literal _ | .param _ | .scalarSub _ | .jsonArraySubq _ _
  | .arraySubquery _ | .exists _ _ => .ok ()

def validateAll (inAgg : Bool) : List (Expr O Q) → Except ExecError Unit
  | [] => .ok ()
  | e :: es => do
    validateWindowExpr inAgg e
    validateAll inAgg es

def validateOpt (inAgg : Bool) : Option (Expr O Q) → Except ExecError Unit
  | none => .ok ()
  | some e => validateWindowExpr inAgg e

def validateWhens (inAgg : Bool) : List (Expr O Q × Expr O Q) → Except ExecError Unit
  | [] => .ok ()
  | (k, r) :: whens => do
    validateWindowExpr inAgg k
    validateWindowExpr inAgg r
    validateWhens inAgg whens

def validateBounds (inAgg : Bool) : List (Option (Expr O Q) × Option (Expr O Q)) → Except ExecError Unit
  | [] => .ok ()
  | (l, u) :: bounds => do
    validateOpt inAgg l
    validateOpt inAgg u
    validateBounds inAgg bounds

def validateTerms (inAgg : Bool) : List (OrderTerm (Expr O Q)) → Except ExecError Unit
  | [] => .ok ()
  | ⟨e, _, _⟩ :: terms => do
    validateWindowExpr inAgg e
    validateTerms inAgg terms

/-- The arguments and the partition of a window. -/
def validateInputs : List (Expr O Q) → Except ExecError Unit
  | [] => .ok ()
  | e :: es => do
    if containsWindow e then .error errNested
    validateWindowExpr false e
    validateInputs es

def validateInputTerms : List (OrderTerm (Expr O Q)) → Except ExecError Unit
  | [] => .ok ()
  | ⟨e, _, _⟩ :: terms => do
    if containsWindow e then .error errNested
    validateWindowExpr false e
    validateInputTerms terms

def validateFilter : Option (Expr O Q) → Except ExecError Unit
  | none => .ok ()
  | some f => do
    checkFilter F f
    validateWindowExpr true f

end

def validateItems : List (SelectItem O Q) → Except ExecError Unit
  | [] => .ok ()
  | .expr e :: items => do
    validateWindowExpr F false e
    validateItems items
  | _ :: items => validateItems items

def validateWindows (stmt : SelectStmt O Q) : Except ExecError Unit := do
  validateItems F stmt.items
  validateTerms F false stmt.orderBy
  validateAll F false stmt.distinctOn

end

/-! ## The specifications -/

/-- The specification of a window call. -/
def specOf : Expr O Q → Option (ExecWindow (Expr O Q))
  | .window func args distinct partitionBy orderBy frame _ filter exclusion =>
    some ⟨func, args, distinct, partitionBy, orderBy, frame, filter, exclusion⟩
  | _ => none

mutual

/-- The specifications that the walk over an expression comes to, in their order. -/
def walk : Expr O Q → List (ExecWindow (Expr O Q))
  | .window func args distinct partitionBy orderBy frame _ filter exclusion =>
    [⟨func, args, distinct, partitionBy, orderBy, frame, filter, exclusion⟩]
  | .arith _ left right | .and left right | .or left right | .concat left right => walk left ++ walk right
  | .cmp _ left right => walk left ++ walk right
  | .like _ expr pattern _ => walk expr ++ walk pattern
  | .regex _ expr pattern => walk expr ++ walk pattern
  | .between _ expr low high => walk expr ++ walk low ++ walk high
  | .not x | .bitNot x | .neg x | .isNull _ x | .isBool _ x => walk x
  | .isDistinctFrom _ left right => walk left ++ walk right
  | .cast _ expr => walk expr
  | .func _ args => walkAll args
  | .agg _ arg arg2 _ _ => walkOpt arg ++ walkOpt arg2
  | .extract _ source => walk source
  | .inSub _ expr _ => walk expr
  | _ => []

def walkAll : List (Expr O Q) → List (ExecWindow (Expr O Q))
  | [] => []
  | e :: es => walk e ++ walkAll es

def walkOpt : Option (Expr O Q) → List (ExecWindow (Expr O Q))
  | none => []
  | some e => walk e

end

def itemExprs (items : List (SelectItem O Q)) : List (Expr O Q) :=
  items.filterMap fun
    | .expr e => some e
    | _ => none

/-- The expressions of a statement that are walked, in their order. -/
def SelectStmt.exprs (stmt : SelectStmt O Q) : List (Expr O Q) :=
  itemExprs stmt.items ++ stmt.orderBy.map (·.expr) ++ stmt.distinctOn

variable (same : ExecWindow (Expr O Q) → ExecWindow (Expr O Q) → Bool)

def pushWindow (out : List (ExecWindow (Expr O Q))) (w : ExecWindow (Expr O Q)) : List (ExecWindow (Expr O Q)) :=
  if out.any (same · w) then out else out ++ [w]

def collectWindows (stmt : SelectStmt O Q) : List (ExecWindow (Expr O Q)) :=
  (walkAll stmt.exprs).foldl (pushWindow same) []

/-! ## The numbers -/

def windowId (windows : List (ExecWindow (Expr O Q))) (w : ExecWindow (Expr O Q)) : Nat :=
  (windows.findIdx? (same · w)).getD 0

mutual

def stamp (windows : List (ExecWindow (Expr O Q))) : Expr O Q → Expr O Q
  | .window func args distinct partitionBy orderBy frame _ filter exclusion =>
    .window func args distinct partitionBy orderBy frame
      (windowId same windows ⟨func, args, distinct, partitionBy, orderBy, frame, filter, exclusion⟩) filter exclusion
  | .arith d left right => .arith d (stamp windows left) (stamp windows right)
  | .and left right => .and (stamp windows left) (stamp windows right)
  | .or left right => .or (stamp windows left) (stamp windows right)
  | .concat left right => .concat (stamp windows left) (stamp windows right)
  | .cmp d left right => .cmp d (stamp windows left) (stamp windows right)
  | .like d expr pattern escape => .like d (stamp windows expr) (stamp windows pattern) escape
  | .regex d expr pattern => .regex d (stamp windows expr) (stamp windows pattern)
  | .between d expr low high => .between d (stamp windows expr) (stamp windows low) (stamp windows high)
  | .not x => .not (stamp windows x)
  | .bitNot x => .bitNot (stamp windows x)
  | .neg x => .neg (stamp windows x)
  | .isNull d x => .isNull d (stamp windows x)
  | .isBool d x => .isBool d (stamp windows x)
  | .isDistinctFrom d left right => .isDistinctFrom d (stamp windows left) (stamp windows right)
  | .cast d expr => .cast d (stamp windows expr)
  | .func d args => .func d (stampAll windows args)
  | .agg d arg arg2 aggOrderBy filter => .agg d (stampOpt windows arg) (stampOpt windows arg2) aggOrderBy filter
  | .extract d source => .extract d (stamp windows source)
  | .inSub d expr sub => .inSub d (stamp windows expr) sub
  | e => e

def stampAll (windows : List (ExecWindow (Expr O Q))) : List (Expr O Q) → List (Expr O Q)
  | [] => []
  | e :: es => stamp windows e :: stampAll windows es

def stampOpt (windows : List (ExecWindow (Expr O Q))) : Option (Expr O Q) → Option (Expr O Q)
  | none => none
  | some e => some (stamp windows e)

end

def stampItem (windows : List (ExecWindow (Expr O Q))) : SelectItem O Q → SelectItem O Q
  | .expr e => .expr (stamp same windows e)
  | item => item

def assignWindowIds (stmt : SelectStmt O Q) (windows : List (ExecWindow (Expr O Q))) : SelectStmt O Q where
  items := stmt.items.map (stampItem same windows)
  orderBy := stmt.orderBy.map fun o => { o with expr := stamp same windows o.expr }
  distinctOn := stmt.distinctOn.map (stamp same windows)

end Windows
