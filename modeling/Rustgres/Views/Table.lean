-- SUMMARY: INSERT, UPDATE and DELETE on a table, with the rows they return and the rows they leave.
import Rustgres.Lib.Loops
import Rustgres.Views.AutoView

/-!
# Statements on a Table

The rows that `RETURNING` sees are those that were planned. An UPDATE plans a row before its generated
columns are computed and its triggers run; what it leaves in the table comes after them.
-/

open Terms Loops

namespace Views

variable {V F S : Type}

/-! ## Statements -/

inductive InsertValue (F S : Type) where
  | default
  | expr (e : Expr F S)

inductive ConflictAction (F S : Type) where
  | doNothing
  | doUpdate (sets : List (String × Expr F S)) (where_ : Option (Expr F S))

structure OnConflict (F S : Type) where
  arbiter : Option (List String)
  action : ConflictAction F S

structure InsertStmt (F S : Type) where
  columns : Option (List String)
  rows : List (List (InsertValue F S))
  onConflict : Option (OnConflict F S)

/-- The rows of the `FROM` or `USING` items, and the names of the tables among these. -/
structure FromClause (V : Type) where
  names : List String
  rows : List (Scope V)

structure UpdateStmt (V F S : Type) where
  alias_ : Option String
  sets : List (String × Expr F S)
  from_ : Option (FromClause V)
  where_ : Option (Expr F S)

structure DeleteStmt (V F S : Type) where
  alias_ : Option String
  using_ : Option (FromClause V)
  where_ : Option (Expr F S)

/-- The rows that a statement returns, those that it leaves, and the table after it. -/
structure Written (V : Type) where
  captured : List (List V)
  stored : List (List V)
  rows : List (List V)
deriving DecidableEq

/-! ## Rows -/

def scopeOf (qual : String) (names : List String) (row : List V) : Scope V :=
  (names.zip row).map fun c => (⟨qual, c.1, false⟩, c.2)

section

variable (sem : Semantics V F S)

def null : V := sem.bool3 none

/-- NULL or false skips the row. -/
def evalCond (scope : Scope V) : Option (Expr F S) → Except ExecError Bool
  | none => .ok true
  | some e => do
    let v ← eval sem scope e
    return sem.asBool3 v = some (some true)

/-- The scope of the last match among the `FROM` rows. -/
def matchRow (where_ : Option (Expr F S)) (target : Scope V) :
    Option (FromClause V) → Except ExecError (Option (Scope V))
  | none => do
    let found ← evalCond sem target where_
    return if found then some target else none
  | some items =>
    items.rows.foldlM (fun last row => do
      let found ← evalCond sem (row ++ target) where_
      return if found then some (row ++ target) else last) none

namespace Table

variable (t : Table V F S)

def noSetColumn (name : String) : ExecError :=
  execError "42703" ("column \"" ++ name ++ "\" of relation \"" ++ t.name ++ "\" does not exist")

/-- The positions of the assigned columns. -/
def setCols (sets : List (String × Expr F S)) : Except ExecError (List (Nat × String × Expr F S)) :=
  sets.mapM fun set =>
    match t.columns.findIdx? (· = set.1) with
    | none => .error (t.noSetColumn set.1)
    | some pos => .ok (pos, set.1, set.2)

/-- An UPDATE cannot assign a generated column. -/
def checkNotGenerated (sets : List (Nat × String × Expr F S)) : Except ExecError Unit :=
  match sets.find? fun set => (t.generated[set.1]?.join).isSome with
  | some set => .error (execError "428C9" ("column \"" ++ set.2.1 ++ "\" can only be updated to DEFAULT"))
  | none => .ok ()

/-- All assignments see the old row. -/
def assign (scope : Scope V) (sets : List (Nat × String × Expr F S)) (old : List V) :
    Except ExecError (List V) :=
  sets.foldlM (fun new set => do
    let v ← eval sem scope set.2.2
    let v ← t.coerce set.2.1 v
    return new.set set.1 v) old

/-- Each generated column is computed over the row as far as it is known. -/
def computeGenerated (row : List V) : Except ExecError (List V) :=
  (t.columns.zip t.generated).zipIdx.foldlM (fun row col =>
    match col.1.2 with
    | none => .ok row
    | some e => do
      let v ← eval sem (scopeOf "" t.columns row) e
      let v ← t.coerce col.1.1 v
      return row.set col.2 v) row

/-! ## UPDATE -/

def multipleAssignments (name : String) : ExecError :=
  execError "42701" ("multiple assignments to same column \"" ++ name ++ "\"")

def checkDuplicateSets : List String → List (String × Expr F S) → Except ExecError Unit
  | _, [] => .ok ()
  | seen, (name, _) :: sets =>
    if name ∈ seen then .error (multipleAssignments name)
    else checkDuplicateSets (name :: seen) sets

/-- The target may not be among the `FROM` tables, whatever its alias. -/
def checkFromNames : Option (FromClause V) → Except ExecError Unit
  | none => .ok ()
  | some items =>
    match items.names.find? fun name =>
      (unqualified name).toList.map Char.toLower = (unqualified t.name).toList.map Char.toLower with
    | some name =>
      .error (execError "42712"
        ("table name \"" ++ unqualified name ++ "\" specified more than once"))
    | none => .ok ()

/-- The new row as assigned, and with its generated columns. -/
def planUpdate (stmt : UpdateStmt V F S) (sets : List (Nat × String × Expr F S)) (old : List V) :
    Except ExecError (Option (List V × List V)) := do
  let target := scopeOf (stmt.alias_.getD t.name) t.columns old
  match ← matchRow sem stmt.where_ target stmt.from_ with
  | none => return none
  | some scope =>
    let new ← t.assign sem scope sets old
    let image ← t.computeGenerated sem new
    t.checkRow image
    return some (new, image)

/-- What becomes of a row: it stays, or a new one takes its place unless a trigger drops that. -/
def applyUpdate (old : List V) (plan : Option (List V × List V)) :
    Except ExecError (List V × Option (List V)) :=
  match plan with
  | none => .ok (old, none)
  | some (_, image) => do
    match ← t.beforeUpdate old image with
    | none => return (old, none)
    | some new => return (new, some new)

def execUpdate (stmt : UpdateStmt V F S) (rows : List (List V)) : Except ExecError (Written V) := do
  checkDuplicateSets [] stmt.sets
  t.checkFromNames stmt.from_
  let sets ← t.setCols stmt.sets
  t.checkNotGenerated sets
  let plans ← rows.mapM (t.planUpdate sem stmt sets)
  t.checkRows ((rows.zip plans).map fun p => (p.2.map (·.2)).getD p.1)
  let results ← (rows.zip plans).mapM fun p => t.applyUpdate p.1 p.2
  return ⟨plans.filterMap fun p => p.map (·.1), results.filterMap (·.2), results.map (·.1)⟩

/-! ## DELETE -/

/-- Whether the row goes. -/
def planDelete (stmt : DeleteStmt V F S) (old : List V) : Except ExecError Bool := do
  let target := scopeOf (stmt.alias_.getD t.name) t.columns old
  match ← matchRow sem stmt.where_ target stmt.using_ with
  | none => return false
  | some _ => t.beforeDelete old

def execDelete (stmt : DeleteStmt V F S) (rows : List (List V)) : Except ExecError (Written V) := do
  let gone ← rows.mapM (t.planDelete sem stmt)
  let pairs := rows.zip gone
  return ⟨(pairs.filter (·.2)).map (·.1), [], (pairs.filter fun p => !p.2).map (·.1)⟩

/-! ## INSERT -/

def evalDefault (pos : Nat) : Except ExecError V :=
  match t.defaults[pos]?.join with
  | none => .ok (null sem)
  | some e => do
    let v ← eval sem [] e
    t.coerce (t.columns[pos]?.getD "") v

/-- The positions that an INSERT fills: without a list, as many of the first as the first row has. -/
def targets (stmt : InsertStmt F S) : Except ExecError (List Nat) :=
  match stmt.columns with
  | none =>
    let width := (stmt.rows.head?.map List.length).getD 0
    if t.columns.length < width then
      .error (execError "42601" "INSERT has more expressions than target columns")
    else .ok (List.range width)
  | some names => names.mapM fun name =>
    match t.columns.findIdx? (· = name) with
    | none => .error (t.noSetColumn name)
    | some pos => .ok pos

def widthError (listed : Bool) (width targets : Nat) : ExecError :=
  execError "42601" <|
    if listed then
      "INSERT has " ++ toString width ++ " expressions but " ++ toString targets ++ " target columns"
    else "VALUES lists must all be the same length"

/-- The value of a column that is filled, or its default. -/
def fill (value : Option (InsertValue F S)) (pos : Nat) : Except ExecError V :=
  match value with
  | some (.expr e) =>
    if (t.generated[pos]?.join).isSome then
      .error (execError "428C9" ("cannot insert a non-DEFAULT value into column \"" ++
        t.columns[pos]?.getD "" ++ "\""))
    else do
      let v ← eval sem [] e
      t.coerce (t.columns[pos]?.getD "") v
  | some .default | none => t.evalDefault sem pos

/-- A candidate row: its values, defaults elsewhere, and its generated columns. -/
def buildRow (targets : List Nat) (listed : Bool) (values : List (InsertValue F S)) :
    Except ExecError (List V) := do
  if values.length ≠ targets.length then .error (widthError listed values.length targets.length)
  else
    let row ← (List.range t.columns.length).mapM fun pos =>
      t.fill sem (((targets.zip values).find? (·.1 = pos)).map (·.2)) pos
    let row ← t.computeGenerated sem row
    t.checkRow row
    return row

/-- The rows so far: those returned, those left, the table, and the places of the ones that an
`ON CONFLICT` action has updated. -/
structure Progress (V : Type) where
  captured : List (List V)
  stored : List (List V)
  rows : List (List V)
  updated : List Nat

/-- A conflict's row under the table's name, and the proposed row as `excluded`. -/
def conflictScope (old proposed : List V) : Scope V :=
  ((t.columns.zip proposed).map fun c => (⟨"excluded", c.1, true⟩, c.2)) ++
    scopeOf t.name t.columns old

/-- Insert a row, or do what `ON CONFLICT` says. The update is stored before its generated columns
are computed. -/
def insertOne (onConflict : Option (OnConflict F S)) (p : Progress V) (row : List V) :
    Except ExecError (Progress V) :=
  match onConflict with
  | none => .ok { p with
      captured := p.captured ++ [row], stored := p.stored ++ [row], rows := p.rows ++ [row] }
  | some oc =>
    match t.conflict oc.arbiter p.rows row with
    | none => .ok { p with
        captured := p.captured ++ [row], stored := p.stored ++ [row], rows := p.rows ++ [row] }
    | some pos =>
      match oc.action with
      | .doNothing => .ok p
      | .doUpdate sets where_ =>
        if pos ∈ p.updated then
          .error (execError "21000" "ON CONFLICT DO UPDATE command cannot affect row a second time")
        else do
          let old := p.rows[pos]?.getD []
          let scope := t.conflictScope old row
          if ← evalCond sem scope where_ then
            let sets ← t.setCols sets
            let new ← t.assign sem scope sets old
            let image ← t.computeGenerated sem new
            t.checkRow image
            return ⟨p.captured ++ [image], p.stored ++ [new], p.rows.set pos new, pos :: p.updated⟩
          else return { p with updated := pos :: p.updated }

/-- The assignments of `ON CONFLICT DO UPDATE` are checked before any row is built. -/
def planUpsert (onConflict : Option (OnConflict F S)) : Except ExecError Unit :=
  match onConflict with
  | some ⟨_, .doUpdate sets _⟩ => do
    checkDuplicateSets [] sets
    let _ ← t.setCols sets
    return ()
  | _ => .ok ()

/-- With `ON CONFLICT` uniqueness is dealt with row by row. -/
def checkInsert (onConflict : Option (OnConflict F S)) (rows : List (List V)) : Except ExecError Unit :=
  if onConflict.isNone then t.checkRows rows else .ok ()

def execInsert (stmt : InsertStmt F S) (rows : List (List V)) : Except ExecError (Written V) := do
  t.planUpsert stmt.onConflict
  let targets ← t.targets stmt
  let built ← stmt.rows.mapM (t.buildRow sem targets stmt.columns.isSome)
  t.checkInsert stmt.onConflict (rows ++ built)
  let fired ← built.mapM t.beforeInsert
  let news := fired.filterMap id
  news.forM t.checkRow
  let p ← news.foldlM (t.insertOne sem stmt.onConflict) ⟨[], [], rows, []⟩
  return ⟨p.captured, p.stored, p.rows⟩

/-! ## What is returned and what is left -/

/-- An UPDATE leaves the rows that it planned, or drops them: no generated column is computed and no
trigger puts another row in the place of the new one. -/
def KeepsPlanned : Prop :=
  (∀ row image, t.computeGenerated sem row = .ok image → image = row) ∧
    ∀ old image new, t.beforeUpdate old image = .ok (some new) → new = image

variable {sem t}

theorem length_assign {scope : Scope V} {sets : List (Nat × String × Expr F S)} {old new : List V}
    (h : t.assign sem scope sets old = .ok new) : new.length = old.length := by
  refine foldlM_invariant (P := fun row : List V => row.length = old.length) h ?_ rfl
  intro set _ row row' hrow hstep
  obtain ⟨v, -, hstep⟩ := bind_eq_ok hstep
  obtain ⟨w, -, hstep⟩ := bind_eq_ok hstep
  cases hstep
  rw [List.length_set, hrow]

theorem length_computeGenerated {row image : List V} (h : t.computeGenerated sem row = .ok image) :
    image.length = row.length := by
  refine foldlM_invariant (P := fun r : List V => r.length = row.length) h ?_ rfl
  intro col _ r r' hr hstep
  split at hstep
  · cases hstep
    exact hr
  · obtain ⟨v, -, hstep⟩ := bind_eq_ok hstep
    obtain ⟨w, -, hstep⟩ := bind_eq_ok hstep
    cases hstep
    rw [List.length_set, hr]

/-- Progress of an INSERT: all rows are as wide as the table, and those left are among those returned
where updates keep the planned rows. -/
structure Progress.Ok (t : Table V F S) (faithful : Prop) (p : Progress V) : Prop where
  rows : ∀ row ∈ p.rows, row.length = t.columns.length
  captured : ∀ row ∈ p.captured, row.length = t.columns.length
  stored : faithful → ∀ row ∈ p.stored, row ∈ p.captured

theorem Progress.Ok.append {faithful : Prop} {p : Progress V} {row : List V} (h : p.Ok t faithful)
    (hrow : row.length = t.columns.length) :
    Progress.Ok t faithful { p with
      captured := p.captured ++ [row], stored := p.stored ++ [row], rows := p.rows ++ [row] } := by
  constructor
  · intro r hr
    rcases List.mem_append.1 hr with hr | hr
    · exact h.rows r hr
    · exact List.mem_singleton.1 hr ▸ hrow
  · intro r hr
    rcases List.mem_append.1 hr with hr | hr
    · exact h.captured r hr
    · exact List.mem_singleton.1 hr ▸ hrow
  · intro hf r hr
    rcases List.mem_append.1 hr with hr | hr
    · exact List.mem_append_left _ (h.stored hf r hr)
    · exact List.mem_append_right _ hr

theorem insertOne_ok {onConflict : Option (OnConflict F S)} {p p' : Progress V} {row : List V}
    (h : p.Ok t (onConflict = none ∨ t.KeepsPlanned sem)) (hrow : row.length = t.columns.length)
    (hstep : t.insertOne sem onConflict p row = .ok p') :
    p'.Ok t (onConflict = none ∨ t.KeepsPlanned sem) := by
  unfold insertOne at hstep
  split at hstep
  · cases hstep
    exact h.append hrow
  · rename_i oc
    cases hpos : t.conflict oc.arbiter p.rows row with
    | none =>
        simp only [hpos, Except.ok.injEq] at hstep
        subst hstep
        exact h.append hrow
    | some pos =>
        simp only [hpos] at hstep
        split at hstep
        · cases hstep
          exact h
        · split at hstep
          · cases hstep
          · obtain ⟨found, -, hstep⟩ := bind_eq_ok hstep
            cases found with
            | false =>
                cases hstep
                exact ⟨h.rows, h.captured, h.stored⟩
            | true =>
                obtain ⟨sets, -, hstep⟩ := bind_eq_ok hstep
                obtain ⟨new, hnew, hstep⟩ := bind_eq_ok hstep
                obtain ⟨image, himage, hstep⟩ := bind_eq_ok hstep
                obtain ⟨_, -, hstep⟩ := bind_eq_ok hstep
                cases hstep
                have hlt := t.conflict_lt _ _ _ _ hpos
                have hold : (p.rows[pos]?.getD []).length = t.columns.length := by
                  rw [List.getElem?_eq_getElem hlt]
                  exact h.rows _ (List.getElem_mem hlt)
                have hnewlen : new.length = t.columns.length := (length_assign hnew).trans hold
                constructor
                · intro r hr
                  rcases List.mem_or_eq_of_mem_set hr with hr | rfl
                  · exact h.rows r hr
                  · exact hnewlen
                · intro r hr
                  rcases List.mem_append.1 hr with hr | hr
                  · exact h.captured r hr
                  · rw [List.mem_singleton.1 hr, length_computeGenerated himage, hnewlen]
                · rintro (hf | hf) r hr
                  · cases hf
                  · rcases List.mem_append.1 hr with hr | hr
                    · exact List.mem_append_left _ (h.stored (.inr hf) r hr)
                    · rw [hf.1 _ _ himage]
                      exact List.mem_append_right _ hr

theorem execInsert_captured {stmt : InsertStmt F S} {rows : List (List V)} {out : Written V}
    (hrows : ∀ row ∈ rows, row.length = t.columns.length)
    (h : t.execInsert sem stmt rows = .ok out) :
    (∀ row ∈ out.captured, row.length = t.columns.length) ∧
      (stmt.onConflict = none ∨ t.KeepsPlanned sem → ∀ row ∈ out.stored, row ∈ out.captured) := by
  unfold execInsert at h
  obtain ⟨_, -, h⟩ := bind_eq_ok h
  obtain ⟨targets, -, h⟩ := bind_eq_ok h
  obtain ⟨built, -, h⟩ := bind_eq_ok h
  obtain ⟨_, -, h⟩ := bind_eq_ok h
  obtain ⟨fired, hfired, h⟩ := bind_eq_ok h
  obtain ⟨_, -, h⟩ := bind_eq_ok h
  obtain ⟨p, hp, h⟩ := bind_eq_ok h
  cases h
  have hok : p.Ok t (stmt.onConflict = none ∨ t.KeepsPlanned sem) := by
    refine foldlM_invariant hp ?_ ⟨hrows, by simp, by simp⟩
    intro row hrow p p' hok hstep
    refine insertOne_ok hok ?_ hstep
    obtain ⟨new, hnew, rfl⟩ := List.mem_filterMap.1 hrow
    obtain ⟨r, -, hr⟩ := exists_of_mem_mapM hfired hnew
    exact t.beforeInsert_length r row hr
  exact ⟨hok.captured, hok.stored⟩

theorem planUpdate_eq_some {stmt : UpdateStmt V F S} {sets : List (Nat × String × Expr F S)}
    {old new image : List V} (h : t.planUpdate sem stmt sets old = .ok (some (new, image))) :
    new.length = old.length ∧ t.computeGenerated sem new = .ok image := by
  unfold planUpdate at h
  obtain ⟨found, -, h⟩ := bind_eq_ok h
  cases found with
  | none => cases h
  | some scope =>
      obtain ⟨new', hnew, h⟩ := bind_eq_ok h
      obtain ⟨image', himage, h⟩ := bind_eq_ok h
      obtain ⟨_, -, h⟩ := bind_eq_ok h
      cases h
      exact ⟨length_assign hnew, himage⟩

theorem applyUpdate_eq_some {old new result : List V} {plan : Option (List V × List V)}
    (h : t.applyUpdate old plan = .ok (result, some new)) :
    ∃ p, plan = some p ∧ t.beforeUpdate old p.2 = .ok (some new) := by
  unfold applyUpdate at h
  split at h
  · cases h
  · rename_i captured image
    obtain ⟨fired, hfired, h⟩ := bind_eq_ok h
    cases fired with
    | none => cases h
    | some new' =>
        cases h
        exact ⟨_, rfl, hfired⟩

theorem execUpdate_captured {stmt : UpdateStmt V F S} {rows : List (List V)} {out : Written V}
    (hrows : ∀ row ∈ rows, row.length = t.columns.length)
    (h : t.execUpdate sem stmt rows = .ok out) :
    (∀ row ∈ out.captured, row.length = t.columns.length) ∧
      (t.KeepsPlanned sem → ∀ row ∈ out.stored, row ∈ out.captured) := by
  unfold execUpdate at h
  obtain ⟨_, -, h⟩ := bind_eq_ok h
  obtain ⟨_, -, h⟩ := bind_eq_ok h
  obtain ⟨sets, -, h⟩ := bind_eq_ok h
  obtain ⟨_, -, h⟩ := bind_eq_ok h
  obtain ⟨plans, hplans, h⟩ := bind_eq_ok h
  obtain ⟨_, -, h⟩ := bind_eq_ok h
  obtain ⟨results, hresults, h⟩ := bind_eq_ok h
  cases h
  constructor
  · intro row hrow
    obtain ⟨plan, hplan, hcap⟩ := List.mem_filterMap.1 hrow
    obtain ⟨⟨new, image⟩, rfl, rfl⟩ := Option.map_eq_some_iff.1 hcap
    obtain ⟨old, hold, hpl⟩ := exists_of_mem_mapM hplans hplan
    rw [(planUpdate_eq_some hpl).1, hrows old hold]
  · intro hkeeps row hrow
    obtain ⟨⟨result, new⟩, hresult, rfl⟩ := List.mem_filterMap.1 hrow
    obtain ⟨⟨old, plan⟩, hpair, happly⟩ := exists_of_mem_mapM hresults hresult
    obtain ⟨⟨captured, image⟩, rfl, htrigger⟩ := applyUpdate_eq_some happly
    have hplan : some (captured, image) ∈ plans := (List.of_mem_zip hpair).2
    obtain ⟨old', -, hpl⟩ := exists_of_mem_mapM hplans hplan
    obtain ⟨-, himage⟩ := planUpdate_eq_some hpl
    rw [hkeeps.2 _ _ _ htrigger, hkeeps.1 _ _ himage]
    exact List.mem_filterMap.2 ⟨_, hplan, rfl⟩

end Table

end

end Views
