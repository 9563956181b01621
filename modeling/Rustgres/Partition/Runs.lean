-- SUMMARY: The partition invariant over whole runs of statements, and a run that breaks it.
import Rustgres.Partition.Attach
import Rustgres.Partition.Updates

/-!
# Runs

Every state that a session reaches keeps siblings apart and rows in their bounds, as long as its
statements meet the conditions that the code does not check.
-/

open Loops Forest

namespace Partition

section

variable {V E T L : Type} {sem : KeySem V E T L}

/-- What holds of partitions: siblings accept no common key, rows are in the bounds of their table and
of all above it, a row of a default partition is accepted by no sibling, and routing does not depend on
the order of children. -/
structure Sound (db : Db sem) : Prop where
  siblings : ∀ {parent pinfo cols key a b}, partitionOf db parent = some pinfo →
    colsOf db parent = some cols → a ∈ pinfo.children → b ∈ pinfo.children → a ≠ b →
    KeyTyped sem (keyTypes sem pinfo cols) key →
    ¬ (explicitAccepts db pinfo key a ∧ explicitAccepts db pinfo key b)
  rows : ∀ {name row}, Stored db name row → Satisfied db name row
  default : ∀ {name row d drow dinfo parent pinfo dcols cols}, Stored db name row →
    Carried db name row d drow → partitionOf db d = some dinfo → dinfo.isDefault →
    dinfo.parent = some parent → partitionOf db parent = some pinfo → colsOf db d = some dcols →
    colsOf db parent = some cols →
    ∃ key, evalTablePartKey sem parent pinfo cols (remapRow dcols cols drow) = .ok key ∧
      ∀ s ∈ pinfo.children, explicitAccepts db pinfo key s = false
  order : ∀ {db' fuel table pinfo pinfo' cols row}, Relisted db db' →
    partitionOf db table = some pinfo → partitionOf db' table = some pinfo' →
    colsOf db table = some cols → RowTyped sem cols row →
    findPartitionLeaf db' fuel table pinfo' cols row = findPartitionLeaf db fuel table pinfo cols row

theorem Inv.sound {db : Db sem} (h : Inv db) : Sound db where
  siblings hpinfo hcols ha hb hne hkey hacc := h.schema.disjoint hpinfo hcols ha hb hne hkey hacc.1 hacc.2
  rows hrow := h.satisfied hrow
  default := by
    intro name row d drow dinfo parent pinfo dcols cols hrow hcarried hd hdefault hparent hpinfo hdcols
      hcols
    obtain ⟨key, hkey, haccepts⟩ := h.satisfied hrow d drow hcarried dinfo parent pinfo dcols cols hd
      hparent hpinfo hdcols hcols
    refine ⟨key, hkey, fun s hs => ?_⟩
    unfold accepts at haccepts
    rw [if_pos hdefault, Bool.not_eq_true'] at haccepts
    unfold explicitSiblingAccepts at haccepts
    rw [List.any_eq_false] at haccepts
    by_cases hsd : s = d
    · simp [explicitAccepts, hsd, hd, hdefault]
    · simpa [hsd] using haccepts s hs
  order hlist hpinfo hpinfo' hcols hrow := findPartitionLeaf_relisted h.schema hlist hpinfo hpinfo' hcols hrow

/-- No tables at all. -/
def Db.empty : Db sem := fun _ => none

theorem inv_empty : Inv (Db.empty : Db sem) := by
  have hnone : ∀ name, partitionOf (Db.empty : Db sem) name = none := fun _ => rfl
  refine ⟨?_, ?_, ?_⟩
  · constructor
    case rooted => exact fun name => .root rfl
    case links =>
      intro child parent
      simp [parentOf, hnone]
    all_goals
      intros
      simp_all [parentOf]
  · rintro name row cols ⟨t, ⟨⟩, -⟩
  · rintro name row ⟨t, ⟨⟩, -⟩

section Statements

variable [BEq V] [DecidableEq T]

/-- What a statement must meet beyond the checks of the code. -/
def Safe (db : Db sem) : Stmt sem → Prop
  | .createTable name cols partitionBy => ∀ method keys, partitionBy = some (method, keys) →
      ∀ e, .expr e ∈ keys → ExprTyped sem name cols e
  | .createPartitionOf name parent boundDef _ keys => ∀ pt pinfo bound, db parent = some pt →
      pt.partition = some pinfo → convertPartBound sem pt.columns pinfo boundDef = .ok bound →
      BoundSafe db parent pinfo pt.columns bound boundDef.isDefault ∧
        ∀ e, .expr e ∈ keys → ExprTyped sem name pt.columns e
  | .attach parent child boundDef => ∀ pt ct pinfo bound, db parent = some pt →
      pt.partition = some pinfo → db child = some ct →
      convertPartBound sem pt.columns pinfo boundDef = .ok bound →
      AttachSafe db parent child pinfo
        (attachedInfo parent pinfo bound boundDef.isDefault ct.partition) pt.columns ct.columns bound
  | .update table _ => UpdateSafe db table
  | .detach _ _ | .hooks _ _ | .insert _ _ | .copy _ _ => True

/-- The states of a session: each statement that succeeds within some depth of recursion leads on. -/
inductive Reaches : Db sem → Prop
  | start : Reaches Db.empty
  | step {db db' : Db sem} {stmt : Stmt sem} {fuel : Nat} (reaches : Reaches db) (hsafe : Safe db stmt)
      (hexec : exec db fuel stmt = .ok db') : Reaches db'

theorem inv_step {db db' : Db sem} {stmt : Stmt sem} {fuel : Nat} (h : Inv db) (hsafe : Safe db stmt)
    (hexec : exec db fuel stmt = .ok db') : Inv db' := by
  cases stmt with
  | createTable name cols partitionBy => exact inv_createTable h hsafe hexec
  | createPartitionOf name parent boundDef method keys => exact inv_createPartitionOf h hsafe hexec
  | attach parent child boundDef => exact inv_attach h hsafe hexec
  | detach parent child => exact inv_detach h hexec
  | insert table values => exact inv_execInsert h hexec
  | copy table values => exact inv_execInsert h hexec
  | update table stmt => exact inv_execUpdate h hsafe hexec
  | hooks table hooks =>
      simp only [exec, setHooks] at hexec
      cases ht : db table with
      | none =>
          rw [ht] at hexec
          cases hexec
      | some t =>
          rw [ht] at hexec
          cases hexec
          refine h.of_rows (.put ht rfl rfl) fun name row hrow => ?_
          rcases stored_put hrow with ⟨rfl, hmem⟩ | hrow
          · exact h.fits ⟨t, ht, hmem⟩
          · exact h.fits hrow

theorem Reaches.inv {db : Db sem} (h : Reaches db) : Inv db := by
  induction h with
  | start => exact inv_empty
  | step _ hsafe hexec ih => exact inv_step ih hsafe hexec

/-- Statements one after the other. -/
def execAll (fuel : Nat) (db : Db sem) : List (Stmt sem) → Except ExecError (Db sem)
  | [] => .ok db
  | stmt :: stmts => do
    let db ← exec db fuel stmt
    execAll fuel db stmts

end Statements

end

/-! ## Small runs -/

/-- Integer columns, keys without expressions. -/
def intKeys : KeySem Int Empty Unit Int where
  typeOf _ := ()
  typeName _ := "integer"
  compare a b := some (compare a b)
  hashInt := id
  int := ()
  coerceLiteral l _ := .ok l
  coerceValue v _ := .ok v
  inferType e := e.elim
  evalKey e := e.elim
  compare_isSome _ := rfl
  compare_swap {a b} _ := by
    rw [Option.map_some, Int.compare_swap]
  compare_trans {a b c} _ _ hab hbc := by
    simp only [Option.some.injEq, compare_lt_iff_lt] at *
    exact hab.trans hbc
  compare_congr {a b c} _ _ hab := by
    simp only [Option.some.injEq, compare_eq_iff_eq] at *
    rw [hab]
  typeOf_coerceLiteral _ := rfl
  typeOf_coerceValue _ := rfl

/-- A list-partitioned table with a default partition that gets a row, and then the partition in which
the row belongs. -/
def lateSibling : List (Stmt intKeys) :=
  [.createTable "t" [("a", ())] (some (.list, [.column "a"])),
    .createPartitionOf "d" "t" .default .list [],
    .insert "t" [[some 1]],
    .createPartitionOf "p" "t" (.list [.lit (some 1)]) .list []]

/-- Two hash partitions with different moduli. -/
def twoModuli : List (Stmt intKeys) :=
  [.createTable "t" [("a", ())] (some (.hash, [.column "a"])),
    .createPartitionOf "p" "t" (.hash 2 0) .hash [],
    .createPartitionOf "q" "t" (.hash 4 0) .hash []]

/-- A partition before its row. -/
def inOrder : List (Stmt intKeys) :=
  [.createTable "t" [("a", ())] (some (.list, [.column "a"])),
    .createPartitionOf "p" "t" (.list [.lit (some 1)]) .list [],
    .insert "t" [[some 1]]]

end Partition
