-- SUMMARY: CREATE TABLE, ATTACH PARTITION and DETACH PARTITION with the checks they make.
import Rustgres.Partition.Routing

/-!
# Partition DDL

A partition is added by CREATE TABLE ... PARTITION OF or by ATTACH PARTITION of an existing table,
whose own rows are checked against the new bound.
-/

namespace Partition

variable {V E T L : Type} {sem : KeySem V E T L}

/-! ## Bounds as written -/

/-- A literal, where none is NULL, or another expression. -/
inductive BoundExpr (L : Type) where
  | lit (l : Option L)
  | other

inductive RangeBoundDef (L : Type) where
  | min
  | max
  | val (e : BoundExpr L)

inductive PartBoundDef (L : Type) where
  | list (exprs : List (BoundExpr L))
  | range (lower upper : List (RangeBoundDef L))
  | hash (modulus remainder : Nat)
  | default

def notLiteral : ExecError := execError "42601" "partition bound must be a literal"

def mustFollow (kind : String) : ExecError :=
  execError "42601" ("every bound following " ++ kind ++ " must also be " ++ kind)

def boundColumns (n lower upper : Nat) : ExecError :=
  execError "42601" ("partition bound must have " ++ toString n ++ " columns, got " ++ toString lower
    ++ " and " ++ toString upper)

/-- The types of the key columns; those of expressions are guessed from their form. -/
def keyTypes (sem : KeySem V E T L) (pinfo : PartitionInfo V E) (cols : Cols T) : List T :=
  pinfo.key.map fun
    | .col idx => (cols[idx]?.map Prod.snd).getD sem.int
    | .expr e => sem.inferType e cols

def convertList (sem : KeySem V E T L) (ty : T) :
    List (BoundExpr L) → Except ExecError (List V × Bool)
  | [] => .ok ([], false)
  | .lit none :: exprs => do
    let (values, _) ← convertList sem ty exprs
    return (values, true)
  | .lit (some l) :: exprs => do
    let v ← sem.coerceLiteral l ty
    let (values, hasNull) ← convertList sem ty exprs
    return (v :: values, hasNull)
  | .other :: _ => .error notLiteral

def convertRangeBound (sem : KeySem V E T L) : RangeBoundDef L × T → Except ExecError (RangeBound V)
  | (.min, _) => .ok .min
  | (.max, _) => .ok .max
  | (.val (.lit none), _) => .ok (.val none)
  | (.val (.lit (some l)), ty) => do
    let v ← sem.coerceLiteral l ty
    return .val (some v)
  | (.val .other, _) => .error notLiteral

/-- Every bound after MINVALUE is MINVALUE, and every one after MAXVALUE is MAXVALUE. -/
def checkMinmaxRules (kind : String) : Bool → Bool → List (RangeBound V) → Except ExecError Unit
  | _, _, [] => .ok ()
  | _, seenMax, .min :: bounds =>
    if seenMax then .error (mustFollow "MAXVALUE") else checkMinmaxRules kind true seenMax bounds
  | seenMin, _, .max :: bounds =>
    if seenMin then .error (mustFollow kind) else checkMinmaxRules kind seenMin true bounds
  | seenMin, seenMax, .val _ :: bounds =>
    if seenMin then .error (mustFollow "MINVALUE")
    else if seenMax then .error (mustFollow "MAXVALUE")
    else checkMinmaxRules kind seenMin seenMax bounds

/-- The bound of a DEFAULT partition is a list without values. -/
def convertPartBound (sem : KeySem V E T L) (cols : Cols T) (pinfo : PartitionInfo V E) :
    PartBoundDef L → Except ExecError (PartBound V)
  | .list exprs => do
    let (values, hasNull) ← convertList sem ((keyTypes sem pinfo cols).head?.getD sem.int) exprs
    return .list values hasNull
  | .range lower upper =>
    let types := keyTypes sem pinfo cols
    if lower.length ≠ types.length ∨ upper.length ≠ types.length then
      .error (boundColumns types.length lower.length upper.length)
    else do
      let lo ← (lower.zip types).mapM (convertRangeBound sem)
      let hi ← (upper.zip types).mapM (convertRangeBound sem)
      checkMinmaxRules "MINVALUE" false false lo
      checkMinmaxRules "MAXVALUE" false false hi
      return .range lo hi
  | .hash modulus remainder =>
    if modulus = 0 ∨ remainder ≥ modulus then
      .error (execError "42601" "invalid MODULUS/REMAINDER for hash partition")
    else .ok (.hash modulus remainder)
  | .default => .ok (.list [] false)

def PartBoundDef.isDefault : PartBoundDef L → Bool
  | .default => true
  | _ => false

/-! ## Siblings -/

def childBound (db : Db sem) (child : String) : Option (PartBound V) := do
  let pinfo ← partitionOf db child
  pinfo.bound

/-- The new bound overlaps with that of no sibling, and is not a second DEFAULT. -/
def checkBoundNoOverlap [BEq V] (db : Db sem) (parent : String) (pinfo : PartitionInfo V E)
    (bound : PartBound V) (name : String) : Except ExecError Unit :=
  match pinfo.children.find? fun child =>
      (childBound db child).any fun b => boundsOverlap sem pinfo.method bound b with
  | some child =>
    .error (execError "23514"
      ("partition \"" ++ name ++ "\" would overlap partition \"" ++ child ++ "\""))
  | none =>
    match bound with
    | .list [] false =>
      if pinfo.children.any fun child => (partitionOf db child).any (·.isDefault) then
        .error (execError "42601" ("relation \"" ++ parent ++ "\" already has a DEFAULT partition"))
      else .ok ()
    | _ => .ok ()

/-- Add the child to the list of its parent, or take it out. -/
def parentLinkChild (db : Db sem) (parent child : String) (link : Bool) : Db sem :=
  match db parent with
  | none => db
  | some pt =>
    let change (pinfo : PartitionInfo V E) : PartitionInfo V E :=
      if link then
        if pinfo.children.contains child then pinfo
        else { pinfo with children := pinfo.children ++ [child] }
      else { pinfo with children := pinfo.children.filter (· ≠ child) }
    db.put parent { pt with partition := pt.partition.map change }

/-! ## CREATE TABLE -/

inductive PartitionKeyDef (E : Type) where
  | column (name : String)
  | expr (e : E)

def resolveKey (name : String) (cols : Cols T) :
    PartitionKeyDef E → Except ExecError (PartKey E)
  | .column col =>
    match cols.findIdx? fun c => c.1 = col with
    | some idx => .ok (.col idx)
    | none =>
      .error (execError "42703"
        ("column \"" ++ col ++ "\" of relation \"" ++ name ++ "\" does not exist"))
  | .expr e => .ok (.expr e)

def relationExists (name : String) : ExecError :=
  execError "42P07" ("relation \"" ++ name ++ "\" already exists")

def notPartitioned (name : String) : ExecError :=
  execError "42601" ("relation \"" ++ name ++ "\" is not partitioned")

/-- A plain table, or the root of a partitioned one. -/
def createTable (db : Db sem) (name : String) (cols : Cols T)
    (partitionBy : Option (PartMethod × List (PartitionKeyDef E))) : Except ExecError (Db sem) :=
  if (db name).isSome then .error (relationExists name)
  else if h : (cols.map Prod.fst).Nodup then
    match partitionBy with
    | none => .ok (db.put name ⟨cols, h, .none sem cols, none, []⟩)
    | some (method, keys) => do
      let key ← keys.mapM (resolveKey name cols)
      return db.put name ⟨cols, h, .none sem cols, some ⟨method, key, none, false, none, [], true⟩, []⟩
  else .error (execError "42701" "column specified more than once")

/-- Without keys of its own the partition gets those of its parent. -/
def childKey (name : String) (cols : Cols T) (pinfo : PartitionInfo V E)
    (keys : List (PartitionKeyDef E)) : Except ExecError (List (PartKey E)) :=
  if keys.isEmpty then .ok pinfo.key else keys.mapM (resolveKey name cols)

/-- The new partition; without keys of its own it is a leaf. -/
def childInfo (parent : String) (pinfo : PartitionInfo V E) (bound : PartBound V) (isDefault : Bool)
    (method : PartMethod) (keys : List (PartitionKeyDef E)) (key : List (PartKey E)) :
    PartitionInfo V E :=
  ⟨if keys.isEmpty then pinfo.method else method, key, some bound, isDefault, some parent, [],
    !keys.isEmpty⟩

def createPartitionOf [BEq V] (db : Db sem) (name parent : String) (boundDef : PartBoundDef L)
    (method : PartMethod) (keys : List (PartitionKeyDef E)) : Except ExecError (Db sem) :=
  if (db name).isSome then .error (relationExists name)
  else
    match db parent with
    | none => .error (relationMissing parent)
    | some pt =>
      match pt.partition with
      | none => .error (notPartitioned parent)
      | some pinfo => do
        let bound ← convertPartBound sem pt.columns pinfo boundDef
        checkBoundNoOverlap db parent pinfo bound name
        let key ← childKey name pt.columns pinfo keys
        let info := childInfo parent pinfo bound boundDef.isDefault method keys key
        return parentLinkChild
          (db.put name ⟨pt.columns, pt.nodup, .none sem pt.columns, some info, []⟩) parent name true

/-! ## ATTACH PARTITION -/

/-- The form of the bound goes with the method. -/
def formOk : PartMethod → PartBoundDef L → Bool
  | _, .default => true
  | .list, .list _ => true
  | .range, .range _ _ => true
  | .hash, .hash _ _ => true
  | _, _ => false

def PartMethod.kind : PartMethod → String
  | .list => "list"
  | .range => "range"
  | .hash => "hash"

/-- The child is among the first ancestors of the table, the table counted with them. -/
def isAncestor (db : Db sem) (child : String) : Nat → String → Bool
  | 0, _ => false
  | hops + 1, cur =>
    cur = child ||
      match (partitionOf db cur).bind (·.parent) with
      | some parent => isAncestor db child hops parent
      | none => false

/-- How many names the search for a circle looks at. -/
def maxHops : Nat := 100001

def checkExtraColumns (child parent : String) (childCols parentCols : Cols T) :
    Except ExecError Unit :=
  match childCols.find? fun c => !parentCols.any (·.1 = c.1) with
  | some c =>
    .error (execError "42804" ("table \"" ++ child ++ "\" contains column \"" ++ c.1 ++
      "\" not found in parent \"" ++ parent ++ "\""))
  | none => .ok ()

/-- The child has every column of the parent, with its type. -/
def checkColumn [DecidableEq T] (sem : KeySem V E T L) (child : String) (childCols : Cols T)
    (p : String × T) : Except ExecError Unit :=
  match childCols.find? (·.1 = p.1) with
  | none =>
    .error (execError "42601"
      ("column \"" ++ p.1 ++ "\" of relation \"" ++ child ++ "\" does not exist"))
  | some c =>
    if c.2 = p.2 then .ok ()
    else .error (execError "42601"
      ("column \"" ++ p.1 ++ "\" of relation \"" ++ child ++ "\" has type " ++ sem.typeName c.2 ++
        " but parent has type " ++ sem.typeName p.2))

def checkCircular (db : Db sem) (child parent : String) : Except ExecError Unit :=
  if isAncestor db child maxHops parent then
    .error (execError "42P16" "circular inheritance not allowed")
  else .ok ()

/-- The rows of the table belong in the new partition; those of a DEFAULT partition in no sibling. -/
def checkRows (db : Db sem) (child parent : String) (ct pt : Table sem) (pinfo : PartitionInfo V E)
    (bound : PartBound V) (isDefault : Bool) : Except ExecError Unit :=
  let siblings := if isDefault then (pinfo.children.filter (· ≠ child)).filterMap (childBound db) else []
  ct.rows.forM fun row => do
    let key ← evalTablePartKey sem parent pinfo pt.columns (remapRow ct.columns pt.columns row)
    let ok :=
      if isDefault then siblings.all fun b => !boundContains sem pinfo.method b key
      else boundContains sem pinfo.method bound key
    if ok then .ok ()
    else .error (execError "23514"
      ("partition constraint is violated by some row in relation \"" ++ child ++ "\""))

/-- A table that is partitioned itself keeps its own method, key and children. -/
def attachedInfo (parent : String) (pinfo : PartitionInfo V E) (bound : PartBound V)
    (isDefault : Bool) : Option (PartitionInfo V E) → PartitionInfo V E
  | some cp => { cp with bound := some bound, isDefault := isDefault, parent := some parent }
  | none => ⟨pinfo.method, pinfo.key, some bound, isDefault, some parent, [], false⟩

def attachPartition [BEq V] [DecidableEq T] (db : Db sem) (parent child : String)
    (boundDef : PartBoundDef L) : Except ExecError (Db sem) :=
  match db parent with
  | none => .error (relationMissing parent)
  | some pt =>
    match pt.partition with
    | none => .error (notPartitioned parent)
    | some pinfo =>
      match db child with
      | none => .error (relationMissing child)
      | some ct =>
        if (ct.partition.bind (·.parent)).isSome then
          .error (execError "42601" ("relation \"" ++ child ++ "\" is already a partition"))
        else if !formOk pinfo.method boundDef then
          .error (execError "42P16"
            ("invalid bound specification for a " ++ pinfo.method.kind ++ " partition"))
        else do
          checkExtraColumns child parent ct.columns pt.columns
          checkCircular db child parent
          pt.columns.forM (checkColumn sem child ct.columns)
          let bound ← convertPartBound sem pt.columns pinfo boundDef
          checkBoundNoOverlap db parent pinfo bound child
          checkRows db child parent ct pt pinfo bound boundDef.isDefault
          let info := attachedInfo parent pinfo bound boundDef.isDefault ct.partition
          return parentLinkChild (db.put child { ct with partition := some info }) parent child true

/-! ## DETACH PARTITION -/

/-- A leaf becomes a plain table; an intermediate one keeps its method, key and children. -/
def detachedInfo (pinfo : PartitionInfo V E) : Option (PartitionInfo V E) :=
  if pinfo.isPartitioned then some { pinfo with parent := none, bound := none, isDefault := false }
  else none

def detachPartition (db : Db sem) (parent child : String) : Except ExecError (Db sem) :=
  match db parent with
  | none => .error (relationMissing parent)
  | some pt =>
    match pt.partition with
    | none => .error (execError "42809" ("relation \"" ++ parent ++ "\" is not partitioned"))
    | some pinfo =>
      if !pinfo.children.contains child then
        .error (execError "42P01"
          ("relation \"" ++ child ++ "\" is not a partition of relation \"" ++ parent ++ "\""))
      else
        match db child with
        | none => .error (relationMissing child)
        | some ct =>
          match ct.partition with
          | none =>
            .error (execError "42P01"
              ("relation \"" ++ child ++ "\" is not a partition of relation \"" ++ parent ++ "\""))
          | some cinfo =>
            .ok ((parentLinkChild db parent child false).put child
              { ct with partition := detachedInfo cinfo })

end Partition
