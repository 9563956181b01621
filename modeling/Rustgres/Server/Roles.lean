-- SUMMARY: Closures of role memberships with their edge filters, and that they are reachability.
import Rustgres.Lib.Worklist
import Rustgres.Storage.Visibility

/-!
# Role Memberships

A role lists the group roles it is a member of, each grant with its options. Privileges are inherited along the grants
with the inherit option, SET ROLE follows those with the set option, and membership follows all.
-/

namespace Roles

/-! ## The model -/

/-- One grant of a group role. -/
structure RoleMembership where
  role : String
  grantor : String
  admin : Bool
  inherit : Bool
  set : Bool

/-- One version of a role. -/
structure Role where
  memberships : List RoleMembership
  createdXmin : Xid
  droppedXmax : Xid

def RoleVisible (r : Role) (snap : Snapshot) (own : Xid) : Prop :=
  StampVisible r.createdXmin r.droppedXmax snap [own]

instance (r : Role) (snap : Snapshot) (own : Xid) : Decidable (RoleVisible r snap own) :=
  inferInstanceAs (Decidable (StampVisible ..))

/-- The role versions of a database by name, read under a snapshot by a transaction. -/
structure View where
  roles : Dict String (List Role)
  snap : Snapshot
  own : Xid

namespace View

variable (db : View)

/-- The first version that is visible. -/
def findRole (name : String) : Option Role :=
  (db.roles.lookup name).bind fun vs => vs.find? fun r => RoleVisible r db.snap db.own

/-- The group roles of a role along the grants that `keep` lets through. -/
def groups (keep : RoleMembership → Bool) (name : String) : List String :=
  match db.findRole name with
  | none => []
  | some r => (r.memberships.filter keep).map RoleMembership.role

/-- All roles that are ever named. -/
def named (role : String) : List String :=
  role :: db.roles.values.flatten.flatMap fun r => r.memberships.map RoleMembership.role

/-- The loop ends by itself before the number of named roles. -/
def roleClosure (role : String) : Option (List String) :=
  Worklist.closure (db.groups RoleMembership.inherit) (db.named role).length [role] 0

def membershipClosure (role : String) : Option (List String) :=
  Worklist.closure (db.groups fun _ => true) (db.named role).length [role] 0

def memberCanSetRole (role target : String) : Option Bool :=
  Worklist.search (db.groups RoleMembership.set) target
    (1 + Worklist.unseen (db.groups RoleMembership.set) [] (db.named role)) [role] []

/-! ## Reachability -/

/-- A visible grant that `keep` lets through. -/
def Member (keep : RoleMembership → Bool) (a b : String) : Prop :=
  ∃ r, db.findRole a = some r ∧ ∃ m ∈ r.memberships, keep m = true ∧ m.role = b

/-- A chain of such grants. -/
def MemberOf (keep : RoleMembership → Bool) : String → String → Prop := Relation.ReflTransGen (db.Member keep)

variable {db}

theorem mem_groups {keep : RoleMembership → Bool} {a b : String} : b ∈ db.groups keep a ↔ db.Member keep a b := by
  unfold groups Member
  cases db.findRole a with
  | none => simp
  | some r => simp [and_assoc]

theorem reach_iff {keep : RoleMembership → Bool} {a b : String} :
    Worklist.Reach (db.groups keep) a b ↔ db.MemberOf keep a b := by
  have hstep : (fun a b => b ∈ db.groups keep a) = db.Member keep := by
    funext a b
    exact propext mem_groups
  rw [Worklist.Reach, hstep, MemberOf]

theorem mem_named {keep : RoleMembership → Bool} {role a b : String} (h : b ∈ db.groups keep a) : b ∈ db.named role := by
  obtain ⟨r, hr, m, hm, -, rfl⟩ := mem_groups.1 h
  obtain ⟨vs, hvs, hfind⟩ := Option.bind_eq_some_iff.1 hr
  have hentry := AList.mem_lookup_iff.1 hvs
  refine List.mem_cons_of_mem _ (List.mem_flatMap.2 ⟨r, List.mem_flatten.2 ⟨vs, ?_, List.mem_of_find?_eq_some hfind⟩, ?_⟩)
  · exact List.mem_map.2 ⟨_, hentry, rfl⟩
  · exact List.mem_map_of_mem hm

/-- Both closures end, and are what is reachable along their grants. -/
theorem closure_iff (keep : RoleMembership → Bool) (role : String) :
    ∃ out, Worklist.closure (db.groups keep) (db.named role).length [role] 0 = some out ∧ out.Nodup ∧
      ∀ a, a ∈ out ↔ db.MemberOf keep role a := by
  obtain ⟨out, hout, hnodup, hmem⟩ :=
    Worklist.closure_spec (List.mem_cons_self : role ∈ db.named role) fun _ _ hb => @mem_named db keep _ _ _ hb
  exact ⟨out, hout, hnodup, fun a => (hmem a).trans reach_iff⟩

theorem memberCanSetRole_iff (role target : String) :
    ∃ found, db.memberCanSetRole role target = some found ∧
      (found = true ↔ db.MemberOf RoleMembership.set role target) := by
  obtain ⟨found, hfound, hmem⟩ :=
    Worklist.search_spec (List.mem_cons_self : role ∈ db.named role) (fun _ _ hb => @mem_named db RoleMembership.set _ _ _ hb) target
  exact ⟨found, hfound, hmem.trans reach_iff⟩

theorem MemberOf.mono {db' : View} {keep : RoleMembership → Bool}
    (hgrants : ∀ a b, db.Member keep a b → db'.Member keep a b) {a b : String} (h : db.MemberOf keep a b) :
    db'.MemberOf keep a b :=
  Relation.ReflTransGen.mono hgrants a b h

/-- The three closures. -/
inductive ClosureKind where
  | inherit | member | set

/-- The grants that a closure follows. -/
def ClosureKind.keep : ClosureKind → RoleMembership → Bool
  | inherit => RoleMembership.inherit
  | member => fun _ => true
  | set => RoleMembership.set

/-- The closure of `role` ends, and has `a`. -/
def Finds (db : View) (role a : String) : ClosureKind → Prop
  | .inherit => ∃ out, db.roleClosure role = some out ∧ a ∈ out
  | .member => ∃ out, db.membershipClosure role = some out ∧ a ∈ out
  | .set => db.memberCanSetRole role a = some true

/-- The closure of `role` ends, and does not have `a`. -/
def Misses (db : View) (role a : String) : ClosureKind → Prop
  | .inherit => ∃ out, db.roleClosure role = some out ∧ a ∉ out
  | .member => ∃ out, db.membershipClosure role = some out ∧ a ∉ out
  | .set => db.memberCanSetRole role a = some false

theorem finds_iff (db : View) (role a : String) (kind : ClosureKind) :
    (Finds db role a kind ↔ db.MemberOf kind.keep role a) ∧ (Misses db role a kind ↔ ¬db.MemberOf kind.keep role a) := by
  cases kind with
  | inherit =>
    obtain ⟨out, hout, -, hmem⟩ := @closure_iff db RoleMembership.inherit role
    have hclosure : db.roleClosure role = some out := hout
    simp only [Finds, Misses, hclosure, Option.some.injEq, exists_eq_left', hmem]
    exact ⟨Iff.rfl, Iff.rfl⟩
  | member =>
    obtain ⟨out, hout, -, hmem⟩ := @closure_iff db (fun _ => true) role
    have hclosure : db.membershipClosure role = some out := hout
    simp only [Finds, Misses, hclosure, Option.some.injEq, exists_eq_left', hmem]
    exact ⟨Iff.rfl, Iff.rfl⟩
  | set =>
    obtain ⟨found, hfound, hmem⟩ := @memberCanSetRole_iff db role a
    simp only [Finds, Misses, hfound, Option.some.injEq]
    refine ⟨hmem, ?_⟩
    rw [← Bool.not_eq_true, hmem]
    exact Iff.rfl

/-- The closures end and are reachability along their grants. What is in the closure of a role in the closure is in the
closure, and with more grants no less is. -/
theorem role_closure (db : View) (kind : ClosureKind) (role : String) :
    (∀ a, (Finds db role a kind ↔ db.MemberOf kind.keep role a) ∧
      (Misses db role a kind ↔ ¬db.MemberOf kind.keep role a)) ∧
    (∀ a b, Finds db role a kind → Finds db a b kind → Finds db role b kind) ∧
    ∀ db' : View, (∀ a b, db.Member kind.keep a b → db'.Member kind.keep a b) →
      ∀ a, Finds db role a kind → Finds db' role a kind := by
  refine ⟨fun a => finds_iff db role a kind, ?_, ?_⟩
  · intro a b ha hb
    exact (finds_iff db role b kind).1.2 (((finds_iff db role a kind).1.1 ha).trans ((finds_iff db a b kind).1.1 hb))
  · intro db' hgrants a ha
    exact (finds_iff db' role a kind).1.2 (((finds_iff db role a kind).1.1 ha).mono hgrants)

/-- Two roles that are members of each other, one way without inheritance. -/
def twoEntries : List (Sigma fun _ : String => List Role) :=
  [⟨"a", [⟨[⟨"b", "a", false, false, true⟩, ⟨"b", "a", false, true, true⟩], 0, 0⟩]⟩,
    ⟨"b", [⟨[⟨"a", "a", false, false, true⟩, ⟨"b", "a", false, true, true⟩], 0, 0⟩]⟩]

theorem twoEntries_nodup : twoEntries.NodupKeys := by
  simp [twoEntries, List.NodupKeys, List.keys]

def twoRoles : View := ⟨⟨twoEntries, twoEntries_nodup⟩, ⟨∅, 3⟩, 2⟩

theorem role_closure_two : twoRoles.roleClosure "b" = some ["b"] ∧ twoRoles.membershipClosure "b" = some ["b", "a"] ∧
    Finds twoRoles "a" "a" .set ∧ Finds twoRoles "a" "b" .inherit := by
  have hb : Finds twoRoles "a" "b" .inherit := ⟨["a", "b"], by decide, by decide⟩
  have ha : twoRoles.memberCanSetRole "b" "a" = some true := by decide
  have hab : twoRoles.memberCanSetRole "a" "b" = some true := by decide
  exact ⟨by decide, by decide, (role_closure twoRoles .set "a").2.1 "b" "a" hab ha,
    (role_closure twoRoles .inherit "a").2.2 twoRoles (fun _ _ h => h) "b" hb⟩

end View

end Roles
