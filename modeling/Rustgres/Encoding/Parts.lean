-- SUMMARY: The format of row versions, partitions, roles, sequences and the other parts of records.
import Rustgres.Encoding.Values

/-!
# Parts of Records

Row versions, partition metadata, grants, roles, sequences, domains, operators and publications. Only
row versions, partitions and column types are not always read back.
-/

open Codecs

namespace Encoding

variable {E : Type} (T : TextForms E)

namespace Dec

variable {v : Nat}

theorem readsBack_strs (l : List String) :
    ReadsBack v (Reader.list Reader.str) (Put.list Put.str l) l True :=
  ReadsBack.list_always (by simp; omega) fun s _ => ReadsBack.str s

theorem readsBack_optStr (o : Option String) :
    ReadsBack v (Reader.opt Reader.str) (Put.opt Put.str o) o True :=
  ReadsBack.opt_always fun s _ => ReadsBack.str s

theorem readsBack_optStrs (l : List (Option String)) :
    ReadsBack v (Reader.list (Reader.opt Reader.str)) (Put.list (Put.opt Put.str) l) l True :=
  ReadsBack.list_always (fun o _ => Put.one_le_length_opt _ o) fun o _ => readsBack_optStr o

theorem readsBack_bools (l : List Bool) :
    ReadsBack v (Reader.list Reader.bool) (Put.list Put.bool l) l True :=
  ReadsBack.list_always (by simp) fun b _ => ReadsBack.bool b

theorem readsBack_bytes (l : Bytes) :
    ReadsBack v (Reader.list Reader.u8) (Put.list Put.u8 l) l True :=
  ReadsBack.list_always (by simp) fun b _ => ReadsBack.u8 b

end Dec

/-! ## Row versions -/

def Enc.toastMeta (m : UInt32 × UInt8) : Bytes := [Put.u32 m.1, Put.u8 m.2].flatten

/-- The toast flags are written for each value, `0` where there is none. -/
def Enc.walRow (r : WalRow) : Bytes :=
  [Put.u64 r.id, Put.u64 r.xmin, Put.len r.values.length, r.values.flatMap (Enc.value T),
    (List.range r.values.length).flatMap fun i => Put.u32 (r.toast.getD i 0),
    Put.list Enc.toastMeta r.toastMeta].flatten

namespace Dec

open Reader

def toastMeta : Reader (UInt32 × UInt8) := do
  let k ← u32
  let c ← u8
  return (k, c)

def walRow (stack : Nat) : Reader WalRow := do
  let id ← u64
  let xmin ← u64
  let nv ← uint 4
  let values ← times nv (value T stack)
  let toast ← times nv u32
  let toastMeta ← list toastMeta
  return { id, xmin, values, toast, toastMeta }

end Dec

/-- A toast flag for each value. -/
def WalRow.Storable (stack : Nat) (r : WalRow) : Prop :=
  r.toast.length = r.values.length ∧ ∀ val ∈ r.values, val.Storable T stack

section

variable {T} {v stack : Nat}

@[simp]
theorem Enc.length_toastMeta (m : UInt32 × UInt8) : (Enc.toastMeta m).length = 5 := by
  simp [Enc.toastMeta]

@[simp]
theorem Enc.one_le_length_walRow (r : WalRow) : 1 ≤ (Enc.walRow T r).length := by
  simp [Enc.walRow]
  omega

theorem Dec.readsBack_toastMeta (m : UInt32 × UInt8) :
    ReadsBack v Dec.toastMeta (Enc.toastMeta m) m True := by
  apply (ReadsBack.u32 m.1).field
  apply (ReadsBack.u8 m.2).field
  exact ReadsBack.done m

/-- The flags of the values are all the flags there are. -/
private theorem flags_eq {toast : List UInt32} {n : Nat} (h : toast.length = n) :
    ((List.range n).flatMap fun i => Put.u32 (toast.getD i 0)) = toast.flatMap Put.u32 := by
  have hmap : (List.range n).map (fun i => toast.getD i 0) = toast := by
    apply List.ext_getElem
    · simp [h]
    · intro i h₁ h₂
      simp [h₂]
  conv_rhs => rw [← hmap]
  rw [List.flatMap_map]

theorem Dec.readsBack_walRow (r : WalRow) :
    ReadsBack v (Dec.walRow T stack) (Enc.walRow T r) r (r.Storable T stack) := by
  apply ReadsBack.of_returns (R := fun r : WalRow => r.toast.length = r.values.length)
  · refine Reader.Returns.bind fun id => Reader.Returns.bind fun xmin =>
      Reader.Returns.bind fun nv => ?_
    refine (Reader.Returns.times nv _).bind_of fun values hvalues => ?_
    refine (Reader.Returns.times nv _).bind_of fun toast htoast => ?_
    apply Reader.Returns.bind
    intro toastMeta
    exact Reader.Returns.pure (htoast.trans hvalues.symm)
  · intro hflags
    apply ReadsBack.short
    intro hs
    have hlen : r.values.length < 2 ^ 32 := by
      have := Put.length_le_flatMap (e := Enc.value T) (l := r.values) (by simp)
      simp only [Enc.walRow, List.flatten_cons, List.length_append] at hs
      omega
    have htoast := ReadsBack.times (v := v) (l := r.toast) fun n _ => ReadsBack.u32 n
    rw [hflags, ← flags_eq hflags] at htoast
    have hmeta := ReadsBack.list_always (v := v) (l := r.toastMeta) (e := Enc.toastMeta)
      (by simp) fun m _ => Dec.readsBack_toastMeta m
    apply (ReadsBack.u64 r.id).field
    apply (ReadsBack.u64 r.xmin).field
    apply (ReadsBack.len hlen).field
    refine ((ReadsBack.times fun val _ => Dec.readsBack_value stack val).part
      ((htoast.congr (by simp)).field (hmeta.field (ReadsBack.done r))) ?_).congr (by simp)
    intro values
    refine Reader.Returns.bind fun toast => Reader.Returns.bind fun toastMeta => ?_
    exact Reader.Returns.pure fun h => congrArg WalRow.values h

end

/-! ## Partitions -/

def PartMethod.tag : PartMethod → UInt8
  | range => 0
  | list => 1
  | hash => 2

def Enc.rangeBound : RangeBound → Bytes
  | .min => [0]
  | .max => [1]
  | .val v => 2 :: Enc.value T v

def Enc.partKey (k : PartKey E) : Bytes :=
  [Put.u64 k.col, Put.opt (fun e => Put.str (T.exprToText e)) k.expr].flatten

def Enc.partBound : PartBound → Bytes
  | .list values hasNull => 0 :: [Put.list (Enc.value T) values, Put.bool hasNull].flatten
  | .range lower upper =>
    1 :: [Put.list (Enc.rangeBound T) lower, Put.list (Enc.rangeBound T) upper].flatten
  | .hash modulus remainder => 2 :: [Put.u32 modulus, Put.u32 remainder].flatten

def Enc.partitionInfo (p : PartitionInfo E) : Bytes :=
  [Put.u8 p.method.tag, Put.list (Enc.partKey T) p.key, Put.opt (Enc.partBound T) p.bound,
    Put.bool p.isDefault, Put.opt Put.str p.parent, Put.list Put.str p.children,
    Put.bool p.isPartitioned].flatten

def Enc.partition : Option (PartitionInfo E) → Bytes := Put.opt (Enc.partitionInfo T)

namespace Dec

open Reader

def rangeBound (stack : Nat) : Reader RangeBound := do
  let tag ← label "bad checkpoint: " u8
  match tag.toNat with
  | 0 => return .min
  | 1 => return .max
  | 2 => return .val (← label "bad checkpoint: " (value T stack))
  | _ => raise (.error "bad range bound tag")

def partMethod : Reader PartMethod := do
  let tag ← u8
  match tag.toNat with
  | 0 => return .range
  | 1 => return .list
  | 2 => return .hash
  | _ => fail "bad partition method tag"

/-- An expression that does not parse is dropped. -/
def partKey : Reader (PartKey E) := do
  let col ← u64
  let text ← opt str
  return { col, expr := text.bind T.parsePartitionExpr }

def partBound (stack : Nat) : Reader PartBound := do
  let tag ← u8
  match tag.toNat with
  | 0 => do
    let values ← list (value T stack)
    let hasNull ← bool
    return .list values hasNull
  | 1 => do
    let lower ← list (rangeBound T stack)
    let upper ← list (rangeBound T stack)
    return .range lower upper
  | 2 => do
    let modulus ← u32
    let remainder ← u32
    return .hash modulus remainder
  | _ => fail "bad partition bound tag"

def partitionInfo (stack : Nat) : Reader (PartitionInfo E) := do
  let method ← partMethod
  let key ← list (partKey T)
  let bound ← opt (partBound T stack)
  let isDefault ← bool
  let parent ← opt str
  let children ← list str
  let isPartitioned ← bool
  return { method, key, bound, isDefault, parent, children, isPartitioned }

def partition (stack : Nat) : Reader (Option (PartitionInfo E)) := opt (partitionInfo T stack)

end Dec

def RangeBound.Storable (stack : Nat) : RangeBound → Prop
  | min | max => True
  | val v => v.Storable T stack

/-- The text of a key expression parses to the expression. -/
def PartKey.Storable (k : PartKey E) : Prop :=
  ∀ e ∈ k.expr, T.parsePartitionExpr (T.exprToText e) = some e

def PartBound.Storable (stack : Nat) : PartBound → Prop
  | list values _ => ∀ val ∈ values, val.Storable T stack
  | range lower upper =>
    (∀ b ∈ lower, b.Storable T stack) ∧ ∀ b ∈ upper, b.Storable T stack
  | hash .. => True

def PartitionInfo.Storable (stack : Nat) (p : PartitionInfo E) : Prop :=
  (∀ k ∈ p.key, k.Storable T) ∧ ∀ b ∈ p.bound, b.Storable T stack

section

variable {T} {v stack : Nat}

@[simp]
theorem Enc.one_le_length_rangeBound (b : RangeBound) : 1 ≤ (Enc.rangeBound T b).length := by
  cases b <;> simp [Enc.rangeBound]

@[simp]
theorem Enc.one_le_length_partKey (k : PartKey E) : 1 ≤ (Enc.partKey T k).length := by
  simp [Enc.partKey]
  omega

theorem Dec.readsBack_rangeBound (b : RangeBound) :
    ReadsBack v (Dec.rangeBound T stack) (Enc.rangeBound T b) b (b.Storable T stack) := by
  have htag (t : UInt8) : ReadsBack v (Reader.label "bad checkpoint: " Reader.u8) [t] t True :=
    (ReadsBack.u8 t).label
  cases b with
  | min => exact (htag 0).bind (ReadsBack.pure _)
  | max => exact (htag 1).bind (ReadsBack.pure _)
  | val val =>
      apply (htag 2).bind
      exact (Dec.readsBack_value stack val).label.last fun x h => RangeBound.val.inj h

theorem Dec.readsBack_partMethod (m : PartMethod) :
    ReadsBack v Dec.partMethod (Put.u8 m.tag) m True := by
  cases m <;> exact ReadsBack.tag (ReadsBack.pure _)

/-- A key is read with the expression that the text of its own parses to. -/
theorem Dec.readsBack_partKey (k : PartKey E) :
    ReadsBack v (Dec.partKey T) (Enc.partKey T k) k (k.Storable T) := by
  have htext : ReadsBack v (Reader.opt Reader.str)
      (Put.opt (fun e => Put.str (T.exprToText e)) k.expr) (k.expr.map T.exprToText) True := by
    have h := ReadsBack.opt_always (v := v) (o := k.expr.map T.exprToText)
      fun s _ => ReadsBack.str s
    cases hk : k.expr <;> rw [hk] at h <;> exact h
  have hread : ReadsBack v (Dec.partKey T) (Enc.partKey T k)
      ⟨k.col, (k.expr.map T.exprToText).bind T.parsePartitionExpr⟩ True := by
    apply (ReadsBack.u64 k.col).field
    apply htext.field
    exact ReadsBack.done _
  have hsame : k.Storable T ↔ (k.expr.map T.exprToText).bind T.parsePartitionExpr = k.expr := by
    cases hk : k.expr <;> simp [PartKey.Storable, hk]
  constructor
  · intro hs hk pre post
    have h := hread.of hs trivial pre post
    rwa [hsame.1 hk] at h
  · intro hs hk pre post d h
    rw [hread.of hs trivial pre post] at h
    have hkey := congrArg PartKey.expr (Prod.mk.inj (Except.ok.inj h)).1
    exact hk (hsame.2 hkey)

theorem Dec.readsBack_partBound (b : PartBound) :
    ReadsBack v (Dec.partBound T stack) (Enc.partBound T b) b (b.Storable T stack) := by
  cases b with
  | list values hasNull =>
      have hvalues := ReadsBack.list (v := v) (l := values) (by simp) fun val _ =>
        Dec.readsBack_value (T := T) stack val
      apply ReadsBack.tag
      refine (hvalues.part ((ReadsBack.bool hasNull).field
        (ReadsBack.done (PartBound.list values hasNull))) ?_).congr (by simp [PartBound.Storable])
      intro values
      apply Reader.Returns.bind
      intro hasNull
      exact Reader.Returns.pure fun h => (PartBound.list.inj h).1
  | range lower upper =>
      have hbounds (l : List RangeBound) := ReadsBack.list (v := v) (l := l) (by simp) fun b _ =>
        @Dec.readsBack_rangeBound _ T v stack b
      have hupper := (hbounds upper).part (k := fun upper => pure (PartBound.range lower upper))
        (ReadsBack.done (PartBound.range lower upper)) fun _ =>
          Reader.Returns.pure fun h => (PartBound.range.inj h).2
      apply ReadsBack.tag
      refine ((hbounds lower).part hupper ?_).congr (by simp [PartBound.Storable])
      intro lower
      apply Reader.Returns.bind
      intro upper
      exact Reader.Returns.pure fun h => (PartBound.range.inj h).1
  | hash modulus remainder =>
      apply ReadsBack.tag
      apply (ReadsBack.u32 modulus).field
      apply (ReadsBack.u32 remainder).field
      exact ReadsBack.done _

theorem Dec.readsBack_partitionInfo (p : PartitionInfo E) :
    ReadsBack v (Dec.partitionInfo T stack) (Enc.partitionInfo T p) p (p.Storable T stack) := by
  have hkeys := ReadsBack.list (v := v) (l := p.key) (by simp) fun k _ =>
    Dec.readsBack_partKey (T := T) k
  have hbound := ReadsBack.opt (v := v) (o := p.bound) fun b _ =>
    @Dec.readsBack_partBound _ T v stack b
  have hrest := (ReadsBack.bool (v := v) p.isDefault).field
    (k := fun isDefault => Reader.opt Reader.str >>= fun parent => Reader.list Reader.str >>=
      fun children => Reader.bool >>= fun isPartitioned => pure
        (⟨p.method, p.key, p.bound, isDefault, parent, children, isPartitioned⟩ : PartitionInfo E))
    ((Dec.readsBack_optStr p.parent).field ((Dec.readsBack_strs p.children).field
      ((ReadsBack.bool p.isPartitioned).field (ReadsBack.done p))))
  apply (Dec.readsBack_partMethod p.method).field
  refine (hkeys.part (hbound.part hrest ?_) ?_).congr (by simp [PartitionInfo.Storable])
  · intro bound
    iterate 4 refine Reader.Returns.bind fun _ => ?_
    exact Reader.Returns.pure fun h => congrArg PartitionInfo.bound h
  · intro key
    iterate 5 refine Reader.Returns.bind fun _ => ?_
    exact Reader.Returns.pure fun h => congrArg PartitionInfo.key h

/-- Partition metadata is read back when its parts are. -/
theorem Dec.readsBack_partition (p : Option (PartitionInfo E)) :
    ReadsBack v (Dec.partition T stack) (Enc.partition T p) p (∀ i ∈ p, i.Storable T stack) :=
  ReadsBack.opt fun i _ => Dec.readsBack_partitionInfo i

end

/-! ## Grants -/

def Enc.acl (e : WalAcl) : Bytes :=
  [Put.str e.role, Put.u32 e.privs, Put.u32 e.grantOption, Put.str e.grantor].flatten

def Enc.colAcl (e : WalColAcl) : Bytes :=
  [Put.str e.role, Put.u32 e.privs, Put.list Put.str e.columns, Put.u32 e.grantOption,
    Put.str e.grantor].flatten

def Enc.defaultAcl (r : WalDefaultAcl) : Bytes :=
  [Put.str r.creator, Put.u8 r.kind, Put.str r.grantee, Put.u32 r.privs,
    Put.str r.schema].flatten

namespace Dec

open Reader

def acl : Reader WalAcl := do
  let role ← str
  let privs ← u32
  let grantOption ← since 26 0 u32
  let grantor ← since 26 "" str
  return { role, privs, grantOption, grantor }

def colAcl : Reader WalColAcl := do
  let role ← str
  let privs ← u32
  let columns ← list str
  let grantOption ← since 26 0 u32
  let grantor ← since 26 "" str
  return { role, privs, columns, grantOption, grantor }

def defaultAcl : Reader WalDefaultAcl := do
  let creator ← str
  let kind ← u8
  let grantee ← str
  let privs ← u32
  let schema ← since 26 "" str
  return { creator, kind, grantee, privs, schema }

end Dec

section

variable {v : Nat}

@[simp]
theorem Enc.one_le_length_acl (e : WalAcl) : 1 ≤ (Enc.acl e).length := by
  simp [Enc.acl]
  omega

@[simp]
theorem Enc.one_le_length_colAcl (e : WalColAcl) : 1 ≤ (Enc.colAcl e).length := by
  simp [Enc.colAcl]
  omega

@[simp]
theorem Enc.one_le_length_defaultAcl (r : WalDefaultAcl) : 1 ≤ (Enc.defaultAcl r).length := by
  simp [Enc.defaultAcl]
  omega

theorem Dec.readsBack_acl (hv : 26 ≤ v) (e : WalAcl) :
    ReadsBack v Dec.acl (Enc.acl e) e True := by
  apply (ReadsBack.str e.role).field
  apply (ReadsBack.u32 e.privs).field
  apply (ReadsBack.since hv (ReadsBack.u32 e.grantOption)).field
  apply (ReadsBack.since hv (ReadsBack.str e.grantor)).field
  exact ReadsBack.done e

theorem Dec.readsBack_colAcl (hv : 26 ≤ v) (e : WalColAcl) :
    ReadsBack v Dec.colAcl (Enc.colAcl e) e True := by
  apply (ReadsBack.str e.role).field
  apply (ReadsBack.u32 e.privs).field
  apply (Dec.readsBack_strs e.columns).field
  apply (ReadsBack.since hv (ReadsBack.u32 e.grantOption)).field
  apply (ReadsBack.since hv (ReadsBack.str e.grantor)).field
  exact ReadsBack.done e

theorem Dec.readsBack_defaultAcl (hv : 26 ≤ v) (r : WalDefaultAcl) :
    ReadsBack v Dec.defaultAcl (Enc.defaultAcl r) r True := by
  apply (ReadsBack.str r.creator).field
  apply (ReadsBack.u8 r.kind).field
  apply (ReadsBack.str r.grantee).field
  apply (ReadsBack.u32 r.privs).field
  apply (ReadsBack.since hv (ReadsBack.str r.schema)).field
  exact ReadsBack.done r

theorem Dec.readsBack_acls (hv : 26 ≤ v) (l : List WalAcl) :
    ReadsBack v (Reader.list Dec.acl) (Put.list Enc.acl l) l True :=
  ReadsBack.list_always (by simp) fun e _ => Dec.readsBack_acl hv e

theorem Dec.readsBack_colAcls (hv : 26 ≤ v) (l : List WalColAcl) :
    ReadsBack v (Reader.list Dec.colAcl) (Put.list Enc.colAcl l) l True :=
  ReadsBack.list_always (by simp) fun e _ => Dec.readsBack_colAcl hv e

end

/-! ## Roles -/

def Enc.verifier : Option WalVerifier → Bytes
  | none => [0]
  | some v => 1 :: [Put.u32 v.iterations, Put.blob v.salt, v.storedKey.1, v.serverKey.1].flatten

def Enc.membership (m : WalMembership) : Bytes :=
  [Put.str m.role, Put.str m.grantor, Put.bool m.admin, Put.bool m.inherit, Put.bool m.set].flatten

def Enc.walRole (r : WalRole) : Bytes :=
  [Enc.verifier r.password, Put.bool r.canLogin, Put.bool r.superuser, Put.i32 r.connlimit,
    Put.list Enc.membership r.memberships, Put.opt Put.str r.validUntil, Put.bool r.bypassrls,
    Put.bool r.inherit, Put.bool r.createrole, Put.bool r.createdb,
    Put.bool r.replication].flatten

namespace Dec

open Reader

def verifier : Reader (Option WalVerifier) := do
  let tag ← u8
  match tag.toNat with
  | 0 => return none
  | 1 => do
    let iterations ← u32
    let salt ← blob
    let storedKey ← block 32
    let serverKey ← block 32
    return some { iterations, salt, storedKey, serverKey }
  | _ => fail ("bad verifier tag " ++ toString tag)

def membership : Reader WalMembership := do
  let role ← str
  let grantor ← str
  let admin ← since 26 false bool
  let inherit ← since 26 true bool
  let set ← since 26 true bool
  return { role, grantor, admin, inherit, set }

def walRole : Reader WalRole := do
  let password ← verifier
  let canLogin ← bool
  let superuser ← bool
  let connlimit ← i32
  let memberships ← list membership
  let validUntil ← opt str
  let bypassrls ← since 25 false bool
  let inherit ← since 26 true bool
  let createrole ← since 26 false bool
  let createdb ← since 26 false bool
  let replication ← since 27 false bool
  return ⟨password, canLogin, superuser, connlimit, memberships, validUntil, bypassrls, inherit,
    createrole, createdb, replication⟩

end Dec

section

variable {v : Nat}

@[simp]
theorem Enc.one_le_length_membership (m : WalMembership) : 1 ≤ (Enc.membership m).length := by
  simp [Enc.membership]
  omega

theorem Dec.readsBack_verifier (o : Option WalVerifier) :
    ReadsBack v Dec.verifier (Enc.verifier o) o True := by
  cases o with
  | none => exact ReadsBack.tag (ReadsBack.pure none)
  | some w =>
      apply ReadsBack.tag
      apply (ReadsBack.u32 w.iterations).field
      apply (ReadsBack.blob w.salt).field
      apply (ReadsBack.block w.storedKey).field
      apply (ReadsBack.block w.serverKey).field
      exact ReadsBack.done (some w)

theorem Dec.readsBack_membership (hv : 26 ≤ v) (m : WalMembership) :
    ReadsBack v Dec.membership (Enc.membership m) m True := by
  apply (ReadsBack.str m.role).field
  apply (ReadsBack.str m.grantor).field
  apply (ReadsBack.since hv (ReadsBack.bool m.admin)).field
  apply (ReadsBack.since hv (ReadsBack.bool m.inherit)).field
  apply (ReadsBack.since hv (ReadsBack.bool m.set)).field
  exact ReadsBack.done m

theorem Dec.readsBack_walRole (hv : 27 ≤ v) (r : WalRole) :
    ReadsBack v Dec.walRole (Enc.walRole r) r True := by
  have hmembers := ReadsBack.list_always (v := v) (l := r.memberships) (e := Enc.membership)
    (by simp) fun m _ => Dec.readsBack_membership (by omega) m
  apply (Dec.readsBack_verifier r.password).field
  apply (ReadsBack.bool r.canLogin).field
  apply (ReadsBack.bool r.superuser).field
  apply (ReadsBack.i32 r.connlimit).field
  apply hmembers.field
  apply (Dec.readsBack_optStr r.validUntil).field
  apply (ReadsBack.since (by omega) (ReadsBack.bool r.bypassrls)).field
  apply (ReadsBack.since (by omega) (ReadsBack.bool r.inherit)).field
  apply (ReadsBack.since (by omega) (ReadsBack.bool r.createrole)).field
  apply (ReadsBack.since (by omega) (ReadsBack.bool r.createdb)).field
  apply (ReadsBack.since hv (ReadsBack.bool r.replication)).field
  exact ReadsBack.done r

end

/-! ## Sequences -/

def Enc.owner (o : String × String × Option UInt64) : Bytes :=
  [Put.str o.1, Put.str o.2.1, Put.opt Put.u64 o.2.2].flatten

def Enc.sequence (s : WalSequence) : Bytes :=
  [Put.str s.name, Put.u8 s.seqType, Put.i64 s.start, Put.i64 s.increment, Put.i64 s.minValue,
    Put.i64 s.maxValue, Put.bool s.cycle, Put.i64 s.cache, Put.i64 s.current,
    Put.bool s.currentIsSet, Put.bool s.isCalled, Put.str s.owner, Put.list Enc.acl s.acl,
    Put.opt Enc.owner s.ownedBy].flatten

namespace Dec

open Reader

def owner : Reader (String × String × Option UInt64) := do
  let table ← str
  let column ← str
  let sess ← opt u64
  return (table, column, sess)

def sequence : Reader WalSequence := do
  let name ← str
  let seqType ← u8
  let start ← i64
  let increment ← i64
  let minValue ← i64
  let maxValue ← i64
  let cycle ← bool
  let cache ← i64
  let current ← i64
  let currentIsSet ← bool
  let isCalled ← bool
  let ownerRole ← str
  let acl ← list acl
  let ownedBy ← opt owner
  return ⟨name, seqType, start, increment, minValue, maxValue, cycle, cache, current, currentIsSet,
    isCalled, ownerRole, acl, ownedBy⟩

end Dec

section

variable {v : Nat}

theorem Dec.readsBack_owner (o : String × String × Option UInt64) :
    ReadsBack v Dec.owner (Enc.owner o) o True := by
  apply (ReadsBack.str o.1).field
  apply (ReadsBack.str o.2.1).field
  apply (ReadsBack.opt_always fun n _ => ReadsBack.u64 n).field
  exact ReadsBack.done o

theorem Dec.readsBack_sequence (hv : 26 ≤ v) (s : WalSequence) :
    ReadsBack v Dec.sequence (Enc.sequence s) s True := by
  apply (ReadsBack.str s.name).field
  apply (ReadsBack.u8 s.seqType).field
  apply (ReadsBack.i64 s.start).field
  apply (ReadsBack.i64 s.increment).field
  apply (ReadsBack.i64 s.minValue).field
  apply (ReadsBack.i64 s.maxValue).field
  apply (ReadsBack.bool s.cycle).field
  apply (ReadsBack.i64 s.cache).field
  apply (ReadsBack.i64 s.current).field
  apply (ReadsBack.bool s.currentIsSet).field
  apply (ReadsBack.bool s.isCalled).field
  apply (ReadsBack.str s.owner).field
  apply (Dec.readsBack_acls hv s.acl).field
  apply (ReadsBack.opt_always fun o _ => Dec.readsBack_owner o).field
  exact ReadsBack.done s

end

/-! ## Types, operators and publications -/

def Enc.column (c : String × ColType) : Bytes := [Put.str c.1, Enc.colType c.2].flatten

def Enc.columns : Columns → Bytes := Put.list Enc.column

def Enc.bitTypmod (m : Int32 × Bool) : Bytes := [Put.i32 m.1, Put.bool m.2].flatten

def Enc.bitTypmods : BitTypmods → Bytes := Put.list (Put.opt Enc.bitTypmod)

def Enc.compositeField (f : String × ColType × Option String) : Bytes :=
  [Put.str f.1, Enc.colType f.2.1, Put.opt Put.str f.2.2].flatten

def Enc.domain (d : WalDomain) : Bytes :=
  [Enc.colType d.base, Put.opt Put.str d.baseNamed, Put.opt Put.str d.baseDomain,
    Put.bool d.notNull, Put.str d.checks, Put.str d.default].flatten

def Enc.operDef (d : WalOperDef) : Bytes :=
  [Put.str d.procedure, Put.opt Put.str d.leftarg, Put.opt Put.str d.rightarg,
    Put.opt Put.str d.commutator, Put.opt Put.str d.negator, Put.bool d.hashes,
    Put.bool d.merges].flatten

def Enc.tableSpec (s : String × Option (List String) × Option String) : Bytes :=
  [Put.str s.1, Put.opt (Put.list Put.str) s.2.1, Put.opt Put.str s.2.2].flatten

def Enc.publication (p : WalPublication) : Bytes :=
  [Put.u32 p.oid, Put.opt Put.str p.comment, Put.str p.owner, Put.bool p.allTables,
    Put.bool p.allSequences, Put.list Put.str p.exceptTables, Put.list Put.str p.tables,
    Put.list Put.str p.schemas, Put.bool p.pubinsert, Put.bool p.pubupdate, Put.bool p.pubdelete,
    Put.bool p.pubtruncate, Put.bool p.viaPartitionRoot, Put.str p.publishGeneratedColumns,
    Put.list Enc.tableSpec p.specs].flatten

namespace Dec

open Reader

def column : Reader (String × ColType) := do
  let name ← str
  let typ ← colType
  return (name, typ)

def columns : Reader Columns := list column

def bitTypmod : Reader (Int32 × Bool) := do
  let n ← i32
  let varying ← bool
  return (n, varying)

def bitTypmods : Reader BitTypmods := list (opt bitTypmod)

def compositeField : Reader (String × ColType × Option String) := do
  let fname ← str
  let fty ← colType
  let nested ← opt str
  return (fname, fty, nested)

def domain : Reader WalDomain := do
  let base ← colType
  let baseNamed ← opt str
  let baseDomain ← opt str
  let notNull ← bool
  let checks ← str
  let default ← str
  return { base, baseNamed, baseDomain, checks, notNull, default }

def operDef : Reader WalOperDef := do
  let procedure ← str
  let leftarg ← opt str
  let rightarg ← opt str
  let commutator ← opt str
  let negator ← opt str
  let hashes ← bool
  let merges ← bool
  return { procedure, leftarg, rightarg, commutator, negator, hashes, merges }

def tableSpec : Reader (String × Option (List String) × Option String) := do
  let k ← str
  let cols ← opt (list str)
  let filter ← opt str
  return (k, cols, filter)

def publication : Reader WalPublication := do
  let oid ← u32
  let comment ← opt str
  let owner ← str
  let allTables ← bool
  let allSequences ← bool
  let exceptTables ← list str
  let tables ← list str
  let schemas ← list str
  let pubinsert ← bool
  let pubupdate ← bool
  let pubdelete ← bool
  let pubtruncate ← bool
  let viaPartitionRoot ← bool
  let publishGeneratedColumns ← str
  let specs ← list tableSpec
  return ⟨oid, comment, owner, allTables, allSequences, exceptTables, tables, schemas, pubinsert,
    pubupdate, pubdelete, pubtruncate, viaPartitionRoot, publishGeneratedColumns, specs⟩

end Dec

/-! The types of columns, of the fields of a composite and of a domain have to be storable. -/

def Columns.Storable (cols : Columns) : Prop := ∀ c ∈ cols, c.2.Storable

def WalDomain.Storable (d : WalDomain) : Prop := d.base.Storable

section

variable {v : Nat}

@[simp]
theorem Enc.one_le_length_column (c : String × ColType) : 1 ≤ (Enc.column c).length := by
  simp [Enc.column]
  omega

@[simp]
theorem Enc.one_le_length_compositeField (f : String × ColType × Option String) :
    1 ≤ (Enc.compositeField f).length := by
  simp [Enc.compositeField]
  omega

@[simp]
theorem Enc.one_le_length_operDef (d : WalOperDef) : 1 ≤ (Enc.operDef d).length := by
  simp [Enc.operDef]
  omega

@[simp]
theorem Enc.one_le_length_tableSpec (s : String × Option (List String) × Option String) :
    1 ≤ (Enc.tableSpec s).length := by
  simp [Enc.tableSpec]
  omega

theorem Dec.readsBack_columns (cols : Columns) :
    ReadsBack v Dec.columns (Enc.columns cols) cols cols.Storable := by
  refine ReadsBack.list (by simp) fun c _ => ?_
  apply (ReadsBack.str c.1).bind
  have htype := (Dec.readsBack_colType (v := v) c.2).part (k := fun typ => pure (c.1, typ))
    (ReadsBack.done c) fun _ => Reader.Returns.pure fun h => (Prod.mk.inj h).2
  exact htype.congr (by simp)

theorem Dec.readsBack_bitTypmods (l : BitTypmods) :
    ReadsBack v Dec.bitTypmods (Enc.bitTypmods l) l True := by
  refine ReadsBack.list_always (fun o _ => Put.one_le_length_opt _ o) fun o _ => ?_
  refine ReadsBack.opt_always fun m _ => ?_
  apply (ReadsBack.i32 m.1).field
  apply (ReadsBack.bool m.2).field
  exact ReadsBack.done m

theorem Dec.readsBack_compositeField (f : String × ColType × Option String) :
    ReadsBack v Dec.compositeField (Enc.compositeField f) f f.2.1.Storable := by
  have htype := (Dec.readsBack_colType (v := v) f.2.1).part
    (k := fun fty => Reader.opt Reader.str >>= fun nested => pure (f.1, fty, nested))
    ((Dec.readsBack_optStr f.2.2).field (ReadsBack.done f)) fun _ =>
      Reader.Returns.bind fun _ => Reader.Returns.pure fun h => (Prod.mk.inj (Prod.mk.inj h).2).1
  apply (ReadsBack.str f.1).field
  exact htype.congr (by simp)

theorem Dec.readsBack_domain (d : WalDomain) :
    ReadsBack v Dec.domain (Enc.domain d) d d.Storable := by
  have hrest := (Dec.readsBack_optStr (v := v) d.baseNamed).field
    (k := fun baseNamed => Reader.opt Reader.str >>= fun baseDomain => Reader.bool >>=
      fun notNull => Reader.str >>= fun checks => Reader.str >>= fun default =>
        pure (⟨d.base, baseNamed, baseDomain, checks, notNull, default⟩ : WalDomain))
    ((Dec.readsBack_optStr d.baseDomain).field ((ReadsBack.bool d.notNull).field
      ((ReadsBack.str d.checks).field ((ReadsBack.str d.default).field (ReadsBack.done d)))))
  refine ((Dec.readsBack_colType d.base).part hrest ?_).congr (by simp [WalDomain.Storable])
  intro base
  iterate 5 refine Reader.Returns.bind fun _ => ?_
  exact Reader.Returns.pure fun h => congrArg WalDomain.base h

theorem Dec.readsBack_operDef (d : WalOperDef) :
    ReadsBack v Dec.operDef (Enc.operDef d) d True := by
  apply (ReadsBack.str d.procedure).field
  apply (Dec.readsBack_optStr d.leftarg).field
  apply (Dec.readsBack_optStr d.rightarg).field
  apply (Dec.readsBack_optStr d.commutator).field
  apply (Dec.readsBack_optStr d.negator).field
  apply (ReadsBack.bool d.hashes).field
  apply (ReadsBack.bool d.merges).field
  exact ReadsBack.done d

theorem Dec.readsBack_tableSpec (s : String × Option (List String) × Option String) :
    ReadsBack v Dec.tableSpec (Enc.tableSpec s) s True := by
  apply (ReadsBack.str s.1).field
  apply (ReadsBack.opt_always fun cols _ => Dec.readsBack_strs cols).field
  apply (Dec.readsBack_optStr s.2.2).field
  exact ReadsBack.done s

theorem Dec.readsBack_publication (p : WalPublication) :
    ReadsBack v Dec.publication (Enc.publication p) p True := by
  have hspecs := ReadsBack.list_always (v := v) (l := p.specs) (e := Enc.tableSpec)
    (by simp) fun s _ => Dec.readsBack_tableSpec s
  apply (ReadsBack.u32 p.oid).field
  apply (Dec.readsBack_optStr p.comment).field
  apply (ReadsBack.str p.owner).field
  apply (ReadsBack.bool p.allTables).field
  apply (ReadsBack.bool p.allSequences).field
  apply (Dec.readsBack_strs p.exceptTables).field
  apply (Dec.readsBack_strs p.tables).field
  apply (Dec.readsBack_strs p.schemas).field
  apply (ReadsBack.bool p.pubinsert).field
  apply (ReadsBack.bool p.pubupdate).field
  apply (ReadsBack.bool p.pubdelete).field
  apply (ReadsBack.bool p.pubtruncate).field
  apply (ReadsBack.bool p.viaPartitionRoot).field
  apply (ReadsBack.str p.publishGeneratedColumns).field
  apply hspecs.field
  exact ReadsBack.done p

end

end Encoding
