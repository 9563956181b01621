-- SUMMARY: CREATE TABLE, ATTACH and DETACH keep the catalog in order and rows in their bounds, under the conditions they do not check.
import Rustgres.Partition.Links
import Rustgres.Partition.Rows

/-!
# Partition DDL and the Invariant

The code compares a new bound with its siblings and, for an attached table, looks at the rows of that
table alone. What it leaves out are conditions here.
-/

open Loops Forest

namespace Partition

variable {V E T L : Type} {sem : KeySem V E T L}

/-! ## Conditions -/

/-- The values of a key expression are of the type that is guessed for it. -/
def ExprTyped (sem : KeySem V E T L) (table : String) (cols : Cols T) (e : E) : Prop :=
  ∀ row v, RowTyped sem cols row → sem.evalKey e table cols row = .ok (some v) →
    sem.typeOf v = sem.inferType e cols

/-- A new bound below a partitioned table: its siblings' bounds compare with it, and it accepts no row
that is in a default partition beside it. -/
structure BoundSafe [BEq V] (db : Db sem) (parent : String) (pinfo : PartitionInfo V E)
    (pcols : Cols T) (bound : PartBound V) (isDefault : Bool) : Prop where
  isPartitioned : pinfo.isPartitioned
  comparable : ∀ name ∈ pinfo.children, ∀ other, childBound db name = some other →
    Comparable sem bound other
  default : isDefault = false → ∀ name row d dinfo dcols drow key, Stored db name row →
    Carried db name row d drow → partitionOf db d = some dinfo → dinfo.parent = some parent →
    dinfo.isDefault → colsOf db d = some dcols →
    evalTablePartKey sem parent pinfo pcols (remapRow dcols pcols drow) = .ok key →
    boundContains sem pinfo.method bound key = false

/-- Besides, the rows in the partitions of an attached table belong in the new partition, all its rows
are in the bounds of the parent and above, and the search for circles reaches the root. -/
structure AttachSafe [BEq V] (db : Db sem) (parent child : String) (pinfo info : PartitionInfo V E)
    (pcols cols : Cols T) (bound : PartBound V) : Prop where
  safe : BoundSafe db parent pinfo pcols bound info.isDefault
  shallow : Shallow (parentOf db) maxHops parent
  partitions : ∀ name row crow, name ≠ child → Stored db name row → Carried db name row child crow →
    Linked.Admits db parent pinfo info bound pcols (remapRow cols pcols crow)
  ancestors : ∀ name row crow, Stored db name row → Carried db name row child crow →
    Satisfied db parent (remapRow cols pcols crow)

/-! ## Typed keys and bounds -/

theorem convertList_typed {ty : T} {exprs : List (BoundExpr L)} {out : List V × Bool}
    (h : convertList sem ty exprs = .ok out) : ∀ v ∈ out.1, sem.typeOf v = ty := by
  induction exprs generalizing out with
  | nil =>
      cases h
      simp
  | cons e exprs ih =>
      cases e with
      | other => cases h
      | lit l =>
          cases l with
          | none =>
              obtain ⟨rest, hrest, h⟩ := bind_eq_ok h
              have hvalues := ih hrest
              cases h
              exact hvalues
          | some l =>
              obtain ⟨v, hv, h⟩ := bind_eq_ok h
              obtain ⟨rest, hrest, h⟩ := bind_eq_ok h
              cases h
              rintro w (_ | ⟨_, hw⟩)
              · exact sem.typeOf_coerceLiteral hv
              · exact ih hrest w hw

theorem convertRange_typed {types : List T} {defs : List (RangeBoundDef L)}
    {bounds : List (RangeBound V)} (hlen : defs.length = types.length)
    (h : (defs.zip types).mapM (convertRangeBound sem) = .ok bounds) : RangeTyped sem types bounds := by
  induction types generalizing defs bounds with
  | nil =>
      rw [List.zip_nil_right] at h
      cases h
      exact .nil
  | cons ty types ih =>
      cases defs with
      | nil => cases hlen
      | cons d defs =>
          rw [List.zip_cons_cons] at h
          obtain ⟨b, rest, hb, hrest, rfl⟩ := mapM_cons_ok h
          refine .cons (fun v hv => ?_) (ih (Nat.succ.inj hlen) hrest)
          subst hv
          match d, hb with
          | .val (.lit (some l)), hb =>
              obtain ⟨w, hw, hb⟩ := bind_eq_ok hb
              cases hb
              exact sem.typeOf_coerceLiteral hw

theorem convertPartBound_typed {cols : Cols T} {pinfo : PartitionInfo V E} {boundDef : PartBoundDef L}
    {bound : PartBound V} (h : convertPartBound sem cols pinfo boundDef = .ok bound) :
    BoundTyped sem (keyTypes sem pinfo cols) bound := by
  cases boundDef with
  | list exprs =>
      obtain ⟨out, hout, h⟩ := bind_eq_ok h
      cases h
      exact convertList_typed hout
  | range lower upper =>
      simp only [convertPartBound] at h
      split at h
      · cases h
      · rename_i hlen
        rw [not_or, not_not, not_not] at hlen
        obtain ⟨lo, hlo, h⟩ := bind_eq_ok h
        obtain ⟨hi, hhi, h⟩ := bind_eq_ok h
        obtain ⟨_, _, h⟩ := bind_eq_ok h
        obtain ⟨_, _, h⟩ := bind_eq_ok h
        cases h
        exact ⟨convertRange_typed hlen.1 hlo, convertRange_typed hlen.2 hhi⟩
  | hash modulus remainder =>
      simp only [convertPartBound] at h
      split at h
      · cases h
      · rename_i hmod
        cases h
        exact Nat.pos_of_ne_zero (not_or.1 hmod).1
  | default =>
      cases h
      simp [BoundTyped]

theorem convertPartBound_default {cols : Cols T} {pinfo : PartitionInfo V E}
    {boundDef : PartBoundDef L} {bound : PartBound V} (hd : boundDef.isDefault)
    (h : convertPartBound sem cols pinfo boundDef = .ok bound) : bound = .list [] false := by
  cases boundDef with
  | default =>
      cases h
      rfl
  | list | range | hash => cases hd

/-- The key of a typed row is typed, when the key expressions are. -/
theorem keyTyped_of_resolve {name : String} {cols : Cols T} {keys : List (PartitionKeyDef E)}
    {key : List (PartKey E)}
    (hresolve : keys.mapM (resolveKey name cols) = .ok key)
    (hexpr : ∀ e, .expr e ∈ keys → ExprTyped sem name cols e) {pinfo : PartitionInfo V E}
    (hkey : pinfo.key = key) {row values : Row V} (hrow : RowTyped sem cols row)
    (heval : evalTablePartKey sem name pinfo cols row = .ok values) :
    KeyTyped sem (keyTypes sem pinfo cols) values := by
  unfold evalTablePartKey at heval
  unfold keyTypes KeyTyped
  rw [hkey] at heval ⊢
  clear hkey
  induction keys generalizing key values with
  | nil =>
      cases hresolve
      cases heval
      exact .nil
  | cons k keys ih =>
      obtain ⟨pk, pks, hpk, hpks, rfl⟩ := mapM_cons_ok hresolve
      obtain ⟨v, vs, hv, hvs, rfl⟩ := mapM_cons_ok heval
      refine .cons (fun w hw => ?_) (ih hpks (fun e he => hexpr e (.tail _ he)) hvs)
      rw [Option.mem_def] at hw
      subst hw
      cases k with
      | column col =>
          unfold resolveKey at hpk
          cases hidx : cols.findIdx? fun c => c.1 = col with
          | none =>
              simp only [hidx] at hpk
              cases hpk
          | some idx =>
              simp only [hidx] at hpk
              cases hpk
              have hlt := (List.findIdx?_eq_some_iff_getElem.1 hidx).choose
              rw [PartKey.eval] at hv
              have hget := hrow.get (List.getElem?_eq_getElem hlt) (Except.ok.inj hv)
              simp [hget, List.getElem?_eq_getElem hlt]
      | expr e =>
          cases hpk
          exact hexpr e (.head _) row w hrow hv

/-! ## CREATE TABLE -/

section

variable {db : Db sem} {name : String} {t : Table sem}

theorem partitionOf_put (n : String) :
    partitionOf (db.put name t) n = if n = name then t.partition else partitionOf db n := by
  unfold partitionOf Db.put
  by_cases hn : n = name
  · subst hn
    rw [Function.update_self, if_pos rfl]
    rfl
  · rw [Function.update_of_ne hn, if_neg hn]

theorem colsOf_put (n : String) :
    colsOf (db.put name t) n = if n = name then some t.columns else colsOf db n := by
  unfold colsOf Db.put
  by_cases hn : n = name
  · subst hn
    rw [Function.update_self, if_pos rfl]
    rfl
  · rw [Function.update_of_ne hn, if_neg hn]

/-- A new table that is no partition and holds nothing changes nothing for the others. -/
theorem inv_create (h : Inv db) (hfresh : db name = none) (hrows : t.rows = [])
    (hroot : ∀ pinfo, t.partition = some pinfo →
      pinfo.parent = none ∧ pinfo.bound = none ∧ pinfo.children = [])
    (hkeys : ∀ pinfo row key, t.partition = some pinfo → RowTyped sem t.columns row →
      evalTablePartKey sem name pinfo t.columns row = .ok key →
      KeyTyped sem (keyTypes sem pinfo t.columns) key) : Inv (db.put name t) := by
  have hs := h.schema
  have hnone : partitionOf db name = none := by simp [partitionOf, hfresh]
  have hpart : ∀ {n pinfo}, partitionOf db n = some pinfo → n ≠ name := by
    rintro n pinfo hn rfl
    rw [hnone] at hn
    cases hn
  have hold : ∀ {n}, n ≠ name → partitionOf (db.put name t) n = partitionOf db n :=
    fun hn => (partitionOf_put _).trans (if_neg hn)
  have holdcols : ∀ {n}, n ≠ name → colsOf (db.put name t) n = colsOf db n :=
    fun hn => (colsOf_put _).trans (if_neg hn)
  have hnew : partitionOf (db.put name t) name = t.partition :=
    (partitionOf_put _).trans (if_pos rfl)
  have hparent : parentOf (db.put name t) = parentOf db := by
    funext n
    by_cases hn : n = name
    · subst hn
      unfold parentOf
      rw [hnew, hnone]
      cases hp : t.partition with
      | none => rfl
      | some pinfo => exact (hroot pinfo hp).1
    · unfold parentOf
      rw [hold hn]
  have hchild : ∀ {c q}, parentOf db c = some q → c ≠ name ∧ q ≠ name := by
    intro c q hc
    constructor
    · rintro rfl
      simp [parentOf, hnone] at hc
    · obtain ⟨qinfo, hq, -⟩ := hs.links.1 hc
      exact hpart hq
  have hmem : ∀ {n pinfo c}, partitionOf (db.put name t) n = some pinfo → c ∈ pinfo.children →
      n ≠ name ∧ partitionOf db n = some pinfo ∧ parentOf db c = some n := by
    intro n pinfo c hn hc
    by_cases he : n = name
    · subst he
      rw [hnew] at hn
      rw [(hroot pinfo hn).2.2] at hc
      cases hc
    · rw [hold he] at hn
      exact ⟨he, hn, hs.links.2 ⟨pinfo, hn, hc⟩⟩
  have hexplicit : ∀ {n}, n ≠ name → ∀ pinfo key,
      explicitAccepts (db.put name t) pinfo key n = explicitAccepts db pinfo key n := by
    intro n hn pinfo key
    unfold explicitAccepts
    rw [hold hn]
  refine ⟨?_, ?_, ?_⟩
  · constructor
    case rooted =>
      rw [hparent]
      exact hs.rooted
    case links =>
      intro c q
      rw [hparent]
      constructor
      · intro hc
        obtain ⟨pinfo, hq, hcmem⟩ := hs.links.1 hc
        exact ⟨pinfo, (hold (hpart hq)).trans hq, hcmem⟩
      · rintro ⟨pinfo, hq, hc⟩
        exact (hmem hq hc).2.2
    case partitioned =>
      intro n pinfo hn hne
      obtain ⟨c, hc⟩ := List.exists_mem_of_ne_nil _ hne
      exact hs.partitioned (hmem hn hc).2.1 hne
    case bound =>
      intro n pinfo hn
      by_cases he : n = name
      · subst he
        rw [hnew] at hn
        rw [(hroot pinfo hn).1, (hroot pinfo hn).2.1]
        rfl
      · exact hs.bound (hold he ▸ hn)
    case columns =>
      intro c q cols qcols hc hcols hqcols
      rw [hparent] at hc
      rw [holdcols (hchild hc).1] at hcols
      rw [holdcols (hchild hc).2] at hqcols
      exact hs.columns hc hcols hqcols
    case keys =>
      intro n pinfo cols row key hn hp hcols hrow hkey
      by_cases he : n = name
      · subst he
        rw [hnew] at hn
        rw [colsOf_put, if_pos rfl] at hcols
        cases hcols
        exact hkeys pinfo row key hn hrow hkey
      · rw [holdcols he] at hcols
        exact hs.keys (hold he ▸ hn) hp hcols hrow hkey
    case bounds =>
      intro c q pinfo cols bound hc hb hq hcols
      rw [hparent] at hc
      obtain ⟨hcn, hqn⟩ := hchild hc
      rw [hold hqn] at hq
      rw [holdcols hqn] at hcols
      unfold childBound at hb
      rw [hold hcn] at hb
      exact hs.bounds hc hb hq hcols
    case disjoint =>
      intro q pinfo cols key a b hq hcols ha hb hne hkey hacca haccb
      obtain ⟨hqn, hq₀, hpa⟩ := hmem hq ha
      obtain ⟨-, -, hpb⟩ := hmem hq hb
      rw [holdcols hqn] at hcols
      rw [hexplicit (hchild hpa).1] at hacca
      rw [hexplicit (hchild hpb).1] at haccb
      exact hs.disjoint hq₀ hcols ha hb hne hkey hacca haccb
    case oneDefault =>
      intro q pinfo a b ainfo binfo hq ha hb hainfo hbinfo hda hdb
      obtain ⟨hqn, hq₀, hpa⟩ := hmem hq ha
      obtain ⟨-, -, hpb⟩ := hmem hq hb
      rw [hold (hchild hpa).1] at hainfo
      rw [hold (hchild hpb).1] at hbinfo
      exact hs.oneDefault hq₀ ha hb hainfo hbinfo hda hdb
  · intro n row cols hrow hcols
    rcases stored_put hrow with ⟨-, hrow⟩ | hrow
    · rw [hrows] at hrow
      cases hrow
    · obtain ⟨t', ht', -⟩ := id hrow
      have hn : n ≠ name := by
        rintro rfl
        rw [hfresh] at ht'
        cases ht'
      exact h.typed hrow (holdcols hn ▸ hcols)
  · intro n row hput
    rcases stored_put hput with ⟨-, hrow⟩ | hrow
    · rw [hrows] at hrow
      cases hrow
    · obtain ⟨t', ht', -⟩ := id hrow
      have hn : n ≠ name := by
        rintro rfl
        rw [hfresh] at ht'
        cases ht'
      intro anc row' hcarried
      have hcarried₀ : Carried db n row anc row' ∧ anc ≠ name := by
        clear hput hrow ht'
        induction hcarried with
        | refl => exact ⟨.refl .., hn⟩
        | up hcols hp hpcols _ ih =>
            rw [hparent] at hp
            have hq := (hchild hp).2
            rw [holdcols hn] at hcols
            rw [holdcols hq] at hpcols
            obtain ⟨hcarried, hanc⟩ := ih hq
            exact ⟨.up hcols hp hpcols hcarried, hanc⟩
      obtain ⟨hcarried₀, hanc⟩ := hcarried₀
      intro pinfo q qinfo cols qcols hp hq hqinfo hcols hqcols
      rw [hold hanc] at hp
      have hpq := (parentOf_of_eq hp).trans hq
      obtain ⟨-, hqn⟩ := hchild hpq
      rw [hold hqn] at hqinfo
      rw [holdcols hanc] at hcols
      rw [holdcols hqn] at hqcols
      obtain ⟨key, hkey, haccepts⟩ :=
        h.satisfied hrow anc row' hcarried₀ pinfo q qinfo cols qcols hp hq hqinfo hcols hqcols
      refine ⟨key, hkey, ?_⟩
      unfold accepts explicitSiblingAccepts at haccepts ⊢
      have hany : (qinfo.children.any fun c => c ≠ anc && explicitAccepts (db.put name t) qinfo key c)
          = qinfo.children.any fun c => c ≠ anc && explicitAccepts db qinfo key c := by
        rw [Bool.eq_iff_iff, List.any_eq_true, List.any_eq_true]
        refine exists_congr fun c => and_congr_right fun hc => ?_
        rw [hexplicit (hchild (hs.links.2 ⟨qinfo, hqinfo, hc⟩)).1]
      rw [hany]
      exact haccepts

end

/-! ## New links -/

section

variable {db : Db sem} {parent child : String} {pt ct : Table sem} {pinfo info : PartitionInfo V E}

theorem linked_of_put (hs : Schema db) (hpt : db parent = some pt) (hpinfo : pt.partition = some pinfo)
    (hroot : parentOf db child = none) (habove : ¬ Above (parentOf db) parent child)
    (hinfo : ct.partition = some info) (hparent : info.parent = some parent)
    (hcols : ∀ old, db child = some old → old.columns = ct.columns) :
    Linked db (parentLinkChild (db.put child ct) parent child true) parent child pinfo info
      pt.columns ct.columns := by
  have hne : parent ≠ child := by
    rintro rfl
    exact habove (.refl _)
  have hpart := (partitionOf_of_eq hpt).trans hpinfo
  have hnot : pinfo.children.contains child = false := by
    rw [← Bool.not_eq_true, List.contains_iff_mem]
    intro hmem
    rw [hs.links.2 ⟨pinfo, hpart, hmem⟩] at hroot
    cases hroot
  have hdb : parentLinkChild (db.put child ct) parent child true
      = (db.put child ct).put parent
          { pt with partition := some { pinfo with children := pinfo.children ++ [child] } } := by
    have hget : (db.put child ct) parent = some pt := by
      rw [Db.put, Function.update_of_ne hne, hpt]
    unfold parentLinkChild
    rw [hget]
    simp only [hpinfo, Option.map_some, if_true, hnot, Bool.false_eq_true, if_false]
  rw [hdb]
  refine ⟨habove, hroot, hpart, colsOf_of_eq hpt, ?_, ?_, ?_, ?_, ?_, ?_, hparent⟩
  · intro old hold
    obtain ⟨t, ht, rfl⟩ := Option.map_eq_some_iff.1 hold
    exact hcols t ht
  · rw [partitionOf_put, if_pos rfl]
  · rw [partitionOf_put, if_neg hne.symm, partitionOf_put, if_pos rfl, hinfo]
  · intro n hp hc
    rw [partitionOf_put, if_neg hp, partitionOf_put, if_neg hc]
  · rw [colsOf_put, if_neg hne.symm, colsOf_put, if_pos rfl]
  · intro n hc
    rw [colsOf_put]
    split
    · rename_i hp
      rw [hp, colsOf_of_eq hpt]
    · rw [colsOf_put, if_neg hc]

theorem stored_of_link (hpt : db parent = some pt) (hne : parent ≠ child) {n : String} {row : Row V}
    (h : Stored (parentLinkChild (db.put child ct) parent child true) n row) :
    (n = child ∧ row ∈ ct.rows) ∨ (n ≠ child ∧ Stored db n row) := by
  have hget : (db.put child ct) parent = some pt := by
    rw [Db.put, Function.update_of_ne hne, hpt]
  unfold parentLinkChild at h
  rw [hget] at h
  rcases stored_put h with ⟨rfl, hrow⟩ | hrow
  · exact .inr ⟨hne, pt, hpt, hrow⟩
  · obtain ⟨t, ht, hmem⟩ := hrow
    by_cases hn : n = child
    · subst hn
      rw [Db.put, Function.update_self] at ht
      cases ht
      exact .inl ⟨rfl, hmem⟩
    · rw [Db.put, Function.update_of_ne hn] at ht
      exact .inr ⟨hn, t, ht, hmem⟩

variable [BEq V]

/-- The checks on a new bound, where it compares with its siblings. -/
theorem linkOk_of_check (hs : Schema db) (hpt : db parent = some pt) (hpinfo : pt.partition = some pinfo)
    {boundDef : PartBoundDef L} {bound : PartBound V} {cols : Cols T}
    (hbound : convertPartBound sem pt.columns pinfo boundDef = .ok bound)
    (hcheck : checkBoundNoOverlap db parent pinfo bound child = .ok ())
    (hsafe : BoundSafe db parent pinfo pt.columns bound boundDef.isDefault)
    (hinfob : info.bound = some bound) (hinfod : info.isDefault = boundDef.isDefault)
    (hchildren : ∀ name, name ∈ info.children ↔ parentOf db name = some child)
    (hold : ∀ cinfo, partitionOf db child = some cinfo →
      info.method = cinfo.method ∧ info.key = cinfo.key)
    (hpartd : info.children ≠ [] → info.isPartitioned) (hcols : ∀ c, c ∈ cols ↔ c ∈ pt.columns)
    (hkeys : info.isPartitioned → ∀ row key, RowTyped sem cols row →
      evalTablePartKey sem child info cols row = .ok key → KeyTyped sem (keyTypes sem info cols) key) :
    LinkOk db parent child pinfo info bound pt.columns cols := by
  have hpart := (partitionOf_of_eq hpt).trans hpinfo
  have htyped := convertPartBound_typed hbound
  unfold checkBoundNoOverlap at hcheck
  split at hcheck
  · cases hcheck
  rename_i hfind
  refine ⟨hsafe.isPartitioned, hinfob, hchildren, hold, hpartd, hcols, hkeys, htyped, ?_, ?_⟩
  · intro hd name hmem key hkey hacc
    rw [← Bool.not_eq_true]
    intro hin
    unfold explicitAccepts at hacc
    cases hn : partitionOf db name with
    | none =>
        rw [hn] at hacc
        cases hacc
    | some ninfo =>
    simp only [hn, Bool.and_eq_true] at hacc
    obtain ⟨other, hother, hino⟩ := (Option.any_eq_true ..).1 hacc.2
    have hob : childBound db name = some other := by
      simp [childBound, hn, hother]
    have hnot := List.find?_eq_none.1 hfind name hmem
    rw [hob, Option.any_some, Bool.not_eq_true] at hnot
    have hlink := hs.links.2 ⟨pinfo, hpart, hmem⟩
    exact disjoint_of_not_overlap htyped (hs.bounds hlink hob hpart (colsOf_of_eq hpt)) hkey
      (hsafe.comparable name hmem other hob) hnot hin hino
  · intro hd name hmem ninfo hn
    cases convertPartBound_default (hinfod ▸ hd) hbound
    simp only at hcheck
    split at hcheck
    · cases hcheck
    · rename_i hany
      rw [Bool.not_eq_true, List.any_eq_false] at hany
      have hnot := hany name hmem
      rw [hn, Option.any_some, Bool.not_eq_true] at hnot
      exact hnot

/-- Rows after a link: those below the new partition belong there and to the tables above. -/
theorem inv_link (h : Inv db) (hpt : db parent = some pt) {bound : PartBound V} {db' : Db sem}
    (hdb : db' = parentLinkChild (db.put child ct) parent child true)
    (hlinked : Linked db db' parent child pinfo info pt.columns ct.columns)
    (hok : LinkOk db parent child pinfo info bound pt.columns ct.columns)
    (hsafe : BoundSafe db parent pinfo pt.columns bound info.isDefault)
    (hrows : ∀ row ∈ ct.rows, Stored db child row)
    (hbelow : ∀ name row crow, Stored db name row → Carried db name row child crow →
      Linked.Admits db parent pinfo info bound pt.columns (remapRow ct.columns pt.columns crow) ∧
        Satisfied db parent (remapRow ct.columns pt.columns crow)) : Inv db' := by
  have hstored : ∀ {n row}, Stored db' n row → Stored db n row := by
    intro n row hrow
    rw [hdb] at hrow
    rcases stored_of_link hpt hlinked.ne.symm hrow with ⟨rfl, hmem⟩ | ⟨-, hrow⟩
    · exact hrows row hmem
    · exact hrow
  refine ⟨hlinked.schema h.schema hok, ?_, ?_⟩
  · intro n row cols hrow hcols
    have hrow := hstored hrow
    by_cases hn : n = child
    · subst hn
      obtain ⟨t, ht, -⟩ := id hrow
      rw [hlinked.cols_child] at hcols
      cases hcols
      have hold := hlinked.old_cols _ (colsOf_of_eq ht)
      exact h.typed hrow (hold ▸ colsOf_of_eq ht)
    · rw [hlinked.cols_other n hn] at hcols
      exact h.typed hrow hcols
  · intro n row hrow
    have hrow := hstored hrow
    exact hlinked.satisfied h.schema hok (h.satisfied hrow)
      (fun hd d dinfo dcols drow key hcarried hdinfo hp hdd hdcols hkey =>
        hsafe.default hd n row d dinfo dcols drow key hrow hcarried hdinfo hp hdd hdcols hkey)
      fun crow hcarried => hbelow n row crow hrow hcarried

end

theorem inv_createTable {db db' : Db sem} (h : Inv db) {name : String} {cols : Cols T}
    {partitionBy : Option (PartMethod × List (PartitionKeyDef E))}
    (hsafe : ∀ method keys, partitionBy = some (method, keys) →
      ∀ e, .expr e ∈ keys → ExprTyped sem name cols e)
    (hexec : createTable db name cols partitionBy = .ok db') : Inv db' := by
  unfold createTable at hexec
  split at hexec
  · cases hexec
  rename_i hfresh
  rw [Bool.not_eq_true, Option.isSome_eq_false_iff, Option.isNone_iff_eq_none] at hfresh
  split at hexec
  · rename_i hnodup
    cases partitionBy with
    | none =>
        cases hexec
        refine inv_create h hfresh rfl ?_ ?_
        · rintro pinfo ⟨⟩
        · rintro pinfo row key ⟨⟩
    | some p =>
        obtain ⟨method, keys⟩ := p
        obtain ⟨key, hkey, hexec⟩ := bind_eq_ok hexec
        cases hexec
        refine inv_create h hfresh rfl ?_ ?_
        · rintro pinfo ⟨⟩
          exact ⟨rfl, rfl, rfl⟩
        · rintro pinfo row values ⟨⟩ hrow heval
          exact keyTyped_of_resolve hkey (hsafe method keys rfl) rfl hrow heval
  · cases hexec

theorem not_above_of_missing {db : Db sem} (hs : Schema db) {parent child : String} {pt : Table sem}
    (hpt : db parent = some pt) (hchild : db child = none) :
    ¬ Above (parentOf db) parent child := by
  intro h
  have hex : ∀ {x y : String}, Above (parentOf db) x y → db x ≠ none → db y ≠ none := by
    intro x y hxy
    induction hxy with
    | refl => exact id
    | up hp _ ih =>
        intro _
        obtain ⟨qinfo, hq, -⟩ := hs.links.1 hp
        obtain ⟨t, ht, -⟩ := exists_of_partitionOf hq
        exact ih (by simp [ht])
  exact hex h (by simp [hpt]) hchild

theorem inv_createPartitionOf [BEq V] {db db' : Db sem} (h : Inv db) {name parent : String}
    {boundDef : PartBoundDef L} {method : PartMethod} {keys : List (PartitionKeyDef E)}
    (hsafe : ∀ pt pinfo bound, db parent = some pt → pt.partition = some pinfo →
      convertPartBound sem pt.columns pinfo boundDef = .ok bound →
      BoundSafe db parent pinfo pt.columns bound boundDef.isDefault ∧
        ∀ e, .expr e ∈ keys → ExprTyped sem name pt.columns e)
    (hexec : createPartitionOf db name parent boundDef method keys = .ok db') : Inv db' := by
  have hs := h.schema
  unfold createPartitionOf at hexec
  split at hexec
  · cases hexec
  rename_i hfresh
  rw [Bool.not_eq_true, Option.isSome_eq_false_iff, Option.isNone_iff_eq_none] at hfresh
  cases hpt : db parent with
  | none =>
      simp only [hpt] at hexec
      cases hexec
  | some pt =>
  simp only [hpt] at hexec
  cases hpinfo : pt.partition with
  | none =>
      simp only [hpinfo] at hexec
      cases hexec
  | some pinfo =>
  simp only [hpinfo] at hexec
  obtain ⟨bound, hbound, hexec⟩ := bind_eq_ok hexec
  obtain ⟨_, hcheck, hexec⟩ := bind_eq_ok hexec
  obtain ⟨key, hkey, hexec⟩ := bind_eq_ok hexec
  obtain ⟨hbs, hexpr⟩ := hsafe pt pinfo bound hpt hpinfo hbound
  have hnone : partitionOf db name = none := by simp [partitionOf, hfresh]
  have hroot : parentOf db name = none := by simp [parentOf, hnone]
  have habove := not_above_of_missing hs hpt hfresh
  have hnochild : ∀ n, ¬ parentOf db n = some name := by
    intro n hn
    obtain ⟨qinfo, hq, -⟩ := hs.links.1 hn
    rw [hnone] at hq
    cases hq
  cases hexec
  have hlinked := linked_of_put hs hpt hpinfo hroot habove
    (rfl : (Table.mk pt.columns pt.nodup (.none sem pt.columns)
      (some (childInfo parent pinfo bound boundDef.isDefault method keys key)) []).partition = some _) rfl
    fun old hold => by
      rw [hfresh] at hold
      cases hold
  have hok : LinkOk db parent name pinfo
      (childInfo parent pinfo bound boundDef.isDefault method keys key) bound pt.columns pt.columns := by
    refine linkOk_of_check hs hpt hpinfo hbound hcheck hbs rfl rfl
      (fun n => ⟨by rintro ⟨⟩, fun hn => absurd hn (hnochild n)⟩) (fun cinfo hc => ?_)
      (fun hne => absurd rfl hne) (fun c => Iff.rfl) ?_
    · rw [hnone] at hc
      cases hc
    · intro hpart row values hrow heval
      have hne : keys.isEmpty = false := by simpa [childInfo] using hpart
      unfold childKey at hkey
      rw [hne, if_neg (by simp)] at hkey
      exact keyTyped_of_resolve hkey hexpr rfl hrow heval
  refine inv_link h hpt rfl hlinked hok hbs (by rintro row ⟨⟩) ?_
  -- no row is stored below a table that did not exist
  intro n row crow hrow hcarried
  obtain ⟨t, ht, -⟩ := hrow
  cases hcarried with
  | refl =>
      rw [hfresh] at ht
      cases ht
  | up _ hp _ hcarried =>
      have hup := hcarried.above
      obtain ⟨qinfo, hq, -⟩ := hs.links.1 hp
      obtain ⟨qt, hqt, -⟩ := exists_of_partitionOf hq
      exact absurd hup (not_above_of_missing hs hqt hfresh)

/-! ## ATTACH -/

theorem not_above_of_isAncestor {db : Db sem} {child : String} {hops : Nat} {cur : String}
    (hshallow : Shallow (parentOf db) hops cur) (h : isAncestor db child hops cur = false) :
    ¬ Above (parentOf db) cur child := by
  induction hshallow with
  | root hroot =>
      intro above
      rw [isAncestor, Bool.or_eq_false_iff, decide_eq_false_iff_not] at h
      cases above with
      | refl => exact h.1 rfl
      | up hp =>
          rw [hroot] at hp
          cases hp
  | @child n x p hp _ ih =>
      intro above
      rw [isAncestor, Bool.or_eq_false_iff, decide_eq_false_iff_not] at h
      cases above with
      | refl => exact h.1 rfl
      | up hp' above =>
          rw [hp] at hp'
          cases hp'
          have hrest := h.2
          rw [show (partitionOf db x).bind (·.parent) = some p from hp] at hrest
          exact ih hrest above

theorem sameColumns_of_check [DecidableEq T] {child parent : String} {cols pcols : Cols T}
    (hcols : (cols.map Prod.fst).Nodup)
    (hextra : checkExtraColumns child parent cols pcols = .ok ())
    (hcheck : pcols.forM (checkColumn sem child cols) = .ok ()) : ∀ c, c ∈ cols ↔ c ∈ pcols := by
  have hdown : ∀ p ∈ pcols, p ∈ cols := by
    intro p hp
    have h := forM_eq_ok.1 hcheck p hp
    unfold checkColumn at h
    cases hf : cols.find? (·.1 = p.1) with
    | none =>
        simp only [hf] at h
        cases h
    | some c =>
        simp only [hf] at h
        split at h
        · rename_i htype
          have hname := List.find?_some hf
          rw [decide_eq_true_eq] at hname
          exact Prod.ext hname htype ▸ List.mem_of_find?_eq_some hf
        · cases h
  refine fun c => ⟨fun hc => ?_, hdown c⟩
  unfold checkExtraColumns at hextra
  split at hextra
  · cases hextra
  · rename_i hnone
    have h := List.find?_eq_none.1 hnone c hc
    simp only [Bool.not_eq_true', Bool.not_eq_false, List.any_eq_true, decide_eq_true_eq] at h
    obtain ⟨p, hp, hname⟩ := h
    have hsame : p = c := by
      have hinj := List.inj_on_of_nodup_map hcols
      exact hinj (hdown p hp) hc hname
    exact hsame ▸ hp

/-- The rows of the attached table itself belong in the new partition. -/
theorem admits_of_checkRows {db : Db sem} {child parent : String} {ct pt : Table sem}
    {pinfo info : PartitionInfo V E} {bound : PartBound V}
    (hroot : child ∉ pinfo.children)
    (h : checkRows db child parent ct pt pinfo bound info.isDefault = .ok ()) {row : Row V}
    (hrow : row ∈ ct.rows) :
    Linked.Admits db parent pinfo info bound pt.columns (remapRow ct.columns pt.columns row) := by
  have hcheck := forM_eq_ok.1 h row hrow
  obtain ⟨key, hkey, hcheck⟩ := bind_eq_ok hcheck
  dsimp only at hcheck
  refine ⟨key, hkey, fun hd => ?_, fun hd name hname => ?_⟩
  · rw [hd] at hcheck
    simp only [Bool.false_eq_true, if_false] at hcheck
    split at hcheck
    · assumption
    · cases hcheck
  · rw [hd] at hcheck
    simp only [if_true] at hcheck
    split at hcheck
    · rename_i hall
      unfold explicitAccepts
      cases hn : partitionOf db name with
      | none => rfl
      | some ninfo =>
          cases hb : ninfo.bound with
          | none => simp [hb]
          | some b =>
              have hcb : childBound db name = some b := by simp [childBound, hn, hb]
              have hne : name ≠ child := by
                rintro rfl
                exact hroot hname
              have hmem : b ∈ (pinfo.children.filter (· ≠ child)).filterMap (childBound db) :=
                List.mem_filterMap.2 ⟨name, List.mem_filter.2 ⟨hname, by simpa using hne⟩, hcb⟩
              have hnot := List.all_eq_true.1 hall b hmem
              rw [Bool.not_eq_true'] at hnot
              simp [hb, hnot]
    · cases hcheck

theorem inv_attach [BEq V] [DecidableEq T] {db db' : Db sem} (h : Inv db) {parent child : String}
    {boundDef : PartBoundDef L}
    (hsafe : ∀ pt ct pinfo bound, db parent = some pt → pt.partition = some pinfo →
      db child = some ct → convertPartBound sem pt.columns pinfo boundDef = .ok bound →
      AttachSafe db parent child pinfo
        (attachedInfo parent pinfo bound boundDef.isDefault ct.partition) pt.columns ct.columns bound)
    (hexec : attachPartition db parent child boundDef = .ok db') : Inv db' := by
  have hs := h.schema
  unfold attachPartition at hexec
  cases hpt : db parent with
  | none =>
      simp only [hpt] at hexec
      cases hexec
  | some pt =>
  simp only [hpt] at hexec
  cases hpinfo : pt.partition with
  | none =>
      simp only [hpinfo] at hexec
      cases hexec
  | some pinfo =>
  simp only [hpinfo] at hexec
  cases hct : db child with
  | none =>
      simp only [hct] at hexec
      cases hexec
  | some ct =>
  simp only [hct] at hexec
  split at hexec
  · cases hexec
  rename_i hroot
  split at hexec
  · cases hexec
  obtain ⟨_, hextra, hexec⟩ := bind_eq_ok hexec
  obtain ⟨_, hcircle, hexec⟩ := bind_eq_ok hexec
  obtain ⟨_, hcolumns, hexec⟩ := bind_eq_ok hexec
  obtain ⟨bound, hbound, hexec⟩ := bind_eq_ok hexec
  obtain ⟨_, hcheck, hexec⟩ := bind_eq_ok hexec
  obtain ⟨_, hchecked, hexec⟩ := bind_eq_ok hexec
  cases hexec
  have hroot : parentOf db child = none := by
    rw [Bool.not_eq_true, Option.isSome_eq_false_iff, Option.isNone_iff_eq_none] at hroot
    rw [parentOf, partitionOf_of_eq hct, hroot]
  have hat := hsafe pt ct pinfo bound hpt hpinfo hct hbound
  have habove : ¬ Above (parentOf db) parent child := by
    refine not_above_of_isAncestor hat.shallow ?_
    unfold checkCircular at hcircle
    split at hcircle
    · cases hcircle
    · rename_i hnot
      rwa [Bool.not_eq_true] at hnot
  let info := attachedInfo parent pinfo bound boundDef.isDefault ct.partition
  have hparent : info.parent = some parent := by
    cases hc : ct.partition <;> simp [info, attachedInfo, hc]
  have hinfob : info.bound = some bound := by
    cases hc : ct.partition <;> simp [info, attachedInfo, hc]
  have hinfod : info.isDefault = boundDef.isDefault := by
    cases hc : ct.partition <;> simp [info, attachedInfo, hc]
  have hold : ∀ cinfo, partitionOf db child = some cinfo →
      info = { cinfo with bound := some bound, isDefault := boundDef.isDefault, parent := some parent } := by
    intro cinfo hc
    rw [partitionOf_of_eq hct] at hc
    simp [info, attachedInfo, hc]
  have hnew : partitionOf db child = none → info.children = [] ∧ info.isPartitioned = false := by
    intro hc
    rw [partitionOf_of_eq hct] at hc
    simp [info, attachedInfo, hc]
  have hlinked := linked_of_put hs hpt hpinfo hroot habove
    (rfl : (Table.mk ct.columns ct.nodup ct.hooks (some info) ct.rows).partition = some info) hparent
    fun old hold => by
      rw [hct] at hold
      cases hold
      rfl
  have hok : LinkOk db parent child pinfo info bound pt.columns ct.columns := by
    refine linkOk_of_check hs hpt hpinfo hbound hcheck (hinfod ▸ hat.safe) hinfob hinfod ?_
      (fun cinfo hc => ?_) ?_ (sameColumns_of_check ct.nodup hextra hcolumns) ?_
    · intro n
      rw [hs.links]
      cases hc : partitionOf db child with
      | none => simp [(hnew hc).1]
      | some cinfo => simp [hold cinfo hc]
    · rw [hold cinfo hc]
      exact ⟨rfl, rfl⟩
    · intro hne
      cases hc : partitionOf db child with
      | none => exact absurd (hnew hc).1 hne
      | some cinfo =>
          rw [hold cinfo hc] at hne ⊢
          have hpart := hs.partitioned hc hne
          exact hpart
    · intro hpart row key hrow heval
      cases hc : partitionOf db child with
      | none =>
          rw [(hnew hc).2] at hpart
          cases hpart
      | some cinfo =>
          rw [hold cinfo hc] at hpart heval ⊢
          have htyped := hs.keys hc hpart (colsOf_of_eq hct) hrow heval
          exact htyped
  have hnochild : child ∉ pinfo.children := fun hmem => by
    rw [hs.links.2 ⟨pinfo, (partitionOf_of_eq hpt).trans hpinfo, hmem⟩] at hroot
    cases hroot
  refine inv_link h hpt rfl hlinked hok hat.safe (fun row hrow => ⟨ct, hct, hrow⟩) ?_
  intro n row crow hrow hcarried
  refine ⟨?_, hat.ancestors n row crow hrow hcarried⟩
  by_cases hn : n = child
  · subst hn
    obtain ⟨t, ht, hmem⟩ := hrow
    rw [hct] at ht
    cases ht
    cases hcarried with
    | refl => exact admits_of_checkRows hnochild (hinfod ▸ hchecked) hmem
    | up _ hp =>
        rw [hroot] at hp
        cases hp
  · exact hat.partitions n row crow hn hrow hcarried

/-! ## DETACH -/

theorem inv_detach {db db' : Db sem} (h : Inv db) {parent child : String}
    (hexec : detachPartition db parent child = .ok db') : Inv db' := by
  have hs := h.schema
  unfold detachPartition at hexec
  cases hpt : db parent with
  | none =>
      simp only [hpt] at hexec
      cases hexec
  | some pt =>
  simp only [hpt] at hexec
  cases hpinfo : pt.partition with
  | none =>
      simp only [hpinfo] at hexec
      cases hexec
  | some pinfo =>
  simp only [hpinfo] at hexec
  split at hexec
  · cases hexec
  rename_i hmem
  rw [Bool.not_eq_true', Bool.not_eq_false, List.contains_iff_mem] at hmem
  cases hct : db child with
  | none =>
      simp only [hct] at hexec
      cases hexec
  | some ct =>
  simp only [hct] at hexec
  cases hcinfo : ct.partition with
  | none =>
      simp only [hcinfo] at hexec
      cases hexec
  | some cinfo =>
  simp only [hcinfo] at hexec
  cases hexec
  have hpart := (partitionOf_of_eq hpt).trans hpinfo
  have hne : parent ≠ child := by
    rintro rfl
    exact (hs.rooted parent).not_above (hs.links.2 ⟨pinfo, hpart, hmem⟩) (.refl _)
  have hlink : parentLinkChild db parent child false = db.put parent
      { pt with partition := some { pinfo with children := pinfo.children.filter (· ≠ child) } } := by
    unfold parentLinkChild
    simp only [hpt, hpinfo, Option.map_some, Bool.false_eq_true, if_false]
  have hcut : Unlinked db ((parentLinkChild db parent child false).put child
      { ct with partition := detachedInfo cinfo }) parent child pinfo cinfo := by
    rw [hlink]
    refine ⟨hpart, hmem, (partitionOf_of_eq hct).trans hcinfo, ?_, ?_, ?_, ?_⟩
    · rw [partitionOf_put, if_neg hne, partitionOf_put, if_pos rfl]
    · rw [partitionOf_put, if_pos rfl]
    · intro n hp hc
      rw [partitionOf_put, if_neg hc, partitionOf_put, if_neg hp]
    · funext n
      rw [colsOf_put]
      split
      · rename_i hc
        rw [hc, colsOf_of_eq hct]
      · rw [colsOf_put]
        split
        · rename_i hp
          rw [hp, colsOf_of_eq hpt]
        · rfl
  have hstored : ∀ {n row}, Stored ((parentLinkChild db parent child false).put child
      { ct with partition := detachedInfo cinfo }) n row → Stored db n row := by
    intro n row hrow
    rw [hlink] at hrow
    rcases stored_put hrow with ⟨rfl, hkept⟩ | hrow
    · exact ⟨ct, hct, hkept⟩
    · rcases stored_put hrow with ⟨rfl, hkept⟩ | hrow
      · exact ⟨pt, hpt, hkept⟩
      · exact hrow
  refine ⟨hcut.schema hs, fun hrow hcols => ?_, fun hrow => ?_⟩
  · rw [hcut.cols] at hcols
    exact h.typed (hstored hrow) hcols
  · exact hcut.satisfied hs (h.satisfied (hstored hrow))

end Partition
