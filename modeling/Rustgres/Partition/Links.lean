-- SUMMARY: Linking a table below a parent, and cutting it off: what stays of the catalog and of the bounds of rows.
import Rustgres.Partition.Schema

/-!
# Links

CREATE TABLE ... PARTITION OF and ATTACH PARTITION both link a root below a parent. The catalog stays
in order, and the rows in their bounds, when the new bound accepts nothing that is already spoken for.
-/

open Loops Forest

namespace Partition

variable {V E T L : Type} {sem : KeySem V E T L}

/-! ## Linked catalogs -/

/-- `db'` is `db` with a root, old or new, linked below a parent that is not below it. -/
structure Linked (db db' : Db sem) (parent child : String) (pinfo info : PartitionInfo V E)
    (pcols cols : Cols T) : Prop where
  above : ¬ Above (parentOf db) parent child
  root : parentOf db child = none
  part : partitionOf db parent = some pinfo
  parent_cols : colsOf db parent = some pcols
  old_cols : ∀ old, colsOf db child = some old → old = cols
  part_parent : partitionOf db' parent = some { pinfo with children := pinfo.children ++ [child] }
  part_child : partitionOf db' child = some info
  part_other : ∀ name, name ≠ parent → name ≠ child → partitionOf db' name = partitionOf db name
  cols_child : colsOf db' child = some cols
  cols_other : ∀ name, name ≠ child → colsOf db' name = colsOf db name
  info_parent : info.parent = some parent

/-- The new link is between tables with the same columns, the parent is partitioned, and the new
bound accepts no key that another child accepts by its own bound. -/
structure LinkOk (db : Db sem) (parent child : String) (pinfo info : PartitionInfo V E)
    (bound : PartBound V) (pcols cols : Cols T) : Prop where
  isPartitioned : pinfo.isPartitioned
  bound_eq : info.bound = some bound
  children : ∀ name, name ∈ info.children ↔ parentOf db name = some child
  old : ∀ cinfo, partitionOf db child = some cinfo →
    info.method = cinfo.method ∧ info.key = cinfo.key
  partitioned : info.children ≠ [] → info.isPartitioned
  columns : ∀ c, c ∈ cols ↔ c ∈ pcols
  keys : info.isPartitioned → ∀ row key, RowTyped sem cols row →
    evalTablePartKey sem child info cols row = .ok key → KeyTyped sem (keyTypes sem info cols) key
  typed : BoundTyped sem (keyTypes sem pinfo pcols) bound
  disjoint : info.isDefault = false → ∀ name ∈ pinfo.children, ∀ key,
    KeyTyped sem (keyTypes sem pinfo pcols) key → explicitAccepts db pinfo key name →
    boundContains sem pinfo.method bound key = false
  oneDefault : info.isDefault → ∀ name ∈ pinfo.children, ∀ ninfo, partitionOf db name = some ninfo →
    ninfo.isDefault = false

namespace Linked

variable {db db' : Db sem} {parent child : String} {pinfo info : PartitionInfo V E}
  {pcols cols : Cols T}

section

variable (h : Linked db db' parent child pinfo info pcols cols)

include h

theorem ne : child ≠ parent := by
  rintro rfl
  exact h.above (.refl _)

theorem parentOf_eq : parentOf db' = Function.update (parentOf db) child (some parent) := by
  funext name
  by_cases hc : name = child
  · subst hc
    rw [Function.update_self, parentOf_of_eq h.part_child, h.info_parent]
  · rw [Function.update_of_ne hc]
    by_cases hp : name = parent
    · subst hp
      rw [parentOf_of_eq h.part_parent, parentOf_of_eq h.part]
    · simp only [parentOf, h.part_other name hp hc]

theorem parentOf_child : parentOf db' child = some parent := by
  rw [h.parentOf_eq, Function.update_self]

theorem parentOf_other {name : String} (hc : name ≠ child) : parentOf db' name = parentOf db name := by
  rw [h.parentOf_eq, Function.update_of_ne hc]

/-- Another table has its bound, method and key as before, and its children but for the new one. -/
theorem part_of_ne {name : String} {ninfo' : PartitionInfo V E} (hc : name ≠ child)
    (hname : partitionOf db' name = some ninfo') :
    ∃ ninfo, partitionOf db name = some ninfo ∧
      ninfo' = { ninfo with children := ninfo'.children } ∧
      ((name ≠ parent ∧ ninfo'.children = ninfo.children) ∨
        (name = parent ∧ ninfo = pinfo ∧ ninfo'.children = pinfo.children ++ [child])) := by
  by_cases hp : name = parent
  · subst hp
    rw [h.part_parent] at hname
    cases hname
    exact ⟨pinfo, h.part, rfl, .inr ⟨rfl, rfl, rfl⟩⟩
  · rw [h.part_other name hp hc] at hname
    exact ⟨ninfo', hname, rfl, .inl ⟨hp, rfl⟩⟩

theorem explicitAccepts_of_ne {name : String} (hc : name ≠ child) {qinfo qinfo' : PartitionInfo V E}
    (hmethod : qinfo'.method = qinfo.method) (key : Row V) :
    explicitAccepts db' qinfo' key name = explicitAccepts db qinfo key name := by
  unfold explicitAccepts
  by_cases hp : name = parent
  · subst hp
    rw [h.part_parent, h.part, hmethod]
  · rw [h.part_other name hp hc, hmethod]

theorem explicitAccepts_child (qinfo : PartitionInfo V E) (key : Row V) :
    explicitAccepts db' qinfo key child
      = (!info.isDefault && info.bound.any fun b => boundContains sem qinfo.method b key) := by
  unfold explicitAccepts
  rw [h.part_child]

theorem childBound_of_ne {name : String} (hc : name ≠ child) :
    childBound db' name = childBound db name := by
  unfold childBound
  by_cases hp : name = parent
  · subst hp
    rw [h.part_parent, h.part]
    rfl
  · rw [h.part_other name hp hc]

/-- The linked root is among the children of its parent only. -/
theorem not_mem (hs : Schema db) {name : String} {ninfo : PartitionInfo V E}
    (hname : partitionOf db name = some ninfo) : child ∉ ninfo.children := fun hmem => by
  have hparent := hs.links.2 ⟨ninfo, hname, hmem⟩
  rw [h.root] at hparent
  cases hparent

theorem links (hs : Schema db) {bound : PartBound V}
    (hok : LinkOk db parent child pinfo info bound pcols cols) {name q : String} :
    parentOf db' name = some q ↔
      ∃ qinfo, partitionOf db' q = some qinfo ∧ name ∈ qinfo.children := by
  by_cases hc : name = child
  · subst hc
    rw [h.parentOf_child]
    constructor
    · rintro ⟨⟩
      exact ⟨_, h.part_parent, by simp⟩
    · rintro ⟨qinfo, hq, hmem⟩
      by_cases hqc : q = name
      · subst hqc
        rw [h.part_child] at hq
        cases hq
        have hself := (hok.children q).1 hmem
        rw [h.root] at hself
        cases hself
      · obtain ⟨qinfo₀, hq₀, -, hcase⟩ := h.part_of_ne hqc hq
        rcases hcase with ⟨-, he⟩ | ⟨rfl, -, -⟩
        · exact absurd (he ▸ hmem) (h.not_mem hs hq₀)
        · rfl
  · rw [h.parentOf_other hc]
    by_cases hqc : q = child
    · subst hqc
      rw [← hok.children]
      constructor
      · exact fun hmem => ⟨info, h.part_child, hmem⟩
      · rintro ⟨qinfo, hq, hmem⟩
        rw [h.part_child] at hq
        cases hq
        exact hmem
    · rw [hs.links]
      constructor
      · rintro ⟨qinfo, hq, hmem⟩
        by_cases hqp : q = parent
        · subst hqp
          rw [h.part] at hq
          cases hq
          exact ⟨_, h.part_parent, List.mem_append_left _ hmem⟩
        · exact ⟨qinfo, (h.part_other q hqp hqc).trans hq, hmem⟩
      · rintro ⟨qinfo, hq, hmem⟩
        obtain ⟨qinfo₀, hq₀, -, hcase⟩ := h.part_of_ne hqc hq
        rcases hcase with ⟨-, he⟩ | ⟨rfl, rfl, he⟩
        · exact ⟨qinfo₀, hq₀, he ▸ hmem⟩
        · rw [he, List.mem_append, List.mem_singleton] at hmem
          exact ⟨qinfo₀, hq₀, hmem.resolve_right hc⟩

/-- A table with a child of its own was there before, with the same method and key. -/
theorem part_before (hs : Schema db) {bound : PartBound V}
    (hok : LinkOk db parent child pinfo info bound pcols cols) {name q : String}
    {qinfo' : PartitionInfo V E} (hparent : parentOf db name = some q)
    (hq : partitionOf db' q = some qinfo') :
    ∃ qinfo, partitionOf db q = some qinfo ∧ qinfo'.method = qinfo.method ∧ qinfo'.key = qinfo.key := by
  obtain ⟨qinfo, hq₀, -⟩ := hs.links.1 hparent
  by_cases hqc : q = child
  · subst hqc
    rw [h.part_child] at hq
    cases hq
    exact ⟨qinfo, hq₀, hok.old qinfo hq₀⟩
  · obtain ⟨qinfo₁, hq₁, he, -⟩ := h.part_of_ne hqc hq
    rw [hq₀] at hq₁
    cases hq₁
    rw [he]
    exact ⟨qinfo, hq₀, rfl, rfl⟩

theorem cols_before {name : String} {ninfo : PartitionInfo V E} {ncols : Cols T}
    (hname : partitionOf db name = some ninfo) (hcols : colsOf db' name = some ncols) :
    colsOf db name = some ncols := by
  by_cases hc : name = child
  · subst hc
    obtain ⟨old, hold⟩ := colsOf_isSome hname
    rw [h.cols_child] at hcols
    cases hcols
    rw [hold, h.old_cols old hold]
  · rw [← h.cols_other name hc, hcols]

theorem schema (hs : Schema db) {bound : PartBound V}
    (hok : LinkOk db parent child pinfo info bound pcols cols) : Schema db' := by
  have hcols : ∀ {name : String} {c c' : Cols T}, name ≠ child → colsOf db' name = some c →
      colsOf db name = some c := fun hne hc => h.cols_other _ hne ▸ hc
  have hpcols' : colsOf db' parent = some pcols := by
    rw [h.cols_other parent h.ne.symm, h.parent_cols]
  constructor
  case rooted =>
    rw [h.parentOf_eq]
    exact Rooted.link hs.rooted h.above
  case links => exact h.links hs hok
  case partitioned =>
    intro name ninfo' hname hne
    by_cases hc : name = child
    · subst hc
      rw [h.part_child] at hname
      cases hname
      exact hok.partitioned hne
    · obtain ⟨ninfo, hn, he, hcase⟩ := h.part_of_ne hc hname
      rw [he]
      rcases hcase with ⟨-, hch⟩ | ⟨-, rfl, -⟩
      · have hpart := hs.partitioned hn (hch ▸ hne)
        exact hpart
      · exact hok.isPartitioned
  case bound =>
    intro name ninfo' hname
    by_cases hc : name = child
    · subst hc
      rw [h.part_child] at hname
      cases hname
      rw [hok.bound_eq, h.info_parent]
      rfl
    · obtain ⟨ninfo, hn, he, -⟩ := h.part_of_ne hc hname
      have hbound := hs.bound hn
      rw [he]
      exact hbound
  case columns =>
    intro name q ncols qcols hparent hncols hqcols
    by_cases hc : name = child
    · subst hc
      rw [h.parentOf_child] at hparent
      cases hparent
      rw [h.cols_child] at hncols
      cases hncols
      rw [hpcols'] at hqcols
      cases hqcols
      exact hok.columns
    · rw [h.parentOf_other hc] at hparent
      rw [h.cols_other name hc] at hncols
      by_cases hqc : q = child
      · subst hqc
        rw [h.cols_child] at hqcols
        cases hqcols
        obtain ⟨qinfo, hq, -⟩ := hs.links.1 hparent
        obtain ⟨old, hold⟩ := colsOf_isSome hq
        have hsame := hs.columns hparent hncols hold
        rw [h.old_cols old hold] at hsame
        exact hsame
      · rw [h.cols_other q hqc] at hqcols
        exact hs.columns hparent hncols hqcols
  case keys =>
    intro name ninfo' ncols row key hname hpart hncols hrow hkey
    by_cases hc : name = child
    · subst hc
      rw [h.part_child] at hname
      cases hname
      rw [h.cols_child] at hncols
      cases hncols
      exact hok.keys hpart row key hrow hkey
    · obtain ⟨ninfo, hn, he, -⟩ := h.part_of_ne hc hname
      rw [h.cols_other name hc] at hncols
      rw [he] at hpart hkey ⊢
      have htyped := hs.keys hn hpart hncols hrow hkey
      exact htyped
  case bounds =>
    intro name q qinfo' qcols b hparent hb hq hqcols
    by_cases hc : name = child
    · subst hc
      rw [h.parentOf_child] at hparent
      cases hparent
      rw [hpcols'] at hqcols
      cases hqcols
      rw [h.part_parent] at hq
      cases hq
      have hbound : childBound db' name = some bound := by
        unfold childBound
        rw [h.part_child]
        exact hok.bound_eq
      rw [hbound] at hb
      cases hb
      exact hok.typed
    · rw [h.parentOf_other hc] at hparent
      rw [h.childBound_of_ne hc] at hb
      obtain ⟨qinfo, hq₀, hmethod, hkey⟩ := h.part_before hs hok hparent hq
      have hqcols₀ := h.cols_before hq₀ hqcols
      have htypes : keyTypes sem qinfo' qcols = keyTypes sem qinfo qcols := by
        simp only [keyTypes, hkey]
      rw [htypes]
      exact hs.bounds hparent hb hq₀ hqcols₀
  case disjoint =>
    intro q qinfo' qcols key a b hq hqcols ha hb hne hkey hacca haccb
    have hpa := (h.links hs hok).2 ⟨qinfo', hq, ha⟩
    have hpb := (h.links hs hok).2 ⟨qinfo', hq, hb⟩
    -- the new child against an old one, either way round
    have hnew : ∀ name, name ≠ child → parentOf db' name = some parent →
        KeyTyped sem (keyTypes sem pinfo pcols) key → explicitAccepts db' pinfo key child →
        ¬ explicitAccepts db' pinfo key name := by
      intro name hc hp hkey haccc haccn
      rw [h.parentOf_other hc, hs.links] at hp
      obtain ⟨pinfo', hpinfo', hmem⟩ := hp
      rw [h.part] at hpinfo'
      cases hpinfo'
      rw [h.explicitAccepts_of_ne hc rfl] at haccn
      rw [h.explicitAccepts_child, hok.bound_eq, Bool.and_eq_true, Bool.not_eq_true'] at haccc
      have hnot := hok.disjoint haccc.1 name hmem key hkey haccn
      rw [Option.any_some, hnot] at haccc
      cases haccc.2
    by_cases hac : a = child
    · subst hac
      rw [h.parentOf_child] at hpa
      cases hpa
      rw [h.part_parent] at hq
      cases hq
      rw [hpcols'] at hqcols
      cases hqcols
      exact hnew b hne.symm hpb hkey hacca haccb
    · by_cases hbc : b = child
      · subst hbc
        rw [h.parentOf_child] at hpb
        cases hpb
        rw [h.part_parent] at hq
        cases hq
        rw [hpcols'] at hqcols
        cases hqcols
        exact hnew a hac hpa hkey haccb hacca
      · rw [h.parentOf_other hac] at hpa
        rw [h.parentOf_other hbc] at hpb
        obtain ⟨qinfo, hq₀, hmethod, hk⟩ := h.part_before hs hok hpa hq
        have htypes : keyTypes sem qinfo' qcols = keyTypes sem qinfo qcols := by
          simp only [keyTypes, hk]
        rw [htypes] at hkey
        rw [h.explicitAccepts_of_ne hac hmethod] at hacca
        rw [h.explicitAccepts_of_ne hbc hmethod] at haccb
        obtain ⟨qa, hqa, hma⟩ := hs.links.1 hpa
        obtain ⟨qb, hqb, hmb⟩ := hs.links.1 hpb
        rw [hq₀] at hqa hqb
        cases hqa
        cases hqb
        exact hs.disjoint hq₀ (h.cols_before hq₀ hqcols) hma hmb hne hkey hacca haccb
  case oneDefault =>
    intro q qinfo' a b ainfo binfo hq ha hb hainfo hbinfo hda hdb
    have hpa := (h.links hs hok).2 ⟨qinfo', hq, ha⟩
    have hpb := (h.links hs hok).2 ⟨qinfo', hq, hb⟩
    have hnew : ∀ name ninfo, name ≠ child → parentOf db' name = some parent →
        partitionOf db' name = some ninfo → info.isDefault → ninfo.isDefault → False := by
      intro name ninfo hc hp hn hdc hdn
      rw [h.parentOf_other hc, hs.links] at hp
      obtain ⟨pinfo', hpinfo', hmem⟩ := hp
      rw [h.part] at hpinfo'
      cases hpinfo'
      obtain ⟨old, hold, he, -⟩ := h.part_of_ne hc hn
      have hnot := hok.oneDefault hdc name hmem old hold
      rw [he] at hdn
      exact absurd (hnot.symm.trans hdn) (by decide)
    by_cases hac : a = child
    · subst hac
      rw [h.parentOf_child] at hpa
      cases hpa
      rw [h.part_child] at hainfo
      cases hainfo
      by_contra hne
      exact hnew b binfo (Ne.symm hne) hpb hbinfo hda hdb
    · by_cases hbc : b = child
      · subst hbc
        rw [h.parentOf_child] at hpb
        cases hpb
        rw [h.part_child] at hbinfo
        cases hbinfo
        exact (hnew a ainfo hac hpa hainfo hdb hda).elim
      · rw [h.parentOf_other hac] at hpa
        rw [h.parentOf_other hbc] at hpb
        obtain ⟨oa, hoa, hea, -⟩ := h.part_of_ne hac hainfo
        obtain ⟨ob, hob, heb, -⟩ := h.part_of_ne hbc hbinfo
        obtain ⟨qa, hqa, hma⟩ := hs.links.1 hpa
        obtain ⟨qb, hqb, hmb⟩ := hs.links.1 hpb
        rw [hqa] at hqb
        cases hqb
        rw [hea] at hda
        rw [heb] at hdb
        exact hs.oneDefault hqa hma hmb hoa hob hda hdb

/-! ## Rows -/

/-- A row that does not come through the new link is carried as before; the others are carried as
before up to the linked table, and on from its parent. -/
theorem carried (hs : Schema db) {name anc : String} {row row' : Row V}
    (hc : Carried db' name row anc row') :
    Carried db name row anc row' ∨ ∃ crow, Carried db name row child crow ∧
      Carried db' parent (remapRow cols pcols crow) anc row' := by
  induction hc with
  | refl => exact .inl (.refl ..)
  | @up x q anc row row' xcols qcols hxcols hparent hqcols hcarried ih =>
      by_cases hx : x = child
      · subst hx
        rw [h.parentOf_child] at hparent
        cases hparent
        rw [h.cols_child] at hxcols
        cases hxcols
        rw [h.cols_other _ h.ne.symm, h.parent_cols] at hqcols
        cases hqcols
        exact .inr ⟨row, .refl .., hcarried⟩
      · rw [h.parentOf_other hx] at hparent
        rw [h.cols_other x hx] at hxcols
        obtain ⟨qinfo, hq, -⟩ := hs.links.1 hparent
        have hqcols₀ := h.cols_before hq hqcols
        rcases ih with hcarried | ⟨crow, hup, hcarried⟩
        · exact .inl (.up hxcols hparent hqcols₀ hcarried)
        · exact .inr ⟨crow, .up hxcols hparent hqcols₀ hup, hcarried⟩

theorem carried_above (hs : Schema db) {name anc : String} {row row' : Row V}
    (hc : Carried db' name row anc row') (hname : ¬ Above (parentOf db) name child) :
    Carried db name row anc row' := by
  induction hc with
  | refl => exact .refl ..
  | @up x q anc row row' xcols qcols hxcols hparent hqcols _ ih =>
      have hx : x ≠ child := by
        rintro rfl
        exact hname (.refl _)
      rw [h.parentOf_other hx] at hparent
      rw [h.cols_other x hx] at hxcols
      obtain ⟨qinfo, hq, -⟩ := hs.links.1 hparent
      exact .up hxcols hparent (h.cols_before hq hqcols) (ih fun above => hname (.up hparent above))

/-- A table other than the new one has its row accepted as before, unless it is a default partition
beside the new bound, which may take the row away. -/
theorem boundOk_of_ne (hs : Schema db) {bound : PartBound V}
    (hok : LinkOk db parent child pinfo info bound pcols cols) {name : String} {row : Row V}
    (hne : name ≠ child) (hrow : BoundOk db name row)
    (hdefault : info.isDefault = false → ∀ ninfo ncols key, partitionOf db name = some ninfo →
      ninfo.parent = some parent → ninfo.isDefault → colsOf db name = some ncols →
      evalTablePartKey sem parent pinfo pcols (remapRow ncols pcols row) = .ok key →
      boundContains sem pinfo.method bound key = false) : BoundOk db' name row := by
  intro ninfo' q qinfo' ncols qcols hn hq hqinfo hncols hqcols
  obtain ⟨ninfo, hn₀, he, -⟩ := h.part_of_ne hne hn
  have hq₀ : ninfo.parent = some q := by rw [he] at hq; exact hq
  have hparent : parentOf db name = some q := (parentOf_of_eq hn₀).trans hq₀
  have hparent' : parentOf db' name = some q := (parentOf_of_eq hn).trans hq
  obtain ⟨qinfo, hqinfo₀, hmethod, hkeyeq⟩ := h.part_before hs hok hparent hqinfo
  rw [h.cols_other name hne] at hncols
  have hqcols₀ := h.cols_before hqinfo₀ hqcols
  obtain ⟨key, hkey, haccepts⟩ := hrow ninfo q qinfo ncols qcols hn₀ hq₀ hqinfo₀ hncols hqcols₀
  have heval : evalTablePartKey sem q qinfo' qcols = evalTablePartKey sem q qinfo qcols := by
    funext row
    simp only [evalTablePartKey, hkeyeq]
  refine ⟨key, by rw [heval, hkey], ?_⟩
  rw [he]
  unfold accepts at haccepts ⊢
  by_cases hd : ninfo.isDefault = true
  · rw [if_pos hd, Bool.not_eq_true'] at haccepts
    rw [if_pos hd, Bool.not_eq_true']
    unfold explicitSiblingAccepts at haccepts ⊢
    rw [List.any_eq_false] at haccepts ⊢
    intro s hsmem
    by_cases hsc : s = child
    · subst hsc
      have hqp : q = parent := by
        have hlink := (h.links hs hok).2 ⟨qinfo', hqinfo, hsmem⟩
        rw [h.parentOf_child] at hlink
        exact (Option.some.inj hlink).symm
      subst hqp
      rw [h.part] at hqinfo₀
      cases hqinfo₀
      rw [h.parent_cols] at hqcols₀
      cases hqcols₀
      rw [h.explicitAccepts_child, hok.bound_eq, Option.any_some, hmethod]
      cases hid : info.isDefault with
      | true => simp
      | false => simp [hdefault hid ninfo ncols key hn₀ hq₀ hd hncols hkey]
    · rw [h.explicitAccepts_of_ne hsc hmethod]
      have hlink := (h.links hs hok).2 ⟨qinfo', hqinfo, hsmem⟩
      rw [h.parentOf_other hsc, hs.links] at hlink
      obtain ⟨qi, hqi, hmem⟩ := hlink
      rw [hqinfo₀] at hqi
      cases hqi
      exact haccepts s hmem
  · rw [if_neg hd] at haccepts
    rw [if_neg hd, hmethod]
    exact haccepts

/-- The row belongs in the new partition. -/
def Admits (db : Db sem) (parent : String) (pinfo info : PartitionInfo V E) (bound : PartBound V)
    (pcols : Cols T) (prow : Row V) : Prop :=
  ∃ key, evalTablePartKey sem parent pinfo pcols prow = .ok key ∧
    (info.isDefault = false → boundContains sem pinfo.method bound key = true) ∧
    (info.isDefault = true → ∀ name ∈ pinfo.children, explicitAccepts db pinfo key name = false)

theorem boundOk_child {bound : PartBound V} (hbound : info.bound = some bound) {row : Row V}
    (hrow : Admits db parent pinfo info bound pcols (remapRow cols pcols row)) :
    BoundOk db' child row := by
  intro ninfo q qinfo ncols qcols hn hq hqinfo hncols hqcols
  rw [h.part_child] at hn
  cases hn
  rw [h.info_parent] at hq
  cases hq
  rw [h.part_parent] at hqinfo
  cases hqinfo
  rw [h.cols_child] at hncols
  cases hncols
  rw [h.cols_other _ h.ne.symm, h.parent_cols] at hqcols
  cases hqcols
  obtain ⟨key, hkey, hexplicit, hdefault⟩ := hrow
  refine ⟨key, hkey, ?_⟩
  unfold accepts
  cases hd : info.isDefault with
  | false =>
      rw [if_neg (by simp), hbound, Option.any_some]
      exact hexplicit hd
  | true =>
      rw [if_pos rfl, Bool.not_eq_true']
      unfold explicitSiblingAccepts
      rw [List.any_eq_false]
      intro s hsmem
      by_cases hsc : s = child
      · simp [hsc]
      · have hmem : s ∈ pinfo.children := by
          rw [List.mem_append, List.mem_singleton] at hsmem
          exact hsmem.resolve_right hsc
        have hsame : explicitAccepts db' { pinfo with children := pinfo.children ++ [child] } key s
            = explicitAccepts db pinfo key s := h.explicitAccepts_of_ne hsc rfl key
        rw [hsame, hdefault hd s hmem]
        simp

/-- A row stays in its bounds when it is not taken from a default partition beside the new one, and,
below the new partition, belongs there and is in the bounds of the parent. -/
theorem satisfied (hs : Schema db) {bound : PartBound V}
    (hok : LinkOk db parent child pinfo info bound pcols cols) {name : String} {row : Row V}
    (hrow : Satisfied db name row)
    (hdefault : info.isDefault = false → ∀ d dinfo dcols drow key, Carried db name row d drow →
      partitionOf db d = some dinfo → dinfo.parent = some parent → dinfo.isDefault →
      colsOf db d = some dcols →
      evalTablePartKey sem parent pinfo pcols (remapRow dcols pcols drow) = .ok key →
      boundContains sem pinfo.method bound key = false)
    (hchild : ∀ crow, Carried db name row child crow →
      Admits db parent pinfo info bound pcols (remapRow cols pcols crow) ∧
        Satisfied db parent (remapRow cols pcols crow)) : Satisfied db' name row := by
  intro anc row' hcarried
  rcases h.carried hs hcarried with hcarried | ⟨crow, hcrow, hcarried⟩
  · by_cases hanc : anc = child
    · subst hanc
      exact h.boundOk_child hok.bound_eq (hchild row' hcarried).1
    · exact h.boundOk_of_ne hs hok hanc (hrow anc row' hcarried)
        fun hd ninfo ncols key hn hp hdn hncols hkey =>
          hdefault hd anc ninfo ncols row' key hcarried hn hp hdn hncols hkey
  · have hup := h.carried_above hs hcarried h.above
    have hanc : anc ≠ child := by
      rintro rfl
      exact h.above hup.above
    refine h.boundOk_of_ne hs hok hanc ((hchild crow hcrow).2 anc row' hup) ?_
    -- a table above the parent is no child of it
    intro _ ninfo _ _ hn hp
    have hparent := (parentOf_of_eq hn).trans hp
    exact absurd hup.above ((hs.rooted anc).not_above hparent)

end

end Linked

/-! ## Unlinked catalogs -/

/-- `db'` is `db` with a child cut off from its parent; a leaf is no partition any more. -/
structure Unlinked (db db' : Db sem) (parent child : String) (pinfo cinfo : PartitionInfo V E) :
    Prop where
  part : partitionOf db parent = some pinfo
  mem : child ∈ pinfo.children
  part_old : partitionOf db child = some cinfo
  part_parent : partitionOf db' parent =
    some { pinfo with children := pinfo.children.filter (· ≠ child) }
  part_child : partitionOf db' child = detachedInfo cinfo
  part_other : ∀ name, name ≠ parent → name ≠ child → partitionOf db' name = partitionOf db name
  cols : colsOf db' = colsOf db

namespace Unlinked

variable {db db' : Db sem} {parent child : String} {pinfo cinfo : PartitionInfo V E}
  (h : Unlinked db db' parent child pinfo cinfo)

include h

theorem ne (hs : Schema db) : child ≠ parent := by
  rintro rfl
  exact (hs.rooted child).not_above (hs.links.2 ⟨pinfo, h.part, h.mem⟩) (.refl _)

theorem parentOf_eq : parentOf db' = Function.update (parentOf db) child none := by
  funext name
  by_cases hc : name = child
  · subst hc
    rw [Function.update_self]
    unfold parentOf
    rw [h.part_child]
    unfold detachedInfo
    cases cinfo.isPartitioned <;> rfl
  · rw [Function.update_of_ne hc]
    by_cases hp : name = parent
    · subst hp
      rw [parentOf_of_eq h.part_parent, parentOf_of_eq h.part]
    · simp only [parentOf, h.part_other name hp hc]

/-- Another table is as before, but for the child that is cut off. -/
theorem part_of_ne (hs : Schema db) {name : String} {ninfo' : PartitionInfo V E} (hc : name ≠ child)
    (hname : partitionOf db' name = some ninfo') :
    ∃ ninfo, partitionOf db name = some ninfo ∧
      ninfo' = { ninfo with children := ninfo.children.filter (· ≠ child) } := by
  by_cases hp : name = parent
  · subst hp
    rw [h.part_parent] at hname
    cases hname
    exact ⟨pinfo, h.part, rfl⟩
  · rw [h.part_other name hp hc] at hname
    refine ⟨ninfo', hname, ?_⟩
    have hmem : ∀ s ∈ ninfo'.children, s ≠ child := by
      rintro s hs' rfl
      have hparent := hs.links.2 ⟨ninfo', hname, hs'⟩
      rw [hs.links.2 ⟨pinfo, h.part, h.mem⟩] at hparent
      exact hp (Option.some.inj hparent).symm
    rw [List.filter_eq_self.2 fun s hs' => by simpa using hmem s hs']

theorem part_child_eq {info : PartitionInfo V E} (hname : partitionOf db' child = some info) :
    cinfo.isPartitioned ∧ info = { cinfo with parent := none, bound := none, isDefault := false } := by
  rw [h.part_child] at hname
  unfold detachedInfo at hname
  split at hname
  · rename_i hpart
    cases hname
    exact ⟨hpart, rfl⟩
  · cases hname

/-- What is left of a table was there before, with the same method and key and no new child. -/
theorem part_before (hs : Schema db) {name : String} {ninfo' : PartitionInfo V E}
    (hname : partitionOf db' name = some ninfo') :
    ∃ ninfo, partitionOf db name = some ninfo ∧ ninfo'.method = ninfo.method ∧
      ninfo'.key = ninfo.key ∧ ninfo'.isPartitioned = ninfo.isPartitioned ∧
      ∀ s, s ∈ ninfo'.children ↔ s ∈ ninfo.children ∧ s ≠ child := by
  by_cases hc : name = child
  · subst hc
    obtain ⟨-, rfl⟩ := h.part_child_eq hname
    refine ⟨cinfo, h.part_old, rfl, rfl, rfl, fun s => ⟨fun hmem => ⟨hmem, ?_⟩, fun hmem => hmem.1⟩⟩
    rintro rfl
    exact (hs.rooted s).not_above (hs.links.2 ⟨cinfo, h.part_old, hmem⟩) (.refl _)
  · obtain ⟨ninfo, hn, rfl⟩ := h.part_of_ne hs hc hname
    exact ⟨ninfo, hn, rfl, rfl, rfl, fun s => by simp⟩

theorem explicitAccepts_le (hs : Schema db) {name : String} {qinfo qinfo' : PartitionInfo V E}
    (hmethod : qinfo'.method = qinfo.method) {key : Row V}
    (haccepts : explicitAccepts db' qinfo' key name) : explicitAccepts db qinfo key name := by
  unfold explicitAccepts at haccepts ⊢
  cases hn : partitionOf db' name with
  | none =>
      rw [hn] at haccepts
      cases haccepts
  | some ninfo' =>
      simp only [hn] at haccepts
      by_cases hc : name = child
      · subst hc
        obtain ⟨-, rfl⟩ := h.part_child_eq hn
        simp at haccepts
      · obtain ⟨ninfo, hn₀, rfl⟩ := h.part_of_ne hs hc hn
        rw [hn₀]
        rw [hmethod] at haccepts
        exact haccepts

theorem schema (hs : Schema db) : Schema db' := by
  have hkeys : ∀ {ninfo ninfo' : PartitionInfo V E} (cols : Cols T), ninfo'.key = ninfo.key →
      keyTypes sem ninfo' cols = keyTypes sem ninfo cols := by
    intro ninfo ninfo' cols hk
    simp only [keyTypes, hk]
  have hparents := h.parentOf_eq
  have hother : ∀ {name q : String}, parentOf db' name = some q →
      name ≠ child ∧ parentOf db name = some q := by
    intro name q hname
    rw [hparents] at hname
    by_cases hc : name = child
    · rw [hc, Function.update_self] at hname
      cases hname
    · rw [Function.update_of_ne hc] at hname
      exact ⟨hc, hname⟩
  constructor
  case rooted =>
    rw [hparents]
    exact Rooted.cut hs.rooted
  case links =>
    intro name q
    constructor
    · intro hname
      obtain ⟨hc, hname⟩ := hother hname
      obtain ⟨qinfo, hq, hmem⟩ := hs.links.1 hname
      by_cases hqc : q = child
      · subst hqc
        rw [h.part_old] at hq
        cases hq
        have hpart := hs.partitioned h.part_old (List.ne_nil_of_mem hmem)
        refine ⟨_, h.part_child.trans (if_pos hpart), hmem⟩
      · by_cases hqp : q = parent
        · subst hqp
          rw [h.part] at hq
          cases hq
          exact ⟨_, h.part_parent, List.mem_filter.2 ⟨hmem, by simpa using hc⟩⟩
        · exact ⟨qinfo, (h.part_other q hqp hqc).trans hq, hmem⟩
    · rintro ⟨qinfo', hq, hmem⟩
      obtain ⟨qinfo, hq₀, -, -, -, hchildren⟩ := h.part_before hs hq
      obtain ⟨hmem, hc⟩ := (hchildren name).1 hmem
      rw [hparents, Function.update_of_ne hc]
      exact hs.links.2 ⟨qinfo, hq₀, hmem⟩
  case partitioned =>
    intro name ninfo' hname hne
    obtain ⟨ninfo, hn, -, -, hpart, hchildren⟩ := h.part_before hs hname
    rw [hpart]
    obtain ⟨s, hsmem⟩ := List.exists_mem_of_ne_nil _ hne
    exact hs.partitioned hn (List.ne_nil_of_mem ((hchildren s).1 hsmem).1)
  case bound =>
    intro name ninfo' hname
    by_cases hc : name = child
    · subst hc
      obtain ⟨-, rfl⟩ := h.part_child_eq hname
      rfl
    · obtain ⟨ninfo, hn, rfl⟩ := h.part_of_ne hs hc hname
      have hbound := hs.bound hn
      exact hbound
  case columns =>
    intro name q ncols qcols hname hncols hqcols
    rw [h.cols] at hncols hqcols
    exact hs.columns (hother hname).2 hncols hqcols
  case keys =>
    intro name ninfo' ncols row key hname hpart hncols hrow hkey
    obtain ⟨ninfo, hn, -, hk, hp, -⟩ := h.part_before hs hname
    rw [h.cols] at hncols
    rw [hp] at hpart
    rw [evalTablePartKey, hk] at hkey
    rw [hkeys ncols hk]
    exact hs.keys hn hpart hncols hrow hkey
  case bounds =>
    intro name q qinfo' qcols b hname hb hq hqcols
    obtain ⟨qinfo, hq₀, -, hk, -, -⟩ := h.part_before hs hq
    obtain ⟨hc, hname⟩ := hother hname
    rw [h.cols] at hqcols
    rw [hkeys qcols hk]
    refine hs.bounds hname ?_ hq₀ hqcols
    obtain ⟨ninfo', hn, hb⟩ := Option.bind_eq_some_iff.1 hb
    obtain ⟨ninfo, hn₀, rfl⟩ := h.part_of_ne hs hc hn
    exact Option.bind_eq_some_iff.2 ⟨ninfo, hn₀, hb⟩
  case disjoint =>
    intro q qinfo' qcols key a b hq hqcols ha hb hne hkey hacca haccb
    obtain ⟨qinfo, hq₀, hmethod, hk, -, hchildren⟩ := h.part_before hs hq
    rw [h.cols] at hqcols
    rw [hkeys qcols hk] at hkey
    exact hs.disjoint hq₀ hqcols ((hchildren a).1 ha).1 ((hchildren b).1 hb).1 hne hkey
      (h.explicitAccepts_le hs hmethod hacca) (h.explicitAccepts_le hs hmethod haccb)
  case oneDefault =>
    intro q qinfo' a b ainfo' binfo' hq ha hb hainfo hbinfo hda hdb
    obtain ⟨qinfo, hq₀, -, -, -, hchildren⟩ := h.part_before hs hq
    obtain ⟨ha, hac⟩ := (hchildren a).1 ha
    obtain ⟨hb, hbc⟩ := (hchildren b).1 hb
    obtain ⟨ainfo, hainfo₀, rfl⟩ := h.part_of_ne hs hac hainfo
    obtain ⟨binfo, hbinfo₀, rfl⟩ := h.part_of_ne hs hbc hbinfo
    exact hs.oneDefault hq₀ ha hb hainfo₀ hbinfo₀ hda hdb

/-- Rows stay in their bounds: fewer bounds are left, and siblings take no more than before. -/
theorem satisfied (hs : Schema db) {name : String} {row : Row V}
    (hrow : Satisfied db name row) : Satisfied db' name row := by
  intro anc row' hcarried
  have hcarried₀ : Carried db name row anc row' := by
    clear hrow
    induction hcarried with
    | refl => exact .refl ..
    | @up x q anc row row' xcols qcols hxcols hparent hqcols _ ih =>
        rw [h.cols] at hxcols hqcols
        rw [h.parentOf_eq] at hparent
        by_cases hx : x = child
        · rw [hx, Function.update_self] at hparent
          cases hparent
        · rw [Function.update_of_ne hx] at hparent
          exact .up hxcols hparent hqcols ih
  intro ninfo' q qinfo' ncols qcols hn hq hqinfo hncols hqcols
  have hne : anc ≠ child := by
    rintro rfl
    obtain ⟨-, rfl⟩ := h.part_child_eq hn
    cases hq
  obtain ⟨ninfo, hn₀, rfl⟩ := h.part_of_ne hs hne hn
  obtain ⟨qinfo, hqinfo₀, hmethod, hk, -, hchildren⟩ := h.part_before hs hqinfo
  rw [h.cols] at hncols hqcols
  obtain ⟨key, hkey, haccepts⟩ :=
    hrow anc row' hcarried₀ ninfo q qinfo ncols qcols hn₀ hq hqinfo₀ hncols hqcols
  refine ⟨key, by rw [evalTablePartKey, hk]; exact hkey, ?_⟩
  unfold accepts at haccepts ⊢
  split at haccepts
  · rename_i hd
    rw [if_pos (by exact hd), Bool.not_eq_true']
    rw [Bool.not_eq_true'] at haccepts
    unfold explicitSiblingAccepts at haccepts ⊢
    rw [List.any_eq_false] at haccepts ⊢
    intro s hsmem hacc
    rw [Bool.and_eq_true] at hacc
    refine haccepts s ((hchildren s).1 hsmem).1 ?_
    rw [Bool.and_eq_true]
    exact ⟨hacc.1, h.explicitAccepts_le hs hmethod hacc.2⟩
  · rename_i hd
    rw [if_neg (by exact hd), hmethod]
    exact haccepts

end Unlinked

end Partition
