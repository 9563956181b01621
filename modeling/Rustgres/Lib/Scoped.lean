-- SUMMARY: Reference semantics of assignments in transactions with savepoints, and its refinement
-- by an undo stack.
import Mathlib.Data.List.Forall2
import Rustgres.Lib.UndoStack

/-!
# Scoped Assignments

Cells are assigned inside transactions with savepoints. The reference semantics keeps the values
that each possible end of a scope goes back to. An undo stack keeps old values and positions
instead, and refines the reference as long as each commit finds a layered stack.
-/

namespace Scoped

variable {κ ν : Type*}

/-! ## Reference semantics -/

/-- What a savepoint remembers. -/
structure Save (κ ν : Type*) where
  name : String
  cur : κ → ν
  session : κ → ν

/-- An open transaction: the values at its begin, the values of the assignments that are not local
(what a commit leaves), and the savepoints, innermost first. -/
structure RefTxn (κ ν : Type*) where
  atBegin : κ → ν
  session : κ → ν
  saves : List (Save κ ν)

structure Ref (κ ν : Type*) where
  cur : κ → ν
  txn : Option (RefTxn κ ν)

inductive Event (κ ν : Type*) where
  | begin
  | assign (d : κ → Option ν) (isLocal : Bool)
  | savepoint (name : String)
  | rollbackTo (name : String)
  | release (name : String)
  | commit
  | rollback

namespace Ref

/-- The savepoints from the innermost one called `name` on. -/
def fromName (name : String) (saves : List (Save κ ν)) : List (Save κ ν) :=
  saves.dropWhile (·.name ≠ name)

def step (r : Ref κ ν) : Event κ ν → Ref κ ν
  | .begin => { r with txn := some ⟨r.cur, r.cur, []⟩ }
  | .assign d isLocal =>
    ⟨overwrite r.cur d, r.txn.map fun t =>
      { t with session := if isLocal then t.session else overwrite t.session d }⟩
  | .savepoint name =>
    { r with txn := r.txn.map fun t => { t with saves := ⟨name, r.cur, t.session⟩ :: t.saves } }
  | .rollbackTo name =>
    match r.txn with
    | none => r
    | some t =>
      match fromName name t.saves with
      | [] => r
      | save :: rest => ⟨save.cur, some { t with session := save.session, saves := save :: rest }⟩
  | .release name =>
    { r with txn := r.txn.map fun t => { t with saves := (fromName name t.saves).tail } }
  | .commit =>
    match r.txn with
    | none => r
    | some t => ⟨t.session, none⟩
  | .rollback =>
    match r.txn with
    | none => r
    | some t => ⟨t.atBegin, none⟩

/-- Assigning no cell changes nothing. -/
@[simp]
theorem step_assign_empty (r : Ref κ ν) (isLocal : Bool) :
    r.step (.assign (fun _ => none) isLocal) = r := by
  obtain ⟨cur, txn⟩ := r
  cases txn <;> simp [step]

end Ref

/-! ## Undo stacks with savepoint marks -/

/-- A stack of saved values, newest first, and for each savepoint the height it had then. -/
structure StackTxn (κ ν : Type*) where
  stack : List (UndoEntry κ ν)
  marks : List (String × Nat)

structure StackState (κ ν : Type*) where
  cur : κ → ν
  txn : Option (StackTxn κ ν)

namespace StackTxn

/-- The entries pushed since the stack had height `m`. -/
def above (t : StackTxn κ ν) (m : Nat) : List (UndoEntry κ ν) :=
  t.stack.take (t.stack.length - m)

/-- The entries of the stack when it had height `m`. -/
def below (t : StackTxn κ ν) (m : Nat) : List (UndoEntry κ ν) :=
  t.stack.drop (t.stack.length - m)

/-- The savepoint marks from the innermost one called `name` on. -/
def fromName (name : String) (t : StackTxn κ ν) : List (String × Nat) :=
  t.marks.dropWhile (·.1 ≠ name)

theorem above_append_below (t : StackTxn κ ν) (m : Nat) : t.above m ++ t.below m = t.stack :=
  List.take_append_drop _ _

theorem length_below {t : StackTxn κ ν} {m : Nat} (h : m ≤ t.stack.length) :
    (t.below m).length = m := by
  simp only [below, List.length_drop]
  omega

theorem above_push (t : StackTxn κ ν) (es : List (UndoEntry κ ν)) {m : Nat}
    (h : m ≤ t.stack.length) : above ⟨es ++ t.stack, t.marks⟩ m = es ++ t.above m := by
  simp only [above, List.length_append, Nat.add_sub_assoc h]
  exact List.take_length_add_append _

theorem below_push (t : StackTxn κ ν) (es : List (UndoEntry κ ν)) {m : Nat}
    (h : m ≤ t.stack.length) : below ⟨es ++ t.stack, t.marks⟩ m = t.below m := by
  simp only [below, List.length_append, Nat.add_sub_assoc h]
  exact List.drop_length_add_append _

theorem above_below {t : StackTxn κ ν} {m m' : Nat} (hm : m ≤ t.stack.length) (hm' : m' ≤ m)
    (marks : List (String × Nat)) :
    t.above m ++ above ⟨t.below m, marks⟩ m' = t.above m' := by
  have hlen := length_below hm
  have hsplit : t.stack.length - m' = (t.stack.length - m) + (m - m') := by omega
  simp only [below] at hlen
  simp only [above, below, hlen, hsplit, List.take_add]

theorem below_below {t : StackTxn κ ν} {m m' : Nat} (hm : m ≤ t.stack.length) (hm' : m' ≤ m)
    (marks : List (String × Nat)) : below ⟨t.below m, marks⟩ m' = t.below m' := by
  have hlen := length_below hm
  simp only [below] at hlen ⊢
  rw [hlen, List.drop_drop]
  congr 1
  omega

end StackTxn

/-! ## Refinement -/

/-- A mark stands for a saved state: unwinding down to it gives the values then, and the rest of
the stack persists the session values then. -/
structure MarkSaves (cur : κ → ν) (t : StackTxn κ ν) (mark : String × Nat) (save : Save κ ν) :
    Prop where
  name_eq : mark.1 = save.name
  le : mark.2 ≤ t.stack.length
  cur_eq : unwind cur (t.above mark.2) = save.cur
  session_eq : persisted save.cur (t.below mark.2) = save.session

/-- The stack of an open transaction stands for the reference transaction. -/
structure TxnRefines (cur : κ → ν) (t : StackTxn κ ν) (r : RefTxn κ ν) : Prop where
  begin_eq : unwind cur t.stack = r.atBegin
  session_eq : persisted cur t.stack = r.session
  saves : List.Forall₂ (MarkSaves cur t) t.marks r.saves
  sorted : t.marks.Pairwise fun newer older => older.2 ≤ newer.2

/-- The stack state stands for the reference state. -/
inductive Refines : StackState κ ν → Ref κ ν → Prop
  | closed (cur : κ → ν) : Refines ⟨cur, none⟩ ⟨cur, none⟩
  | «open» {cur : κ → ν} {t : StackTxn κ ν} {r : RefTxn κ ν} :
      TxnRefines cur t r → Refines ⟨cur, some t⟩ ⟨cur, some r⟩

theorem Refines.cur_eq {s : StackState κ ν} {r : Ref κ ν} (h : Refines s r) : s.cur = r.cur := by
  cases h <;> rfl

theorem Refines.begin (cur : κ → ν) :
    Refines ⟨cur, some ⟨[], []⟩⟩ ((⟨cur, none⟩ : Ref κ ν).step .begin) :=
  .open ⟨rfl, rfl, .nil, .nil⟩

/-- An assignment with its entries pushed. -/
theorem Refines.assign {cur : κ → ν} {t : StackTxn κ ν} {r : Ref κ ν}
    (h : Refines ⟨cur, some t⟩ r) {es : List (UndoEntry κ ν)} {isLocal : Bool}
    {d : κ → Option ν} (hsaves : SavesAll es isLocal cur d) :
    Refines ⟨overwrite cur d, some ⟨es ++ t.stack, t.marks⟩⟩ (r.step (.assign d isLocal)) := by
  cases h with
  | @«open» _ _ rt ht =>
      refine .open ⟨?_, ?_, ?_, ht.sorted⟩
      · rw [unwind_append, hsaves.unwind, ht.begin_eq]
      · rw [hsaves.persisted, ht.session_eq]
      · refine ht.saves.imp fun mark save hm => ⟨hm.name_eq, ?_, ?_, ?_⟩
        · exact Nat.le_trans hm.le (by simp)
        · rw [StackTxn.above_push t es hm.le, unwind_append, hsaves.unwind, hm.cur_eq]
        · rw [StackTxn.below_push t es hm.le, hm.session_eq]

private theorem mark_le {cur : κ → ν} {t : StackTxn κ ν} {marks : List (String × Nat)}
    {saves : List (Save κ ν)} (h : List.Forall₂ (MarkSaves cur t) marks saves) :
    ∀ mark ∈ marks, mark.2 ≤ t.stack.length := by
  induction h with
  | nil => simp
  | cons hm _ ih => exact List.forall_mem_cons.mpr ⟨hm.le, ih⟩

theorem Refines.savepoint {cur : κ → ν} {t : StackTxn κ ν} {r : Ref κ ν}
    (h : Refines ⟨cur, some t⟩ r) (name : String) :
    Refines ⟨cur, some ⟨t.stack, (name, t.stack.length) :: t.marks⟩⟩
      (r.step (.savepoint name)) := by
  cases h with
  | @«open» _ _ rt ht =>
      refine .open ⟨ht.begin_eq, ht.session_eq, .cons ⟨rfl, Nat.le_refl _, ?_, ?_⟩ ?_,
        .cons (mark_le ht.saves) ht.sorted⟩
      · simp [StackTxn.above]
      · simpa [StackTxn.below] using ht.session_eq
      · exact ht.saves.imp fun mark save hm => ⟨hm.name_eq, hm.le, hm.cur_eq, hm.session_eq⟩

/-- The marks and the saves from the same name on still correspond. -/
private theorem fromName_saves {cur : κ → ν} {t : StackTxn κ ν} (name : String)
    {marks : List (String × Nat)} {saves : List (Save κ ν)}
    (h : List.Forall₂ (MarkSaves cur t) marks saves) :
    List.Forall₂ (MarkSaves cur t) (marks.dropWhile (·.1 ≠ name)) (Ref.fromName name saves) := by
  induction h with
  | nil => exact .nil
  | @cons mark save marks saves hm hrest ih =>
      by_cases hname : save.name = name
      · simpa [Ref.fromName, List.dropWhile, hm.name_eq, hname] using ⟨hm, hrest⟩
      · simpa [Ref.fromName, List.dropWhile, hm.name_eq, hname] using ih

theorem Refines.release {cur : κ → ν} {t : StackTxn κ ν} {r : Ref κ ν}
    (h : Refines ⟨cur, some t⟩ r) (name : String) :
    Refines ⟨cur, some ⟨t.stack, (t.fromName name).tail⟩⟩ (r.step (.release name)) := by
  cases h with
  | @«open» _ _ rt ht =>
      have hsub : ((t.fromName name).tail).Sublist t.marks :=
        (List.tail_sublist _).trans (List.dropWhile_sublist _)
      refine .open ⟨ht.begin_eq, ht.session_eq, ?_, ht.sorted.sublist hsub⟩
      have hfrom := List.forall₂_drop 1 (fromName_saves name ht.saves)
      simp only [List.drop_one] at hfrom
      exact hfrom.imp fun mark save hm => ⟨hm.name_eq, hm.le, hm.cur_eq, hm.session_eq⟩

/-- Rolling back to the innermost savepoint of the name: the entries above its mark are unwound,
the mark stays. -/
theorem Refines.rollbackTo {cur : κ → ν} {t : StackTxn κ ν} {r : Ref κ ν}
    (h : Refines ⟨cur, some t⟩ r) {name : String} {mark : String × Nat}
    {rest : List (String × Nat)} (hfrom : t.fromName name = mark :: rest) :
    Refines ⟨unwind cur (t.above mark.2), some ⟨t.below mark.2, mark :: rest⟩⟩
      (r.step (.rollbackTo name)) := by
  cases h with
  | @«open» _ _ rt ht =>
      have hsaves := fromName_saves name ht.saves
      have hsorted : (mark :: rest).Pairwise fun newer older => older.2 ≤ newer.2 :=
        hfrom ▸ ht.sorted.sublist (List.dropWhile_sublist _)
      rw [show t.marks.dropWhile (·.1 ≠ name) = mark :: rest from hfrom] at hsaves
      cases hsave : Ref.fromName name rt.saves with
      | nil => rw [hsave] at hsaves; cases hsaves
      | cons save saves =>
          rw [hsave, List.forall₂_cons] at hsaves
          obtain ⟨hm, hrest⟩ := hsaves
          -- Below the mark nothing has changed, and unwinding goes through it.
          have hbelow : ∀ mark' save', mark'.2 ≤ mark.2 → MarkSaves cur t mark' save' →
              MarkSaves (unwind cur (t.above mark.2)) ⟨t.below mark.2, mark :: rest⟩
                mark' save' := by
            intro mark' save' hle hm'
            refine ⟨hm'.name_eq, ?_, ?_, ?_⟩
            · rw [StackTxn.length_below hm.le]
              exact hle
            · rw [← unwind_append, StackTxn.above_below hm.le hle, hm'.cur_eq]
            · rw [StackTxn.below_below hm.le hle, hm'.session_eq]
          have hcur : unwind cur (t.above mark.2) = save.cur := hm.cur_eq
          simp only [Ref.step, hsave]
          rw [← hcur]
          refine .open ⟨?_, ?_, ?_, hsorted⟩
          · rw [← unwind_append, StackTxn.above_append_below, ht.begin_eq]
          · rw [hcur]
            exact hm.session_eq
          · refine .cons (hbelow _ _ (Nat.le_refl _) hm) ?_
            have hle := (List.pairwise_cons.mp hsorted).1
            exact ((List.forall₂_and_left _ _).mpr ⟨hle, hrest⟩).imp
              fun mark' save' hm' => hbelow mark' save' hm'.1 hm'.2

theorem Refines.commit {cur : κ → ν} {t : StackTxn κ ν} {r : Ref κ ν}
    (h : Refines ⟨cur, some t⟩ r) (hlayered : Layered t.stack) :
    Refines ⟨unwindLocal cur t.stack, none⟩ (r.step .commit) := by
  cases h with
  | «open» ht =>
      rw [unwindLocal_eq_persisted hlayered, ht.session_eq]
      exact .closed _

theorem Refines.rollback {cur : κ → ν} {t : StackTxn κ ν} {r : Ref κ ν}
    (h : Refines ⟨cur, some t⟩ r) : Refines ⟨unwind cur t.stack, none⟩ (r.step .rollback) := by
  cases h with
  | «open» ht =>
      rw [ht.begin_eq]
      exact .closed _

end Scoped
