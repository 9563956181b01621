-- SUMMARY: Journals with named savepoints, and their refinement by a log with marked positions.
import Mathlib.Data.List.Induction

/-!
# Journals

A journal records entries between named savepoints. Going back to a savepoint forgets what was
recorded since; releasing one keeps it. A program keeps a flat log and the length it had at each
savepoint instead: `ofLog` reads the journal off the two.
-/

variable {ε ε' : Type*}

inductive JournalEntry (ε : Type*) where
  | item (e : ε)
  | save (name : String)

/-- The newest entry comes first. -/
abbrev Journal (ε : Type*) := List (JournalEntry ε)

namespace JournalEntry

def item? : JournalEntry ε → Option ε
  | item e => some e
  | save _ => none

def isSave (name : String) : JournalEntry ε → Bool
  | item _ => false
  | save n => n = name

def map (f : ε → ε') : JournalEntry ε → JournalEntry ε'
  | item e => item (f e)
  | save n => save n

end JournalEntry

namespace Journal

open JournalEntry

/-- What is recorded, oldest first. -/
def items (j : Journal ε) : List ε := (j.filterMap item?).reverse

def record (es : List ε) (j : Journal ε) : Journal ε := (es.map item).reverse ++ j

@[grind =]
def save (name : String) (j : Journal ε) : Journal ε := .save name :: j

/-- Back to the innermost savepoint called `name`, which stays. -/
def rollbackTo (name : String) (j : Journal ε) : Journal ε := j.dropWhile (!isSave name ·)

/-- Forget the innermost savepoint called `name` and those inside it. -/
@[grind =]
def release (name : String) : Journal ε → Journal ε
  | [] => []
  | .item e :: j => .item e :: release name j
  | .save n :: j => if n = name then j else release name j

@[grind =]
def map (f : ε → ε') (j : Journal ε) : Journal ε' := List.map (JournalEntry.map f) j

/-! ## What is recorded -/

@[simp]
theorem items_nil : items ([] : Journal ε) = [] := rfl

@[simp]
theorem items_cons_item (e : ε) (j : Journal ε) : items (.item e :: j) = items j ++ [e] := by
  simp [items, item?]

@[simp]
theorem items_cons_save (name : String) (j : Journal ε) : items (.save name :: j) = items j := by
  simp [items, List.filterMap_cons_none (f := item?) (a := .save name) rfl]

@[simp]
theorem items_record (es : List ε) (j : Journal ε) : items (record es j) = items j ++ es := by
  unfold record
  induction es using List.reverseRecOn with
  | nil => simp
  | append_singleton es e ih =>
    simp only [List.map_append, List.map_singleton, List.reverse_append, List.reverse_singleton,
      List.cons_append, List.nil_append, items_cons_item, ih, List.append_assoc]

@[simp]
theorem items_save (name : String) (j : Journal ε) : items (save name j) = items j :=
  items_cons_save name j

@[simp]
theorem items_release (name : String) (j : Journal ε) : items (release name j) = items j := by
  induction j with
  | nil => rfl
  | cons e j ih =>
    cases e with
    | item e => simp [release, ih]
    | save n => by_cases hn : n = name <;> simp [release, hn, ih]

/-- What was recorded before the savepoint is the beginning of what is recorded. -/
theorem items_rollbackTo (name : String) (j : Journal ε) :
    items (rollbackTo name j) <+: items j := by
  have hsuffix : (rollbackTo name j).filterMap item? <:+ j.filterMap item? :=
    (List.dropWhile_suffix _).filterMap _
  simpa [items, List.reverse_prefix] using hsuffix

@[simp]
theorem items_map (f : ε → ε') (j : Journal ε) : items (map f j) = (items j).map f := by
  induction j with
  | nil => rfl
  | cons e j ih => cases e <;> simp_all [map, JournalEntry.map]

theorem map_record (f : ε → ε') (es : List ε) (j : Journal ε) :
    map f (record es j) = record (es.map f) (map f j) := by
  simp [map, record, JournalEntry.map, Function.comp_def]

theorem map_save (f : ε → ε') (name : String) (j : Journal ε) :
    map f (save name j) = save name (map f j) := rfl

theorem map_release (f : ε → ε') (name : String) (j : Journal ε) :
    map f (release name j) = release name (map f j) := by
  induction j with
  | nil => rfl
  | cons e j ih =>
    cases e with
    | item e => simpa [map, release, JournalEntry.map] using ih
    | save n =>
      by_cases hn : n = name
      · simp [map, release, JournalEntry.map, hn]
      · simpa [map, release, JournalEntry.map, hn] using ih

theorem map_rollbackTo (f : ε → ε') (name : String) (j : Journal ε) :
    map f (rollbackTo name j) = rollbackTo name (map f j) := by
  have hsave : (fun e : JournalEntry ε' => !isSave name e) ∘ JournalEntry.map f
      = fun e => !isSave name e := by
    funext e
    cases e <;> rfl
  simp [map, rollbackTo, List.dropWhile_map, hsave]

/-! ## Logs with marks -/

/-- The positions are lengths of the log at earlier and earlier times. -/
def MarksOk : Nat → List (String × Nat) → Prop
  | _, [] => True
  | n, (_, m) :: marks => m ≤ n ∧ MarksOk m marks

/-- The journal of a log and the positions of its savepoints, innermost first. -/
@[grind =]
def ofLog : List ε → List (String × Nat) → Journal ε
  | log, [] => record log []
  | log, (name, m) :: marks => record (log.drop m) (save name (ofLog (log.take m) marks))

theorem MarksOk.mono {n n' : Nat} {marks : List (String × Nat)} (h : MarksOk n marks)
    (hle : n ≤ n') : MarksOk n' marks := by
  cases marks with
  | nil => trivial
  | cons mark marks => exact ⟨Nat.le_trans h.1 hle, h.2⟩

/-- The marks from the innermost one called `name` on. -/
theorem MarksOk.fromName {n m : Nat} {name name' : String} {marks rest : List (String × Nat)}
    (h : MarksOk n marks) (hfrom : marks.dropWhile (·.1 ≠ name') = (name, m) :: rest) :
    m ≤ n ∧ MarksOk m rest := by
  induction marks generalizing n with
  | nil => simp at hfrom
  | cons mark marks ih =>
    obtain ⟨name₀, m₀⟩ := mark
    rw [List.dropWhile_cons] at hfrom
    split at hfrom
    · exact (ih h.2 hfrom).imp_left (Nat.le_trans · h.1)
    · cases hfrom
      exact h

@[simp]
theorem items_ofLog (log : List ε) (marks : List (String × Nat)) : items (ofLog log marks) = log := by
  induction marks generalizing log with
  | nil => simp [ofLog]
  | cons mark marks ih => simp [ofLog, ih]

theorem record_append (es es' : List ε) (j : Journal ε) :
    record (es ++ es') j = record es' (record es j) := by
  simp [record]

theorem ofLog_append {log : List ε} {marks : List (String × Nat)} (h : MarksOk log.length marks)
    (es : List ε) : ofLog (log ++ es) marks = record es (ofLog log marks) := by
  cases marks with
  | nil => simp [ofLog, record_append]
  | cons mark marks =>
    obtain ⟨name, m⟩ := mark
    simp only [ofLog, List.drop_append_of_le_length h.1, List.take_append_of_le_length h.1,
      record_append]

theorem ofLog_save (log : List ε) (name : String) (marks : List (String × Nat)) :
    ofLog log ((name, log.length) :: marks) = save name (ofLog log marks) := by
  simp [ofLog, record]

theorem dropWhile_record (name : String) (es : List ε) (j : Journal ε) :
    rollbackTo name (record es j) = rollbackTo name j := by
  unfold rollbackTo record
  rw [List.dropWhile_append_of_pos]
  intro e he
  simp only [List.mem_reverse, List.mem_map] at he
  obtain ⟨e, -, rfl⟩ := he
  rfl

theorem ofLog_rollbackTo {log : List ε} {marks : List (String × Nat)}
    (h : MarksOk log.length marks) {name n : String} {m : Nat} {rest : List (String × Nat)}
    (hfrom : marks.dropWhile (·.1 ≠ name) = (n, m) :: rest) :
    rollbackTo name (ofLog log marks) = ofLog (log.take m) ((n, m) :: rest) := by
  induction marks generalizing log with
  | nil => simp at hfrom
  | cons mark marks ih =>
    obtain ⟨n₀, m₀⟩ := mark
    have hlen : (log.take m₀).length = m₀ := by
      have := h.1
      simp only [List.length_take]
      omega
    rw [List.dropWhile_cons] at hfrom
    split at hfrom
    · next hne =>
      have hm : m ≤ m₀ := (h.2.fromName hfrom).1
      have hskip : rollbackTo name (save n₀ (ofLog (log.take m₀) marks))
          = rollbackTo name (ofLog (log.take m₀) marks) := by
        have hne' : ¬ n₀ = name := by simpa using hne
        simp [rollbackTo, save, isSave, hne']
      rw [ofLog, dropWhile_record, hskip, ih (by rw [hlen]; exact h.2) hfrom, List.take_take,
        Nat.min_eq_left hm]
    · next heq =>
      cases hfrom
      have hname : n = name := by simpa using heq
      have hstop : rollbackTo name (save n (ofLog (log.take m) rest))
          = save n (ofLog (log.take m) rest) := by
        simp [rollbackTo, save, isSave, hname]
      have hdrop : (log.take m).drop m = [] := by simp
      rw [ofLog, ofLog, dropWhile_record, hstop, hdrop, List.take_take, Nat.min_self]
      rfl

theorem release_record (name : String) (es : List ε) (j : Journal ε) :
    release name (record es j) = record es (release name j) := by
  unfold record
  induction es using List.reverseRecOn with
  | nil => rfl
  | append_singleton es e ih => simpa [release] using ih

theorem ofLog_release {log : List ε} {marks : List (String × Nat)}
    (h : MarksOk log.length marks) {name n : String} {m : Nat} {rest : List (String × Nat)}
    (hfrom : marks.dropWhile (·.1 ≠ name) = (n, m) :: rest) :
    release name (ofLog log marks) = ofLog log rest := by
  induction marks generalizing log with
  | nil => simp at hfrom
  | cons mark marks ih =>
    obtain ⟨n₀, m₀⟩ := mark
    have hlen : (log.take m₀).length = m₀ := by
      have := h.1
      simp only [List.length_take]
      omega
    have happend {rest : List (String × Nat)} (hrest : MarksOk m₀ rest) :
        record (log.drop m₀) (ofLog (log.take m₀) rest) = ofLog log rest := by
      rw [← ofLog_append (by rw [hlen]; exact hrest), List.take_append_drop]
    rw [List.dropWhile_cons] at hfrom
    split at hfrom
    · next hne =>
      have hne' : ¬ n₀ = name := by simpa using hne
      obtain ⟨hm, hrest⟩ := h.2.fromName hfrom
      have hskip : release name (save n₀ (ofLog (log.take m₀) marks))
          = release name (ofLog (log.take m₀) marks) := by
        simp [release, save, hne']
      rw [ofLog, release_record, hskip, ih (by rw [hlen]; exact h.2) hfrom,
        happend (hrest.mono hm)]
    · next heq =>
      cases hfrom
      have hname : n = name := by simpa using heq
      rw [ofLog, release_record, ← happend h.2]
      simp [release, save, hname]

end Journal
