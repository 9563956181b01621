-- SUMMARY: The whole format: which values and records survive the log, and what the decoder does with other bytes.
import Rustgres.Encoding.Clean
import Rustgres.Encoding.RangeText

/-!
# The Log Format

Exactly the storable column types, values and records come back from the log, alone or in a sequence,
and other bytes are refused with an error as long as no text parser faults on them.
-/

open Codecs

namespace Encoding

variable {E : Type}

/-- At the current version the reader gets `a` back from `bs` wherever they stand, and stops behind
them. -/
def RoundTrips {α : Type} (p : Reader α) (bs : Bytes) (a : α) : Prop :=
  ∀ pre post, p ⟨pre ++ bs ++ post, pre.length, walVersion⟩
    = .ok (a, ⟨pre ++ bs ++ post, (pre ++ bs).length, walVersion⟩)

/-- `n` records that take up the whole buffer. -/
def decodeRecords (T : TextForms E) (stack n : Nat) (buf : Bytes) :
    Except Fault (List (WalRecord E)) := do
  let (records, d) ← Reader.times n (Dec.record T stack) ⟨buf, 0, walVersion⟩
  if d.pos = buf.length then return records else .error (.error "trailing bytes")

/-! ## Sequences of records -/

theorem roundTrips_iff_of_readsBack {α : Type} {p : Reader α} {bs : Bytes} {a : α} {P : Prop}
    (h : ReadsBack walVersion p bs a P) (hshort : bs.length < 2 ^ 32) :
    RoundTrips p bs a ↔ P := by
  constructor
  · intro hround
    by_contra hP
    exact h.not_of hshort hP [] [] _ (hround [] [])
  · intro hP pre post
    exact h.of hshort hP pre post

/-- Records of less than 4 GiB each come back in sequence exactly if each of them is storable. -/
theorem times_record_iff {T : TextForms E} {stack : Nat} {rs : List (WalRecord E)}
    (hshort : ∀ r ∈ rs, (Enc.record T r).length < 2 ^ 32) (pre : Bytes) :
    (∃ d, Reader.times rs.length (Dec.record T stack)
        ⟨pre ++ rs.flatMap (Enc.record T), pre.length, walVersion⟩ = .ok (rs, d)
      ∧ d.pos = (pre ++ rs.flatMap (Enc.record T)).length)
      ↔ ∀ r ∈ rs, r.Storable T stack := by
  induction rs generalizing pre with
  | nil =>
      refine ⟨fun _ r hr => absurd hr List.not_mem_nil, fun _ => ⟨_, rfl, ?_⟩⟩
      simp
  | cons r rs ih =>
      have hback := @Dec.readsBack_record _ T walVersion stack le_rfl r
      have hr := hshort r (by simp)
      have htail := ih (fun x hx => hshort x (by simp [hx])) (pre ++ Enc.record T r)
      rw [List.length_cons, Reader.times, List.flatMap_cons, ← List.append_assoc]
      by_cases hstore : r.Storable T stack
      · have hhead := hback.of hr hstore pre (rs.flatMap (Enc.record T))
        rw [Reader.bind_of_ok hhead]
        constructor
        · rintro ⟨d, hd, hend⟩
          obtain ⟨as, d₁, has, hpure⟩ := Reader.bind_ok hd
          cases hpure
          have hall := htail.1 ⟨d, has, hend⟩
          intro x hx
          rcases List.mem_cons.1 hx with rfl | hx
          · exact hstore
          · exact hall x hx
        · intro hall
          obtain ⟨d, hd, hend⟩ := htail.2 fun x hx => hall x (by simp [hx])
          refine ⟨d, ?_, hend⟩
          rw [Reader.bind_of_ok hd]
          rfl
      · constructor
        · rintro ⟨d, hd, -⟩
          obtain ⟨a, d₁, ha, hd⟩ := Reader.bind_ok hd
          obtain ⟨as, d₂, -, hd⟩ := Reader.bind_ok hd
          cases hd
          exact absurd ha (hback.not_of hr hstore pre (rs.flatMap (Enc.record T)) d₁)
        · intro hall
          exact absurd (hall r (by simp)) hstore

theorem decodeRecords_iff {T : TextForms E} {stack : Nat} {rs : List (WalRecord E)}
    (hshort : ∀ r ∈ rs, (Enc.record T r).length < 2 ^ 32) :
    decodeRecords T stack rs.length (rs.flatMap (Enc.record T)) = .ok rs
      ↔ ∀ r ∈ rs, r.Storable T stack := by
  rw [← times_record_iff hshort []]
  simp only [List.nil_append, List.length_nil, decodeRecords]
  constructor
  · intro h
    cases hrun : Reader.times rs.length (Dec.record T stack)
        ⟨rs.flatMap (Enc.record T), 0, walVersion⟩ with
    | error f => rw [hrun] at h; cases h
    | ok r =>
        rw [hrun] at h
        simp only [Bind.bind, Except.bind] at h
        split at h
        · rename_i hend
          cases h
          exact ⟨r.2, rfl, hend⟩
        · cases h
  · rintro ⟨d, hd, hend⟩
    simp only [hd, Bind.bind, Except.bind, if_pos hend]
    rfl

/-! ## The format -/

/-- Texts stand for themselves as bounds, and nothing else is logged as text. -/
def plainBounds : BoundForms where
  boundText
    | .text s => s
    | _ => ""
  parseBound
    | .text, s => .ok (.text s)
    | _, _ => .error (.error "invalid input syntax")
  makeRange elem name lo loInc hi hiInc :=
    .ok ⟨elem, name, false, lo, loInc && lo.isSome, hi, hiInc && hi.isSome⟩

def plainForms : TextForms Empty where
  numericToText n := toString n.unscaled
  parseNumeric s :=
    match s.toInt? with
    | some i => .ok ⟨i, 0, 0, .finite, none⟩
    | none => .error (.error "Syntax")
  rangeToText := rangeToText plainBounds
  parseRange := parseRange plainBounds
  multirangeToText _ := "{}"
  parseMultirange elem name _ := .ok ⟨elem, name, []⟩
  tsvectorToText _ := ""
  parseTsvector _ := .ok ⟨[]⟩
  tsqueryToText _ := ""
  parseTsquery _ := .ok ⟨none⟩
  exprToText e := e.elim
  parsePartitionExpr _ := none

theorem plainForms_safe {s : String} (h : (Put.utf8 s).length < 5) : plainForms.Safe s := by
  have hskip : ∀ b : Bytes, (skipWs b).length ≤ b.length := by
    intro b
    fun_induction skipWs b
    case case1 => exact le_rfl
    case case2 ih => exact ih.trans (Nat.le_succ _)
    case case3 => exact le_rfl
  have hcut : ¬ CutsChar (skipWs (Put.utf8 s)) :=
    fun hc => absurd (hc.1.trans (hskip _)) (Nat.not_le.2 h)
  constructor
  · simp only [plainForms]
    split
    · exact Reports.ok _
    · exact Reports.error _
  · refine fun elem name => reports_parseRange hcut (fun elem s => ?_) (fun _ _ _ _ _ _ => ?_) elem name
    · simp only [plainBounds]
      split
      · exact Reports.ok _
      · exact Reports.error _
    · exact Reports.ok _
  · exact fun _ _ => Reports.ok _
  · exact Reports.ok _
  · exact Reports.ok _

/-- A row with an array of texts and a range of texts, and a table of bit arrays. -/
def plainRecords : List (WalRecord Empty) :=
  [.insertRows "t" [⟨7, 3, [.array .text [1] [1] [.text "a", .null],
      .range ⟨.text, none, false, some (.text "a,b"), true, none, false⟩], [0, 0], []⟩],
    .createTable ⟨"t", [("a", .array .bit), ("b", .char (some 3))], "", "o", [], [], 1, 0, [], [], [],
      [], [], [], 2, 100, none, [], 3⟩,
    .deleteRows "t" [7] [⟨7, 3, [.int 5, .null], [0, 0], []⟩] 9]

/-- The text of the lower bound that was parsed. -/
def boundOf : Except Fault (RangeVal Value) → Option String
  | .ok ⟨_, _, _, some (.text s), _, _, _⟩ => some s
  | _ => none

def panics {α : Type} : Except Fault α → Bool
  | .error .panic => true
  | _ => false

end Encoding
