-- SUMMARY: LIKE: the matcher with its restarts at the last percent sign, and that it decides what the pattern says.
import Rustgres.Values.Equality
import Rustgres.Lib.Wildcards

/-!
# LIKE

A pattern is cut into pieces, with the escape character before what stands for itself. The matcher goes through text and
pattern together; where it is stuck, it goes back to the last `%` and lets that take one character more.
-/

namespace Like

open Encoding (Value)
open Values Wildcards

section

variable {α : Type} [DecidableEq α]

/-! ## The pattern -/

/-- A trailing escape stands for itself. -/
def tokenize (percent underscore escape : α) : List α → List (Piece α)
  | [] => []
  | c :: c' :: pat =>
    if c = escape then .lit c' :: tokenize percent underscore escape pat
    else if c = percent then .star :: tokenize percent underscore escape (c' :: pat)
    else if c = underscore then .any :: tokenize percent underscore escape (c' :: pat)
    else .lit c :: tokenize percent underscore escape (c' :: pat)
  | [c] =>
    if c = percent then [.star] else if c = underscore then [.any] else [.lit c]

/-- The pattern ends with an escape that has nothing to escape. -/
def dangling (escape : α) : List α → Bool
  | [] => false
  | [c] => c = escape
  | c :: c' :: pat => if c = escape then dangling escape pat else dangling escape (c' :: pat)

attribute [grind =] tokenize dangling

/-! ## The matcher -/

/-- The text and the pattern that are left, and what there was behind the last `%`. -/
structure Place (α : Type) where
  text : List α
  toks : List (Piece α)
  star : Option (List (Piece α) × List α)
  since : ∀ r ∈ star, Since r.1 r.2 toks text

/-- A `%` is the last one now. -/
def Place.mark (text : List α) (toks : List (Piece α)) : Place α :=
  ⟨text, toks, some (toks, text), fun r hr => by
    cases hr
    exact .refl⟩

/-- Let the last `%` take one character more. -/
def Place.retry (w : Place α) : Option (Place α) := w.star.map fun r => .mark r.2.tail r.1

/-- One round, with a character to read. -/
def Place.next (w : Place α) (c : α) (text : List α) (htext : w.text = c :: text) : Option (Place α) :=
  match htoks : w.toks with
  | t :: toks =>
    if htakes : t.takes c = true then
      some ⟨text, toks, w.star, fun r hr => .one (htoks ▸ htext ▸ w.since r hr) (by
        rintro rfl
        cases htakes)⟩
    -- the earlier marks are given up here
    else if t = .star then some (.mark w.text toks)
    else w.retry
  | [] => w.retry

/-- The pattern does not go on with the character. -/
def Place.Stuck (w : Place α) (c : α) : Prop := ∀ t toks, w.toks = t :: toks → t.takes c = false ∧ t ≠ .star

variable {w w' : Place α} {c : α} {text : List α} {htext : w.text = c :: text}

theorem Place.next_cases (h : w.next c text htext = some w') :
    (∃ t toks, w.toks = t :: toks ∧ t.takes c = true ∧ w'.text = text ∧ w'.toks = toks ∧ w'.star = w.star) ∨
      (∃ toks, w.toks = .star :: toks ∧ w' = .mark w.text toks) ∨
      (w.Stuck c ∧ ∃ r, w.star = some r ∧ w' = .mark r.2.tail r.1) := by
  unfold Place.next at h
  split at h
  · rename_i t toks htoks
    split_ifs at h with htakes hstar
    · cases h
      exact .inl ⟨t, toks, htoks, htakes, rfl, rfl, rfl⟩
    · cases h
      subst hstar
      exact .inr (.inl ⟨toks, htoks, rfl⟩)
    · obtain ⟨r, hr, rfl⟩ := Option.map_eq_some_iff.1 h
      refine .inr (.inr ⟨fun u rest hu => ?_, r, hr, rfl⟩)
      rw [htoks] at hu
      cases hu
      exact ⟨Bool.eq_false_of_not_eq_true htakes, hstar⟩
  · rename_i htoks
    obtain ⟨r, hr, rfl⟩ := Option.map_eq_some_iff.1 h
    refine .inr (.inr ⟨fun u rest hu => ?_, r, hr, rfl⟩)
    rw [htoks] at hu
    cases hu

theorem Place.next_none (h : w.next c text htext = none) : w.Stuck c ∧ w.star = none := by
  unfold Place.next at h
  split at h
  · rename_i t toks htoks
    split_ifs at h with htakes hstar
    refine ⟨fun u rest hu => ?_, Option.map_eq_none_iff.1 h⟩
    rw [htoks] at hu
    cases hu
    exact ⟨Bool.eq_false_of_not_eq_true htakes, hstar⟩
  · rename_i htoks
    refine ⟨fun u rest hu => ?_, Option.map_eq_none_iff.1 h⟩
    rw [htoks] at hu
    cases hu

/-- The pieces that may be gone through again. -/
def Place.pieces (w : Place α) : Nat := (w.star.map fun r => r.1.length).getD w.toks.length

/-- The characters that the last `%` may still take. -/
def Place.chars (w : Place α) : Nat := (w.star.map fun r => r.2.length).getD 0

/-- Each round reads a character, passes a `%`, or gives the last one a character. -/
theorem Place.next_lt (h : w.next c text htext = some w') :
    Prod.Lex (· < ·) (Prod.Lex (· < ·) (· < ·)) (w'.pieces, w'.chars, w'.text.length)
      (w.pieces, w.chars, w.text.length) := by
  obtain ⟨t, toks, htoks, -, htext', htoks', hstar⟩ | ⟨toks, htoks, rfl⟩ | ⟨-, r, hr, rfl⟩ := next_cases h
  · unfold Place.pieces Place.chars
    rw [htext', htoks', hstar]
    cases hs : w.star with
    | none =>
        refine .left _ _ ?_
        rw [htoks]
        exact Nat.lt_succ_self _
    | some r =>
        refine .right _ (.right _ ?_)
        rw [htext]
        exact Nat.lt_succ_self _
  · refine .left _ _ ?_
    unfold Place.pieces Place.mark
    cases hs : w.star with
    | none =>
        rw [htoks]
        exact Nat.lt_succ_self _
    | some r =>
        have hle := (w.since r hs).length_toks
        rw [htoks] at hle
        exact hle
  · have hle := (w.since r hr).length_text
    rw [htext] at hle
    unfold Place.pieces Place.chars Place.mark
    rw [hr]
    refine .right _ (.left _ _ ?_)
    change r.2.tail.length < r.2.length
    rw [List.length_tail]
    exact Nat.sub_lt (Nat.lt_of_lt_of_le (Nat.succ_pos _) hle) Nat.one_pos

/-- The loop of the matcher. -/
def Place.run (w : Place α) : Bool :=
  match htext : w.text with
  | [] => (w.toks.dropWhile (· = .star)).isEmpty
  | c :: text =>
    match _hnext : w.next c text htext with
    | some w' => w'.run
    | none => false
termination_by (w.pieces, w.chars, w.text.length)
decreasing_by exact Place.next_lt _hnext

attribute [grind =] Place.run

def matchLike (s : List α) (toks : List (Piece α)) : Bool :=
  Place.run ⟨s, toks, none, fun _ hr => by cases hr⟩

/-! ## What it decides -/

/-- The rest matches, or it does when the last `%` takes more. -/
def Place.Hope (w : Place α) : Prop := Fits w.toks w.text ∨ ∃ r ∈ w.star, Fits (.star :: r.1) r.2.tail

omit [DecidableEq α] in
theorem Place.hope_mark {s : List α} {toks : List (Piece α)} : (Place.mark s toks).Hope ↔ Fits (.star :: toks) s := by
  rw [fits_star_iff]
  refine or_congr_right ⟨fun ⟨r, hr, hfits⟩ => ?_, fun hfits => ⟨_, rfl, hfits⟩⟩
  cases hr
  exact hfits

theorem Place.Stuck.not_fits (h : w.Stuck c) : ¬Fits w.toks (c :: text) := by
  intro hfits
  cases htoks : w.toks with
  | nil =>
      rw [htoks] at hfits
      cases hfits
  | cons t toks =>
      obtain ⟨htakes, hne⟩ := h t toks htoks
      rw [htoks, fits_cons_iff hne, htakes] at hfits
      cases hfits.1

/-- A round keeps what there is to hope for. -/
theorem Place.next_hope (h : w.next c text htext = some w') : w.Hope ↔ w'.Hope := by
  obtain ⟨t, toks, htoks, htakes, htext', htoks', hstar⟩ | ⟨toks, htoks, rfl⟩ | ⟨hstuck, r, hr, rfl⟩ := next_cases h
  · have hne : t ≠ .star := by
      rintro rfl
      cases htakes
    -- the piece and the character go together
    unfold Place.Hope
    rw [htext', htoks', hstar, htext, htoks, fits_cons_iff hne]
    exact or_congr_left (and_iff_right htakes)
  · -- what the old mark could still find, the new one finds too
    rw [hope_mark]
    unfold Place.Hope
    rw [htoks]
    refine ⟨fun hope => hope.elim id fun ⟨r, hr, hfits⟩ => ?_, .inl⟩
    have hsince := w.since r hr
    rw [htoks] at hsince
    exact hsince.forget hfits
  · -- the rest does not match, so only the mark is left
    rw [hope_mark]
    unfold Place.Hope
    rw [htext]
    refine ⟨fun hope => ?_, fun hfits => .inr ⟨r, hr, hfits⟩⟩
    obtain hfits | ⟨r', hr', hfits⟩ := hope
    · exact absurd hfits hstuck.not_fits
    · rw [hr] at hr'
      cases hr'
      exact hfits

theorem Place.run_end (h : w.text = []) : w.run = (w.toks.dropWhile (· = .star)).isEmpty := by
  rw [Place.run]
  split
  · rfl
  · rename_i heq
    rw [h] at heq
    cases heq

theorem Place.run_next (h : w.next c text htext = some w') : w.run = w'.run := by
  rw [Place.run]
  split
  · rename_i heq
    rw [htext] at heq
    cases heq
  · rename_i c' text' heq
    obtain ⟨rfl, rfl⟩ := List.cons.inj (htext.symm.trans heq)
    split
    · rename_i w'' hnext
      rw [h] at hnext
      cases hnext
      rfl
    · rename_i hnext
      rw [h] at hnext
      cases hnext

theorem Place.run_stuck (h : w.next c text htext = none) : w.run = false := by
  rw [Place.run]
  split
  · rename_i heq
    rw [htext] at heq
    cases heq
  · rename_i c' text' heq
    obtain ⟨rfl, rfl⟩ := List.cons.inj (htext.symm.trans heq)
    split
    · rename_i w'' hnext
      rw [h] at hnext
      cases hnext
    · rfl

omit [DecidableEq α] in
/-- Behind the text, what the last `%` could take more is of no use. -/
theorem Place.hope_end (h : w.text = []) : w.Hope ↔ Fits w.toks [] := by
  unfold Place.Hope
  rw [h]
  refine ⟨fun hope => hope.elim id fun ⟨r, hr, k, hfits⟩ => ?_, .inl⟩
  rw [List.drop_tail] at hfits
  have hrest := (w.since r hr).fits hfits
  rwa [h, List.drop_nil] at hrest

theorem Place.run_iff (w : Place α) : w.run = true ↔ w.Hope := by
  -- the induction follows the rounds of the loop, and each keeps the hope
  induction w using Place.run.induct with
  | case1 w htext => rw [run_end htext, hope_end htext, fits_nil_iff]
  | case2 w c text htext w' hnext ih => rw [run_next hnext, next_hope hnext, ih]
  | case3 w c text htext hnext =>
      rw [run_stuck hnext]
      obtain ⟨hstuck, hstar⟩ := next_none hnext
      refine ⟨fun h => (by cases h), fun hope => ?_⟩
      obtain hfits | ⟨r, hr, -⟩ := hope
      · rw [htext] at hfits
        exact absurd hfits hstuck.not_fits
      · rw [hstar] at hr
        cases hr

/-- The matcher says what the pieces mean. -/
theorem matchLike_iff {s : List α} {toks : List (Piece α)} : matchLike s toks = true ↔ Fits toks s := by
  unfold matchLike
  rw [Place.run_iff]
  refine ⟨fun hope => hope.elim id fun ⟨r, hr, _⟩ => ?_, .inl⟩
  cases hr

/-! ## Quoting -/

/-- A text with the escape before each character that would not stand for itself. -/
def quote (percent underscore escape : α) (s : List α) : List α :=
  s.flatMap fun c => if c = escape ∨ c = percent ∨ c = underscore then [escape, c] else [c]

variable {percent underscore escape : α}

theorem tokenize_escaped {pat : List α} :
    tokenize percent underscore escape (escape :: c :: pat) = .lit c :: tokenize percent underscore escape pat := by
  rw [tokenize, if_pos rfl]

theorem tokenize_plain {pat : List α} (he : c ≠ escape) (hp : c ≠ percent) (hu : c ≠ underscore) :
    tokenize percent underscore escape (c :: pat) = .lit c :: tokenize percent underscore escape pat := by
  cases pat with
  | nil => simp only [tokenize, if_neg hp, if_neg hu]
  | cons c' pat => rw [tokenize, if_neg he, if_neg hp, if_neg hu]

theorem dangling_plain {pat : List α} (he : c ≠ escape) : dangling escape (c :: pat) = dangling escape pat := by
  cases pat with
  | nil => exact decide_eq_false he
  | cons c' pat => rw [dangling, if_neg he]

theorem tokenize_quote (s : List α) :
    tokenize percent underscore escape (quote percent underscore escape s) = s.map .lit ∧
      dangling escape (quote percent underscore escape s) = false := by
  induction s with
  | nil => exact ⟨rfl, rfl⟩
  | cons c s ih =>
      unfold quote at ih ⊢
      rw [List.flatMap_cons]
      split_ifs with hspecial
      · refine ⟨?_, ?_⟩
        · exact tokenize_escaped.trans (congrArg _ ih.1)
        · rw [List.cons_append, List.cons_append, List.nil_append, dangling, if_pos rfl]
          exact ih.2
      · rw [not_or, not_or] at hspecial
        refine ⟨?_, ?_⟩
        · exact (tokenize_plain hspecial.1 hspecial.2.1 hspecial.2.2).trans (congrArg _ ih.1)
        · exact (dangling_plain hspecial.1).trans ih.2

end

/-! ## The operator -/

section

variable (lower : List Char → List Char)

def tokenizeLike (pat : List Char) (escape : Char) : List (Piece Char) := tokenize '%' '_' escape pat

def matchLikeBytes (s pat : Bytes) (escape : UInt8) : Bool := matchLike s (tokenize 37 95 escape pat)

/-- Padded text is text without the blanks behind it. -/
def trimmed : Value → Value
  | .bpChar s => .text (String.ofList (rtrimSpaces s))
  | v => v

/-- The escape for texts and the one for bytes; neither when it is null. -/
def escapeOf : Option Value → Except ExecError (Option Char × Option UInt8)
  | none => .ok (some '\\', some 92)
  | some .null => .ok (none, none)
  | some (.text e) =>
    match e.toList with
    | [c] => .ok (some c, none)
    | _ => .error (execError "22023" "ESCAPE string must be empty or one character")
  | some (.bytea b) =>
    match b with
    | [c] => .ok (none, some c)
    | _ => .error (execError "22023" "ESCAPE string must be empty or one character")
  | some other => .error (execError "42883" ("ESCAPE must be text, not " ++ typeName other))

def danglingEscape : ExecError := execError "22025" "LIKE pattern must not end with escape character"

/-- The operands when none of them is null. -/
def likeOperands (a pattern : Value) (escChar : Option Char) (escByte : Option UInt8) (not ilike : Bool) :
    Except ExecError Value :=
  match a, pattern with
  | .bytea s, .bytea p =>
    if dangling (escByte.getD 92) p then .error danglingEscape
    else
      let m := matchLikeBytes s p (escByte.getD 92)
      .ok (.bool (if not then !m else m))
  | .text s, .text p =>
    let s := if ilike then lower s.toList else s.toList
    let p := if ilike then lower p.toList else p.toList
    if dangling (escChar.getD '\\') p then .error danglingEscape
    else
      let m := matchLike s (tokenizeLike p (escChar.getD '\\'))
      .ok (.bool (if not then !m else m))
  | a, pattern =>
    .error (execError "42883" ("operator does not exist: " ++ typeName a ++ " " ++ (if ilike then "~~*" else "~~") ++ " " ++
      typeName pattern))

def evalLike (a pattern : Value) (escape : Option Value) (not ilike : Bool) : Except ExecError Value := do
  let a := trimmed a
  let pattern := trimmed pattern
  let (escChar, escByte) ← escapeOf escape
  match a, pattern with
  | .null, _ | _, .null => .ok .null
  | a, pattern =>
    if escChar.isNone && escByte.isNone then .ok .null else likeOperands lower a pattern escChar escByte not ilike

/-- The operator refuses a dangling escape, and is otherwise true where the pattern matches, or where it does not. -/
structure Answers {α : Type} [DecidableEq α] (percent underscore escape : α) (s pat : List α) (not : Bool)
    (r : Except ExecError Value) : Prop where
  refused : dangling escape pat = true → r = .error danglingEscape
  answered : dangling escape pat = false →
    ∃ b, r = .ok (.bool b) ∧ (b = !not ↔ Fits (tokenize percent underscore escape pat) s)

theorem answers_of_match {α : Type} [DecidableEq α] {percent underscore escape : α} {s pat : List α} {not : Bool} :
    Answers percent underscore escape s pat not
      (if dangling escape pat then .error danglingEscape
      else .ok (.bool (if not then !matchLike s (tokenize percent underscore escape pat)
        else matchLike s (tokenize percent underscore escape pat)))) where
  refused := fun h => by rw [if_pos h]
  answered := fun h => by
    rw [h]
    refine ⟨_, rfl, ?_⟩
    rw [← matchLike_iff]
    cases not with
    | false => exact Iff.rfl
    | true => simp

theorem answers_text (s p : String) (e : Option Char) (not ilike : Bool) :
    Answers '%' '_' (e.getD '\\') (if ilike then lower s.toList else s.toList) (if ilike then lower p.toList else p.toList)
      not (evalLike lower (.text s) (.text p) (e.map fun c => .text (String.ofList [c])) not ilike) := by
  cases e with
  | none => exact answers_of_match
  | some c =>
      have hesc : escapeOf (some (.text (String.ofList [c]))) = .ok (some c, none) := by
        unfold escapeOf
        dsimp only
        rw [String.toList_ofList]
      have heval : evalLike lower (.text s) (.text p) (some (.text (String.ofList [c]))) not ilike =
          likeOperands lower (.text s) (.text p) (some c) none not ilike := by
        unfold evalLike
        rw [hesc]
        rfl
      rw [Option.map_some, heval]
      exact answers_of_match

theorem answers_bytea (s p : Bytes) (e : Option UInt8) (not ilike : Bool) :
    Answers 37 95 (e.getD 92) s p not (evalLike lower (.bytea s) (.bytea p) (e.map fun c => .bytea [c]) not ilike) := by
  cases e with
  | none | some c => exact answers_of_match

/-- A text with its special characters escaped is LIKE that text only. -/
theorem eval_like_quote (s t : String) (e : Option Char) :
    evalLike lower (.text s) (.text (String.ofList (quote '%' '_' (e.getD '\\') t.toList)))
      (e.map fun c => .text (String.ofList [c])) false false = .ok (.bool (s = t)) := by
  obtain ⟨b, hb, hiff⟩ := (answers_text lower s (String.ofList (quote '%' '_' (e.getD '\\') t.toList)) e
    false false).answered (by
      rw [String.toList_ofList]
      exact (tokenize_quote t.toList).2)
  rw [hb]
  congr 2
  rw [String.toList_ofList, if_neg Bool.false_ne_true, if_neg Bool.false_ne_true, (tokenize_quote t.toList).1] at hiff
  have hs : b = true ↔ s = t := hiff.trans (fits_literal.trans String.toList_inj)
  cases b with
  | false => exact (decide_eq_false fun heq => Bool.false_ne_true (hs.2 heq)).symm
  | true => exact (decide_eq_true (hs.1 rfl)).symm

end

end Like
