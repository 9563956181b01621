-- SUMMARY: The text form: exactly which rows are read back from the lines that are written for them.
import Mathlib.Data.List.Forall2
import Rustgres.Copy.TextLines
import Rustgres.Lib.Loops

/-!
# Rows of Text

A row is read back if the reader finds the fields where the writer has put them and tells the null string
from text. What that takes of the options and of the fields is said row by row.
-/

namespace Copy

open Utf8 (bytes)

variable {o : CopyOptions}

/-! ## What is written -/

def piece (o : CopyOptions) : CopyField → List UInt8
  | .text s => fieldBytes o s false
  | .null => bytes o.null

/-- The line of a row, without its newline. -/
def body (o : CopyOptions) (row : List CopyField) : List UInt8 :=
  List.intercalate [o.delimiter] (row.map (piece o))

theorem sendRow_eq (row : List CopyField) : sendRow o row = body o row ++ [newline] := by
  have hzip : List.zipWith (fieldBytes o) (row.map CopyField.string) (row.map CopyField.isNull)
      = row.map (piece o) := by
    rw [List.zipWith_map, List.zipWith_self]
    apply List.map_congr_left
    intro f _
    cases f <;> rfl
  unfold sendRow formatRow
  rw [hzip]
  rfl

theorem formatRow_names (names : List String) :
    formatRow o names (names.map fun _ => false) = body o (names.map .text) ++ [newline] := by
  have hzip : List.zipWith (fieldBytes o) names (names.map fun _ => false)
      = (names.map CopyField.text).map (piece o) := by
    rw [List.zipWith_map_right, List.zipWith_self, List.map_map]
    rfl
  unfold formatRow
  rw [hzip]
  rfl

/-- The rows that are written, the names first if a header is asked for. -/
def written (o : CopyOptions) (names : List String) (rows : List (List CopyField)) :
    List (List CopyField) :=
  (if o.header then [names.map .text] else []) ++ rows

theorem copyOut_eq (names : List String) (rows : List (List CopyField)) :
    copyOut o names rows = (written o names rows).flatMap fun row => body o row ++ [newline] := by
  have hrows : rows.flatMap (sendRow o) = rows.flatMap fun row => body o row ++ [newline] :=
    List.flatMap_congr fun row _ => sendRow_eq row
  unfold copyOut written
  rw [hrows, List.flatMap_append]
  split
  · rw [formatRow_names, List.flatMap_singleton]
  · rfl

/-- What is written is read back. -/
def RoundTrips (o : CopyOptions) (names : List String) (rows : List (List CopyField)) : Prop :=
  parseRows o (copyOut o names rows) names.length = .ok rows

/-! ## Reading a field -/

theorem readTextField_null {li : Nat} {f : List UInt8} (h : readTextField o li f = .ok .null) :
    f = bytes o.null := by
  unfold readTextField at h
  split at h
  · rename_i heq
    exact heq
  · obtain ⟨s, -, hs⟩ := Loops.map_eq_ok h
    cases hs

theorem readTextField_text {li : Nat} {f : List UInt8} {s : String}
    (h : readTextField o li f = .ok (.text s)) :
    f ≠ bytes o.null ∧ unescapeBytes f = some (bytes s) := by
  unfold readTextField at h
  split at h
  · cases h
  · rename_i hne
    obtain ⟨s', hs', heq⟩ := Loops.map_eq_ok h
    cases heq
    refine ⟨hne, ?_⟩
    unfold unescapeText at hs'
    split at hs'
    · cases hs'
    · rename_i bs hbs
      unfold ofUtf8 at hs'
      split at hs'
      · rename_i s hs
        cases hs'
        rw [hbs, Utf8.bytes_of_ofBytes hs]
      · cases hs'

theorem map_readBack {s : String} :
    (bytes s).map (readBack o) = bytes s ↔ (o.delimiter ∈ letters → o.delimiter ∉ bytes s) := by
  have hmap : (bytes s).map (readBack o) = bytes s ↔ ∀ b ∈ bytes s, readBack o b = b := by
    constructor
    · intro h b hb
      obtain ⟨k, hk⟩ := List.getElem?_of_mem hb
      have := congrArg (·[k]?) h
      simp only [List.getElem?_map, hk, Option.map_some] at this
      exact Option.some.inj this
    · intro h
      exact (List.map_congr_left h).trans (List.map_id _)
  have hletter : ∀ b ∈ letters, unescapeByte b ≠ b := by
    intro b hb
    simp only [letters, List.mem_cons, List.not_mem_nil, or_false] at hb
    rcases hb with rfl | rfl | rfl | rfl | rfl | rfl <;> decide
  rw [hmap]
  constructor
  · intro h hd hmem
    have := h o.delimiter hmem
    unfold readBack at this
    rw [if_pos ⟨rfl, hd⟩] at this
    exact hletter o.delimiter hd this
  · intro h b hb
    unfold readBack
    split
    · rename_i heq
      obtain ⟨rfl, hl⟩ := heq
      exact absurd hb (h hl)
    · rfl

/-- Escaped text is read back, unless it looks like the null string. -/
theorem readTextField_escapeText {li : Nat} {s : String} :
    readTextField o li (escapeText o s) = .ok (.text s) ↔
      escapeText o s ≠ bytes o.null ∧ (o.delimiter ∈ letters → o.delimiter ∉ bytes s) := by
  have hun : unescapeBytes (escapeText o s) = some ((bytes s).map (readBack o)) :=
    unescapeBytes_escaped (bytes s)
  constructor
  · intro h
    obtain ⟨hne, hread⟩ := readTextField_text h
    rw [hun] at hread
    exact ⟨hne, map_readBack.1 (Option.some.inj hread)⟩
  · rintro ⟨hne, hd⟩
    unfold readTextField unescapeText
    rw [if_neg hne, hun]
    dsimp only
    rw [map_readBack.2 hd]
    unfold ofUtf8
    rw [Utf8.ofBytes_bytes]
    rfl

/-! ## Reading a line -/

/-- The fields of a line are read as the row. -/
structure Parsed (o : CopyOptions) (ncols : Nat) (line : List UInt8) (row : List CopyField) : Prop where
  count : (splitTextLine o.delimiter line []).length = ncols
  fields : ∃ li, List.Forall₂ (fun f x => readTextField o li f = .ok x)
    (splitTextLine o.delimiter line []) row

theorem Parsed.length {ncols : Nat} {line : List UInt8} {row : List CopyField}
    (h : Parsed o ncols line row) : row.length = ncols := by
  obtain ⟨li, hfields⟩ := h.fields
  rw [← hfields.length_eq, h.count]

theorem mem_of_mem_splitTextLine {d : UInt8} {line f : List UInt8} (h : f ∈ splitTextLine d line []) {b : UInt8}
    (hb : b ∈ f) : b ∈ line := by
  have hline := @intercalate_splitTextLine d line []
  rw [List.nil_append] at hline
  rw [← hline]
  generalize splitTextLine d line [] = fields at h
  induction fields with
  | nil => cases h
  | cons g fields ih =>
      cases fields with
      | nil =>
          rw [List.intercalate_singleton]
          rw [List.mem_singleton.1 h] at hb
          exact hb
      | cons g' fields =>
          rw [List.intercalate_cons_cons, List.mem_append, List.mem_append]
          rcases List.mem_cons.1 h with rfl | h
          · exact .inl (.inl hb)
          · exact .inr (ih h)

/-- A line without a newline in it: no null string with one is read, and no newline separates fields. -/
theorem Parsed.newlines {ncols : Nat} {line : List UInt8} {row : List CopyField}
    (h : Parsed o ncols line row) (hline : newline ∉ line) :
    (.null ∈ row → newline ∉ bytes o.null) ∧ (2 ≤ ncols → o.delimiter ≠ newline) := by
  obtain ⟨li, hfields⟩ := h.fields
  constructor
  · intro hnull hmem
    obtain ⟨k, hk⟩ := List.getElem?_of_mem hnull
    obtain ⟨f, hf, hread⟩ := Loops.getElem?_of_forall₂ hfields hk
    rw [readTextField_null hread] at hf
    exact hline (mem_of_mem_splitTextLine (List.mem_of_getElem? hf) hmem)
  · intro htwo hd
    have hcount := h.count
    rw [hd, splitTextLine_of_not_mem hline] at hcount
    rw [List.length_singleton] at hcount
    omega

/-! ## Rows that are read back -/

/-- What it takes for a row of text to be read back. -/
structure TextFits (o : CopyOptions) (row : List CopyField) : Prop where
  newlines : newline ∉ body o row
  returns : (body o row).getLast? ≠ some carriageReturn
  nulls : ∀ k, row[k]? = some .null → walks o.delimiter (k + 1 < row.length) (bytes o.null) = true
  separable : Separable o.delimiter (row.map (piece o))
  texts : ∀ s, .text s ∈ row →
    escapeText o s ≠ bytes o.null ∧ (o.delimiter ∈ letters → o.delimiter ∉ bytes s)

theorem piece_text (h : o.format = .text) (s : String) : piece o (.text s) = escapeText o s := by
  unfold piece fieldBytes
  rw [h]
  rfl

theorem between_pieces (hfmt : o.format = .text) {row : List CopyField}
    (h : ∀ k, row[k]? = some .null → walks o.delimiter (k + 1 < row.length) (bytes o.null) = true) :
    Between o.delimiter (row.map (piece o)) := by
  intro k seg hk
  rw [List.getElem?_map] at hk
  obtain ⟨x, hx, rfl⟩ := Option.map_eq_some_iff.1 hk
  rw [List.length_map]
  cases x with
  | null => exact h k hx
  | text s =>
      rw [piece_text hfmt]
      exact walks_escapeText s _

theorem mem_intercalate {d b : UInt8} {fields : List (List UInt8)} (h : b ∈ List.intercalate [d] fields) :
    (∃ f ∈ fields, b ∈ f) ∨ (b = d ∧ 2 ≤ fields.length) := by
  induction fields with
  | nil => cases h
  | cons f fields ih =>
      cases fields with
      | nil =>
          rw [List.intercalate_singleton] at h
          exact .inl ⟨f, List.mem_cons_self, h⟩
      | cons g fields =>
          rw [List.intercalate_cons_cons, List.mem_append, List.mem_append, List.mem_singleton] at h
          have htwo : 2 ≤ (f :: g :: fields).length := by
            rw [List.length_cons, List.length_cons]
            omega
          rcases h with (h | h) | h
          · exact .inl ⟨f, List.mem_cons_self, h⟩
          · exact .inr ⟨h, htwo⟩
          · rcases ih h with ⟨f', hf', hb⟩ | ⟨hb, -⟩
            · exact .inl ⟨f', List.mem_cons_of_mem f hf', hb⟩
            · exact .inr ⟨hb, htwo⟩

theorem newline_not_mem_body (hfmt : o.format = .text) {row : List CopyField}
    (hnull : .null ∈ row → newline ∉ bytes o.null) (hd : 2 ≤ row.length → o.delimiter ≠ newline) :
    newline ∉ body o row := by
  intro hmem
  rcases mem_intercalate hmem with ⟨f, hf, hb⟩ | ⟨heq, htwo⟩
  · obtain ⟨x, hx, rfl⟩ := List.mem_map.1 hf
    cases x with
    | null => exact hnull hx hb
    | text s =>
        rw [piece_text hfmt] at hb
        exact (not_mem_escapeText s).1 hb
  · rw [List.length_map] at htwo
    exact hd htwo heq.symm

theorem dropReturn_of_getLast {line : List UInt8} (h : line.getLast? ≠ some carriageReturn) :
    dropReturn line = line := if_neg h

/-- Enough: the fields are found where they were put, and each is read as it was. -/
theorem TextFits.parsed (hfmt : o.format = .text) {row : List CopyField} (hne : row ≠ [])
    (h : TextFits o row) :
    splitTextLine o.delimiter (dropReturn (body o row)) [] = row.map (piece o) ∧
      ∀ li, (row.map (piece o)).mapM (readTextField o li) = .ok row := by
  constructor
  · rw [dropReturn_of_getLast h.returns]
    exact splitTextLine_intercalate (by simpa using hne) (between_pieces hfmt h.nulls) h.separable
  · intro li
    apply Loops.mapM_of_forall₂
    rw [List.forall₂_map_left_iff, List.forall₂_same]
    intro x hx
    cases x with
    | null => exact if_pos rfl
    | text s =>
        rw [piece_text hfmt]
        exact readTextField_escapeText.2 (h.texts s hx)

theorem intercalate_snoc {d : UInt8} {fields : List (List UInt8)} (hne : fields ≠ []) (p : List UInt8) :
    List.intercalate [d] (fields ++ [p]) = List.intercalate [d] fields ++ d :: p := by
  induction fields with
  | nil => exact absurd rfl hne
  | cons f fields ih =>
      cases fields with
      | nil => simp [List.intercalate_cons_cons]
      | cons g fields =>
          have hrest := ih (List.cons_ne_nil _ _)
          rw [List.cons_append] at hrest
          rw [List.cons_append, List.cons_append, List.intercalate_cons_cons, hrest,
            List.intercalate_cons_cons, List.append_assoc, List.append_assoc, List.append_assoc]

/-- Up to the last delimiter, a line splits into the fields before it. -/
theorem splitTextLine_init {d : UInt8} (hd : d ≠ backslash) {fields : List (List UInt8)} (hne : fields ≠ [])
    (h : ∀ f ∈ fields, walks d true f = true) (rest : List UInt8) :
    splitTextLine d (List.intercalate [d] fields ++ d :: rest) [] = fields ++ splitTextLine d rest [] := by
  induction fields with
  | nil => exact absurd rfl hne
  | cons f fields ih =>
      have hf := h f List.mem_cons_self
      cases fields with
      | nil =>
          rw [List.intercalate_singleton, splitTextLine_walks hf (.inl hd)]
          rfl
      | cons g fields =>
          have hrest := ih (List.cons_ne_nil _ _) fun f' hf' => h f' (List.mem_cons_of_mem f hf')
          rw [List.intercalate_cons_cons, List.append_assoc, List.append_assoc, List.singleton_append,
            splitTextLine_walks hf (.inl hd), hrest]
          rfl

/-- The nulls that are read can be walked. -/
theorem Parsed.nulls {line : List UInt8} {row : List CopyField} (h : Parsed o row.length line row) :
    ∀ k, row[k]? = some .null → walks o.delimiter (k + 1 < row.length) (bytes o.null) = true := by
  obtain ⟨li, hfields⟩ := h.fields
  intro k hk
  obtain ⟨f, hf, hread⟩ := Loops.getElem?_of_forall₂ hfields hk
  have hwalk := between_splitTextLine .nil k f hf
  rw [readTextField_null hread, h.count] at hwalk
  exact hwalk

/-- An empty field is read as something that is written as nothing. -/
theorem piece_of_read_nil (hfmt : o.format = .text) {li : Nat} {x : CopyField}
    (h : readTextField o li [] = .ok x) : piece o x = [] := by
  cases x with
  | null => exact (readTextField_null h).symm
  | text s =>
      have hs : bytes s = [] := (Option.some.inj (readTextField_text h).2).symm
      rw [piece_text hfmt]
      unfold escapeText
      rw [hs]
      rfl

theorem Parsed.separable (hfmt : o.format = .text) {line : List UInt8} {row : List CopyField}
    (h : Parsed o row.length line row) : Separable o.delimiter (row.map (piece o)) := by
  intro htwo hd
  obtain ⟨li, hfields⟩ := h.fields
  have hcount := h.count
  rw [List.length_map] at htwo ⊢
  rw [hd] at hfields hcount
  rcases splitTextLine_backslash line [] with ⟨f, hf⟩ | ⟨f, hf⟩
  · rw [hf, List.length_singleton] at hcount
    omega
  · rw [hf] at hfields hcount
    refine ⟨hcount.symm, ?_⟩
    cases hfields with
    | cons hx hrest =>
        cases hrest with
        | cons hy hnil =>
            cases hnil
            rw [List.map_cons, List.map_cons, List.map_nil, piece_of_read_nil hfmt hy]
            rfl

theorem intercalate_snoc' {d : UInt8} (init : List (List UInt8)) (p : List UInt8) :
    ∃ before, List.intercalate [d] (init ++ [p]) = before ++ p := by
  cases init with
  | nil => exact ⟨[], List.intercalate_singleton⟩
  | cons f init =>
      refine ⟨List.intercalate [d] (f :: init) ++ [d], ?_⟩
      rw [intercalate_snoc (List.cons_ne_nil _ _), List.append_assoc]
      rfl

/-- A line that has lost the end of its last field splits into the fields and what is left of that one. -/
theorem splitTextLine_dropLast {d : UInt8} {init : List (List UInt8)} {p : List UInt8} (hp : p ≠ [])
    (h : ∀ f ∈ init, walks d true f = true) (hd : init ≠ [] → d ≠ backslash)
    (hcount : (splitTextLine d (List.intercalate [d] (init ++ [p])).dropLast []).length = init.length + 1) :
    (splitTextLine d (List.intercalate [d] (init ++ [p])).dropLast [])[init.length]? = some p.dropLast := by
  have hone (hlen : (splitTextLine d p.dropLast []).length = 1) :
      splitTextLine d p.dropLast [] = [p.dropLast] := by
    obtain ⟨g, hg⟩ := List.length_eq_one_iff.1 hlen
    have hline := @intercalate_splitTextLine d p.dropLast []
    rw [hg, List.intercalate_singleton, List.nil_append] at hline
    rw [hg, hline]
  cases init with
  | nil =>
      rw [List.nil_append, List.intercalate_singleton] at hcount ⊢
      rw [hone hcount]
      rfl
  | cons f init =>
      have hne : f :: init ≠ [] := List.cons_ne_nil _ _
      have hline : (List.intercalate [d] ((f :: init) ++ [p])).dropLast
          = List.intercalate [d] (f :: init) ++ d :: p.dropLast := by
        rw [intercalate_snoc hne, List.dropLast_append_of_ne_nil (List.cons_ne_nil _ _),
          List.dropLast_cons_of_ne_nil hp]
      rw [hline, splitTextLine_init (hd hne) hne h, List.length_append] at hcount
      rw [hline, splitTextLine_init (hd hne) hne h, hone (by omega),
        List.getElem?_append_right (Nat.le_refl _), Nat.sub_self]
      rfl

/-- A line that ended in a carriage return would lose it, and with it the end of its last field. -/
theorem Parsed.returns (hfmt : o.format = .text) {row : List CopyField}
    (h : Parsed o row.length (dropReturn (body o row)) row) :
    (body o row).getLast? ≠ some carriageReturn := by
  intro hlast
  have hsep := h.separable hfmt
  have hbetween := between_pieces hfmt h.nulls
  obtain ⟨li, hfields⟩ := h.fields
  have hcount := h.count
  have hdrop : dropReturn (body o row) = (body o row).dropLast := if_pos hlast
  rw [hdrop] at hfields hcount
  rcases List.eq_nil_or_concat row with rfl | ⟨init, x, rfl⟩
  · cases hlast
  have hpieces : (init.concat x).map (piece o) = init.map (piece o) ++ [piece o x] := by
    rw [List.concat_eq_append, List.map_append]
    rfl
  have hlen : (init.map (piece o)).length = init.length := List.length_map _
  unfold body at hlast hfields hcount
  rw [hpieces] at hsep hbetween hlast hfields hcount
  rw [List.length_concat, ← hlen] at hcount
  have hwalks : ∀ f ∈ init.map (piece o), walks o.delimiter true f = true := by
    intro f hf
    obtain ⟨k, hk⟩ := List.getElem?_of_mem hf
    have hlt := (List.getElem?_eq_some_iff.1 hk).1
    have := hbetween k f (by rw [List.getElem?_append_left hlt]; exact hk)
    rwa [List.length_append, List.length_singleton, decide_eq_true (by omega)] at this
  by_cases hx : piece o x = []
  · -- The last delimiter would be lost.
    rw [hx] at hlast hcount
    generalize init.map (piece o) = fields at hlast hcount hwalks
    by_cases hne : fields = []
    · subst hne
      cases hlast
    · rw [intercalate_snoc hne, List.getLast?_concat] at hlast
      have hd : o.delimiter ≠ backslash := by
        rw [Option.some.inj hlast]
        decide
      rw [intercalate_snoc hne, List.dropLast_concat, splitTextLine_intercalate hne] at hcount
      · omega
      · intro k f hf
        have hfw := hwalks f (List.mem_of_getElem? hf)
        cases decide (k + 1 < fields.length) with
        | true => exact hfw
        | false => exact walks_mono hfw
      · exact fun _ hb => absurd hb hd
  · -- The last field would lose its end; it can only be the null string.
    have hd : init.map (piece o) ≠ [] → o.delimiter ≠ backslash := by
      intro hne hback
      have htwo : 2 ≤ (init.map (piece o) ++ [piece o x]).length := by
        have := List.length_pos_iff.2 hne
        rw [List.length_append, List.length_singleton]
        omega
      have := (hsep htwo hback).2
      rw [List.getLast?_concat] at this
      exact hx (Option.some.inj this)
    have hshort := splitTextLine_dropLast hx hwalks hd hcount
    obtain ⟨before, hbefore⟩ := @intercalate_snoc' o.delimiter (init.map (piece o)) (piece o x)
    rw [hbefore, List.getLast?_append_of_ne_nil before hx] at hlast
    cases x with
    | text s =>
        rw [piece_text hfmt] at hlast
        exact (not_mem_escapeText s).2 (List.mem_of_getLast? hlast)
    | null =>
        have hrow : (init.concat CopyField.null)[init.length]? = some .null := by
          rw [List.concat_eq_append, List.getElem?_append_right (Nat.le_refl _), Nat.sub_self]
          rfl
        obtain ⟨f, hf, hread⟩ := Loops.getElem?_of_forall₂ hfields hrow
        rw [← hlen, hshort] at hf
        have heq : (piece o .null).dropLast = piece o .null :=
          (Option.some.inj hf).trans (readTextField_null hread)
        have hless := congrArg List.length heq
        have hpos := List.length_pos_iff.2 hx
        rw [List.length_dropLast] at hless
        omega

/-- Needed: a row that is read back from its line has all it takes. -/
theorem Parsed.fits (hfmt : o.format = .text) {row : List CopyField} (hne : row ≠ [])
    (h : Parsed o row.length (dropReturn (body o row)) row) (hline : newline ∉ body o row) :
    TextFits o row := by
  have hret := h.returns hfmt
  have hsep := h.separable hfmt
  refine ⟨hline, hret, h.nulls, hsep, fun s hs => ?_⟩
  obtain ⟨li, hfields⟩ := h.fields
  rw [dropReturn_of_getLast hret, body,
    splitTextLine_intercalate (by simpa using hne) (between_pieces hfmt h.nulls) hsep,
    List.forall₂_map_left_iff, List.forall₂_same] at hfields
  have := hfields _ hs
  rw [piece_text hfmt] at this
  exact readTextField_escapeText.1 this

/-! ## All rows -/

/-- What it takes for rows of text to be read back: an empty last line would be taken for the end. -/
structure TextRowsFit (o : CopyOptions) (rows : List (List CopyField)) : Prop where
  each : ∀ row ∈ rows, TextFits o row
  last : ∀ row, rows.getLast? = some row → body o row ≠ []

/-- What was read: a row for each line, but for an empty one at the end. -/
theorem textRows_ok {ncols : Nat} {ended : Bool} {lines : List (List UInt8)} {li : Nat}
    {out : List (List CopyField)} (hli : ¬(o.header = true ∧ li = 0))
    (h : textRows o ncols ended li lines = .ok out) :
    ∃ kept, List.Forall₂ (Parsed o ncols) kept out ∧
      ((lines = kept ∧ (ended = true → lines.getLast? ≠ some [])) ∨ lines = kept ++ [[]]) := by
  induction lines generalizing li out with
  | nil =>
      cases h
      exact ⟨[], .nil, .inl ⟨rfl, fun _ hnil => (nomatch hnil)⟩⟩
  | cons line lines ih =>
      rw [textRows, if_neg hli] at h
      by_cases hend : line = [] ∧ lines = [] ∧ ended = true
      · rw [if_pos hend] at h
        obtain ⟨rfl, rfl, -⟩ := hend
        cases h
        exact ⟨[], .nil, .inr rfl⟩
      · rw [if_neg hend] at h
        dsimp only at h
        by_cases hcount : (splitTextLine o.delimiter line []).length ≠ ncols
        · rw [if_pos hcount] at h
          cases h
        · rw [if_neg hcount] at h
          split at h
          · cases h
          · rename_i row hrow
            obtain ⟨out', hout, rfl⟩ := Loops.map_eq_ok h
            obtain ⟨kept, hkept, hlines⟩ := ih (fun hand => Nat.succ_ne_zero li hand.2) hout
            refine ⟨line :: kept, .cons ⟨not_not.1 hcount, _, Loops.forall₂_of_mapM hrow⟩ hkept, ?_⟩
            rcases hlines with ⟨rfl, hlast⟩ | rfl
            · refine .inl ⟨rfl, fun hended hnil => ?_⟩
              cases lines with
              | nil => exact hend ⟨Option.some.inj hnil, rfl, hended⟩
              | cons l lines => exact hlast hended hnil
            · exact .inr rfl

theorem textRows_lines {ncols : Nat} {ended : Bool} {rows : List (List CopyField)} {li : Nat}
    (hli : ¬(o.header = true ∧ li = 0)) (hfmt : o.format = .text) (hlen : ∀ row ∈ rows, row.length = ncols)
    (hne : ∀ row ∈ rows, row ≠ []) (h : TextRowsFit o rows) :
    textRows o ncols ended li (rows.map fun row => dropReturn (body o row)) = .ok rows := by
  induction rows generalizing li with
  | nil => rfl
  | cons row rows ih =>
      have hfits := h.each row List.mem_cons_self
      obtain ⟨hsplit, hread⟩ := hfits.parsed hfmt (hne row List.mem_cons_self)
      have hend : ¬(dropReturn (body o row) = [] ∧ rows.map (fun row => dropReturn (body o row)) = [] ∧
          ended = true) := by
        rintro ⟨hnil, hrest, -⟩
        rw [dropReturn_of_getLast hfits.returns] at hnil
        rw [List.map_eq_nil_iff] at hrest
        subst hrest
        exact h.last row rfl hnil
      have hcount : ¬((row.map (piece o)).length ≠ ncols) := by
        rw [List.length_map, hlen row List.mem_cons_self]
        exact fun hself => hself rfl
      rw [List.map_cons, textRows, if_neg hli, if_neg hend]
      dsimp only
      rw [hsplit, if_neg hcount, hread,
        ih (fun hand => Nat.succ_ne_zero li hand.2) (fun r hr => hlen r (List.mem_cons_of_mem row hr))
          (fun r hr => hne r (List.mem_cons_of_mem row hr))
          ⟨fun r hr => h.each r (List.mem_cons_of_mem row hr), fun r hr => h.last r ?_⟩]
      · rfl
      · cases rows with
        | nil => cases hr
        | cons r' rows => exact hr

/-- Whether names are skipped or not, the rows are read from their own lines. -/
theorem parseTextRows_eq (names : List String) (rows : List (List CopyField))
    (hnames : o.header = true → newline ∉ body o (names.map .text)) :
    ∃ li ended, ¬(o.header = true ∧ li = 0) ∧ (rows ≠ [] → ended = true) ∧
      parseTextRows o (copyOut o names rows) names.length
        = textRows o names.length ended li (splitLines (rows.flatMap fun row => body o row ++ [newline]) []) := by
  have hlast : rows ≠ [] → (copyOut o names rows).getLast? = some newline := by
    intro hne
    obtain ⟨init, row, rfl⟩ := (List.eq_nil_or_concat rows).resolve_left hne
    rw [copyOut_eq]
    unfold written
    rw [List.concat_eq_append, List.flatMap_append, List.flatMap_append, List.flatMap_singleton,
      ← List.append_assoc, ← List.append_assoc, List.getLast?_concat]
  by_cases hheader : o.header = true
  · refine ⟨1, (copyOut o names rows).getLast? = some newline, fun h => (nomatch h.2),
      fun hne => decide_eq_true (hlast hne), ?_⟩
    have hout : copyOut o names rows = body o (names.map .text) ++
        newline :: rows.flatMap fun row => body o row ++ [newline] := by
      rw [copyOut_eq]
      unfold written
      rw [if_pos hheader, List.flatMap_append, List.flatMap_singleton, List.append_assoc,
        List.singleton_append]
    unfold parseTextRows
    rw [hout, splitLines_line (hnames hheader), textRows, if_pos ⟨hheader, rfl⟩]
  · refine ⟨0, (copyOut o names rows).getLast? = some newline, fun h => hheader h.1,
      fun hne => decide_eq_true (hlast hne), ?_⟩
    have hout : copyOut o names rows = rows.flatMap fun row => body o row ++ [newline] := by
      rw [copyOut_eq]
      unfold written
      rw [if_neg hheader, List.nil_append]
    unfold parseTextRows
    rw [hout]

/-- Rows of text are read back exactly if each fits, and the last line is not empty. -/
theorem text_iff (hfmt : o.format = .text) (names : List String) (rows : List (List CopyField))
    (hlen : ∀ row ∈ rows, row.length = names.length)
    (hnames : o.header = true → newline ∉ body o (names.map .text)) :
    RoundTrips o names rows ↔ TextRowsFit o rows := by
  obtain ⟨li, ended, hli, hended, hparse⟩ := parseTextRows_eq names rows hnames
  have hround : RoundTrips o names rows ↔ textRows o names.length ended li
      (splitLines (rows.flatMap fun row => body o row ++ [newline]) []) = .ok rows := by
    unfold RoundTrips parseRows
    rw [hfmt]
    dsimp only
    rw [hparse]
  have hlines (h : ∀ row ∈ rows, newline ∉ body o row) :
      splitLines (rows.flatMap fun row => body o row ++ [newline]) []
        = rows.map fun row => dropReturn (body o row) := by
    have := @splitLines_lines (rows.map (body o)) (by simpa using h)
    rw [List.flatMap_map, List.map_map] at this
    exact this
  rw [hround]
  constructor
  · intro h
    obtain ⟨kept, hkept, hall⟩ := textRows_ok hli h
    -- Each row was read from some line, so none is broken by a newline.
    have hsome : ∀ row ∈ rows, ∃ line, newline ∉ line ∧ Parsed o names.length line row := by
      intro row hrow
      obtain ⟨k, hk⟩ := List.getElem?_of_mem hrow
      obtain ⟨line, hline, hparsed⟩ := Loops.getElem?_of_forall₂ hkept hk
      refine ⟨line, ?_, hparsed⟩
      apply newline_not_mem_splitLines List.not_mem_nil
      rcases hall with ⟨heq, -⟩ | heq <;> rw [heq]
      · exact List.mem_of_getElem? hline
      · exact List.mem_append_left _ (List.mem_of_getElem? hline)
    have hbody : ∀ row ∈ rows, newline ∉ body o row := by
      intro row hrow
      obtain ⟨line, hline, hparsed⟩ := hsome row hrow
      obtain ⟨hnull, hd⟩ := hparsed.newlines hline
      rw [← hparsed.length] at hd
      exact newline_not_mem_body hfmt hnull hd
    rw [hlines hbody] at hall
    rcases hall with ⟨rfl, hlast⟩ | heq
    · rw [List.forall₂_map_left_iff, List.forall₂_same] at hkept
      refine ⟨fun row hrow => ?_, fun row hrow hnil => ?_⟩
      · have hparsed := hkept row hrow
        have hne : row ≠ [] := by
          rintro rfl
          have hcount := hparsed.count
          rw [← hparsed.length] at hcount
          exact splitTextLine_ne_nil _ _ (List.eq_nil_of_length_eq_zero hcount)
        rw [← hparsed.length] at hparsed
        exact hparsed.fits hfmt hne (hbody row hrow)
      · have hne : rows ≠ [] := by
          rintro rfl
          cases hrow
        apply hlast (hended hne)
        rw [List.getLast?_map, hrow, Option.map_some, hnil]
        rfl
    · have hlength := congrArg List.length heq
      rw [List.length_map, List.length_append, List.length_singleton, hkept.length_eq] at hlength
      omega
  · intro h
    rw [hlines fun row hrow => (h.each row hrow).newlines]
    apply textRows_lines hli hfmt hlen _ h
    -- The last row has a column, so all have.
    intro row hrow hnil
    obtain ⟨init, last, rfl⟩ := (List.eq_nil_or_concat rows).resolve_left (List.ne_nil_of_mem hrow)
    rw [List.concat_eq_append] at hlen h
    have hlast := h.last last List.getLast?_concat
    have hzero := hlen row (by rwa [List.concat_eq_append] at hrow)
    rw [hnil, ← hlen last (List.mem_append_right _ (List.mem_singleton_self last))] at hzero
    rw [List.eq_nil_of_length_eq_zero hzero.symm] at hlast
    exact hlast rfl

end Copy
