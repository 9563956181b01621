-- SUMMARY: The CSV reader: what one byte can do, and how it reads a field that is written.
import Rustgres.Copy.TextRows

/-!
# Reading CSV

Between two emissions the reader only adds to the field it is in. From a state in which it is about to read a
field, it reads a field as it was written and is about to read the next one, if the field fits the options.
-/

namespace Copy

open Utf8 (bytes)

variable {o : CopyOptions} {ncols : Nat}

/-- Read on from a state to the end of the data. -/
def csvAll (o : CopyOptions) (ncols : Nat) (data : List UInt8) (used : Bool) (r : CsvReader) :
    Except CopyParseError (List (List CopyField)) :=
  match csvLoop o ncols data used r with
  | .error e => .error e
  | .ok r => csvFinish o ncols r

theorem csvAll_nil (used : Bool) (r : CsvReader) : csvAll o ncols [] used r = csvFinish o ncols r := rfl

theorem csvAll_used (b : UInt8) (rest : List UInt8) (r : CsvReader) :
    csvAll o ncols (b :: rest) true r = csvAll o ncols rest false r := rfl

theorem csvAll_cons (b : UInt8) (rest : List UInt8) (r : CsvReader) :
    csvAll o ncols (b :: rest) false r = match csvStep o ncols b rest.head? r with
      | .error e => .error e
      | .ok (r, used) => csvAll o ncols rest used r := by
  unfold csvAll
  rw [csvLoop, if_neg Bool.false_ne_true]
  cases csvStep o ncols b rest.head? r <;> rfl

namespace CsvReader

/-- The bytes of the field so far. -/
def content (r : CsvReader) : List UInt8 := r.field ++ r.run

/-- About to read a field. -/
def ready (rows : List (List CopyField)) (row : List CopyField) (lineno : Nat) (skipped : Bool) :
    CsvReader :=
  ⟨rows, row, [], [], false, false, true, lineno, skipped⟩

/-- In a field, past what opens it: what counts is the bytes so far, not where they stand. -/
structure Inside (r : CsvReader) (rows : List (List CopyField)) (row : List CopyField) (lineno : Nat)
    (skipped : Bool) (inQuotes fieldQuoted : Bool) (content : List UInt8) : Prop where
  rows : r.rows = rows
  row : r.row = row
  lineno : r.lineno = lineno
  skipped : r.skipped = skipped
  inQuotes : r.inQuotes = inQuotes
  fieldQuoted : r.fieldQuoted = fieldQuoted
  start : r.atStart = true → r.run = []
  content : r.content = content

end CsvReader

open CsvReader

variable {rows : List (List CopyField)} {row : List CopyField} {lineno : Nat} {skipped : Bool}

/-! ## Plain bytes and quotes -/

/-- Bytes that mean nothing outside quotes. -/
def Plain (o : CopyOptions) (p : List UInt8) : Prop :=
  ∀ b ∈ p, b ≠ o.delimiter ∧ b ≠ o.quote ∧ b ≠ newline ∧ b ≠ carriageReturn

theorem csvStep_plain {b : UInt8} {next : Option UInt8} {r : CsvReader} (hq : r.inQuotes = false)
    (hb : b ≠ o.delimiter ∧ b ≠ o.quote ∧ b ≠ newline ∧ b ≠ carriageReturn) :
    csvStep o ncols b next r = .ok (r.plain b, false) := by
  unfold csvStep
  rw [hq, if_neg Bool.false_ne_true, if_neg fun h => hb.2.1 h.1, if_neg hb.1, if_neg hb.2.2.1,
    if_neg fun h => hb.2.2.2 h.1]

theorem content_plain (b : UInt8) (r : CsvReader) : (r.plain b).content = r.content ++ [b] := by
  unfold content CsvReader.plain
  rw [List.append_assoc]

/-- Plain bytes are added to the field. -/
theorem csvAll_plain {p : List UInt8} (hp : Plain o p) {r : CsvReader} {quoted : Bool} {c : List UInt8}
    (h : r.Inside rows row lineno skipped false quoted c) (rest : List UInt8) :
    ∃ r', csvAll o ncols (p ++ rest) false r = csvAll o ncols rest false r' ∧
      r'.Inside rows row lineno skipped false quoted (c ++ p) ∧
      (r.atStart = false ∨ p ≠ [] → r'.atStart = false) := by
  induction p generalizing r c with
  | nil =>
      refine ⟨r, rfl, by rwa [List.append_nil], fun hor => ?_⟩
      rcases hor with hstart | hne
      · exact hstart
      · exact absurd rfl hne
  | cons b p ih =>
      have hb := hp b List.mem_cons_self
      have hstep : (r.plain b).Inside rows row lineno skipped false quoted (c ++ [b]) :=
        ⟨h.rows, h.row, h.lineno, h.skipped, h.inQuotes, h.fieldQuoted, nofun,
          by rw [content_plain, h.content]⟩
      obtain ⟨r', hrun, hinside, hstart⟩ := ih (fun b' hb' => hp b' (List.mem_cons_of_mem b hb')) hstep
      refine ⟨r', ?_, ?_, fun _ => hstart (.inl rfl)⟩
      · rw [List.cons_append, csvAll_cons, csvStep_plain h.inQuotes hb]
        exact hrun
      · rwa [List.append_assoc] at hinside

/-- A byte in quotes that neither escapes nor ends. -/
theorem csvStep_quotedPlain {b : UInt8} {next : Option UInt8} {r : CsvReader} (hq : r.inQuotes = true)
    (hb : b ≠ o.quote) (he : b = o.escape → next ≠ some o.quote) :
    csvStep o ncols b next r = .ok (r.plain b, false) := by
  unfold csvStep
  rw [if_pos hq, if_neg fun h => he h.1 h.2, if_neg hb]

theorem csvStep_escaped {r : CsvReader} (hq : r.inQuotes = true) :
    csvStep o ncols o.escape (some o.quote) r
      = .ok ({ r.flushRun with field := r.flushRun.field ++ [o.quote], atStart := false }, true) := by
  unfold csvStep
  rw [if_pos hq, if_pos ⟨rfl, rfl⟩]

theorem csvStep_close {next : Option UInt8} {r : CsvReader} (hq : r.inQuotes = true)
    (he : o.quote = o.escape → next ≠ some o.quote) :
    csvStep o ncols o.quote next r = .ok ({ r.flushRun with inQuotes := false, atStart := false }, false) := by
  unfold csvStep
  rw [if_pos hq, if_neg fun h => he h.1 h.2, if_pos rfl]

theorem flushRun_field (r : CsvReader) : r.flushRun.field = r.content := rfl

/-- An escape and a quote are a quote. -/
theorem csvAll_escaped {r : CsvReader} {quoted : Bool} {c : List UInt8}
    (h : r.Inside rows row lineno skipped true quoted c) (rest : List UInt8) :
    ∃ r', csvAll o ncols (o.escape :: o.quote :: rest) false r = csvAll o ncols rest false r' ∧
      r'.Inside rows row lineno skipped true quoted (c ++ [o.quote]) := by
  refine ⟨{ r.flushRun with field := r.flushRun.field ++ [o.quote], atStart := false }, ?_,
    h.rows, h.row, h.lineno, h.skipped, h.inQuotes, h.fieldQuoted, nofun, ?_⟩
  · rw [csvAll_cons, List.head?_cons, csvStep_escaped h.inQuotes]
    exact csvAll_used _ _ _
  · rw [← h.content, ← flushRun_field]
    exact List.append_nil _

/-- What is read in quotes, up to an escape that is not one. -/
theorem csvAll_quoteBytes {bs : List UInt8} {r : CsvReader} {quoted : Bool} {c : List UInt8}
    (h : r.Inside rows row lineno skipped true quoted c) (rest : List UInt8)
    (hlast : o.escape ≠ o.quote → bs.getLast? = some o.escape → rest.head? ≠ some o.quote) :
    ∃ r', csvAll o ncols (bs.flatMap (quoteByte o) ++ rest) false r = csvAll o ncols rest false r' ∧
      r'.Inside rows row lineno skipped true quoted (c ++ bs) := by
  induction bs generalizing r c with
  | nil => exact ⟨r, rfl, by rwa [List.append_nil]⟩
  | cons b bs ih =>
      have hlast' : o.escape ≠ o.quote → bs.getLast? = some o.escape → rest.head? ≠ some o.quote := by
        intro hne hl
        apply hlast hne
        cases bs with
        | nil => cases hl
        | cons b' bs => exact hl
      rw [List.flatMap_cons, List.append_assoc]
      by_cases hb : b = o.quote
      · subst hb
        have hbytes : quoteByte o o.quote = [o.escape, o.quote] := if_pos rfl
        obtain ⟨r₁, hrun₁, hin₁⟩ := @csvAll_escaped o ncols _ _ _ _ r quoted c h
          (bs.flatMap (quoteByte o) ++ rest)
        obtain ⟨r', hrun, hin⟩ := ih hin₁ hlast'
        refine ⟨r', ?_, ?_⟩
        · rw [hbytes, List.cons_append, List.singleton_append, hrun₁, hrun]
        · rwa [List.append_assoc] at hin
      · have hbytes : quoteByte o b = [b] := if_neg hb
        have hnext : b = o.escape → (bs.flatMap (quoteByte o) ++ rest).head? ≠ some o.quote := by
          rintro rfl
          cases bs with
          | nil => exact hlast hb rfl
          | cons b' bs =>
              intro hhead
              rw [List.flatMap_cons] at hhead
              unfold quoteByte at hhead
              split at hhead
              · exact hb (Option.some.inj hhead)
              · rename_i hb'
                exact hb' (Option.some.inj hhead)
        have hin₁ : (r.plain b).Inside rows row lineno skipped true quoted (c ++ [b]) :=
          ⟨h.rows, h.row, h.lineno, h.skipped, h.inQuotes, h.fieldQuoted, nofun,
          by rw [content_plain, h.content]⟩
        obtain ⟨r', hrun, hin⟩ := ih hin₁ hlast'
        refine ⟨r', ?_, ?_⟩
        · rw [hbytes, List.singleton_append, csvAll_cons, csvStep_quotedPlain h.inQuotes hb hnext]
          exact hrun
        · rwa [List.append_assoc] at hin

/-- A quote at the start opens a quoted field; what is left there of a null stays. -/
theorem csvAll_open {r : CsvReader} {c : List UInt8} (h : r.Inside rows row lineno skipped false false c)
    (hrun : r.run = []) (hstart : r.atStart = true) (rest : List UInt8) :
    ∃ r', csvAll o ncols (o.quote :: rest) false r = csvAll o ncols rest false r' ∧
      r'.Inside rows row lineno skipped true true c := by
  refine ⟨{ r with run := [], inQuotes := true, fieldQuoted := true, atStart := false }, ?_,
    ⟨h.rows, h.row, h.lineno, h.skipped, rfl, rfl, nofun, ?_⟩⟩
  · rw [csvAll_cons]
    unfold csvStep
    rw [h.inQuotes, if_neg Bool.false_ne_true, if_pos ⟨rfl, hstart⟩]
  · rw [← h.content]
    unfold content
    rw [hrun]

/-! ## The end of a field -/

/-- What is emitted when a field ends. -/
def Emits (o : CopyOptions) (fieldQuoted : Bool) (content : List UInt8) : CopyField → Prop
  | .null => fieldQuoted = false ∧ content = bytes o.null
  | .text s => ¬(fieldQuoted = false ∧ content = bytes o.null) ∧ content = bytes s

/-- The bytes that stay behind a field: those of a null. -/
def leaves (o : CopyOptions) : CopyField → List UInt8
  | .null => bytes o.null
  | .text _ => []

theorem endField_cases (r : CsvReader) :
    (∃ e, r.flushRun.endField o = .error e ∧ ∀ g, ¬Emits o r.fieldQuoted r.content g) ∨
      ∃ g, Emits o r.fieldQuoted r.content g ∧ r.flushRun.endField o
        = .ok { r with row := r.row ++ [g], field := leaves o g, run := [], fieldQuoted := false } := by
  unfold endField
  by_cases hnull : (!r.flushRun.fieldQuoted) = true ∧ r.flushRun.field = bytes o.null
  · rw [if_pos hnull]
    obtain ⟨hq, hc⟩ := hnull
    have hq : r.fieldQuoted = false := by
      cases hr : r.fieldQuoted with
      | false => rfl
      | true =>
          have hsame : r.flushRun.fieldQuoted = r.fieldQuoted := rfl
          rw [hsame, hr] at hq
          cases hq
    refine .inr ⟨.null, ⟨hq, hc⟩, ?_⟩
    have hleft : leaves o .null = r.flushRun.field := hc.symm
    rw [hleft]
    rfl
  · rw [if_neg hnull]
    have hnot : ¬(r.fieldQuoted = false ∧ r.content = bytes o.null) := by
      rintro ⟨hq, hc⟩
      apply hnull
      refine ⟨?_, hc⟩
      show (!r.fieldQuoted) = true
      rw [hq]
      rfl
    unfold ofUtf8
    rw [flushRun_field]
    cases hs : Utf8.ofBytes r.content with
    | some s => exact .inr ⟨.text s, ⟨hnot, (Utf8.bytes_of_ofBytes hs).symm⟩, rfl⟩
    | none =>
        refine .inl ⟨_, rfl, fun g hg => ?_⟩
        cases g with
        | null => exact hnot hg
        | text s =>
            rw [hg.2, Utf8.ofBytes_bytes] at hs
            cases hs

theorem Emits.unique {fieldQuoted : Bool} {content : List UInt8} {g g' : CopyField}
    (h : Emits o fieldQuoted content g) (h' : Emits o fieldQuoted content g') : g = g' := by
  cases g with
  | null =>
      cases g' with
      | null => rfl
      | text s => exact absurd h h'.1
  | text s =>
      cases g' with
      | null => exact absurd h' h.1
      | text s' => rw [Utf8.bytes_inj (h.2.symm.trans h'.2)]

theorem csvAll_delimiter {r : CsvReader} (hq : r.inQuotes = false)
    (hstart : r.atStart = false ∨ o.delimiter ≠ o.quote) (rest : List UInt8) :
    csvAll o ncols (o.delimiter :: rest) false r = match r.flushRun.endField o with
      | .error e => .error e
      | .ok r => csvAll o ncols rest false { r with atStart := true } := by
  have hopen : ¬(o.delimiter = o.quote ∧ r.atStart = true) := by
    rintro ⟨hdq, hs⟩
    rcases hstart with hstart | hne
    · rw [hs] at hstart
      cases hstart
    · exact hne hdq
  rw [csvAll_cons]
  unfold csvStep
  rw [hq, if_neg Bool.false_ne_true, if_neg hopen, if_pos rfl]
  cases r.flushRun.endField o <;> rfl

theorem csvAll_newline {r : CsvReader} (hq : r.inQuotes = false)
    (hstart : r.atStart = false ∨ newline ≠ o.quote) (hd : newline ≠ o.delimiter) (rest : List UInt8) :
    csvAll o ncols (newline :: rest) false r = match r.flushRun.endRow o ncols with
      | .error e => .error e
      | .ok r => csvAll o ncols rest false { r.skipHeader o with lineno := r.lineno + 1, atStart := true } := by
  have hopen : ¬(newline = o.quote ∧ r.atStart = true) := by
    rintro ⟨hdq, hs⟩
    rcases hstart with hstart | hne
    · rw [hs] at hstart
      cases hstart
    · exact hne hdq
  rw [csvAll_cons]
  unfold csvStep
  rw [hq, if_neg Bool.false_ne_true, if_neg hopen, if_neg hd, if_pos rfl]
  cases r.flushRun.endRow o ncols <;> rfl

/-! ## A field that fits -/

/-- What it takes for a field to be read back when the byte `next` follows it. -/
structure CsvFits (o : CopyOptions) (f : CopyField) (next : UInt8) : Prop where
  null : f = .null → bytes o.null = []
  -- An escape before the closing quote would escape it.
  escape : ∀ s, f = .text s → needsQuote o s = true → o.escape ≠ o.quote →
    (bytes s).getLast? ≠ some o.escape
  -- A delimiter or a newline that is the quote as well must not be taken for one.
  quote : next = o.quote → piece o f ≠ [] ∧
    (o.escape = o.quote → ∀ s, f = .text s → needsQuote o s = false)

theorem piece_csv (hfmt : o.format = .csv) (s : String) :
    piece o (.text s) = if needsQuote o s then quoted o s else bytes s := by
  unfold piece fieldBytes
  rw [hfmt]
  rfl

theorem needsQuote_false {s : String} (h : needsQuote o s = false) : Plain o (bytes s) ∧ s ≠ o.null := by
  unfold needsQuote at h
  rw [Bool.or_eq_false_iff, List.any_eq_false] at h
  obtain ⟨hany, hnull⟩ := h
  refine ⟨fun b hb => ?_, of_decide_eq_false hnull⟩
  have := hany b hb
  simp only [decide_eq_true_eq, not_or] at this
  exact this

theorem inside_ready (rows : List (List CopyField)) (row : List CopyField) (lineno : Nat)
    (skipped : Bool) : (ready rows row lineno skipped).Inside rows row lineno skipped false false [] :=
  ⟨rfl, rfl, rfl, rfl, rfl, rfl, fun _ => rfl, rfl⟩

/-- A quoted field is read up to its closing quote. -/
theorem csvAll_quoted {s : String} {r : CsvReader} {c : List UInt8}
    (h : r.Inside rows row lineno skipped false false c) (hrun : r.run = []) (hstart : r.atStart = true)
    (hesc : o.escape ≠ o.quote → (bytes s).getLast? ≠ some o.escape) {next : UInt8}
    (hnext : next = o.quote → o.escape ≠ o.quote) (rest : List UInt8) :
    ∃ r', csvAll o ncols (quoted o s ++ next :: rest) false r = csvAll o ncols (next :: rest) false r' ∧
      r'.Inside rows row lineno skipped false true (c ++ bytes s) ∧ r'.atStart = false := by
  obtain ⟨r₁, hrun₁, hin₁⟩ := @csvAll_open o ncols _ _ _ _ r c h hrun hstart
    ((bytes s).flatMap (quoteByte o) ++ o.quote :: next :: rest)
  obtain ⟨r₂, hrun₂, hin₂⟩ := @csvAll_quoteBytes o ncols _ _ _ _ (bytes s) r₁ true c hin₁
    (o.quote :: next :: rest) (fun hne hlast => absurd hlast (hesc hne))
  refine ⟨{ r₂.flushRun with inQuotes := false, atStart := false }, ?_,
    ⟨hin₂.rows, hin₂.row, hin₂.lineno, hin₂.skipped, rfl, hin₂.fieldQuoted, nofun, ?_⟩, rfl⟩
  · have hclose : o.quote = o.escape → (next :: rest).head? ≠ some o.quote := by
      intro he hhead
      exact hnext (Option.some.inj hhead) he.symm
    unfold quoted
    rw [List.cons_append, List.append_assoc, List.singleton_append, hrun₁, hrun₂, csvAll_cons,
      csvStep_close hin₂.inQuotes hclose]
  · rw [← hin₂.content, ← flushRun_field]
    exact List.append_nil _

/-- From a state that is about to read a field, a field that fits is read as itself. -/
theorem csvAll_piece (hfmt : o.format = .csv) {f : CopyField} {next : UInt8} (hfits : CsvFits o f next)
    (rest : List UInt8) :
    ∃ r' c quoted, csvAll o ncols (piece o f ++ next :: rest) false (ready rows row lineno skipped)
        = csvAll o ncols (next :: rest) false r' ∧
      r'.Inside rows row lineno skipped false quoted c ∧ Emits o quoted c f ∧
      (r'.atStart = false ∨ next ≠ o.quote) := by
  have hready := inside_ready rows row lineno skipped
  have hempty (hnil : piece o f = []) : next ≠ o.quote := fun hq => (hfits.quote hq).1 hnil
  cases f with
  | null =>
      have hnil : piece o .null = [] := hfits.null rfl
      refine ⟨_, [], false, ?_, hready, ⟨rfl, hnil.symm⟩, .inr (hempty hnil)⟩
      rw [hnil]
      rfl
  | text s =>
      rw [piece_csv hfmt] at hempty ⊢
      cases hneeds : needsQuote o s with
      | false =>
          obtain ⟨hplain, hne⟩ := needsQuote_false hneeds
          obtain ⟨r', hrun, hin, hstart⟩ := @csvAll_plain o ncols _ _ _ _ _ hplain _ _ _ hready (next :: rest)
          refine ⟨r', bytes s, false, hrun, hin, ⟨fun h => hne (Utf8.bytes_inj h.2), rfl⟩, ?_⟩
          by_cases hnil : bytes s = []
          · right
            apply hempty
            rw [hneeds]
            exact hnil
          · exact .inl (hstart (.inr hnil))
      | true =>
          obtain ⟨r', hrun, hin, hstart⟩ := @csvAll_quoted o ncols _ _ _ _ s _ _ hready rfl rfl
            (fun hne => hfits.escape s rfl hneeds hne) next
            (fun hq he => by
              have := (hfits.quote hq).2 he s rfl
              rw [hneeds] at this
              cases this) rest
          exact ⟨r', bytes s, true, hrun, hin, ⟨fun h => (nomatch h.1), rfl⟩, .inl hstart⟩

theorem CsvFits.leaves {f : CopyField} {next : UInt8} (h : CsvFits o f next) : leaves o f = [] := by
  cases f with
  | null => exact h.null rfl
  | text s => rfl

/-- A field before the delimiter. -/
theorem csvAll_delimited (hfmt : o.format = .csv) {f : CopyField} (hfits : CsvFits o f o.delimiter)
    (rest : List UInt8) :
    csvAll o ncols (piece o f ++ o.delimiter :: rest) false (ready rows row lineno skipped)
      = csvAll o ncols rest false (ready rows (row ++ [f]) lineno skipped) := by
  obtain ⟨r', c, quoted, hrun, hin, hemits, hstart⟩ := @csvAll_piece o ncols rows row lineno skipped hfmt f
    o.delimiter hfits rest
  rw [← hin.fieldQuoted, ← hin.content] at hemits
  rw [hrun, csvAll_delimiter hin.inQuotes hstart]
  rcases endField_cases r' with ⟨e, -, hno⟩ | ⟨g, hg, hend⟩
  · exact absurd hemits (hno f)
  · rw [hg.unique hemits, hfits.leaves] at hend
    rw [hend]
    dsimp only
    rw [hin.rows, hin.row, hin.lineno, hin.skipped, hin.inQuotes]
    rfl

/-- A field before the newline. -/
theorem csvAll_last (hfmt : o.format = .csv) {f : CopyField} (hfits : CsvFits o f newline)
    (hd : newline ≠ o.delimiter) (rest : List UInt8) :
    csvAll o ncols (piece o f ++ newline :: rest) false (ready rows row lineno skipped)
      = if (row ++ [f]).length ≠ ncols then
          .error (columnCountError lineno ncols (row ++ [f]).length)
        else csvAll o ncols rest false
          { (ready (rows ++ [row ++ [f]]) [] lineno skipped).skipHeader o with lineno := lineno + 1 } := by
  obtain ⟨r', c, quoted, hrun, hin, hemits, hstart⟩ := @csvAll_piece o ncols rows row lineno skipped hfmt f
    newline hfits rest
  rw [← hin.fieldQuoted, ← hin.content] at hemits
  rw [hrun, csvAll_newline hin.inQuotes hstart hd]
  rcases endField_cases r' with ⟨e, -, hno⟩ | ⟨g, hg, hend⟩
  · exact absurd hemits (hno f)
  · rw [hg.unique hemits, hfits.leaves] at hend
    unfold endRow
    rw [hend]
    dsimp only
    rw [hin.rows, hin.row, hin.lineno, hin.skipped, hin.inQuotes]
    by_cases hcount : (row ++ [f]).length ≠ ncols
    · rw [if_pos hcount, if_pos hcount]
    · rw [if_neg hcount, if_neg hcount]
      unfold skipHeader ready
      dsimp only
      split <;> rfl

end Copy
