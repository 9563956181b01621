-- SUMMARY: When rows that are written are read back, for either form and all options.
import Rustgres.Copy.CsvRows

/-!
# COPY Reads Back What It Writes

The options are not checked against each other nor against the rows. For most of them rows are read back; this
module says for which, exactly.
-/

namespace Copy

open Utf8 (bytes)
open CsvReader

variable {o : CopyOptions} {ncols : Nat}
variable {rows : List (List CopyField)} {row : List CopyField} {lineno : Nat} {skipped : Bool}

/-! ## Only fields that fit are read back -/

/-- The quote ends no field. -/
def Apart (o : CopyOptions) : Prop := o.delimiter ≠ o.quote ∧ newline ≠ o.quote

instance : Decidable (Apart o) := inferInstanceAs (Decidable (_ ∧ _))

theorem emitted_ready : emitted (ready rows row lineno skipped) = rows.flatten ++ row := rfl

theorem starts_ready : Starts (ready rows row lineno skipped) [] := ⟨rfl, rfl, rfl, rfl, rfl⟩

theorem misses_of_misfit (hfmt : o.format = .csv) {f : CopyField} {x : UInt8}
    {ts : List (CopyField × UInt8)} (hends : Ends o ((f, x) :: ts)) (hmisfit : ¬CsvFits o f x)
    (hskip : o.header = false ∨ skipped = true) :
    Misses o ncols (piece o f ++ x :: tokenData o ts) false (ready rows row lineno skipped) f
      (ts.map Prod.fst) := by
  obtain ⟨hx, hxq⟩ := hends f x List.mem_cons_self
  have hends' : Ends o ts := fun f' x' h => hends f' x' (List.mem_cons_of_mem _ h)
  have hsane : Sane o (ready rows row lineno skipped) := ⟨hskip, fun _ => rfl⟩
  cases f with
  | null =>
      have hne : bytes o.null ≠ [] := by
        intro hnil
        apply hmisfit
        exact ⟨fun _ => hnil, nofun, fun h => absurd h hxq⟩
      exact misses_null hfmt hne ts hends' hx rfl List.not_mem_nil nofun hsane rfl rfl rfl
        (fun h => absurd rfl h)
  | text s =>
      have hbad : needsQuote o s = true ∧ o.escape ≠ o.quote ∧ (bytes s).getLast? = some o.escape := by
        by_contra hno
        apply hmisfit
        refine ⟨nofun, ?_, fun h => absurd h hxq⟩
        rintro s' ⟨rfl⟩ hneeds hne hlast
        exact hno ⟨hneeds, hne, hlast⟩
      obtain ⟨hneeds, hne, hlast⟩ := hbad
      obtain ⟨bs, hbs⟩ := List.getLast?_eq_some_iff.1 hlast
      have hr := @starts_ready rows row lineno skipped
      obtain ⟨r₁, hrun₁, hin₁⟩ := @csvAll_open o ncols _ _ _ _ _ _ hr.inside hr.run hr.atStart
        ((bytes s).flatMap (quoteByte o) ++ o.quote :: x :: tokenData o ts)
      rw [hbs] at hrun₁
      obtain ⟨r', hrun, hin⟩ := @csvAll_misread o ncols _ _ _ _ bs r₁ true _ hin₁ hne (x :: tokenData o ts)
      have hall : csvAll o ncols (piece o (.text s) ++ x :: tokenData o ts) false
          (ready rows row lineno skipped) = csvAll o ncols (x :: tokenData o ts) false r' := by
        rw [piece_csv hfmt, if_pos hneeds]
        unfold quoted
        rw [hbs, List.cons_append, List.append_assoc, List.singleton_append, hrun₁, hrun]
      apply misses_of_doomed hsane hall hin
      -- Where the field has its escape, a quote has been read.
      intro hpre
      rw [hin.content, hbs, List.nil_append] at hpre
      have := hpre.eq_of_length (by rw [List.length_append, List.length_append]; rfl)
      rw [List.append_cancel_left_eq] at this
      exact hne (List.cons.inj this).1.symm

/-- If what is written is read as it was, then every field fits, and the newline was no delimiter. -/
theorem fits_of_read (hfmt : o.format = .csv) (hskip : o.header = false ∨ skipped = true)
    {ts : List (CopyField × UInt8)} (hends : Ends o ts) {out : List (List CopyField)}
    (hout : csvAll o ncols (tokenData o ts) false (ready rows row lineno skipped) = .ok out)
    (hflat : out.flatten = rows.flatten ++ row ++ ts.map Prod.fst) :
    (∀ f x, (f, x) ∈ ts → CsvFits o f x) ∧ (newline = o.delimiter → row = [] ∧ ts = []) := by
  induction ts generalizing rows row lineno with
  | nil =>
      refine ⟨nofun, fun _ => ⟨?_, rfl⟩⟩
      rcases csvFinish_cases ⟨hskip, fun _ => rfl⟩ hout with ⟨-, hrow, -⟩ | ⟨g, -, heq⟩
      · exact hrow
      · rw [heq, emitted_ready] at hflat
        have := congrArg List.length hflat
        simp at this
  | cons t ts ih =>
      obtain ⟨f, x⟩ := t
      obtain ⟨hx, -⟩ := hends f x List.mem_cons_self
      have hends' : Ends o ts := fun f' x' h => hends f' x' (List.mem_cons_of_mem _ h)
      rw [tokenData_cons] at hout
      rw [List.map_cons] at hflat
      by_cases hfits : CsvFits o f x
      · have hrest : (∀ f' x', (f', x') ∈ ts → CsvFits o f' x') ∧ (newline = o.delimiter → False) := by
          by_cases hd : x = o.delimiter
          · subst hd
            rw [csvAll_delimited hfmt hfits] at hout
            obtain ⟨hall, hnl⟩ := ih hends' hout (by rw [hflat]; simp)
            refine ⟨hall, fun h => ?_⟩
            have := (hnl h).1
            simp at this
          · have hxn := hx.resolve_left hd
            subst hxn
            rw [csvAll_last hfmt hfits hd] at hout
            split at hout
            · cases hout
            · rw [skipHeader_of_skipped hskip] at hout
              obtain ⟨hall, -⟩ := @ih (rows ++ [row ++ [f]]) [] _ hends' hout (by rw [hflat]; simp)
              exact ⟨hall, fun h => hd h⟩
        obtain ⟨hall, hnl⟩ := hrest
        refine ⟨fun f' x' hmem => ?_, fun h => (hnl h).elim⟩
        rcases List.mem_cons.1 hmem with heq | hmem
        · cases heq
          exact hfits
        · exact hall f' x' hmem
      · exact absurd hflat (misses_of_misfit hfmt hends hfits hskip out hout)

/-! ## Rows have columns -/

theorem rows_endRow {r r' : CsvReader} (h : r.flushRun.endRow o ncols = .ok r')
    (hrows : ∀ row ∈ r.rows, row ≠ []) : ∀ row ∈ r'.rows, row ≠ [] := by
  rcases @endRow_cases o ncols r with ⟨e, he⟩ | ⟨g, -, hend⟩
  · rw [he] at h
    cases h
  · rw [hend] at h
    cases h
    intro row hrow
    rcases List.mem_append.1 hrow with hrow | hrow
    · exact hrows row hrow
    · rw [List.mem_singleton.1 hrow]
      exact List.append_ne_nil_of_right_ne_nil _ (List.cons_ne_nil _ _)

theorem rows_skipHeader {r : CsvReader} (hrows : ∀ row ∈ r.rows, row ≠ []) :
    ∀ row ∈ (r.skipHeader o).rows, row ≠ [] := by
  unfold skipHeader
  split
  · exact fun row hrow => hrows row (List.dropLast_subset _ hrow)
  · exact hrows

theorem rows_csvStep {b : UInt8} {next : Option UInt8} {r r' : CsvReader} {used : Bool}
    (h : csvStep o ncols b next r = .ok (r', used)) (hrows : ∀ row ∈ r.rows, row ≠ []) :
    ∀ row ∈ r'.rows, row ≠ [] := by
  unfold csvStep at h
  split at h
  · split at h
    · cases h
      exact hrows
    · split at h <;> cases h <;> exact hrows
  · split at h
    · cases h
      exact hrows
    · split at h
      · obtain ⟨r₁, hr₁, heq⟩ := Loops.map_eq_ok h
        cases heq
        rcases @endField_cases o r with ⟨e, he, -⟩ | ⟨g, -, hend⟩
        · rw [he] at hr₁
          cases hr₁
        · rw [hend] at hr₁
          cases hr₁
          exact hrows
      · split at h
        · obtain ⟨r₁, hr₁, heq⟩ := Loops.map_eq_ok h
          cases heq
          exact rows_skipHeader (rows_endRow hr₁ hrows)
        · split at h <;> cases h <;> exact hrows

/-- No row without a column is read. -/
theorem rows_csvAll {data : List UInt8} {used : Bool} {r : CsvReader} {out : List (List CopyField)}
    (h : csvAll o ncols data used r = .ok out) (hrows : ∀ row ∈ r.rows, row ≠ []) :
    ∀ row ∈ out, row ≠ [] := by
  induction data generalizing used r with
  | nil =>
      rw [csvAll_nil] at h
      unfold csvFinish at h
      split at h
      · cases h
      · dsimp only at h
        split at h
        · obtain ⟨r₁, hr₁, heq⟩ := Loops.map_eq_ok h
          have := rows_endRow hr₁ hrows
          rw [← heq]
          split
          · exact fun row hrow => this row (List.dropLast_subset _ hrow)
          · exact this
        · cases h
          exact hrows
  | cons b rest ih =>
      cases used with
      | true => exact ih h hrows
      | false =>
          rw [csvAll_cons] at h
          split at h
          · cases h
          · rename_i r' used hstep
            exact ih h (rows_csvStep hstep hrows)

/-! ## All rows of CSV -/

/-- What it takes for the rows to be read back from CSV. -/
structure CsvRowsFit (o : CopyOptions) (rows : List (List CopyField)) : Prop where
  each : ∀ row ∈ rows, CsvRowFits o row
  newline : rows ≠ [] → newline ≠ o.delimiter

theorem tokenData_rows (hne : ∀ row ∈ rows, row ≠ []) :
    (rows.flatMap fun row => body o row ++ [newline]) = tokenData o (rows.flatMap (tokens o.delimiter)) := by
  induction rows with
  | nil => rfl
  | cons row rows ih =>
      unfold tokenData at ih ⊢
      rw [List.flatMap_cons, List.flatMap_cons, List.flatMap_append,
        body_eq_tokens (hne row List.mem_cons_self),
        ih fun row' hrow' => hne row' (List.mem_cons_of_mem row hrow')]

theorem map_tokens_rows (d : UInt8) (rows : List (List CopyField)) :
    (rows.flatMap (tokens d)).map Prod.fst = rows.flatten := by
  induction rows with
  | nil => rfl
  | cons row rows ih => rw [List.flatMap_cons, List.map_append, map_tokens, ih, List.flatten_cons]

/-- Rows of CSV are read back if they fit and, where no quote ends a field, only then. -/
theorem csv_rows (hfmt : o.format = .csv) (hlen : ∀ row ∈ rows, row.length = ncols)
    (hskip : o.header = false ∨ skipped = true) :
    (CsvRowsFit o rows → csvAll o ncols (rows.flatMap fun row => body o row ++ [newline]) false
        (ready [] [] lineno skipped) = .ok rows) ∧
      (Apart o → csvAll o ncols (rows.flatMap fun row => body o row ++ [newline]) false
        (ready [] [] lineno skipped) = .ok rows → CsvRowsFit o rows) := by
  constructor
  · intro hfits
    exact csvAll_rows hfmt hfits.newline hlen hfits.each [] hskip
  · intro hapart hout
    have hne := rows_csvAll hout (r := ready [] [] lineno skipped) nofun
    rw [tokenData_rows hne] at hout
    have hends : Ends o (rows.flatMap (tokens o.delimiter)) := by
      intro f x hmem
      obtain ⟨row, -, hmem⟩ := List.mem_flatMap.1 hmem
      have hx := mem_tokens hmem
      refine ⟨hx, ?_⟩
      rcases hx with rfl | rfl
      · exact hapart.1
      · exact hapart.2
    obtain ⟨hall, hnl⟩ := fits_of_read hfmt hskip hends hout (by rw [map_tokens_rows]; rfl)
    refine ⟨fun row hrow => ⟨hne row hrow, fun f x hmem => ?_⟩, fun hrows hd => ?_⟩
    · exact hall f x (List.mem_flatMap.2 ⟨row, hrow, hmem⟩)
    · obtain ⟨row, hrow⟩ := List.exists_mem_of_ne_nil rows hrows
      have hnil := (hnl hd).2
      have := congrArg (List.map Prod.fst) hnil
      rw [map_tokens_rows] at this
      exact hne row hrow (List.flatten_eq_nil_iff.1 this row hrow)

/-! ## With a header -/

/-- What it takes for a header to be read as one line: in the text form no newline, in CSV a row that fits. -/
def NamesFit (o : CopyOptions) (names : List String) : Prop :=
  o.header = true →
    match o.format with
    | .text => newline ∉ body o (names.map .text)
    | .csv => newline ≠ o.delimiter ∧ CsvRowFits o (names.map .text)

/-- What it takes for the rows to be read back. -/
def RowsFit (o : CopyOptions) (rows : List (List CopyField)) : Prop :=
  match o.format with
  | .text => TextRowsFit o rows
  | .csv => CsvRowsFit o rows

/-- After the header, if there is one, the rows are read. -/
theorem parseRows_csv (hfmt : o.format = .csv) {names : List String} (hnames : NamesFit o names) :
    ∃ lineno skipped, (o.header = false ∨ skipped = true) ∧ ∀ rows,
      parseRows o (copyOut o names rows) names.length
        = csvAll o names.length (rows.flatMap fun row => body o row ++ [newline]) false
            (ready [] [] lineno skipped) := by
  have hparse (data : List UInt8) :
      parseRows o data names.length = csvAll o names.length data false (ready [] [] 1 false) := by
    unfold parseRows
    rw [hfmt]
    rfl
  cases hheader : o.header with
  | false =>
      refine ⟨1, false, .inl rfl, fun rows => ?_⟩
      rw [hparse, copyOut_eq]
      unfold written
      rw [hheader]
      rfl
  | true =>
      have hfits := hnames hheader
      rw [hfmt] at hfits
      obtain ⟨hd, hne, hfits⟩ := hfits
      refine ⟨2, true, .inr rfl, fun rows => ?_⟩
      rw [hparse, copyOut_eq]
      unfold written
      have hcount : ¬(([] ++ names.map CopyField.text).length ≠ names.length) := by
        intro h
        exact h (List.length_map _)
      rw [hheader, if_pos rfl, List.singleton_append, List.flatMap_cons, body_eq_tokens hne,
        csvAll_tokens hfmt hd hne hfits, if_neg hcount]
      unfold skipHeader
      rw [if_pos ⟨hheader, rfl, List.cons_ne_nil _ _⟩]
      rfl

/-- Rows are read back if they fit. Only then, if the names are read as one line and, in CSV, no quote ends a
field. -/
theorem copy_round_trip (o : CopyOptions) (names : List String) (rows : List (List CopyField))
    (hlen : ∀ row ∈ rows, row.length = names.length) (hnames : NamesFit o names) :
    (RowsFit o rows → RoundTrips o names rows) ∧
      ((o.format = .csv → Apart o) → RoundTrips o names rows → RowsFit o rows) := by
  cases hfmt : o.format with
  | text =>
      have hiff := text_iff hfmt names rows hlen fun hheader => by
        have := hnames hheader
        rwa [hfmt] at this
      unfold RowsFit
      rw [hfmt]
      exact ⟨hiff.2, fun _ => hiff.1⟩
  | csv =>
      obtain ⟨lineno, skipped, hskip, hparse⟩ := parseRows_csv hfmt hnames
      unfold RoundTrips RowsFit
      rw [hfmt, hparse]
      obtain ⟨hsuff, hnec⟩ := @csv_rows o names.length rows lineno skipped hfmt hlen hskip
      exact ⟨hsuff, fun hapart => hnec (hapart rfl)⟩

/-! ## Options under which all rows are read back -/

/-- With the null string empty, the escape the quote, and delimiter, newline and quote three bytes, every row
with a column fits. -/
theorem csvRowFits_of_plain (hnull : bytes o.null = []) (hesc : o.escape = o.quote) (hapart : Apart o)
    (hne : row ≠ []) : CsvRowFits o row := by
  refine ⟨hne, fun f x hmem => ⟨fun _ => hnull, fun _ _ _ h => absurd hesc h, fun hxq => ?_⟩⟩
  rcases mem_tokens hmem with rfl | rfl
  · exact absurd hxq hapart.1
  · exact absurd hxq hapart.2

/-- The options of a COPY in CSV without any others. -/
def CopyOptions.csv (header : Bool) : CopyOptions := ⟨.csv, 44, "", header, 34, 34⟩

theorem apart_csv (header : Bool) : Apart (.csv header) := ⟨(by decide : (44 : UInt8) ≠ 34), (by decide : newline ≠ 34)⟩

theorem copy_round_trip_csv :
    RoundTrips (.csv true) ["a,b", "c"] [[.text "x\"y", .null], [.text "", .text "z"]] := by
  have hfits (row : List CopyField) (hne : row ≠ []) : CsvRowFits (.csv true) row :=
    csvRowFits_of_plain (by decide) rfl (apart_csv true) hne
  apply (copy_round_trip (.csv true) ["a,b", "c"] [[.text "x\"y", .null], [.text "", .text "z"]] (by decide)
    (fun _ => ⟨by decide, hfits _ (by decide)⟩)).1
  refine ⟨fun row hrow => hfits row ?_, fun _ => by decide⟩
  rintro rfl
  exact absurd hrow (by decide)

/-- A row of one empty string is lost in the text form; in CSV a null with a null string runs into the next
field. -/
theorem copy_loses :
    ¬RoundTrips .default ["a"] [[.text ""]] ∧
      ¬RoundTrips ⟨.csv, 44, "NULL", false, 34, 34⟩ ["a", "b"] [[.null, .text "abc"]] := by
  constructor
  · intro h
    have hread : parseRows .default (copyOut .default ["a"] [[.text ""]]) 1 = .ok [] := by decide
    cases h.symm.trans hread
  · intro h
    have hread : parseRows ⟨.csv, 44, "NULL", false, 34, 34⟩
        (copyOut ⟨.csv, 44, "NULL", false, 34, 34⟩ ["a", "b"] [[.null, .text "abc"]]) 2
          = .ok [[.null, .text "NULLabc"]] := by decide
    have := Except.ok.inj (h.symm.trans hread)
    exact absurd this (by decide)

end Copy
