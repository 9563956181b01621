-- SUMMARY: The CSV form: which rows are read back from the lines that are written for them.
import Rustgres.Copy.CsvReading

/-!
# Rows of CSV

What has been emitted stays, and the field that is being read only grows. So once a field cannot be read as it
was written, nothing that follows makes up for it; and the bytes of a null that stay behind spoil what comes
next.
-/

namespace Copy

open Utf8 (bytes)
open CsvReader

variable {o : CopyOptions} {ncols : Nat}
variable {rows : List (List CopyField)} {row : List CopyField} {lineno : Nat} {skipped : Bool}

/-! ## Fields with what follows them -/

/-- The fields of a row, each with the byte behind it. -/
@[grind =]
def tokens (d : UInt8) : List CopyField → List (CopyField × UInt8)
  | [] => []
  | [f] => [(f, newline)]
  | f :: g :: row => (f, d) :: tokens d (g :: row)

def tokenBytes (o : CopyOptions) (t : CopyField × UInt8) : List UInt8 := piece o t.1 ++ [t.2]

theorem body_eq_tokens (hne : row ≠ []) :
    body o row ++ [newline] = (tokens o.delimiter row).flatMap (tokenBytes o) := by
  unfold body
  induction row with
  | nil => exact absurd rfl hne
  | cons f row ih =>
      cases row with
      | nil =>
          rw [tokens, List.flatMap_singleton, List.map_singleton, List.intercalate_singleton]
          rfl
      | cons g row =>
          rw [tokens, List.flatMap_cons, ← ih (List.cons_ne_nil _ _), List.map_cons, List.map_cons,
            List.intercalate_cons_cons, List.append_assoc]
          rfl

theorem map_tokens (d : UInt8) (row : List CopyField) : (tokens d row).map Prod.fst = row := by
  induction row with
  | nil => rfl
  | cons f row ih =>
      cases row with
      | nil => rfl
      | cons g row => rw [tokens, List.map_cons, ih]

theorem mem_tokens {d x : UInt8} {f : CopyField} (h : (f, x) ∈ tokens d row) : x = d ∨ x = newline := by
  induction row with
  | nil => cases h
  | cons g row ih =>
      cases row with
      | nil =>
          cases List.mem_singleton.1 h
          exact .inr rfl
      | cons g' row =>
          rw [tokens] at h
          rcases List.mem_cons.1 h with heq | h
          · cases heq
            exact .inl rfl
          · exact ih h

/-- Every field of the row fits. -/
def CsvRowFits (o : CopyOptions) (row : List CopyField) : Prop :=
  row ≠ [] ∧ ∀ f x, (f, x) ∈ tokens o.delimiter row → CsvFits o f x

/-! ## Rows that fit are read back -/

theorem csvAll_tokens (hfmt : o.format = .csv) (hd : newline ≠ o.delimiter) {fs : List CopyField}
    (hne : fs ≠ []) (hfits : ∀ f x, (f, x) ∈ tokens o.delimiter fs → CsvFits o f x) (rest : List UInt8) :
    csvAll o ncols ((tokens o.delimiter fs).flatMap (tokenBytes o) ++ rest) false
        (ready rows row lineno skipped)
      = if (row ++ fs).length ≠ ncols then
          .error (columnCountError lineno ncols (row ++ fs).length)
        else csvAll o ncols rest false
          { (ready (rows ++ [row ++ fs]) [] lineno skipped).skipHeader o with lineno := lineno + 1 } := by
  induction fs generalizing row with
  | nil => exact absurd rfl hne
  | cons f fs ih =>
      cases fs with
      | nil =>
          have hf := hfits f newline (List.mem_singleton.2 rfl)
          rw [tokens, List.flatMap_singleton]
          unfold tokenBytes
          rw [List.append_assoc, List.singleton_append]
          exact csvAll_last hfmt hf hd rest
      | cons g fs =>
          have hf := hfits f o.delimiter List.mem_cons_self
          have hrest := @ih (row ++ [f]) (List.cons_ne_nil _ _)
            fun f' x' h => hfits f' x' (List.mem_cons_of_mem _ h)
          rw [tokens, List.flatMap_cons]
          unfold tokenBytes
          rw [List.append_assoc, List.append_assoc, List.singleton_append]
          refine (csvAll_delimited hfmt hf _).trans ?_
          rw [List.append_assoc] at hrest
          exact hrest

theorem skipHeader_of_skipped {r : CsvReader} (h : o.header = false ∨ r.skipped = true) :
    r.skipHeader o = r := by
  unfold skipHeader
  apply if_neg
  rintro ⟨hheader, hnot, -⟩
  rcases h with h | h
  · rw [h] at hheader
    cases hheader
  · rw [h] at hnot
    cases hnot

theorem csvFinish_ready :
    csvFinish o ncols (ready rows [] lineno skipped) = .ok rows := by
  unfold csvFinish
  rw [if_neg (by exact Bool.false_ne_true)]
  dsimp only
  rw [if_neg]
  · rfl
  · rintro (h | h | h)
    · exact h rfl
    · exact h rfl
    · cases h

/-- Rows whose fields fit are read back. -/
theorem csvAll_rows (hfmt : o.format = .csv) (hd : rows ≠ [] → newline ≠ o.delimiter)
    (hlen : ∀ row ∈ rows, row.length = ncols) (hfits : ∀ row ∈ rows, CsvRowFits o row)
    (done : List (List CopyField)) (hskip : o.header = false ∨ skipped = true) :
    csvAll o ncols (rows.flatMap fun row => body o row ++ [newline]) false (ready done [] lineno skipped)
      = .ok (done ++ rows) := by
  induction rows generalizing done lineno with
  | nil =>
      rw [List.append_nil]
      exact csvFinish_ready
  | cons row rows ih =>
      obtain ⟨hne, hrow⟩ := hfits row List.mem_cons_self
      have hd' := hd (List.cons_ne_nil _ _)
      have hcount : ¬(([] ++ row).length ≠ ncols) := fun h => h (hlen row List.mem_cons_self)
      have hrest := @ih (lineno + 1) (fun _ => hd') (fun r hr => hlen r (List.mem_cons_of_mem row hr))
        (fun r hr => hfits r (List.mem_cons_of_mem row hr)) (done ++ [row])
      rw [List.append_assoc] at hrest
      rw [List.flatMap_cons, body_eq_tokens hne, csvAll_tokens hfmt hd' hne hrow, if_neg hcount,
        skipHeader_of_skipped hskip]
      exact hrest

/-! ## What has been emitted stays -/

/-- The fields emitted so far. -/
def emitted (r : CsvReader) : List CopyField := r.rows.flatten ++ r.row

/-- A header has been dropped or is none, and a field that has not begun has no bytes running. -/
structure Sane (o : CopyOptions) (r : CsvReader) : Prop where
  skip : o.header = false ∨ r.skipped = true
  run : r.atStart = true → r.run = []

theorem endRow_cases (r : CsvReader) :
    (∃ e, r.flushRun.endRow o ncols = .error e) ∨
      ∃ g, Emits o r.fieldQuoted r.content g ∧ r.flushRun.endRow o ncols = .ok
        { r with rows := r.rows ++ [r.row ++ [g]], row := [], field := leaves o g, run := [],
                 fieldQuoted := false } := by
  unfold endRow
  rcases endField_cases r with ⟨e, he, -⟩ | ⟨g, hg, hend⟩
  · rw [he]
    exact .inl ⟨e, rfl⟩
  · rw [hend]
    dsimp only
    split
    · exact .inl ⟨_, rfl⟩
    · exact .inr ⟨g, hg, rfl⟩

/-- The field grows. -/
def Grows (r r' : CsvReader) : Prop :=
  emitted r' = emitted r ∧ r.content <+: r'.content ∧ (r.fieldQuoted = true → r'.fieldQuoted = true)

theorem prefix_content_push (r : CsvReader) (b : UInt8) : r.content <+: r.flushRun.field ++ [b] ++ [] := by
  rw [List.append_nil, flushRun_field]
  exact List.prefix_append _ _

/-- One byte adds to the field or emits it. -/
theorem csvStep_cases {b : UInt8} {next : Option UInt8} {r r' : CsvReader} {used : Bool} (hsane : Sane o r)
    (h : csvStep o ncols b next r = .ok (r', used)) :
    Sane o r' ∧ (Grows r r' ∨ ∃ g, Emits o r.fieldQuoted r.content g ∧ emitted r' = emitted r ++ [g]) := by
  unfold csvStep at h
  split at h
  · split at h
    · cases h
      exact ⟨⟨hsane.skip, fun hs => (nomatch hs)⟩, .inl ⟨rfl, prefix_content_push r _, id⟩⟩
    · split at h
      · cases h
        refine ⟨⟨hsane.skip, fun hs => (nomatch hs)⟩, .inl ⟨rfl, ?_, id⟩⟩
        show r.content <+: r.content ++ []
        exact List.prefix_append _ _
      · cases h
        refine ⟨⟨hsane.skip, fun hs => (nomatch hs)⟩, .inl ⟨rfl, ?_, id⟩⟩
        rw [content_plain]
        exact List.prefix_append _ _
  · split at h
    · rename_i hopen
      cases h
      refine ⟨⟨hsane.skip, fun hs => (nomatch hs)⟩, .inl ⟨rfl, ?_, fun _ => rfl⟩⟩
      have hrun : r.content = r.field ++ [] := by
        unfold content
        rw [hsane.run hopen.2]
      exact ⟨[], (List.append_nil _).trans hrun⟩
    · split at h
      · rcases endField_cases r with ⟨e, he, -⟩ | ⟨g, hg, hend⟩
        · rw [he] at h
          cases h
        · rw [hend] at h
          cases h
          refine ⟨⟨hsane.skip, fun _ => rfl⟩, .inr ⟨g, hg, ?_⟩⟩
          unfold emitted
          rw [List.append_assoc]
      · split at h
        · rcases @endRow_cases o ncols r with ⟨e, he⟩ | ⟨g, hg, hend⟩
          · rw [he] at h
            cases h
          · rw [hend] at h
            have hskip := @skipHeader_of_skipped o { r with
              rows := r.rows ++ [r.row ++ [g]], row := [], field := leaves o g, run := []
              fieldQuoted := false } hsane.skip
            cases h
            rw [hskip]
            refine ⟨⟨hsane.skip, fun _ => rfl⟩, .inr ⟨g, hg, ?_⟩⟩
            unfold emitted
            dsimp only
            rw [List.flatten_append, List.flatten_singleton, List.append_nil, List.append_assoc]
        · split at h
          · cases h
            refine ⟨⟨hsane.skip, fun hs => (nomatch hs)⟩, .inl ⟨rfl, ?_, id⟩⟩
            show r.content <+: r.content ++ []
            exact List.prefix_append _ _
          · cases h
            refine ⟨⟨hsane.skip, fun hs => (nomatch hs)⟩, .inl ⟨rfl, ?_, id⟩⟩
            rw [content_plain]
            exact List.prefix_append _ _

/-- At the end, at most one more field is emitted. -/
theorem csvFinish_cases {r : CsvReader} {out : List (List CopyField)} (hsane : Sane o r)
    (h : csvFinish o ncols r = .ok out) :
    (r.content = [] ∧ r.row = [] ∧ out.flatten = emitted r) ∨
      ∃ g, Emits o r.fieldQuoted r.content g ∧ out.flatten = emitted r ++ [g] := by
  unfold csvFinish at h
  split at h
  · cases h
  · dsimp only at h
    split at h
    · obtain ⟨r', hr', hout⟩ := Loops.map_eq_ok h
      rcases @endRow_cases o ncols r with ⟨e, he⟩ | ⟨g, hg, hend⟩
      · rw [he] at hr'
        cases hr'
      · rw [hend] at hr'
        cases hr'
        have hno : ¬(o.header = true ∧ (!r.skipped) = true) := by
          rintro ⟨hheader, hnot⟩
          rcases hsane.skip with hs | hs
          · rw [hs] at hheader
            cases hheader
          · rw [hs] at hnot
            cases hnot
        rw [if_neg hno] at hout
        refine .inr ⟨g, hg, ?_⟩
        rw [← hout]
        unfold emitted
        rw [List.flatten_append, List.flatten_singleton, List.append_assoc]
    · rename_i hnone
      rw [not_or, not_or] at hnone
      obtain ⟨hfield, hrow, -⟩ := hnone
      have hrow : r.row = [] := not_not.1 hrow
      cases h
      refine .inl ⟨not_not.1 hfield, hrow, ?_⟩
      unfold emitted
      rw [hrow, List.append_nil]
      rfl

/-- Reading on keeps what has been emitted. -/
theorem emitted_prefix {data : List UInt8} {used : Bool} {r : CsvReader} {out : List (List CopyField)}
    (hsane : Sane o r) (h : csvAll o ncols data used r = .ok out) : emitted r <+: out.flatten := by
  induction data generalizing used r with
  | nil =>
      rcases csvFinish_cases hsane h with ⟨-, -, heq⟩ | ⟨g, -, heq⟩
      · exact ⟨[], (List.append_nil _).trans heq.symm⟩
      · rw [heq]
        exact List.prefix_append _ _
  | cons b rest ih =>
      cases used with
      | true => exact ih hsane h
      | false =>
          rw [csvAll_cons] at h
          split at h
          · cases h
          · rename_i r' used hstep
            obtain ⟨hsane', hcases⟩ := csvStep_cases hsane hstep
            have hrest := ih hsane' h
            rcases hcases with ⟨heq, -⟩ | ⟨g, -, heq⟩
            · rwa [heq] at hrest
            · rw [heq] at hrest
              exact (List.prefix_append _ _).trans hrest

/-! ## Fields that are lost -/

/-- The field that is being read cannot become `f`. -/
def Doomed (o : CopyOptions) (r : CsvReader) : CopyField → Prop
  | .null => r.fieldQuoted = true ∨ ¬r.content <+: bytes o.null
  | .text s => ¬r.content <+: bytes s

theorem Doomed.grows {r r' : CsvReader} {f : CopyField} (h : Doomed o r f) (hg : Grows r r') :
    Doomed o r' f := by
  obtain ⟨-, hpre, hquoted⟩ := hg
  cases f with
  | null =>
      rcases h with h | h
      · exact .inl (hquoted h)
      · exact .inr fun hc => h (hpre.trans hc)
  | text s => exact fun hc => h (hpre.trans hc)

theorem Doomed.not_emits {r : CsvReader} {f : CopyField} (h : Doomed o r f) :
    ¬Emits o r.fieldQuoted r.content f := by
  intro he
  cases f with
  | null =>
      obtain ⟨hq, hc⟩ := he
      rcases h with h | h
      · rw [hq] at h
        cases h
      · rw [hc] at h
        exact h (List.prefix_refl _)
  | text s =>
      rw [Doomed, he.2] at h
      exact h (List.prefix_refl _)

/-- The fields read in the end are not those expected: `f` next, then `fs`. -/
def Misses (o : CopyOptions) (ncols : Nat) (data : List UInt8) (used : Bool) (r : CsvReader)
    (f : CopyField) (fs : List CopyField) : Prop :=
  ∀ out, csvAll o ncols data used r = .ok out → out.flatten ≠ emitted r ++ f :: fs

theorem Misses.step {b : UInt8} {rest : List UInt8} {r : CsvReader} {f : CopyField} {fs : List CopyField}
    (h : ∀ r' used, csvStep o ncols b rest.head? r = .ok (r', used) →
      emitted r' = emitted r ∧ Misses o ncols rest used r' f fs) :
    Misses o ncols (b :: rest) false r f fs := by
  intro out hout
  rw [csvAll_cons] at hout
  split at hout
  · cases hout
  · rename_i r' used hstep
    obtain ⟨heq, hmiss⟩ := h r' used hstep
    rw [← heq]
    exact hmiss out hout

/-- A wrong field that has been emitted is not made up for. -/
theorem misses_of_emitted {data : List UInt8} {used : Bool} {r : CsvReader} {out : List (List CopyField)}
    {before : List CopyField} {f g : CopyField} {fs : List CopyField} (hsane : Sane o r)
    (hr : emitted r = before ++ [g]) (hne : g ≠ f) (h : csvAll o ncols data used r = .ok out) :
    out.flatten ≠ before ++ f :: fs := by
  intro heq
  obtain ⟨more, hmore⟩ := emitted_prefix hsane h
  rw [hr, heq, List.append_assoc, List.append_cancel_left_eq, List.singleton_append] at hmore
  exact hne (List.cons.inj hmore).1

/-- A doomed field is lost. -/
theorem Doomed.misses {data : List UInt8} {used : Bool} {r : CsvReader} {f : CopyField}
    {fs : List CopyField} (hsane : Sane o r) (h : Doomed o r f) : Misses o ncols data used r f fs := by
  induction data generalizing used r with
  | nil =>
      intro out hout heq
      rcases csvFinish_cases hsane hout with ⟨-, -, hflat⟩ | ⟨g, hg, hflat⟩
      · rw [hflat] at heq
        have := congrArg List.length heq
        rw [List.length_append, List.length_cons] at this
        omega
      · rw [hflat, List.append_cancel_left_eq] at heq
        rw [(List.cons.inj heq).1] at hg
        exact h.not_emits hg
  | cons b rest ih =>
      cases used with
      | true => exact ih hsane h
      | false =>
          intro out hout
          rw [csvAll_cons] at hout
          split at hout
          · cases hout
          · rename_i r' used hstep
            obtain ⟨hsane', hcases⟩ := csvStep_cases hsane hstep
            rcases hcases with hgrows | ⟨g, hg, hemit⟩
            · rw [← hgrows.1]
              exact ih hsane' (h.grows hgrows) out hout
            · refine misses_of_emitted hsane' hemit ?_ hout
              rintro rfl
              exact h.not_emits hg

/-- About to read a field; `left` is what has stayed behind of a null. -/
structure Starts (r : CsvReader) (left : List UInt8) : Prop where
  inQuotes : r.inQuotes = false
  fieldQuoted : r.fieldQuoted = false
  run : r.run = []
  field : r.field = left
  atStart : r.atStart = true

theorem Starts.content {r : CsvReader} {left : List UInt8} (h : Starts r left) : r.content = left := by
  unfold CsvReader.content
  rw [h.field, h.run, List.append_nil]

theorem Starts.inside {r : CsvReader} {left : List UInt8} (h : Starts r left) :
    r.Inside r.rows r.row r.lineno r.skipped false false left :=
  ⟨rfl, rfl, rfl, rfl, h.inQuotes, h.fieldQuoted, fun _ => h.run, h.content⟩

/-- A delimiter or a newline ends the field. -/
theorem csvStep_end {x : UInt8} {next : Option UInt8} {r : CsvReader} (hsane : Sane o r)
    (hx : x = o.delimiter ∨ x = newline) (hq : r.inQuotes = false)
    (hopen : r.atStart = false ∨ x ≠ o.quote) :
    (∃ e, csvStep o ncols x next r = .error e) ∨
      ∃ g r', Emits o r.fieldQuoted r.content g ∧ csvStep o ncols x next r = .ok (r', false) ∧
        emitted r' = emitted r ++ [g] ∧ Starts r' (leaves o g) ∧ Sane o r' := by
  have hopen' : ¬(x = o.quote ∧ r.atStart = true) := by
    rintro ⟨hxq, hs⟩
    rcases hopen with hstart | hne
    · rw [hs] at hstart
      cases hstart
    · exact hne hxq
  unfold csvStep
  rw [hq, if_neg Bool.false_ne_true, if_neg hopen']
  by_cases hd : x = o.delimiter
  · rw [if_pos hd]
    rcases endField_cases r with ⟨e, he, -⟩ | ⟨g, hg, hend⟩
    · rw [he]
      exact .inl ⟨e, rfl⟩
    · rw [hend]
      refine .inr ⟨g, _, hg, rfl, ?_, ⟨hq, rfl, rfl, rfl, rfl⟩, ⟨hsane.skip, fun _ => rfl⟩⟩
      unfold emitted
      rw [List.append_assoc]
  · rw [if_neg hd, if_pos (hx.resolve_left hd)]
    rcases @endRow_cases o ncols r with ⟨e, he⟩ | ⟨g, hg, hend⟩
    · rw [he]
      exact .inl ⟨e, rfl⟩
    · rw [hend]
      have hskip := @skipHeader_of_skipped o { r with
        rows := r.rows ++ [r.row ++ [g]], row := [], field := leaves o g, run := []
        fieldQuoted := false } hsane.skip
      refine .inr ⟨g, _, hg, rfl, ?_, ?_, ?_⟩
      · dsimp only
        rw [hskip]
        unfold emitted
        dsimp only
        rw [List.flatten_append, List.flatten_singleton, List.append_nil, List.append_assoc]
      · dsimp only
        rw [hskip]
        exact ⟨hq, rfl, rfl, rfl, rfl⟩
      · dsimp only
        rw [hskip]
        exact ⟨hsane.skip, fun _ => rfl⟩

/-- A field that ends with other bytes is lost. -/
theorem misses_end {x : UInt8} {rest : List UInt8} {r : CsvReader} {f : CopyField} {fs : List CopyField}
    (hsane : Sane o r) (hx : x = o.delimiter ∨ x = newline) (hq : r.inQuotes = false)
    (hopen : r.atStart = false ∨ x ≠ o.quote) (hno : ¬Emits o r.fieldQuoted r.content f) :
    Misses o ncols (x :: rest) false r f fs := by
  intro out hout
  rw [csvAll_cons] at hout
  rcases @csvStep_end o ncols x rest.head? r hsane hx hq hopen with ⟨e, he⟩ | ⟨g, r', hg, hstep, hemit, -, hsane'⟩
  · rw [he] at hout
    cases hout
  · rw [hstep] at hout
    refine misses_of_emitted hsane' hemit ?_ hout
    rintro rfl
    exact hno hg

theorem doomed_of_length {r : CsvReader} {s : String} (h : (bytes s).length < r.content.length) :
    Doomed o r (.text s) := by
  intro hpre
  have := hpre.length_le
  omega

/-- An escape at the end of a quoted field takes the closing quote along. -/
theorem csvAll_misread {bs : List UInt8} {r : CsvReader} {quoted : Bool} {c : List UInt8}
    (h : r.Inside rows row lineno skipped true quoted c) (hne : o.escape ≠ o.quote) (rest : List UInt8) :
    ∃ r', csvAll o ncols ((bs ++ [o.escape]).flatMap (quoteByte o) ++ o.quote :: rest) false r
        = csvAll o ncols rest false r' ∧
      r'.Inside rows row lineno skipped true quoted (c ++ bs ++ [o.quote]) := by
  have hbytes : (bs ++ [o.escape]).flatMap (quoteByte o) = bs.flatMap (quoteByte o) ++ [o.escape] := by
    rw [List.flatMap_append, List.flatMap_singleton, quoteByte, if_neg hne]
  obtain ⟨r₁, hrun₁, hin₁⟩ := @csvAll_quoteBytes o ncols _ _ _ _ bs r quoted c h
    (o.escape :: o.quote :: rest) (fun _ _ hhead => hne (Option.some.inj hhead))
  obtain ⟨r', hrun, hin⟩ := @csvAll_escaped o ncols _ _ _ _ r₁ quoted _ hin₁ rest
  refine ⟨r', ?_, hin⟩
  rw [hbytes, List.append_assoc, List.singleton_append, hrun₁, hrun]

/-- In quotes, the field has all its bytes, or as many, when its closing quote comes. -/
theorem csvAll_quoted_length {s : String} {r : CsvReader} {quoted : Bool} {c : List UInt8}
    (h : r.Inside rows row lineno skipped true quoted c) (rest : List UInt8) :
    ∃ r' rest', csvAll o ncols ((bytes s).flatMap (quoteByte o) ++ o.quote :: rest) false r
        = csvAll o ncols rest' false r' ∧
      ∃ c', r'.Inside rows row lineno skipped true quoted c' ∧
        c'.length = c.length + (bytes s).length := by
  by_cases hbad : o.escape ≠ o.quote ∧ (bytes s).getLast? = some o.escape
  · obtain ⟨hne, hlast⟩ := hbad
    obtain ⟨bs, hbs⟩ := List.getLast?_eq_some_iff.1 hlast
    rw [hbs]
    obtain ⟨r', hrun, hin⟩ := @csvAll_misread o ncols _ _ _ _ bs r quoted c h hne rest
    refine ⟨r', rest, hrun, _, hin, ?_⟩
    rw [List.length_append, List.length_append, List.length_append, List.length_singleton,
      List.length_singleton, Nat.add_assoc]
  · obtain ⟨r', hrun, hin⟩ := @csvAll_quoteBytes o ncols _ _ _ _ (bytes s) r quoted c h
      (o.quote :: rest) (fun hne hlast => absurd ⟨hne, hlast⟩ hbad)
    exact ⟨r', _, hrun, _, hin, List.length_append⟩

theorem emitted_inside {r : CsvReader} {inQuotes quoted : Bool} {c : List UInt8}
    (h : r.Inside rows row lineno skipped inQuotes quoted c) : emitted r = rows.flatten ++ row := by
  unfold emitted
  rw [h.rows, h.row]

theorem sane_inside {r r' : CsvReader} {inQuotes quoted : Bool} {c : List UInt8} (hsane : Sane o r)
    (h : r'.Inside r.rows r.row r.lineno r.skipped inQuotes quoted c) : Sane o r' := by
  refine ⟨?_, h.start⟩
  rw [h.skipped]
  exact hsane.skip

/-- From where a field starts to where it is doomed. -/
theorem misses_of_doomed {data rest : List UInt8} {r r' : CsvReader} {f : CopyField} {fs : List CopyField}
    {inQuotes quoted : Bool} {c : List UInt8} (hsane : Sane o r)
    (hrun : csvAll o ncols data false r = csvAll o ncols rest false r')
    (hin : r'.Inside r.rows r.row r.lineno r.skipped inQuotes quoted c) (hdoom : Doomed o r' f) :
    Misses o ncols data false r f fs := by
  intro out hout
  rw [hrun] at hout
  have hmiss : Misses o ncols rest false r' f fs := hdoom.misses (sane_inside hsane hin)
  have := hmiss out hout
  rwa [emitted_inside hin] at this

/-! ## Nulls with a null string -/

/-- What is written for the fields. -/
def tokenData (o : CopyOptions) (ts : List (CopyField × UInt8)) : List UInt8 := ts.flatMap (tokenBytes o)

theorem tokenData_cons (f : CopyField) (x : UInt8) (ts : List (CopyField × UInt8)) :
    tokenData o ((f, x) :: ts) = piece o f ++ x :: tokenData o ts := by
  unfold tokenData
  rw [List.flatMap_cons]
  unfold tokenBytes
  rw [List.append_assoc, List.singleton_append]

/-- The bytes that end fields are no quotes. -/
def Ends (o : CopyOptions) (ts : List (CopyField × UInt8)) : Prop :=
  ∀ f x, (f, x) ∈ ts → (x = o.delimiter ∨ x = newline) ∧ x ≠ o.quote

/-- What is expected is not read. -/
def Lost (o : CopyOptions) (ncols : Nat) (ts : List (CopyField × UInt8)) (r : CsvReader) : Prop :=
  ∀ out, csvAll o ncols (tokenData o ts) false r = .ok out → out.flatten ≠ emitted r ++ ts.map Prod.fst

/-- A null string that is there, begins no other field and is on one line. -/
structure Stays (o : CopyOptions) : Prop where
  ne_nil : bytes o.null ≠ []
  newline : newline ∉ bytes o.null
  head : (bytes o.null).head? ≠ some o.delimiter

theorem csvStep_other {b : UInt8} {next : Option UInt8} {r : CsvReader} (hq : r.inQuotes = false)
    (hopen : ¬(b = o.quote ∧ r.atStart = true)) (hd : b ≠ o.delimiter) (hn : b ≠ newline)
    (hret : ¬(b = carriageReturn ∧ next = some newline)) :
    csvStep o ncols b next r = .ok (r.plain b, false) := by
  unfold csvStep
  rw [hq, if_neg Bool.false_ne_true, if_neg hopen, if_neg hd, if_neg hn, if_neg hret]

theorem csvStep_return {r : CsvReader} (hq : r.inQuotes = false)
    (hopen : ¬(carriageReturn = o.quote ∧ r.atStart = true)) (hd : carriageReturn ≠ o.delimiter) :
    csvStep o ncols carriageReturn (some newline) r = .ok ({ r.flushRun with atStart := false }, false) := by
  unfold csvStep
  rw [hq, if_neg Bool.false_ne_true, if_neg hopen, if_neg hd, if_neg (by decide), if_pos ⟨rfl, rfl⟩]

/-- If a field's end emits `f` and all is lost from there, then all is lost. -/
theorem lost_of_end {x : UInt8} {rest : List UInt8} {r : CsvReader} {f : CopyField} {fs : List CopyField}
    (hsane : Sane o r) (hx : x = o.delimiter ∨ x = newline) (hq : r.inQuotes = false)
    (hopen : r.atStart = false ∨ x ≠ o.quote)
    (hrest : ∀ r', Sane o r' → Starts r' (leaves o f) → emitted r' = emitted r ++ [f] →
      ∀ out, csvAll o ncols rest false r' = .ok out → out.flatten ≠ emitted r' ++ fs) :
    Misses o ncols (x :: rest) false r f fs := by
  intro out hout
  rw [csvAll_cons] at hout
  rcases @csvStep_end o ncols x rest.head? r hsane hx hq hopen with ⟨e, he⟩ | ⟨g, r', hg, hstep, hemit, hstarts, hsane'⟩
  · rw [he] at hout
    cases hout
  · rw [hstep] at hout
    by_cases hgf : g = f
    · subst hgf
      have := hrest r' hsane' hstarts hemit out hout
      rwa [hemit, List.append_assoc] at this
    · exact misses_of_emitted hsane' hemit hgf hout

/-- A text behind the bytes of a null is not read as it was written. -/
theorem misses_text_behind (hfmt : o.format = .csv) {r : CsvReader} (hsane : Sane o r)
    (hr : Starts r (bytes o.null)) (hne : bytes o.null ≠ []) {s : String} {x : UInt8}
    (hx : x = o.delimiter ∨ x = newline) (hxq : x ≠ o.quote) (rest : List UInt8) (fs : List CopyField) :
    Misses o ncols (piece o (.text s) ++ x :: rest) false r (.text s) fs := by
  have hpos := List.length_pos_iff.2 hne
  rw [piece_csv hfmt]
  cases hneeds : needsQuote o s with
  | true =>
      obtain ⟨r₁, hrun₁, hin₁⟩ := @csvAll_open o ncols _ _ _ _ r _ hr.inside hr.run hr.atStart
        ((bytes s).flatMap (quoteByte o) ++ o.quote :: x :: rest)
      obtain ⟨r', rest', hrun, c', hin, hlen⟩ := @csvAll_quoted_length o ncols _ _ _ _ s r₁ true _ hin₁
        (x :: rest)
      have hall : csvAll o ncols (quoted o s ++ x :: rest) false r = csvAll o ncols rest' false r' := by
        unfold quoted
        rw [List.cons_append, List.append_assoc, List.singleton_append, hrun₁, hrun]
      apply misses_of_doomed hsane hall hin
      apply doomed_of_length
      rw [hin.content]
      omega
  | false =>
      obtain ⟨hplain, -⟩ := needsQuote_false hneeds
      obtain ⟨r', hrun, hin, -⟩ := @csvAll_plain o ncols _ _ _ _ _ hplain _ _ _ hr.inside (x :: rest)
      by_cases hnil : bytes s = []
      · show Misses o ncols (bytes s ++ x :: rest) false r (.text s) fs
        rw [hnil, List.nil_append]
        apply misses_end hsane hx hr.inQuotes (.inr hxq)
        intro he
        exact he.1 ⟨hr.fieldQuoted, hr.content⟩
      · apply misses_of_doomed hsane hrun hin
        apply doomed_of_length
        rw [hin.content, List.length_append]
        omega

/-- The bytes of a null that have stayed behind spoil all that follows, and the end as well. -/
theorem lost_behind (hfmt : o.format = .csv) (hN : Stays o) (ts : List (CopyField × UInt8))
    (hends : Ends o ts) {r : CsvReader} (hsane : Sane o r) (hr : Starts r (bytes o.null)) :
    Lost o ncols ts r := by
  induction ts generalizing r with
  | nil =>
      intro out hout heq
      rcases csvFinish_cases hsane hout with ⟨hnil, -, -⟩ | ⟨g, -, hflat⟩
      · rw [hr.content] at hnil
        exact hN.ne_nil hnil
      · rw [hflat] at heq
        have := congrArg List.length heq
        simp at this
  | cons t ts ih =>
      obtain ⟨f, x⟩ := t
      obtain ⟨hx, hxq⟩ := hends f x List.mem_cons_self
      have hends' : Ends o ts := fun f' x' h => hends f' x' (List.mem_cons_of_mem _ h)
      unfold Lost
      rw [tokenData_cons, List.map_cons]
      cases f with
      | text s => exact misses_text_behind hfmt hsane hr hN.ne_nil hx hxq _ _
      | null =>
          show Misses o ncols (bytes o.null ++ x :: tokenData o ts) false r .null (ts.map Prod.fst)
          have hrest : ∀ r', Sane o r' → Starts r' (leaves o .null) → emitted r' = emitted r ++ [.null] →
              ∀ out, csvAll o ncols (tokenData o ts) false r' = .ok out →
                out.flatten ≠ emitted r' ++ ts.map Prod.fst :=
            fun r' hsane' hstarts _ => ih hends' hsane' hstarts
          obtain ⟨c, N, hcN⟩ := List.exists_cons_of_ne_nil hN.ne_nil
          have hcd : c ≠ o.delimiter := by
            rintro rfl
            apply hN.head
            rw [hcN]
            rfl
          have hcn : c ≠ newline := by
            rintro rfl
            apply hN.newline
            rw [hcN]
            exact List.mem_cons_self
          rw [hcN, List.cons_append]
          by_cases hcq : c = o.quote
          · -- It opens a quoted field.
            subst hcq
            obtain ⟨r', hrun, hin⟩ := @csvAll_open o ncols _ _ _ _ r _ hr.inside hr.run hr.atStart
              (N ++ x :: tokenData o ts)
            exact misses_of_doomed hsane hrun hin (.inl hin.fieldQuoted)
          · have hopen : ¬(c = o.quote ∧ r.atStart = true) := fun h => hcq h.1
            by_cases hret : c = carriageReturn ∧ (N ++ x :: tokenData o ts).head? = some newline
            · -- It is dropped before the newline, so that a null is read once more.
              obtain ⟨rfl, hnext⟩ := hret
              have hnil : N = [] := by
                cases N with
                | nil => rfl
                | cons c' N =>
                    have hc' : c' = newline := Option.some.inj hnext
                    exact absurd (by rw [hcN, hc']; simp) hN.newline
              subst hnil
              rw [List.nil_append] at hnext ⊢
              apply Misses.step
              intro r' used hstep
              rw [hnext, csvStep_return hr.inQuotes hopen hcd] at hstep
              cases hstep
              exact ⟨rfl, lost_of_end ⟨hsane.skip, nofun⟩ hx hr.inQuotes (.inl rfl) hrest⟩
            · -- There are too many bytes.
              apply Misses.step
              intro r' used hstep
              rw [csvStep_other hr.inQuotes hopen hcd hcn hret] at hstep
              cases hstep
              refine ⟨rfl, Doomed.misses ⟨hsane.skip, nofun⟩ (.inr fun hpre => ?_)⟩
              have := hpre.length_le
              rw [content_plain, hr.content, List.length_append, List.length_singleton] at this
              omega

/-- Where a null is expected, its string is read: some other field, or a null that stays behind. -/
theorem misses_null (hfmt : o.format = .csv) (hne : bytes o.null ≠ []) (ts : List (CopyField × UInt8))
    (hends : Ends o ts) {x : UInt8} (hx : x = o.delimiter ∨ x = newline)
    {a b : List UInt8} (hab : a ++ b = bytes o.null) (han : newline ∉ a) (had : a.head? ≠ some o.delimiter)
    {r : CsvReader} (hsane : Sane o r) (hq : r.inQuotes = false) (hquoted : r.fieldQuoted = false)
    (hcontent : r.content = a) (hstart : a ≠ [] → r.atStart = false) :
    Misses o ncols (b ++ x :: tokenData o ts) false r .null (ts.map Prod.fst) := by
  induction b generalizing a r with
  | nil =>
      rw [List.append_nil] at hab
      subst hab
      rw [List.nil_append]
      apply lost_of_end hsane hx hq (.inl (hstart hne))
      intro r' hsane' hstarts _
      exact lost_behind hfmt ⟨hne, han, had⟩ ts hends hsane' hstarts
  | cons c b ih =>
      have hshort : ∀ b', b' ≠ [] → a ++ b' = bytes o.null → ¬Emits o r.fieldQuoted r.content .null := by
        rintro b' hb' heq ⟨-, hc⟩
        rw [hcontent, ← heq] at hc
        exact hb' (List.self_eq_append_right.1 hc)
      have hno := hshort (c :: b) (List.cons_ne_nil _ _) hab
      rw [List.cons_append]
      by_cases hopen : c = o.quote ∧ r.atStart = true
      · -- It opens a quoted field.
        apply Misses.step
        intro r' used hstep
        unfold csvStep at hstep
        rw [hq, if_neg Bool.false_ne_true, if_pos hopen] at hstep
        cases hstep
        exact ⟨rfl, Doomed.misses ⟨hsane.skip, nofun⟩ (.inl rfl)⟩
      · have hopen' (heq : c = o.quote) : r.atStart = false := Bool.eq_false_iff.2 fun h => hopen ⟨heq, h⟩
        have hor : r.atStart = false ∨ c ≠ o.quote := by
          by_cases heq : c = o.quote
          · exact .inl (hopen' heq)
          · exact .inr heq
        by_cases hcd : c = o.delimiter
        · exact misses_end hsane (.inl hcd) hq hor hno
        · by_cases hcn : c = newline
          · exact misses_end hsane (.inr hcn) hq hor hno
          · by_cases hret : c = carriageReturn ∧ (b ++ x :: tokenData o ts).head? = some newline
            · -- The field ends without its carriage return.
              obtain ⟨rfl, hnext⟩ := hret
              cases hrest : b ++ x :: tokenData o ts with
              | nil => exact absurd hrest (by simp)
              | cons y rest =>
                  rw [hrest] at hnext
                  apply Misses.step
                  intro r' used hstep
                  rw [hnext, csvStep_return hq hopen hcd] at hstep
                  cases hstep
                  have hy : y = newline := Option.some.inj hnext
                  refine ⟨rfl, misses_end ⟨hsane.skip, nofun⟩ (.inr hy) hq (.inl rfl) ?_⟩
                  have hsame : ({ r.flushRun with atStart := false } : CsvReader).content = r.content :=
                    List.append_nil _
                  rw [hsame]
                  exact hno
            · apply Misses.step
              intro r' used hstep
              rw [csvStep_other hq hopen hcd hcn hret] at hstep
              cases hstep
              refine ⟨rfl, @ih (a ++ [c]) (by rw [List.append_assoc]; exact hab) ?_ ?_ _
                ⟨hsane.skip, nofun⟩ hq hquoted (by rw [content_plain, hcontent]) (fun _ => rfl)⟩
              · rw [List.mem_append, List.mem_singleton]
                exact not_or.2 ⟨han, Ne.symm hcn⟩
              · cases a with
                | nil => exact fun h => hcd (Option.some.inj h)
                | cons a₀ a => exact had

end Copy
