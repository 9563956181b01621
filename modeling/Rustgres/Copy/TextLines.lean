-- SUMMARY: Lines of the text form: where lines and fields are split, and what escaping protects.
import Rustgres.Copy.Format

/-!
# Lines of Text

A line splits at the delimiters that the reader meets when it takes every byte behind a backslash along.
Escaped text has none of them; the null string, which is written as it is, may have some.
-/

namespace Copy

open Utf8 (bytes)

variable {o : CopyOptions} {d : UInt8}

/-! ## Lines -/

theorem splitLines_line {body : List UInt8} (h : newline ∉ body) (rest cur : List UInt8) :
    splitLines (body ++ newline :: rest) cur = dropReturn (cur ++ body) :: splitLines rest [] := by
  induction body generalizing cur with
  | nil =>
      rw [List.nil_append, splitLines, if_pos rfl, List.append_nil]
  | cons b body ih =>
      obtain ⟨hb, hbody⟩ := not_or.1 (fun hor => h (List.mem_cons.2 hor))
      rw [List.cons_append, splitLines, if_neg (Ne.symm hb), ih hbody, List.append_assoc]
      rfl

theorem splitLines_lines {bodies : List (List UInt8)} (h : ∀ body ∈ bodies, newline ∉ body) :
    splitLines (bodies.flatMap fun body => body ++ [newline]) [] = bodies.map dropReturn := by
  induction bodies with
  | nil => rfl
  | cons body bodies ih =>
      have hrest := ih fun b hb => h b (List.mem_cons_of_mem body hb)
      rw [List.flatMap_cons, List.append_assoc, List.singleton_append,
        splitLines_line (h body List.mem_cons_self), hrest]
      rfl

theorem mem_of_mem_dropReturn {b : UInt8} {line : List UInt8} (h : b ∈ dropReturn line) : b ∈ line := by
  unfold dropReturn at h
  split at h
  · exact List.dropLast_subset line h
  · exact h

/-- No line has a newline in it. -/
theorem newline_not_mem_splitLines {data cur line : List UInt8} (hcur : newline ∉ cur)
    (h : line ∈ splitLines data cur) : newline ∉ line := by
  induction data generalizing cur with
  | nil =>
      unfold splitLines at h
      split at h
      · cases h
      · rw [List.mem_singleton.1 h]
        exact hcur
  | cons b rest ih =>
      unfold splitLines at h
      split at h
      · rcases List.mem_cons.1 h with rfl | h
        · exact fun hmem => hcur (mem_of_mem_dropReturn hmem)
        · exact ih (List.not_mem_nil) h
      · rename_i hb
        apply ih _ h
        rw [List.mem_append, List.mem_singleton]
        exact not_or.2 ⟨hcur, Ne.symm hb⟩

/-! ## Walking to a delimiter -/

/-- From its start on, no delimiter is met; `more` says that something follows, which a last backslash
would take along. -/
@[grind =]
def walks (d : UInt8) (more : Bool) : List UInt8 → Bool
  | [] => true
  | [b] => if b = backslash ∧ more then false else b ≠ d
  | b :: c :: rest => if b = backslash then walks d more rest else decide (b ≠ d) && walks d more (c :: rest)

theorem walks_escaped (c : UInt8) (rest : List UInt8) (more : Bool) :
    walks d more (backslash :: c :: rest) = walks d more rest := by
  rw [walks, if_pos rfl]

theorem walks_cons {b : UInt8} (hb : b ≠ backslash) (hd : b ≠ d) (rest : List UInt8) (more : Bool) :
    walks d more (b :: rest) = walks d more rest := by
  cases rest with
  | nil =>
      unfold walks
      rw [if_neg fun h => hb h.1]
      exact decide_eq_true hd
  | cons c rest =>
      rw [walks, if_neg hb, decide_eq_true hd]
      rfl

theorem walks_mono {p : List UInt8} (h : walks d true p = true) : walks d false p = true := by
  induction p using walks.induct true with
  | case1 => rfl
  | case2 b hb =>
      unfold walks at h
      rw [if_pos hb] at h
      cases h
  | case3 b hb =>
      unfold walks at h ⊢
      rw [if_neg hb] at h
      rw [if_neg fun hand => (nomatch hand.2)]
      exact h
  | case4 c rest ih =>
      rw [walks_escaped] at h ⊢
      exact ih h
  | case5 b c rest hb ih =>
      rw [walks, if_neg hb, Bool.and_eq_true] at h ⊢
      exact ⟨h.1, ih h.2⟩

/-- What has been read of a field, from which on the walk goes as from the start. -/
def Walked (d : UInt8) (cur : List UInt8) : Prop := ∀ x more, walks d more (cur ++ x) = walks d more x

theorem Walked.nil : Walked d [] := fun _ _ => rfl

theorem Walked.escaped {cur : List UInt8} (h : Walked d cur) (c : UInt8) :
    Walked d (cur ++ [backslash, c]) := by
  intro x more
  rw [List.append_assoc, h]
  exact walks_escaped c x more

theorem Walked.snoc {cur : List UInt8} (h : Walked d cur) {b : UInt8} (hb : b ≠ backslash) (hd : b ≠ d) :
    Walked d (cur ++ [b]) := by
  intro x more
  rw [List.append_assoc, h]
  exact walks_cons hb hd x more

theorem Walked.walks {cur : List UInt8} (h : Walked d cur) (more : Bool) : walks d more cur = true := by
  have := h [] more
  rwa [List.append_nil] at this

/-! ## Fields -/

/-- Between delimiters: every field but the last is walked with more behind it. -/
def Between (d : UInt8) (fields : List (List UInt8)) : Prop :=
  ∀ k seg, fields[k]? = some seg → walks d (k + 1 < fields.length) seg = true

theorem Between.cons {f : List UInt8} {fields : List (List UInt8)} (hne : fields ≠ [])
    (hf : walks d true f = true) (h : Between d fields) : Between d (f :: fields) := by
  intro k seg hk
  cases k with
  | zero =>
      cases hk
      have hlen := List.length_pos_iff.2 hne
      rw [List.length_cons, decide_eq_true (by omega)]
      exact hf
  | succ k =>
      have := h k seg hk
      rw [List.length_cons]
      simpa using this

theorem Between.single {f : List UInt8} (hf : walks d false f = true) : Between d [f] := by
  intro k seg hk
  cases k with
  | zero =>
      cases hk
      exact hf
  | succ k => cases hk

theorem splitTextLine_ne_nil (line cur : List UInt8) : splitTextLine d line cur ≠ [] := by
  induction line, cur using splitTextLine.induct d with
  | case1 field => exact List.cons_ne_nil _ _
  | case2 field =>
      unfold splitTextLine
      rw [if_pos rfl]
      exact List.cons_ne_nil _ _
  | case3 b field hb =>
      unfold splitTextLine
      rw [if_neg hb]
      exact List.cons_ne_nil _ _
  | case4 c rest field ih =>
      unfold splitTextLine
      rw [if_pos rfl]
      exact ih
  | case5 c rest field hb ih =>
      unfold splitTextLine
      rw [if_neg hb, if_pos rfl]
      exact List.cons_ne_nil _ _
  | case6 b c rest field hb hd ih =>
      unfold splitTextLine
      rw [if_neg hb, if_neg hd]
      exact ih

/-- The fields of a line are between its delimiters. -/
theorem between_splitTextLine {line cur : List UInt8} (hcur : Walked d cur) :
    Between d (splitTextLine d line cur) := by
  induction line, cur using splitTextLine.induct d with
  | case1 field => exact .single (hcur.walks false)
  | case2 field =>
      unfold splitTextLine
      rw [if_pos rfl]
      exact .cons (List.cons_ne_nil _ _) (hcur.walks true) (.single rfl)
  | case3 b field hb =>
      unfold splitTextLine
      rw [if_neg hb]
      refine .single ?_
      rw [hcur]
      unfold walks
      rw [if_neg fun h => (nomatch h.2)]
      exact decide_eq_true hb
  | case4 c rest field ih =>
      unfold splitTextLine
      rw [if_pos rfl]
      exact ih (hcur.escaped c)
  | case5 c rest field hb ih =>
      unfold splitTextLine
      rw [if_neg hb, if_pos rfl]
      exact .cons (splitTextLine_ne_nil _ _) (hcur.walks true) (ih .nil)
  | case6 b c rest field hb hd ih =>
      unfold splitTextLine
      rw [if_neg hb, if_neg hd]
      exact ih (hcur.snoc hb hd)

/-- The fields and the delimiters make up the line. -/
theorem intercalate_splitTextLine (line cur : List UInt8) :
    List.intercalate [d] (splitTextLine d line cur) = cur ++ line := by
  have hcons (f : List UInt8) {fields : List (List UInt8)} (hne : fields ≠ []) :
      List.intercalate [d] (f :: fields) = f ++ d :: List.intercalate [d] fields := by
    cases fields with
    | nil => exact absurd rfl hne
    | cons g fields => rw [List.intercalate_cons_cons, List.append_assoc, List.singleton_append]
  induction line, cur using splitTextLine.induct d with
  | case1 field => rw [splitTextLine, List.intercalate_singleton, List.append_nil]
  | case2 field =>
      unfold splitTextLine
      rw [if_pos rfl, hcons field (List.cons_ne_nil _ _), List.intercalate_singleton]
  | case3 b field hb =>
      unfold splitTextLine
      rw [if_neg hb, List.intercalate_singleton]
  | case4 c rest field ih =>
      unfold splitTextLine
      rw [if_pos rfl, ih, List.append_assoc]
      rfl
  | case5 c rest field hb ih =>
      unfold splitTextLine
      rw [if_neg hb, if_pos rfl, hcons field (splitTextLine_ne_nil _ _), ih]
      rfl
  | case6 b c rest field hb hd ih =>
      unfold splitTextLine
      rw [if_neg hb, if_neg hd, ih, List.append_assoc]
      rfl

theorem splitTextLine_delimiter {rest : List UInt8} (h : d ≠ backslash ∨ rest = []) (cur : List UInt8) :
    splitTextLine d (d :: rest) cur = cur :: splitTextLine d rest [] := by
  cases rest with
  | nil =>
      unfold splitTextLine
      rw [if_pos rfl]
  | cons c rest =>
      have hd : d ≠ backslash := by
        rcases h with h | h
        · exact h
        · cases h
      rw [splitTextLine, if_neg hd, if_pos rfl]

/-- A field is read up to the delimiter behind it, unless that is taken along itself. -/
theorem splitTextLine_walks {p rest : List UInt8} (hp : walks d true p = true)
    (h : d ≠ backslash ∨ rest = []) (cur : List UInt8) :
    splitTextLine d (p ++ d :: rest) cur = (cur ++ p) :: splitTextLine d rest [] := by
  induction p using walks.induct true generalizing cur with
  | case1 => rw [List.nil_append, splitTextLine_delimiter h, List.append_nil]
  | case2 b hb =>
      unfold walks at hp
      rw [if_pos hb] at hp
      cases hp
  | case3 b hb =>
      unfold walks at hp
      rw [if_neg hb] at hp
      have hback : b ≠ backslash := fun heq => hb ⟨heq, rfl⟩
      rw [List.singleton_append, splitTextLine, if_neg hback, if_neg (of_decide_eq_true hp),
        splitTextLine_delimiter h]
  | case4 c p ih =>
      rw [walks_escaped] at hp
      rw [List.cons_append, List.cons_append, splitTextLine, if_pos rfl, ih hp, List.append_assoc]
      rfl
  | case5 b c p hb ih =>
      rw [walks, if_neg hb, Bool.and_eq_true] at hp
      have hrest := ih hp.2 (cur ++ [b])
      rw [List.cons_append] at hrest
      rw [List.cons_append, List.cons_append, splitTextLine, if_neg hb, if_neg (of_decide_eq_true hp.1),
        hrest, List.append_assoc]
      rfl

theorem splitTextLine_last {p : List UInt8} (hp : walks d false p = true) (cur : List UInt8) :
    splitTextLine d p cur = [cur ++ p] := by
  induction p using walks.induct false generalizing cur with
  | case1 => rw [splitTextLine, List.append_nil]
  | case2 b hb => exact nomatch hb.2
  | case3 b hb =>
      unfold walks at hp
      rw [if_neg hb] at hp
      rw [splitTextLine, if_neg (of_decide_eq_true hp)]
  | case4 c p ih =>
      rw [walks_escaped] at hp
      rw [splitTextLine, if_pos rfl, ih hp, List.append_assoc]
      rfl
  | case5 b c p hb ih =>
      rw [walks, if_neg hb, Bool.and_eq_true] at hp
      rw [splitTextLine, if_neg hb, if_neg (of_decide_eq_true hp.1), ih hp.2, List.append_assoc]
      rfl

/-- The delimiters between the fields are read as such: a backslash only at the end of the line. -/
def Separable (d : UInt8) (fields : List (List UInt8)) : Prop :=
  2 ≤ fields.length → d = backslash → fields.length = 2 ∧ fields.getLast? = some []

theorem splitTextLine_intercalate {fields : List (List UInt8)} (hne : fields ≠ [])
    (h : Between d fields) (hsep : Separable d fields) :
    splitTextLine d (List.intercalate [d] fields) [] = fields := by
  induction fields with
  | nil => exact absurd rfl hne
  | cons f fields ih =>
      cases fields with
      | nil =>
          have hf : walks d false f = true := h 0 f rfl
          rw [List.intercalate_singleton, splitTextLine_last hf, List.nil_append]
      | cons g fields =>
          have hf : walks d true f = true := by
            have := h 0 f rfl
            rwa [List.length_cons, List.length_cons, decide_eq_true (by omega)] at this
          have hrest : Between d (g :: fields) := by
            intro k seg hk
            have := h (k + 1) seg hk
            rw [List.length_cons] at this
            simpa using this
          have hback : d ≠ backslash ∨ List.intercalate [d] (g :: fields) = [] := by
            by_cases hd : d = backslash
            · obtain ⟨hlen, hlast⟩ := hsep (by rw [List.length_cons, List.length_cons]; omega) hd
              rw [List.length_cons, List.length_cons] at hlen
              obtain rfl := List.eq_nil_of_length_eq_zero (by omega : fields.length = 0)
              cases hlast
              exact .inr rfl
            · exact .inl hd
          have hseprest : Separable d (g :: fields) := by
            intro htwo hd
            obtain ⟨hlen, -⟩ := hsep (by rw [List.length_cons]; omega) hd
            rw [List.length_cons] at hlen
            omega
          rw [List.intercalate_cons_cons, List.append_assoc, List.singleton_append,
            splitTextLine_walks hf hback, ih (List.cons_ne_nil _ _) hrest hseprest, List.nil_append]

/-- With a backslash for a delimiter, a line is split at its end at most. -/
theorem splitTextLine_backslash (line cur : List UInt8) :
    (∃ f, splitTextLine backslash line cur = [f]) ∨ ∃ f, splitTextLine backslash line cur = [f, []] := by
  induction line, cur using splitTextLine.induct backslash with
  | case1 field => exact .inl ⟨field, rfl⟩
  | case2 field =>
      unfold splitTextLine
      rw [if_pos rfl]
      exact .inr ⟨field, rfl⟩
  | case3 b field hb =>
      unfold splitTextLine
      rw [if_neg hb]
      exact .inl ⟨field ++ [b], rfl⟩
  | case4 c rest field ih =>
      unfold splitTextLine
      rw [if_pos rfl]
      exact ih
  | case5 c rest field hb ih => exact absurd rfl hb
  | case6 b c rest field hb hd ih =>
      unfold splitTextLine
      rw [if_neg hb, if_neg hd]
      exact ih

theorem splitTextLine_of_not_mem {line : List UInt8} (h : d ∉ line) (cur : List UInt8) :
    splitTextLine d line cur = [cur ++ line] := by
  induction line, cur using splitTextLine.induct d with
  | case1 field => rw [splitTextLine, List.append_nil]
  | case2 field => exact absurd List.mem_cons_self h
  | case3 b field hb =>
      unfold splitTextLine
      rw [if_neg hb]
  | case4 c rest field ih =>
      unfold splitTextLine
      rw [if_pos rfl, ih fun hmem => h (by simp [hmem]), List.append_assoc]
      rfl
  | case5 c rest field hb ih => exact absurd List.mem_cons_self h
  | case6 b c rest field hb hd ih =>
      unfold splitTextLine
      rw [if_neg hb, if_neg hd, ih fun hmem => h (List.mem_cons_of_mem b hmem), List.append_assoc]
      rfl

/-! ## Escaping -/

/-- The bytes that escape a control character. -/
def letters : List UInt8 := [98, 102, 110, 114, 116, 118]

/-- What the reader makes of an escaped byte. -/
def readBack (o : CopyOptions) (b : UInt8) : UInt8 :=
  if b = o.delimiter ∧ b ∈ letters then unescapeByte b else b

theorem escapeByte_cases (o : CopyOptions) (b : UInt8) :
    (∃ c, escapeByte o b = [backslash, c] ∧ unescapeByte c = readBack o b ∧ c ≠ newline ∧
      c ≠ carriageReturn) ∨
      (escapeByte o b = [b] ∧ b ≠ backslash ∧ b ≠ o.delimiter ∧ b ≠ newline ∧ b ≠ carriageReturn) := by
  have hspecial (c : UInt8) (hc : b ∉ letters) (hcb : unescapeByte c = b) :
      unescapeByte c = readBack o b := by
    unfold readBack
    rw [if_neg fun h => hc h.2, hcb]
  unfold escapeByte
  by_cases h1 : b = backslash
  · rw [if_pos h1]
    subst h1
    exact .inl ⟨backslash, rfl, hspecial _ (by decide) rfl, by decide, by decide⟩
  rw [if_neg h1]
  by_cases h2 : b = 8
  · rw [if_pos h2]
    subst h2
    exact .inl ⟨98, rfl, hspecial _ (by decide) rfl, by decide, by decide⟩
  rw [if_neg h2]
  by_cases h3 : b = 12
  · rw [if_pos h3]
    subst h3
    exact .inl ⟨102, rfl, hspecial _ (by decide) rfl, by decide, by decide⟩
  rw [if_neg h3]
  by_cases h4 : b = newline
  · rw [if_pos h4]
    subst h4
    exact .inl ⟨110, rfl, hspecial _ (by decide) rfl, by decide, by decide⟩
  rw [if_neg h4]
  by_cases h5 : b = carriageReturn
  · rw [if_pos h5]
    subst h5
    exact .inl ⟨114, rfl, hspecial _ (by decide) rfl, by decide, by decide⟩
  rw [if_neg h5]
  by_cases h6 : b = 9
  · rw [if_pos h6]
    subst h6
    exact .inl ⟨116, rfl, hspecial _ (by decide) rfl, by decide, by decide⟩
  rw [if_neg h6]
  by_cases h7 : b = 11
  · rw [if_pos h7]
    subst h7
    exact .inl ⟨118, rfl, hspecial _ (by decide) rfl, by decide, by decide⟩
  rw [if_neg h7]
  by_cases h8 : b = o.delimiter
  · rw [if_pos h8]
    refine .inl ⟨b, rfl, ?_, h4, h5⟩
    unfold readBack
    by_cases hl : b ∈ letters
    · rw [if_pos ⟨h8, hl⟩]
    · rw [if_neg fun h => hl h.2]
      unfold letters at hl
      simp only [List.mem_cons, List.not_mem_nil, not_or] at hl
      obtain ⟨ha, hb, hc, hd, he, hf, -⟩ := hl
      unfold unescapeByte
      rw [if_neg ha, if_neg hb, if_neg hc, if_neg hd, if_neg he, if_neg hf]
  · rw [if_neg h8]
    exact .inr ⟨rfl, h1, h8, h4, h5⟩

theorem walked_escaped (bs : List UInt8) : Walked o.delimiter (bs.flatMap (escapeByte o)) := by
  induction bs with
  | nil => exact .nil
  | cons b bs ih =>
      intro x more
      rw [List.flatMap_cons, List.append_assoc]
      rcases escapeByte_cases o b with ⟨c, hc, -⟩ | ⟨hb, hback, hd, -⟩
      · rw [hc, List.cons_append, List.singleton_append, walks_escaped, ih]
      · rw [hb, List.singleton_append, walks_cons hback hd, ih]

/-- Escaped text has no delimiter to meet, and takes nothing along. -/
theorem walks_escapeText (s : String) (more : Bool) : walks o.delimiter more (escapeText o s) = true :=
  (walked_escaped (bytes s)).walks more

theorem not_mem_escapeText (s : String) : newline ∉ escapeText o s ∧ carriageReturn ∉ escapeText o s := by
  have hboth (x : UInt8) (hx : x = newline ∨ x = carriageReturn) : x ∉ escapeText o s := by
    intro hmem
    obtain ⟨b, -, hb⟩ := List.mem_flatMap.1 hmem
    rcases escapeByte_cases o b with ⟨c, hc, -, hn, hr⟩ | ⟨hself, -, -, hn, hr⟩
    · rw [hc] at hb
      rcases List.mem_cons.1 hb with rfl | hb
      · rcases hx with hx | hx <;> exact absurd hx (by decide)
      · rw [List.mem_singleton.1 hb] at hx
        rcases hx with hx | hx
        · exact hn hx
        · exact hr hx
    · rw [hself] at hb
      rw [List.mem_singleton.1 hb] at hx
      rcases hx with hx | hx
      · exact hn hx
      · exact hr hx
  exact ⟨hboth newline (.inl rfl), hboth carriageReturn (.inr rfl)⟩

theorem unescapeBytes_escaped (bs : List UInt8) :
    unescapeBytes (bs.flatMap (escapeByte o)) = some (bs.map (readBack o)) := by
  induction bs with
  | nil => rfl
  | cons b bs ih =>
      rw [List.flatMap_cons, List.map_cons]
      rcases escapeByte_cases o b with ⟨c, hc, hread, -⟩ | ⟨hself, hback, hd, -⟩
      · rw [hc, ← hread, List.cons_append, List.singleton_append, unescapeBytes, if_pos rfl, ih]
        rfl
      · have hread : readBack o b = b := by
          unfold readBack
          rw [if_neg fun h => hd h.1]
        rw [hself, hread, List.singleton_append]
        generalize bs.flatMap (escapeByte o) = rest at ih ⊢
        cases rest with
        | nil =>
            have hnil : [] = bs.map (readBack o) := Option.some.inj ih
            unfold unescapeBytes
            rw [if_neg hback, ← hnil]
        | cons c rest =>
            rw [unescapeBytes, if_neg hback, ih]
            rfl

end Copy
