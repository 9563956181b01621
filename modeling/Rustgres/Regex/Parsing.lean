-- SUMMARY: What the parser of regular expressions accepts is well formed, and its fuel lasts.
import Rustgres.Regex.Semantics

/-!
# What the parser accepts

Each parser is described by what its answers satisfy and by the fuel with which it does not run out. The groups of an
expression have the next numbers, in the order of their opening parentheses.
-/

namespace Regex

/-! ## Answers of a parser -/

section

variable {α β : Type}

/-- Every result satisfies `P`, and with enough fuel the parser does not run out. -/
structure Answers (enough : Prop) (P : α → Prop) (r : Except ParseError α) : Prop where
  result : ∀ a, r = .ok a → P a
  fuel : enough → r ≠ .error .outOfFuel

variable {enough enough' : Prop} {P : α → Prop} {Q : β → Prop} {r : Except ParseError α}

theorem Answers.ok {a : α} (h : P a) : Answers enough P (.ok a) where
  result := fun _ hb => by
    cases hb
    exact h
  fuel := fun _ hb => by cases hb

theorem Answers.fail (text : String) : Answers enough P (Regex.fail text) where
  result := fun _ hb => by cases hb
  fuel := fun _ hb => by cases hb

theorem Answers.mono {P' : α → Prop} (h : Answers enough P r) (hP : ∀ a, P a → P' a) (he : enough' → enough) :
    Answers enough' P' r where
  result := fun a ha => hP a (h.result a ha)
  fuel := fun hen => h.fuel (he hen)

theorem Answers.bind {f : α → Except ParseError β} (h : Answers enough P r) (he : enough' → enough)
    (hf : ∀ a, P a → Answers enough' Q (f a)) : Answers enough' Q (r >>= f) := by
  cases hr : r with
  | error e =>
      refine ⟨fun b hb => (by cases hb), fun hen hb => ?_⟩
      change Except.error e = _ at hb
      cases hb
      exact h.fuel (he hen) hr
  | ok a => exact hf a (h.result a hr)

theorem Answers.map {f : α → β} (h : Answers enough P r) (hf : ∀ a, P a → Q (f a)) : Answers enough Q (r.map f) := by
  cases hr : r with
  | error e =>
      refine ⟨fun b hb => (by cases hb), fun hen hb => ?_⟩
      change Except.error e = _ at hb
      cases hb
      exact h.fuel hen hr
  | ok a => exact .ok (hf a (h.result a hr))

end

/-! ## Numbers of groups -/

mutual

/-- The numbers of the groups, in the order of their opening parentheses. -/
def groupIdxs : Ast → List Nat
  | .seq v => allGroupIdxs v
  | .alt v => allGroupIdxs v
  | .repeated inner _ _ _ => groupIdxs inner
  | .group inner idx => idx :: groupIdxs inner
  | _ => []

def allGroupIdxs : List Ast → List Nat
  | [] => []
  | a :: v => groupIdxs a ++ allGroupIdxs v

end

/-- Some of the pattern was read, and these groups were opened. -/
structure Reads (p p' : Parser) (ids : List Nat) : Prop where
  shorter : p'.rest.length ≤ p.rest.length
  groups : p.groups ≤ p'.groups
  ids : ids = List.range' (p.groups + 1) (p'.groups - p.groups)

variable {p o p' : Parser} {ids ids' : List Nat} {expanded : Bool}

theorem Reads.refl (p : Parser) : Reads p p [] := ⟨Nat.le_refl _, Nat.le_refl _, by rw [Nat.sub_self]; rfl⟩

theorem Reads.trans (h : Reads p o ids) (h' : Reads o p' ids') : Reads p p' (ids ++ ids') where
  shorter := h'.shorter.trans h.shorter
  groups := h.groups.trans h'.groups
  ids := by
    have hg := h.groups
    have hg' := h'.groups
    have hstart : o.groups + 1 = p.groups + 1 + (o.groups - p.groups) := by omega
    rw [h.ids, h'.ids, hstart, List.range'_append_1]
    congr 1
    omega

/-- Reading opens no group by itself. -/
theorem Reads.of_rest (hgroups : p'.groups = p.groups) (h : p'.rest.length ≤ p.rest.length) : Reads p p' [] :=
  ⟨h, Nat.le_of_eq hgroups.symm, by rw [hgroups, Nat.sub_self]; rfl⟩

theorem reads_skip (p : Parser) (n : Nat) : Reads p (p.skip n) [] := by
  refine .of_rest rfl ?_
  unfold Parser.skip
  rw [List.length_drop]
  exact Nat.sub_le _ _

theorem length_skip_lt {c : Char} (h : p.peek = some c) : (p.skip 1).rest.length < p.rest.length := by
  unfold Parser.peek at h
  unfold Parser.skip
  cases hrest : p.rest with
  | nil =>
      rw [hrest] at h
      cases h
  | cons c' s =>
      rw [List.length_drop]
      exact Nat.lt_succ_self _

theorem length_skipIgnoredFrom (comment : Bool) (s : List Char) : (skipIgnoredFrom comment s).length ≤ s.length := by
  induction s generalizing comment with
  | nil =>
      cases comment with
      | false => exact Nat.le_refl _
      | true => exact Nat.le_refl _
  | cons c s ih =>
      cases comment with
      | false =>
          unfold skipIgnoredFrom
          split
          · exact (ih false).trans (Nat.le_succ _)
          · split
            · exact (ih true).trans (Nat.le_succ _)
            · exact Nat.le_refl _
      | true =>
          unfold skipIgnoredFrom
          split
          · exact (ih false).trans (Nat.le_succ _)
          · exact (ih true).trans (Nat.le_succ _)

theorem reads_skipIgnored (expanded : Bool) (p : Parser) : Reads p (p.skipIgnored expanded) [] := by
  unfold Parser.skipIgnored
  split
  · exact .of_rest rfl (length_skipIgnoredFrom false p.rest)
  · exact .refl p

/-! ## Atoms without parts -/

/-- The parser reads an expression of its own groups and nothing twice. -/
structure ReadsAst (p : Parser) (r : Ast × Parser) : Prop where
  reads : Reads p r.2 (groupIdxs r.1)
  wf : r.1.Wf

theorem answers_parseEscape (p : Parser) : Answers True (ReadsAst p) p.parseEscape := by
  unfold Parser.parseEscape
  cases hrest : p.rest with
  | nil => exact .fail _
  | cons c s =>
      have hreads : Reads p { p with rest := s } [] := .of_rest rfl (by rw [hrest]; exact Nat.le_succ _)
      refine .ok ⟨?_, ?_⟩
      · dsimp only
        unfold escapeOf
        split_ifs <;> exact hreads
      · dsimp only
        unfold escapeOf
        split_ifs <;> exact trivial

theorem answers_posixClass (name : List Char) : Answers True (fun _ => True) (posixClass name) := by
  unfold posixClass
  split
  · exact .ok trivial
  · exact .fail _

theorem answers_parsePosix (s : List Char) :
    Answers True (fun r : ClassStep × List Char => r.2.length ≤ s.length) (parsePosix s) := by
  unfold parsePosix
  dsimp only
  have hle : (s.drop (s.takeWhile (· ≠ ':')).length).length ≤ s.length := by
    rw [List.length_drop]
    exact Nat.sub_le _ _
  split
  · rename_i rest hrest
    rw [hrest] at hle
    refine (answers_posixClass _).bind id fun r _ => ?_
    exact .ok ((Nat.le_add_right _ 2).trans hle)
  · exact .fail _

theorem answers_parseItem (c : Char) (s : List Char) :
    Answers True (fun r : ClassStep × List Char => r.2.length ≤ s.length) (parseItem c s) := by
  have hle : (s.drop 1).length ≤ s.length := by
    rw [List.length_drop]
    exact Nat.sub_le _ _
  unfold parseItem
  split_ifs
  · split
    · exact .fail _
    · rename_i rest hrest
      rw [hrest] at hle
      exact .ok ((Nat.le_succ _).trans hle)
    · rename_i rest hrest
      rw [hrest] at hle
      split_ifs
      · exact .fail _
      · exact .ok ((Nat.le_succ _).trans hle)
  · exact .ok (Nat.le_refl _)

theorem answers_classStep (first : Bool) (s : List Char) :
    Answers True (fun r : ClassStep × List Char => r.2.length < s.length) (classStep first s) := by
  cases s with
  | nil => exact .fail _
  | cons c s =>
      unfold classStep
      dsimp only
      split_ifs
      · exact .ok (Nat.lt_succ_self _)
      · refine (answers_parsePosix _).mono (fun r hr => ?_) id
        rw [List.length_drop] at hr
        exact Nat.lt_succ_of_le (hr.trans (Nat.sub_le _ _))
      · split
        · exact .fail _
        · split
          · exact .ok (Nat.lt_succ_of_lt (Nat.lt_succ_self _))
          · exact .ok (Nat.lt_succ_of_lt (Nat.lt_succ_self _))
          · exact .fail _
      · exact (answers_parseItem c s).mono (fun r hr => Nat.lt_succ_of_le hr) id

theorem answers_classItems (fuel : Nat) (first : Bool) (ranges : List (Char × Char)) (singles s : List Char) :
    Answers (s.length < fuel) (fun r : (List (Char × Char) × List Char) × List Char => r.2.length ≤ s.length)
      (classItems fuel first ranges singles s) := by
  induction fuel generalizing first ranges singles s with
  | zero => exact ⟨fun a ha => (by cases ha), fun h => absurd h (Nat.not_lt_zero _)⟩
  | succ fuel ih =>
      refine (answers_classStep first s).bind (fun _ => trivial) fun r hr => ?_
      obtain ⟨step, rest⟩ := r
      cases step with
      | close => exact .ok hr.le
      | last t u => exact .ok hr.le
      | item t u =>
          exact (ih false _ _ rest).mono (fun r hr' => hr'.trans hr.le) fun hlt =>
            Nat.lt_of_lt_of_le hr (Nat.le_of_lt_succ hlt)

theorem answers_parseClass (p : Parser) : Answers True (ReadsAst p) p.parseClass := by
  unfold Parser.parseClass
  dsimp only
  have hle : (if p.peek = some '^' then p.rest.drop 1 else p.rest).length ≤ p.rest.length := by
    split_ifs
    · rw [List.length_drop]
      exact Nat.sub_le _ _
    · exact Nat.le_refl _
  refine (answers_classItems _ _ _ _ _).bind (fun _ => ?_) fun r hr => ?_
  · exact Nat.lt_succ_self _
  · exact .ok ⟨.of_rest rfl (hr.trans hle), trivial⟩

/-! ## Repetitions -/

theorem reads_eatLazy (p : Parser) : Reads p p.eatLazy.2 [] := by
  unfold Parser.eatLazy
  split
  · exact reads_skip p 1
  · exact .refl p

theorem answers_parseNum (p : Parser) : Answers True (fun r : Nat × Parser => Reads p r.2 []) p.parseNum := by
  unfold Parser.parseNum
  dsimp only
  split_ifs
  · exact .fail _
  · exact .ok (reads_skip p _)
  · exact .fail _

theorem answers_parseMax (min : Nat) (p : Parser) :
    Answers True (fun r : Option Nat × Parser => Reads p r.2 []) (p.parseMax min) := by
  unfold Parser.parseMax
  split_ifs
  · exact .ok (reads_skip p 1)
  · exact (answers_parseNum _).map fun r hr => (reads_skip p 1).trans hr
  · exact .ok (.refl p)

theorem answers_parseBounds (p : Parser) :
    Answers True (fun r : (Nat × Option Nat) × Parser => Reads p r.2 [] ∧ ∀ mx ∈ r.1.2, r.1.1 ≤ mx) p.parseBounds := by
  unfold Parser.parseBounds
  refine (answers_parseNum p).bind id fun r hr => (answers_parseMax r.1 r.2).bind id fun r' hr' => ?_
  dsimp only
  split_ifs with hclose hbounds
  · exact .fail _
  · refine .ok ⟨(hr.trans hr').trans (reads_skip _ 1), fun mx hmx => ?_⟩
    rw [Option.mem_def] at hmx
    dsimp only at hmx
    rw [hmx] at hbounds
    simpa using hbounds
  · exact .fail _

theorem answers_parseQuantifier {atom : Ast} (hw : atom.Wf) (hp : Reads p o (groupIdxs atom)) :
    Answers True (fun r : Ast × Parser => ReadsAst p r ∧ r.2.rest.length ≤ o.rest.length) (o.parseQuantifier atom) := by
  have hquantified : ∀ (min : Nat) (max : Option Nat) (q : Parser), Reads o q [] → (∀ mx ∈ max, min ≤ mx) →
      ReadsAst p (.repeated atom min max q.eatLazy.1, q.eatLazy.2) ∧ q.eatLazy.2.rest.length ≤ o.rest.length :=
    fun min max q hq hbounds => by
      have hlazy := hq.trans (reads_eatLazy q)
      have hall := hp.trans hlazy
      rw [List.append_nil, List.append_nil] at hall
      exact ⟨⟨hall, hw, hbounds⟩, hlazy.shorter⟩
  unfold Parser.parseQuantifier
  dsimp only
  split_ifs
  · exact .ok (hquantified 0 none _ (reads_skip o 1) fun _ hm => by cases hm)
  · exact .ok (hquantified 1 none _ (reads_skip o 1) fun _ hm => by cases hm)
  · exact .ok (hquantified 0 (some 1) _ (reads_skip o 1) fun _ _ => Nat.zero_le _)
  · refine (answers_parseBounds _).bind id fun r hr => ?_
    exact .ok (hquantified r.1.1 r.1.2 r.2 ((reads_skip o 1).trans hr.1) hr.2)
  · exact .ok ⟨⟨hp, hw⟩, Nat.le_refl _⟩

/-! ## Sequences and alternatives -/

theorem seqOf_reads {v : List Ast} (h : Reads p p' (allGroupIdxs v)) (hw : AllWf v) : ReadsAst p (seqOf v, p') := by
  cases v with
  | nil => exact ⟨h, trivial⟩
  | cons a v =>
      cases v with
      | nil =>
          change Reads p p' (groupIdxs a ++ []) at h
          rw [List.append_nil] at h
          exact ⟨h, hw.1⟩
      | cons b v => exact ⟨h, hw⟩

theorem altOf_reads {a : Ast} {v : List Ast} (h : Reads p p' (allGroupIdxs (a :: v))) (hw : AllWf (a :: v)) :
    ReadsAst p (altOf (a :: v), p') := by
  cases v with
  | nil =>
      change Reads p p' (groupIdxs a ++ []) at h
      rw [List.append_nil] at h
      exact ⟨h, hw.1⟩
  | cons b v => exact ⟨h, List.cons_ne_nil _ _, hw⟩

/-- A list of expressions was read. -/
structure ReadsAll (p : Parser) (r : List Ast × Parser) : Prop where
  reads : Reads p r.2 (allGroupIdxs r.1)
  wf : AllWf r.1

theorem ReadsAll.nil (h : Reads p p' []) : ReadsAll p ([], p') := ⟨h, trivial⟩

theorem ReadsAll.cons {a : Ast} {v : List Ast} (ha : ReadsAst p (a, o)) (hv : ReadsAll o (v, p')) :
    ReadsAll p (a :: v, p') := ⟨ha.reads.trans hv.reads, ha.wf, hv.wf⟩

theorem ReadsAll.after {r : List Ast × Parser} (ho : Reads p o []) (h : ReadsAll o r) : ReadsAll p r :=
  ⟨ho.trans h.reads, h.wf⟩

theorem ReadsAst.after {r : Ast × Parser} (ho : Reads p o []) (h : ReadsAst o r) : ReadsAst p r :=
  ⟨ho.trans h.reads, h.wf⟩

/-- The parser also read a character. -/
def Consumes (p : Parser) (r : Ast × Parser) : Prop := ReadsAst p r ∧ r.2.rest.length < p.rest.length

/-- What the six parsers do with some fuel. Each level needs one unit more than the one below it. -/
structure ParserSpec (expanded : Bool) (fuel : Nat) : Prop where
  atom : ∀ p, Answers (5 * p.rest.length + 1 ≤ fuel) (Consumes p) (parseAtom expanded fuel p)
  repeated : ∀ p, Answers (5 * p.rest.length + 2 ≤ fuel) (Consumes p) (parseRepeat expanded fuel p)
  items : ∀ p, Answers (5 * p.rest.length + 3 ≤ fuel) (ReadsAll p) (parseItems expanded fuel p)
  seq : ∀ p, Answers (5 * p.rest.length + 4 ≤ fuel) (ReadsAst p) (parseSeq expanded fuel p)
  alts : ∀ p, Answers (5 * p.rest.length + 4 ≤ fuel) (ReadsAll p) (parseAlts expanded fuel p)
  alt : ∀ p, Answers (5 * p.rest.length + 5 ≤ fuel) (ReadsAst p) (parseAlt expanded fuel p)

variable {fuel : Nat}

theorem answers_parseAlt (h : ParserSpec expanded fuel) (p : Parser) :
    Answers (5 * p.rest.length + 5 ≤ fuel + 1) (ReadsAst p) (parseAlt expanded (fuel + 1) p) := by
  refine (h.seq p).bind (fun hf => Nat.le_of_succ_le_succ hf) fun r hr => ?_
  have hle := hr.reads.shorter
  refine ((h.alts r.2).bind (fun hf => ?_) fun r' hr' => ?_)
  · omega
  · exact .ok (altOf_reads (hr.reads.trans hr'.reads) ⟨hr.wf, hr'.wf⟩)

theorem answers_parseAlts (h : ParserSpec expanded fuel) (p : Parser) :
    Answers (5 * p.rest.length + 4 ≤ fuel + 1) (ReadsAll p) (parseAlts expanded (fuel + 1) p) := by
  unfold parseAlts
  split_ifs with hbar
  · have hlt := length_skip_lt hbar
    refine (h.seq (p.skip 1)).bind (fun hf => by omega) fun r hr => ?_
    have hle := hr.reads.shorter
    refine (h.alts r.2).bind (fun hf => by omega) fun r' hr' => ?_
    exact .ok (.cons (hr.after (reads_skip p 1)) hr')
  · exact .ok (.nil (.refl p))

theorem answers_parseSeq (h : ParserSpec expanded fuel) (p : Parser) :
    Answers (5 * p.rest.length + 4 ≤ fuel + 1) (ReadsAst p) (parseSeq expanded (fuel + 1) p) :=
  (h.items p).bind (fun hf => Nat.le_of_succ_le_succ hf) fun _ hr => .ok (seqOf_reads hr.reads hr.wf)

theorem answers_parseItems (h : ParserSpec expanded fuel) (p : Parser) :
    Answers (5 * p.rest.length + 3 ≤ fuel + 1) (ReadsAll p) (parseItems expanded (fuel + 1) p) := by
  have hskip := reads_skipIgnored expanded p
  have hle := hskip.shorter
  unfold parseItems
  dsimp only
  split_ifs
  · exact .ok (.nil hskip)
  · refine (h.repeated _).bind (fun hf => by omega) fun r hr => ?_
    have hlt := hr.2
    refine (h.items r.2).bind (fun hf => by omega) fun r' hr' => ?_
    exact .ok (.cons (hr.1.after hskip) hr')

theorem answers_parseRepeat (h : ParserSpec expanded fuel) (p : Parser) :
    Answers (5 * p.rest.length + 2 ≤ fuel + 1) (Consumes p) (parseRepeat expanded (fuel + 1) p) := by
  refine (h.atom p).bind (fun hf => Nat.le_of_succ_le_succ hf) fun r hr => ?_
  refine (answers_parseQuantifier hr.1.wf hr.1.reads).mono (fun r' hr' => ?_) fun _ => trivial
  exact ⟨hr'.1, Nat.lt_of_le_of_lt hr'.2 hr.2⟩

theorem answers_close (p : Parser) : Answers True (fun q => Reads p q []) p.close := by
  unfold Parser.close
  split_ifs
  · exact .ok (reads_skip p 1)
  · exact .fail _

theorem answers_parseAtom (h : ParserSpec expanded fuel) (p : Parser) :
    Answers (5 * p.rest.length + 1 ≤ fuel + 1) (Consumes p) (parseAtom expanded (fuel + 1) p) := by
  have hskip := reads_skipIgnored expanded p
  have hle := hskip.shorter
  unfold parseAtom
  cases hrest : (p.skipIgnored expanded).rest with
  | nil => exact .fail _
  | cons c rest =>
      rw [hrest] at hle
      have hlt : rest.length < p.rest.length := hle
      have hafter : Reads p { p with rest := rest } [] := .of_rest rfl hlt.le
      have hshort : ∀ {r : Ast × Parser}, ReadsAst { p with rest := rest } r → Consumes p r :=
        fun hr => ⟨hr.after hafter, Nat.lt_of_le_of_lt hr.reads.shorter hlt⟩
      have hleaf : ∀ {a : Ast}, groupIdxs a = [] → a.Wf → Consumes p (a, { p with rest := rest }) := fun hids hw =>
        hshort ⟨by rw [hids]; exact .refl _, hw⟩
      dsimp only
      split_ifs
      · -- a group that captures nothing
        refine (h.alt _).bind (fun hf => ?_) fun r hr => ?_
        · have hdrop : (rest.drop 2).length ≤ rest.length := by
            rw [List.length_drop]
            exact Nat.sub_le _ _
          change 5 * (rest.drop 2).length + 5 ≤ fuel
          omega
        · refine (answers_close r.2).bind (fun _ => trivial) fun q hq => ?_
          have hall := (hr.after (reads_skip _ 2)).reads.trans hq
          rw [List.append_nil] at hall
          exact .ok (hshort ⟨hall, hr.wf⟩)
      · refine (h.alt _).bind (fun hf => ?_) fun r hr => ?_
        · change 5 * rest.length + 5 ≤ fuel
          omega
        · refine (answers_close r.2).bind (fun _ => trivial) fun q hq => .ok (hshort ⟨?_, hr.wf⟩)
          have hopen : Reads { p with rest := rest } ⟨rest, p.groups + 1⟩ [p.groups + 1] :=
            ⟨Nat.le_refl _, Nat.le_succ _, by rw [Nat.add_sub_cancel_left]; rfl⟩
          have hall := (hopen.trans hr.reads).trans hq
          rwa [List.append_nil] at hall
      · exact .fail _
      · exact .ok (hleaf rfl trivial)
      · exact .ok (hleaf rfl trivial)
      · exact .ok (hleaf rfl trivial)
      · exact (answers_parseClass _).mono (fun r hr => hshort hr) fun _ => trivial
      · exact (answers_parseEscape _).mono (fun r hr => hshort hr) fun _ => trivial
      · exact .ok (hleaf rfl trivial)

theorem parserSpec (expanded : Bool) (fuel : Nat) : ParserSpec expanded fuel := by
  induction fuel with
  | zero =>
      have hout : ∀ {α : Type} {n : Nat} {P : α → Prop}, Answers (n + 1 ≤ 0) P (.error .outOfFuel) := fun {α n P} =>
        ⟨fun a ha => (by cases ha), fun hle => absurd hle (Nat.not_succ_le_zero n)⟩
      exact ⟨fun _ => hout, fun _ => hout, fun _ => hout, fun _ => hout, fun _ => hout, fun _ => hout⟩
  | succ fuel ih =>
      exact ⟨answers_parseAtom ih, answers_parseRepeat ih, answers_parseItems ih, answers_parseSeq ih,
        answers_parseAlts ih, answers_parseAlt ih⟩

/-- A pattern is parsed into a well-formed expression with its groups numbered in order, and the parser ends. -/
theorem answers_parsePattern (pattern : List Char) (expanded : Bool) :
    Answers True (fun r : Ast × Nat => r.1.Wf ∧ groupIdxs r.1 = List.range' 1 r.2) (parsePattern pattern expanded) := by
  unfold parsePattern
  have hspec := (parserSpec expanded (5 * pattern.length + 5)).alt ⟨pattern, 0⟩
  refine hspec.bind (fun _ => Nat.le_refl _) fun r hr => ?_
  dsimp only
  split
  · refine .ok ⟨hr.wf, ?_⟩
    have hids := hr.reads.ids
    rwa [Nat.sub_zero] at hids
  · exact .fail _

end Regex
