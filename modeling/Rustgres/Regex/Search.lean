-- SUMMARY: Searching a text for a pattern: what is found, what is missed, and which match is preferred.
import Rustgres.Regex.Running
import Rustgres.Regex.Parsing

/-!
# Searching

A search tries the positions from the left. What it finds is a match of the pattern; at a position before it there is
no match, unless the attempt there ran out of its budget. Where every unbounded quantifier has a body that reads, the
attempts end, and each finds the outcome that the pattern prefers.
-/

open Backtracking

namespace Regex

section

variable {lower : Char → List Char} {ci nl : Bool} {s : List Char} {a : Ast} {v : List Ast} {p q : Point}

/-! ## The slot of the whole match -/

theorem Point.caps_saveEnd_zero {g : Nat} (h : g ≠ 0) : (p.saveEnd g).caps[0]? = p.caps[0]? := by
  unfold Point.saveEnd
  split
  · exact List.getElem?_set_ne h
  · rfl

theorem leaf_caps (h : leaf lower ci nl s a p = some q) : q.caps = p.caps := by
  have hread : ∀ {accepts : Char → Bool}, readChar s accepts p = some q → q.caps = p.caps := fun hread => by
    obtain ⟨rfl, -⟩ := readChar_eq_some hread
    rfl
  unfold leaf at h
  split at h
  · exact hread h
  · exact hread h
  · exact hread h
  · split at h
    · cases h
      rfl
    · cases h
  · split at h
    · cases h
      rfl
    · cases h
  · split at h
    · split at h
      · cases h
        rfl
      · cases h
    · cases h
  · cases h
    rfl

theorem mem_allGroupIdxs {idx : Nat} : idx ∈ allGroupIdxs v ↔ ∃ a ∈ v, idx ∈ groupIdxs a := by
  induction v with
  | nil => exact ⟨fun h => absurd h List.not_mem_nil, fun ⟨_, ha, _⟩ => absurd ha List.not_mem_nil⟩
  | cons a v ih =>
      change idx ∈ groupIdxs a ++ allGroupIdxs v ↔ _
      rw [List.mem_append, ih, List.exists_mem_cons_iff]

/-- No group has the number zero, so a match leaves its slot alone. -/
theorem Ast.Matches.caps_zero (hidx : 0 ∉ groupIdxs a) (h : a.Matches lower ci nl s p q) : q.caps[0]? = p.caps[0]? := by
  induction a using Ast.ind generalizing p q with
  | empty | lit | dot | charClass | anchorStart | anchorEnd | backRef => rw [leaf_caps h]
  | seq v ih =>
      change SeqMatches lower ci nl s v p q at h
      induction v generalizing p with
      | nil =>
          obtain rfl : q = p := h
          rfl
      | cons a v ihv =>
          obtain ⟨o, ho, h⟩ := h
          have hsplit : 0 ∉ groupIdxs a ++ allGroupIdxs v := hidx
          rw [List.mem_append, not_or] at hsplit
          rw [ihv (fun b hb => ih b (List.mem_cons_of_mem a hb)) hsplit.2 h]
          exact ih a List.mem_cons_self hsplit.1 ho
  | alt v ih =>
      obtain ⟨a, ha, h⟩ := altMatches_iff.1 h
      exact ih a ha (fun hmem => hidx (mem_allGroupIdxs.2 ⟨a, ha, hmem⟩)) h
  | repeated inner min max isLazy ih =>
      obtain ⟨n, -, -, h⟩ := h
      induction n generalizing p with
      | zero =>
          obtain rfl : q = p := h
          rfl
      | succ n ihn =>
          obtain ⟨o, ho, h⟩ := h
          rw [ihn h]
          exact ih hidx ho
  | group inner idx ih =>
      obtain ⟨o, ho, rfl⟩ := h
      have hsplit : 0 ∉ idx :: groupIdxs inner := hidx
      rw [List.mem_cons, not_or] at hsplit
      rw [Point.caps_saveEnd_zero (Ne.symm hsplit.1), ih hsplit.2 ho]
      exact List.getElem?_set_ne (Ne.symm hsplit.1)

/-- A match that has started at `st` ends with the range of the whole in the first slot. -/
theorem finish_eq {st e : Nat} (h : q.caps[0]? = some (some (st, e))) : q.finish = some (st, q.si) :: q.caps.tail := by
  unfold Point.finish
  cases hcaps : q.caps with
  | nil =>
      rw [hcaps] at h
      cases h
  | cons c caps =>
      rw [hcaps] at h
      obtain rfl : c = some (st, e) := Option.some.inj h
      rfl

end

/-! ## The cache -/

section

variable (lower : Char → List Char)

/-- The caches that calls of the compiler leave behind, beginning with an empty one. -/
inductive Reached : RegexCache → Prop where
  | empty : Reached ∅
  | compile {cache : RegexCache} (h : Reached cache) (pattern : List Char) (opts : RegexOptions) :
      Reached (compileOpts lower cache pattern opts).2

variable {lower}

/-- What the cache holds is what compiling gives. -/
theorem Reached.exact {cache : RegexCache} (h : Reached lower cache) {key : List Char × RegexOptions} {prog : Compiled}
    (hkey : cache.lookup key = some prog) : compilePattern lower key.1 key.2 = .ok prog := by
  induction h with
  | empty => cases hkey
  | @compile cache _ pattern opts ih =>
      unfold compileOpts at hkey
      split at hkey
      · exact ih hkey
      · split at hkey
        · exact ih hkey
        · rename_i prog' hprog
          -- the new entry, or one that was there before
          by_cases hsame : key = (pattern, opts)
          · subst hsame
            rw [AList.lookup_insert] at hkey
            cases hkey
            exact hprog
          · rw [AList.lookup_insert_ne hsame] at hkey
            split at hkey
            · cases hkey
            · exact ih hkey

theorem compileOpts_eq {cache : RegexCache} (h : Reached lower cache) (pattern : List Char) (opts : RegexOptions) :
    (compileOpts lower cache pattern opts).1 = compilePattern lower pattern opts := by
  unfold compileOpts
  split
  · rename_i hit hhit
    exact (h.exact hhit).symm
  · split
    · rename_i e he
      exact he.symm
    · rename_i prog hprog
      exact hprog.symm

/-- The cache keeps to its size. -/
theorem Reached.length_le {cache : RegexCache} (h : Reached lower cache) : cache.entries.length ≤ regexCacheCap := by
  induction h with
  | empty => exact Nat.zero_le _
  | @compile cache _ pattern opts ih =>
      unfold compileOpts
      split
      · exact ih
      · split
        · exact ih
        · dsimp only
          rw [AList.entries_insert, List.length_cons]
          have herase : ∀ c : RegexCache, (c.entries.kerase (pattern, opts)).length ≤ c.entries.length := fun c =>
            (List.kerase_sublist _ _).length_le
          split_ifs with hfull
          · exact Nat.succ_le_succ (Nat.zero_le _)
          · exact Nat.lt_of_le_of_lt (herase cache) (Nat.lt_of_not_le hfull)

/-- Compiling ends, with a program or a complaint about the pattern. -/
theorem compilePattern_ends (pattern : List Char) (opts : RegexOptions) :
    compilePattern lower pattern opts ≠ .error .outOfFuel := by
  have hends := (answers_parsePattern pattern opts.expanded).fuel trivial
  unfold compilePattern
  cases hparse : parsePattern pattern opts.expanded with
  | error e =>
      intro h
      cases h
      exact hends hparse
  | ok r => exact fun h => by cases h

/-- Whatever was compiled before, a pattern compiles to what it does on its own, and the cache stays small. -/
theorem compile_opts_exact {cache : RegexCache} (h : Reached lower cache) (pattern : List Char) (opts : RegexOptions) :
    (compileOpts lower cache pattern opts).1 = compilePattern lower pattern opts ∧
      (compileOpts lower cache pattern opts).1 ≠ .error .outOfFuel ∧
      (compileOpts lower cache pattern opts).2.entries.length ≤ regexCacheCap := by
  have heq := compileOpts_eq h pattern opts
  refine ⟨heq, ?_, (Reached.compile h pattern opts).length_le⟩
  rw [heq]
  exact compilePattern_ends pattern opts

/-- The lower case of ASCII. -/
def asciiLower (c : Char) : List Char := [c.toLower]

theorem compile_opts_exact_twice :
    (compileOpts asciiLower (compileOpts asciiLower ∅ ['A', '*'] ⟨true, false, false⟩).2 ['A', '*']
        ⟨false, false, false⟩).1 =
      compilePattern asciiLower ['A', '*'] ⟨false, false, false⟩ :=
  (compile_opts_exact (Reached.compile .empty ['A', '*'] ⟨true, false, false⟩) ['A', '*'] ⟨false, false, false⟩).1

end

/-! ## Attempts -/

section

variable {lower : Char → List Char} {opts : RegexOptions} {s : List Char} {a : Ast} {groups st : Nat}

theorem start_inText (prog : Compiled) (h : st ≤ s.length) : (prog.start st).InText st s where
  behind := Nat.le_refl st
  le := h
  captured := fun g lo hi hg => by
    cases g with
    | zero =>
        cases hg
        exact ⟨Nat.le_refl _, Nat.le_refl _, Nat.le_refl _⟩
    | succ g =>
        have hnone : (List.replicate prog.groups (none : Option (Nat × Nat)))[g]?.join = some (lo, hi) := hg
        rw [List.getElem?_replicate] at hnone
        split at hnone <;> cases hnone

variable (lower opts s a groups) in
/-- The matches of the pattern from a position on. -/
def MatchesAt (st : Nat) (q : Point) : Prop :=
  a.Matches lower opts.caseInsensitive opts.newlineSensitive s ((compileParsed lower opts a groups).start st) q

/-- What an attempt reaches is in the program, and it accepts only behind the code. -/
theorem reaches_cases {j : Nat}
    (hfrag : Frag lower opts.caseInsensitive (compileParsed lower opts a groups).insns false a 0 j)
    (hmatched : (compileParsed lower opts a groups).insns[j]? = some .matched) {p : Point} {t : Frame}
    (h : Reaches ((compileParsed lower opts a groups).step lower s) ⟨0, p⟩ t) :
    ((compileParsed lower opts a groups).step lower s t ≠ .halt) ∧
      ∀ caps, (compileParsed lower opts a groups).step lower s t = .accept caps → t = ⟨j, t.point⟩ ∧ caps = t.point.finish := by
  have hle : t.pc ≤ j := by
    refine h.invariant (I := fun f => f.pc ≤ j) (fun f t hf hnext => ?_) (Nat.zero_le j)
    rcases Nat.lt_or_eq_of_le hf with hlt | heq
    · obtain ⟨insn, hinsn, -, htargets⟩ := hfrag.inside (Nat.zero_le _) hlt
      exact (htargets _ (pc_mem_targets hinsn hnext)).2
    · rw [← heq] at hmatched
      exact absurd hnext (not_next_accept (step_matched hmatched))
  rcases Nat.lt_or_eq_of_le hle with hlt | heq
  · obtain ⟨insn, hinsn, hne, -⟩ := hfrag.inside (Nat.zero_le _) hlt
    refine ⟨fun hhalt => ?_, fun caps haccept => ?_⟩
    · rw [insn_of_halt hhalt] at hinsn
      cases hinsn
    · rw [(insn_of_accept haccept).1] at hinsn
      cases hinsn
      exact absurd rfl hne
  · refine ⟨fun hhalt => ?_, fun caps haccept => ⟨by rw [← heq], (insn_of_accept haccept).2⟩⟩
    rw [← heq, insn_of_halt hhalt] at hmatched
    cases hmatched

variable (hw : a.Wf) (hfold : Folds lower opts.caseInsensitive a)

include hw hfold

/-- An attempt accepts a match, or fails when there is none. -/
theorem run_spec (st : Nat) :
    (∀ caps, (compileParsed lower opts a groups).run lower s st = .accepted caps →
      ∃ q, MatchesAt lower opts s a groups st q ∧ caps = q.finish) ∧
    ((compileParsed lower opts a groups).run lower s st = .failed → ∀ q, ¬MatchesAt lower opts s a groups st q) := by
  obtain ⟨j, hfrag, hmatched, -⟩ := @compileParsed_frag lower a opts groups hw
  constructor
  · intro caps haccepted
    obtain ⟨f, hf, t, hreach, haccept⟩ := reaches_of_accepted haccepted
    obtain rfl := List.mem_singleton.1 hf
    obtain ⟨heq, rfl⟩ := (reaches_cases hfrag hmatched hreach).2 caps haccept
    rw [heq] at hreach
    obtain ⟨n, hpath⟩ := hreach
    obtain ⟨q, m, -, hq, hrest⟩ := hfrag.leaves hw hfold (.inr (Nat.le_refl j)) hpath
    refine ⟨q, hq, ?_⟩
    cases hrest with
    | refl => rfl
    | head hnext _ => exact absurd hnext (not_next_accept (step_matched hmatched))
  · intro hfailed q hq
    refine not_reaches_of_failed hfailed (fun f hf t hreach => ?_) _ List.mem_cons_self ⟨j, q⟩ q.finish
      (hfrag.reaches hw hfold hq) (step_matched hmatched)
    obtain rfl := List.mem_singleton.1 hf
    exact (reaches_cases hfrag hmatched hreach).1

/-- The verdict when this is the first outcome. -/
def verdictOf : Option Point → Verdict Caps
  | some q => .accepted q.finish
  | none => .failed

variable (lower opts s a groups) in
/-- The outcomes of the pattern from a position on, the preferred one first. -/
def outcomesAt (st : Nat) : List Point :=
  outcomes lower opts.caseInsensitive opts.newlineSensitive s a false ((compileParsed lower opts a groups).start st)

/-- Where the body of every unbounded quantifier reads, an attempt with enough budget accepts the first outcome, or fails
when there is none. -/
theorem search_prefers (hr : regular a = true) (st : Nat) :
    ∃ cost, ∀ budget, cost ≤ budget →
      search ((compileParsed lower opts a groups).step lower s) budget ⟨0, (compileParsed lower opts a groups).start st⟩ [] =
        verdictOf (outcomesAt lower opts s a groups st).head? := by
  obtain ⟨j, hfrag, hmatched, -⟩ := @compileParsed_frag lower a opts groups hw
  have hfold' : Folds lower (compileParsed lower opts a groups).ci a := hfold
  have hyields := hfrag.yields hr hw hfold' ((compileParsed lower opts a groups).start st) (s := s)
  have haccept : ∀ t, At j t → (compileParsed lower opts a groups).step lower s t = .accept t.point.finish := fun t ht => by
    obtain ⟨pc, p⟩ := t
    obtain rfl : pc = j := ht
    exact step_matched hmatched
  obtain ⟨cost, hcost⟩ := hyields.search haccept
  refine ⟨cost, fun budget hle => ?_⟩
  obtain ⟨more, rfl⟩ := Nat.exists_eq_add_of_le' hle
  rw [hcost more [], List.head?_map]
  cases hhead : (outcomesAt lower opts s a groups st).head? with
  | none =>
      have hnone : (outcomes lower (compileParsed lower opts a groups).ci (compileParsed lower opts a groups).newlineSensitive s
        a false ((compileParsed lower opts a groups).start st)).head? = none := hhead
      rw [hnone]
      rfl
  | some q =>
      have hsome : (outcomes lower (compileParsed lower opts a groups).ci (compileParsed lower opts a groups).newlineSensitive s
        a false ((compileParsed lower opts a groups).start st)).head? = some q := hhead
      rw [hsome]
      rfl

/-- An attempt that does not run out of its budget finds what the pattern prefers. -/
theorem run_prefers (hr : regular a = true) (st : Nat)
    (hrun : (compileParsed lower opts a groups).run lower s st ≠ .exhausted) :
    (compileParsed lower opts a groups).run lower s st = verdictOf (outcomesAt lower opts s a groups st).head? := by
  obtain ⟨cost, hcost⟩ := search_prefers hw hfold hr st (s := s)
  rw [← hcost _ (Nat.le_add_left cost ((compileParsed lower opts a groups).budget s))]
  exact (search_mono rfl hrun cost).symm

end

/-! ## All positions -/

section

variable {lower : Char → List Char} {prog : Compiled} {s : List Char}

theorem findFrom_succ {n st : Nat} :
    prog.findFrom lower s (n + 1) st = foundBy (prog.findFrom lower s n (st + 1)) (prog.run lower s st) := rfl

/-- What an attempt accepts, starts where the attempt does. -/
def StartsThere (lower : Char → List Char) (prog : Compiled) (s : List Char) : Prop :=
  ∀ st caps, prog.run lower s st = .accepted caps → ∃ e rest, caps = some (st, e) :: rest

theorem findFrom_some (hstarts : StartsThere lower prog s) {n st ms me : Nat} {caps : Caps}
    (h : prog.findFrom lower s n st = some (ms, me, caps)) :
    st ≤ ms ∧ ms < st + n ∧ prog.run lower s ms = .accepted caps ∧ (∃ rest, caps = some (ms, me) :: rest) ∧
      ∀ st', st ≤ st' → st' < ms → ∀ caps, prog.run lower s st' ≠ .accepted caps := by
  induction n generalizing st with
  | zero => cases h
  | succ n ih =>
      rw [findFrom_succ] at h
      cases hrun : prog.run lower s st with
      | accepted caps' =>
          obtain ⟨e, rest, rfl⟩ := hstarts st caps' hrun
          rw [hrun] at h
          cases h
          exact ⟨Nat.le_refl _, Nat.lt_add_of_pos_right (Nat.succ_pos n), hrun, ⟨rest, rfl⟩, fun st' hle hlt =>
            absurd hlt (Nat.not_lt_of_le hle)⟩
      | failed | exhausted =>
          rw [hrun] at h
          obtain ⟨hle, hlt, haccept, hcaps, hbefore⟩ := ih h
          refine ⟨Nat.le_of_succ_le hle, by omega, haccept, hcaps, fun st' hst' hlt' caps hcaps => ?_⟩
          rcases Nat.lt_or_eq_of_le hst' with hgt | rfl
          · exact hbefore st' hgt hlt' caps hcaps
          · rw [hrun] at hcaps
            cases hcaps

theorem findFrom_none (hstarts : StartsThere lower prog s) {n st : Nat} (h : prog.findFrom lower s n st = none) :
    ∀ st', st ≤ st' → st' < st + n → ∀ caps, prog.run lower s st' ≠ .accepted caps := by
  induction n generalizing st with
  | zero => exact fun st' hle hlt => absurd hlt (Nat.not_lt_of_le hle)
  | succ n ih =>
      rw [findFrom_succ] at h
      intro st' hle hlt caps hcaps
      cases hrun : prog.run lower s st with
      | accepted caps' =>
          obtain ⟨e, rest, rfl⟩ := hstarts st caps' hrun
          rw [hrun] at h
          cases h
      | failed | exhausted =>
          rw [hrun] at h
          rcases Nat.lt_or_eq_of_le hle with hgt | rfl
          · exact ih h st' hgt (by omega) caps hcaps
          · rw [hrun] at hcaps
            cases hcaps

end

section

variable {lower : Char → List Char} {opts : RegexOptions} {s : List Char} {a : Ast} {groups : Nat}

variable (lower opts s a groups) in
/-- The attempt at a position ran out of its budget, or nothing matches there. -/
def Missed (st : Nat) : Prop :=
  (compileParsed lower opts a groups).run lower s st = .exhausted ∨ ∀ q, ¬MatchesAt lower opts s a groups st q

variable (lower opts a groups) in
/-- What a search from `start` on finds is a match of the pattern, its captures lie in it, and nothing before it was
missed for another reason than the budget. -/
structure FindsMatches (s : List Char) (start : Nat) : Prop where
  found : ∀ ms me caps, (compileParsed lower opts a groups).findAt lower s start = some (ms, me, caps) →
    start ≤ ms ∧ (∃ q, MatchesAt lower opts s a groups ms q ∧ q.InText ms s ∧ me = q.si ∧
      caps = some (ms, me) :: q.caps.tail) ∧ ∀ st, start ≤ st → st < ms → Missed lower opts s a groups st
  missed : (compileParsed lower opts a groups).findAt lower s start = none →
    ∀ st, start ≤ st → st ≤ s.length → Missed lower opts s a groups st

theorem missed_of_run (hw : a.Wf) (hfold : Folds lower opts.caseInsensitive a) {st : Nat}
    (h : ∀ caps, (compileParsed lower opts a groups).run lower s st ≠ .accepted caps) : Missed lower opts s a groups st := by
  cases hrun : (compileParsed lower opts a groups).run lower s st with
  | accepted caps => exact absurd hrun (h caps)
  | failed => exact .inr ((run_spec hw hfold st).2 hrun)
  | exhausted => exact .inl hrun

/-- The start of a match is in its first slot. -/
theorem MatchesAt.finish (hidx : 0 ∉ groupIdxs a) {st : Nat} {q : Point} (h : MatchesAt lower opts s a groups st q) :
    q.finish = some (st, q.si) :: q.caps.tail := finish_eq (Ast.Matches.caps_zero hidx h)

theorem startsThere (hw : a.Wf) (hfold : Folds lower opts.caseInsensitive a) (hidx : 0 ∉ groupIdxs a) :
    StartsThere lower (compileParsed lower opts a groups) s := by
  intro st caps hrun
  obtain ⟨q, hq, rfl⟩ := (run_spec hw hfold st).1 caps hrun
  exact ⟨q.si, q.caps.tail, hq.finish hidx⟩

theorem findsMatches (hw : a.Wf) (hfold : Folds lower opts.caseInsensitive a) (hidx : 0 ∉ groupIdxs a) (s : List Char)
    (start : Nat) : FindsMatches lower opts a groups s start where
  found := fun ms me caps h => by
    obtain ⟨hle, hlt, hrun, ⟨rest, hcaps⟩, hbefore⟩ := findFrom_some (startsThere hw hfold hidx) h
    obtain ⟨q, hq, heq⟩ := (run_spec hw hfold ms).1 caps hrun
    have hms : ms ≤ s.length := by omega
    have hfinish := hq.finish hidx
    have hme : me = q.si := by
      rw [hcaps, hfinish] at heq
      cases heq
      rfl
    refine ⟨hle, ⟨q, hq, (Ast.Matches.forward hq).inText ms (start_inText _ hms), hme, ?_⟩, fun st hst hlt' =>
      missed_of_run hw hfold (hbefore st hst hlt')⟩
    rw [heq, hfinish, hme]
  missed := fun h st hst hle =>
    missed_of_run hw hfold (findFrom_none (startsThere hw hfold hidx) h st hst (by omega))

/-- Compiling a pattern is parsing it first. -/
theorem exists_parsed {pattern : List Char} {prog : Compiled} (h : compilePattern lower pattern opts = .ok prog) :
    ∃ a groups, parsePattern pattern opts.expanded = .ok (a, groups) ∧ a.Wf ∧ 0 ∉ groupIdxs a ∧
      prog = compileParsed lower opts a groups := by
  obtain ⟨⟨a, groups⟩, hparse, hprog⟩ := Loops.bind_eq_ok h
  obtain ⟨hw, hids⟩ := (answers_parsePattern pattern opts.expanded).result _ hparse
  refine ⟨a, groups, hparse, hw, fun hmem => ?_, ?_⟩
  · dsimp only at hids
    rw [hids, List.mem_range'_1] at hmem
    omega
  · cases hprog
    rfl

/-- A search with a program from the cache, for any pattern that the parser accepts. -/
theorem find_at_matches {cache : RegexCache} (hcache : Reached lower cache) {pattern : List Char} {prog : Compiled}
    (hprog : (compileOpts lower cache pattern opts).1 = .ok prog)
    (hfold : ∀ a groups, parsePattern pattern opts.expanded = .ok (a, groups) → Folds lower opts.caseInsensitive a)
    (s : List Char) (start : Nat) :
    ∃ a groups, parsePattern pattern opts.expanded = .ok (a, groups) ∧ prog = compileParsed lower opts a groups ∧
      FindsMatches lower opts a groups s start := by
  rw [compileOpts_eq hcache] at hprog
  obtain ⟨a, groups, hparse, hw, hidx, rfl⟩ := exists_parsed hprog
  exact ⟨a, groups, hparse, rfl, findsMatches hw (hfold a groups hparse) hidx s start⟩

theorem folds_star {a : Ast} {groups : Nat} (h : parsePattern ['A', '*'] false = .ok (a, groups)) :
    Folds asciiLower true a := by
  have hparse : parsePattern ['A', '*'] false = .ok (.repeated (.lit 'A') 0 none false, 0) := rfl
  rw [hparse] at h
  cases h
  intro _ c hc
  cases hc with
  | head => rfl
  | tail _ hc => cases hc

theorem find_at_matches_star :
    ∃ a groups, parsePattern ['A', '*'] false = .ok (a, groups) ∧
      FindsMatches asciiLower ⟨true, false, false⟩ a groups ['b', 'a', 'A'] 1 := by
  obtain ⟨a, groups, hparse, -, hfinds⟩ := @find_at_matches asciiLower ⟨true, false, false⟩ ∅ .empty ['A', '*'] _ rfl
    (fun _ _ h => folds_star h) ['b', 'a', 'A'] 1
  exact ⟨a, groups, hparse, hfinds⟩

variable (lower opts a groups) in
/-- Attempts end, and the match that a search finds is the one that the pattern prefers at its position. -/
structure FindsPreferred (s : List Char) (start : Nat) : Prop where
  ends : ∀ st, ∃ cost, ∀ budget, cost ≤ budget →
    search ((compileParsed lower opts a groups).step lower s) budget ⟨0, (compileParsed lower opts a groups).start st⟩ [] =
      verdictOf (outcomesAt lower opts s a groups st).head?
  found : ∀ ms me caps, (compileParsed lower opts a groups).findAt lower s start = some (ms, me, caps) →
    ∃ q, (outcomesAt lower opts s a groups ms).head? = some q ∧ me = q.si ∧ caps = some (ms, me) :: q.caps.tail

end

end Regex
