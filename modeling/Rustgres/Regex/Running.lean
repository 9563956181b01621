-- SUMMARY: Runs of the code of an expression: they lead along its matches, and try its outcomes in order.
import Rustgres.Regex.Compilation

/-!
# Runs of the code

Whatever branch is taken, a path through the code of an expression is a match, and each match has a path. Where the
expression is regular the search tries the outcomes in their order. A literal that ignores case has to keep its lower
case when it is folded.
-/

open Backtracking

namespace Regex

section

variable {lower : Char → List Char} {prog : Compiled} {s : List Char} {isLazy : Bool} {a inner : Ast} {v : List Ast}
  {i j k : Nat} {p q : Point} {f : Frame}

/-! ## Steps -/

theorem step_of_insn {insn : Insn} (h : prog.insns[i]? = some insn) (hjump : ∀ t, insn ≠ .jump t)
    (hsplit : ∀ t u, insn ≠ .split t u) (hmatched : insn ≠ .matched) :
    prog.step lower s ⟨i, p⟩ = Frame.next ⟨i, p⟩ (p.read lower prog.ci prog.newlineSensitive s insn) := by
  unfold Compiled.step
  rw [h]
  cases insn with
  | jump t => exact absurd rfl (hjump t)
  | split t u => exact absurd rfl (hsplit t u)
  | matched => exact absurd rfl hmatched
  | lit | dot | charClass | anchorStart | anchorEnd | saveStart | saveEnd | backRef => rfl

theorem step_jump {t : Nat} (h : prog.insns[i]? = some (.jump t)) : prog.step lower s ⟨i, p⟩ = .go ⟨t, p⟩ := by
  unfold Compiled.step
  rw [h]

theorem step_split {t u : Nat} (h : prog.insns[i]? = some (.split t u)) :
    prog.step lower s ⟨i, p⟩ = .fork ⟨t, p⟩ ⟨u, p⟩ := by
  unfold Compiled.step
  rw [h]

theorem step_matched (h : prog.insns[i]? = some .matched) : prog.step lower s ⟨i, p⟩ = .accept p.finish := by
  unfold Compiled.step
  rw [h]

theorem step_saveStart {idx : Nat} (h : prog.insns[i]? = some (.saveStart idx)) :
    prog.step lower s ⟨i, p⟩ = .go ⟨i + 1, p.saveStart idx⟩ := by
  unfold Compiled.step
  rw [h]
  rfl

theorem step_saveEnd {idx : Nat} (h : prog.insns[i]? = some (.saveEnd idx)) :
    prog.step lower s ⟨i, p⟩ = .go ⟨i + 1, p.saveEnd idx⟩ := by
  unfold Compiled.step
  rw [h]
  rfl

/-- Before a body that may be skipped: into it, and past it. -/
theorem next_quantifier {eff : Bool} {here : Nat} (h : prog.insns[i]? = some (Compiler.quantifierSplit eff i here)) :
    Next (prog.step lower s) ⟨i, p⟩ f ↔ f = ⟨i + 1, p⟩ ∨ f = ⟨here, p⟩ := by
  cases eff with
  | false => exact next_fork (step_split h)
  | true => exact (next_fork (step_split h)).trans or_comm

variable (lower) in
/-- Folding keeps the lower case of the literals, where case is ignored. -/
def Folds (ci : Bool) (a : Ast) : Prop := ci = true → ∀ c ∈ literals a, lower (foldLit lower ci c) = lower c

theorem charsEq_foldLit {ci : Bool} {c x : Char} (h : ci = true → lower (foldLit lower ci c) = lower c) :
    charsEq lower x (foldLit lower ci c) ci = charsEq lower x c ci := by
  cases ci with
  | false => rfl
  | true =>
      unfold charsEq
      rw [if_pos rfl, if_pos rfl, h rfl]

theorem step_leafInsn {insn : Insn} (hleaf : leafInsn lower prog.ci a = some insn) (h : prog.insns[i]? = some insn) :
    prog.step lower s ⟨i, p⟩ = Frame.next ⟨i, p⟩ (p.read lower prog.ci prog.newlineSensitive s insn) := by
  cases a with
  | lit | dot | charClass | anchorStart | anchorEnd | backRef =>
      cases hleaf
      exact step_of_insn h (fun t => by simp) (fun t u => by simp) (by simp)
  | empty | seq | alt | repeated | group => cases hleaf

/-- The one instruction of a leaf does what the leaf says. -/
theorem step_leaf {insn : Insn} (hleaf : leafInsn lower prog.ci a = some insn) (h : prog.insns[i]? = some insn)
    (hfold : Folds lower prog.ci a) :
    prog.step lower s ⟨i, p⟩ = Frame.next ⟨i, p⟩ (leaf lower prog.ci prog.newlineSensitive s a p) := by
  rw [step_leafInsn hleaf h]
  cases a with
  | lit c =>
      cases hleaf
      have heq : ∀ x, charsEq lower x (foldLit lower prog.ci c) prog.ci = charsEq lower x c prog.ci := fun x =>
        charsEq_foldLit fun hci => hfold hci c (List.mem_singleton_self c)
      simp only [Point.read, leaf, readChar, heq]
  | dot | charClass | anchorStart | anchorEnd | backRef =>
      cases hleaf
      rfl
  | empty | seq | alt | repeated | group => cases hleaf

/-- Behind an instruction that reads the text comes the one after it. -/
theorem pc_of_next {o : Option Point} {t : Frame} (h : prog.step lower s f = f.next o)
    (hnext : Next (prog.step lower s) f t) : t.pc = f.pc + 1 := by
  cases o with
  | none => exact absurd hnext (not_next_fail h)
  | some q =>
      obtain rfl := (next_go h).1 hnext
      rfl

/-! ## Literals of the parts -/

theorem mem_allLiterals {c : Char} : c ∈ allLiterals v ↔ ∃ a ∈ v, c ∈ literals a := by
  induction v with
  | nil => exact ⟨fun h => absurd h List.not_mem_nil, fun ⟨_, ha, _⟩ => absurd ha List.not_mem_nil⟩
  | cons a v ih =>
      change c ∈ literals a ++ allLiterals v ↔ _
      rw [List.mem_append, ih, List.exists_mem_cons_iff]

theorem Folds.of_mem {ci : Bool} (h : Folds lower ci (.seq v)) (ha : a ∈ v) : Folds lower ci a :=
  fun hci c hc => h hci c (mem_allLiterals.2 ⟨a, ha, hc⟩)

theorem Folds.tail {ci : Bool} (h : Folds lower ci (.seq (a :: v))) : Folds lower ci (.seq v) :=
  fun hci c hc => h hci c (List.mem_append_right _ hc)

theorem Folds.replicate {ci : Bool} (h : Folds lower ci a) (n : Nat) : Folds lower ci (.seq (List.replicate n a)) :=
  fun hci c hc => by
    obtain ⟨b, hb, hc⟩ := mem_allLiterals.1 hc
    rw [List.eq_of_mem_replicate hb] at hc
    exact h hci c hc

/-! ## Paths are matches -/

theorem seqMatches_replicate {ci nl : Bool} {n : Nat} :
    SeqMatches lower ci nl s (List.replicate n a) p q ↔ Times (a.Matches lower ci nl s) n p q := by
  induction n generalizing p with
  | zero => exact Iff.rfl
  | succ n ih => exact exists_congr fun o => and_congr_right fun _ => ih

theorem optional_matches {ci nl lazyHere : Bool} :
    (Ast.repeated inner 0 (some 1) lazyHere).Matches lower ci nl s p q ↔ q = p ∨ inner.Matches lower ci nl s p q := by
  constructor
  · rintro ⟨n, -, hmax, h⟩
    have hn : n ≤ 1 := hmax 1 rfl
    cases n with
    | zero => exact .inl h
    | succ n =>
        obtain rfl : n = 0 := by omega
        obtain ⟨o, ho, rfl⟩ := h
        exact .inr ho
  · rintro (rfl | h)
    · exact ⟨0, Nat.le_refl 0, fun _ _ => Nat.zero_le _, rfl⟩
    · exact ⟨1, Nat.zero_le 1, fun m hm => (Option.some.inj hm).le, q, h, rfl⟩

theorem loop_matches {ci nl lazyHere : Bool} :
    (Ast.repeated inner 0 none lazyHere).Matches lower ci nl s p q ↔ ∃ k, Times (inner.Matches lower ci nl s) k p q := by
  constructor
  · rintro ⟨n, -, -, h⟩
    exact ⟨n, h⟩
  · rintro ⟨n, h⟩
    exact ⟨n, Nat.zero_le n, fun m hm => (by cases hm), h⟩

/-- Between the bounds: the mandatory copies in a row, and the copies that may be skipped. -/
theorem bounded_matches {ci nl lazyHere : Bool} {min mx : Nat} (h : min ≤ mx) :
    (Ast.repeated inner min (some mx) lazyHere).Matches lower ci nl s p q ↔
      ∃ o, SeqMatches lower ci nl s (List.replicate min inner) p o ∧
        SeqMatches lower ci nl s (List.replicate (mx - min) (.repeated inner 0 (some 1) lazyHere)) o q := by
  refine (times_bounded h).trans (exists_congr fun o => and_congr seqMatches_replicate.symm ?_)
  rw [seqMatches_replicate]
  exact Times.congr (fun p q => optional_matches.symm) _ _ _

theorem unbounded_matches {ci nl lazyHere : Bool} {min : Nat} :
    (Ast.repeated inner min none lazyHere).Matches lower ci nl s p q ↔
      ∃ o, SeqMatches lower ci nl s (List.replicate min inner) p o ∧
        (Ast.repeated inner 0 none lazyHere).Matches lower ci nl s o q :=
  times_unbounded.trans (exists_congr fun _ => and_congr seqMatches_replicate.symm loop_matches.symm)

theorem allWf_replicate (h : a.Wf) (n : Nat) : (Ast.seq (List.replicate n a)).Wf :=
  allWf_iff.2 fun b hb => by rwa [List.eq_of_mem_replicate hb]

theorem optional_wf {lazyHere : Bool} (h : inner.Wf) : (Ast.repeated inner 0 (some 1) lazyHere).Wf :=
  ⟨h, fun _ _ => Nat.zero_le _⟩

theorem unbounded_wf {lazyHere : Bool} (h : inner.Wf) : (Ast.repeated inner 0 none lazyHere).Wf :=
  ⟨h, fun _ hm => by cases hm⟩

theorem matches_leaf {ci nl : Bool} {insn : Insn} (h : leafInsn lower ci a = some insn) :
    a.Matches lower ci nl s p q ↔ Regex.leaf lower ci nl s a p = some q := by
  cases a with
  | empty | seq | alt | repeated | group => cases h
  | lit | dot | charClass | anchorStart | anchorEnd | backRef => exact Iff.rfl

/-- Each match has a path through the code. -/
theorem Frag.reaches (h : Frag lower prog.ci prog.insns isLazy a i j) (hw : a.Wf) (hfold : Folds lower prog.ci a)
    (hm : a.Matches lower prog.ci prog.newlineSensitive s p q) : Reaches (prog.step lower s) ⟨i, p⟩ ⟨j, q⟩ := by
  induction h generalizing p q with
  | empty =>
      cases hm
      exact .refl _
  | @leaf _ a insn i hleaf hi =>
      have hstep := step_leaf hleaf hi hfold (s := s) (p := p)
      rw [(matches_leaf hleaf).1 hm] at hstep
      exact .head (.go hstep) (.refl _)
  | seqNil =>
      obtain rfl : q = p := hm
      exact .refl _
  | seqCons _ _ ih ih' =>
      obtain ⟨o, ho, hm⟩ := hm
      exact (ih hw.1 (hfold.of_mem List.mem_cons_self) ho).trans (ih' hw.2 hfold.tail hm)
  | altLast _ hjump ih =>
      obtain hm | hm := hm
      · exact (ih hw.2.1 (Folds.of_mem (v := [_]) hfold List.mem_cons_self) hm).trans (.head (.go (step_jump hjump)) (.refl _))
      · exact hm.elim
  | altCons hsplit _ hjump _ ih ih' =>
      obtain hm | hm := hm
      · refine .head (.left (step_split hsplit)) ?_
        exact (ih hw.2.1 (Folds.of_mem (v := _ :: _ :: _) hfold List.mem_cons_self) hm).trans
          (.head (.go (step_jump hjump)) (.refl _))
      · exact .head (.right (step_split hsplit)) (ih' ⟨List.cons_ne_nil _ _, hw.2.2⟩ (Folds.tail hfold) hm)
  | group hstart _ hend ih =>
      obtain ⟨o, ho, rfl⟩ := hm
      exact .head (.go (step_saveStart hstart)) ((ih hw hfold ho).trans (.head (.go (step_saveEnd hend)) (.refl _)))
  | optional hsplit _ ih =>
      rcases optional_matches.1 hm with rfl | hm
      · exact .head ((next_quantifier hsplit).2 (.inr rfl)) (.refl _)
      · exact .head ((next_quantifier hsplit).2 (.inl rfl)) (ih hw.1 hfold hm)
  | loop hsplit _ hjump ih =>
      obtain ⟨n, hm⟩ := loop_matches.1 hm
      induction n generalizing p with
      | zero =>
          obtain rfl : q = p := hm
          exact .head ((next_quantifier hsplit).2 (.inr rfl)) (.refl _)
      | succ n ihn =>
          obtain ⟨o, ho, hrest⟩ := hm
          refine .head ((next_quantifier hsplit).2 (.inl rfl)) ((ih hw.1 hfold ho).trans ?_)
          exact .head (.go (step_jump hjump)) (ihn (loop_matches.2 ⟨n, hrest⟩) hrest)
  | @bounded _ lazyHere inner _ _ _ _ _ _ _ ih ih' =>
      obtain ⟨o, hmust, hmay⟩ := (bounded_matches (hw.2 _ rfl)).1 hm
      have hinner : Folds lower prog.ci inner := hfold
      have hcopy : Folds lower prog.ci (.repeated inner 0 (some 1) lazyHere) := hfold
      exact (ih (allWf_replicate hw.1 _) (hinner.replicate _) hmust).trans
        (ih' (allWf_replicate (optional_wf hw.1) _) (hcopy.replicate _) hmay)
  | @unbounded _ _ inner _ _ _ _ _ _ ih ih' =>
      obtain ⟨o, hmust, hmay⟩ := unbounded_matches.1 hm
      have hinner : Folds lower prog.ci inner := hfold
      exact (ih (allWf_replicate hw.1 _) (hinner.replicate _) hmust).trans (ih' (unbounded_wf hw.1) hfold hmay)

theorem ne_of_outside {t : Frame} (hout : t.pc < i ∨ j ≤ t.pc) (hk : i ≤ k) (hkj : k < j) : t ≠ ⟨k, p⟩ := by
  rintro rfl
  dsimp only at hout
  omega

/-- A path that has yet to leave the code follows a move without a choice. -/
theorem path_go {n : Nat} {t u : Frame} (hstep : prog.step lower s ⟨k, p⟩ = .go u) (hout : t.pc < i ∨ j ≤ t.pc)
    (hk : i ≤ k) (hkj : k < j) (hpath : ReachesIn (prog.step lower s) n ⟨k, p⟩ t) :
    ∃ m, n = m + 1 ∧ ReachesIn (prog.step lower s) m u t := by
  obtain ⟨m, u', rfl, hnext, hrest⟩ := hpath.head_of_ne (ne_of_outside hout hk hkj)
  obtain rfl := (next_go hstep).1 hnext
  exact ⟨m, rfl, hrest⟩

/-- At the split of a quantifier a path goes into the body or past it. -/
theorem path_quantifier {eff : Bool} {here n : Nat} {t : Frame}
    (hsplit : prog.insns[i]? = some (Compiler.quantifierSplit eff i here)) (hout : t.pc < i ∨ j ≤ t.pc) (hij : i < j)
    (hpath : ReachesIn (prog.step lower s) n ⟨i, p⟩ t) :
    ∃ m, n = m + 1 ∧ (ReachesIn (prog.step lower s) m ⟨i + 1, p⟩ t ∨ ReachesIn (prog.step lower s) m ⟨here, p⟩ t) := by
  obtain ⟨m, u, rfl, hnext, hrest⟩ := hpath.head_of_ne (ne_of_outside hout (Nat.le_refl i) hij)
  rcases (next_quantifier hsplit).1 hnext with rfl | rfl
  · exact ⟨m, rfl, .inl hrest⟩
  · exact ⟨m, rfl, .inr hrest⟩

/-- A path that leaves the code leaves it behind a match, with fewer steps to go. -/
theorem Frag.leaves (h : Frag lower prog.ci prog.insns isLazy a i j) (hw : a.Wf) (hfold : Folds lower prog.ci a) {n : Nat}
    {t : Frame} (hout : t.pc < i ∨ j ≤ t.pc) (hpath : ReachesIn (prog.step lower s) n ⟨i, p⟩ t) :
    ∃ q m, m ≤ n ∧ a.Matches lower prog.ci prog.newlineSensitive s p q ∧ ReachesIn (prog.step lower s) m ⟨j, q⟩ t := by
  -- the target is outside, so the path cannot stop at any instruction of the code
  induction h generalizing p n with
  | empty => exact ⟨p, n, Nat.le_refl n, rfl, hpath⟩
  | @leaf _ a insn i hleaf hi =>
      obtain ⟨m, u, rfl, hnext, hrest⟩ := hpath.head_of_ne (ne_of_outside hout (Nat.le_refl i) (Nat.lt_succ_self i))
      have hstep := step_leaf hleaf hi hfold (s := s) (p := p)
      cases hm : Regex.leaf lower prog.ci prog.newlineSensitive s a p with
      | none =>
          rw [hm] at hstep
          exact absurd hnext (not_next_fail hstep)
      | some q =>
          rw [hm] at hstep
          obtain rfl := (next_go hstep).1 hnext
          exact ⟨q, m, Nat.le_succ m, (matches_leaf hleaf).2 hm, hrest⟩
  | seqNil => exact ⟨p, n, Nat.le_refl n, rfl, hpath⟩
  | seqCons first rest ih ih' =>
      have hle := first.le
      have hle' := rest.le
      obtain ⟨o, m, hm, ho, hpath⟩ := ih hw.1 (hfold.of_mem List.mem_cons_self) (by omega) hpath
      obtain ⟨q, m', hm', hq, hpath⟩ := ih' hw.2 hfold.tail (by omega) hpath
      exact ⟨q, m', hm'.trans hm, ⟨o, ho, hq⟩, hpath⟩
  | altLast last hjump ih =>
      have hle := last.le
      obtain ⟨q, m, hm, hq, hpath⟩ := ih hw.2.1 (Folds.of_mem (v := [_]) hfold List.mem_cons_self) (by omega) hpath
      obtain ⟨m', rfl, hrest⟩ := path_go (step_jump hjump) hout hle (Nat.lt_succ_self _) hpath
      exact ⟨q, m', by omega, .inl hq, hrest⟩
  | altCons hsplit first hjump rest ih ih' =>
      have hle := first.le
      have hle' := rest.le
      -- the split leads to this alternative or to the ones after it
      obtain ⟨m, u, rfl, hnext, hpath⟩ := hpath.head_of_ne (ne_of_outside hout (Nat.le_refl _) (by omega))
      rcases (next_fork (step_split hsplit)).1 hnext with rfl | rfl
      · obtain ⟨q, m', hm', hq, hpath⟩ := ih hw.2.1 (Folds.of_mem (v := _ :: _ :: _) hfold List.mem_cons_self) (by omega) hpath
        obtain ⟨m'', rfl, hrest⟩ := path_go (step_jump hjump) hout (by omega) (by omega) hpath
        exact ⟨q, m'', by omega, .inl hq, hrest⟩
      · obtain ⟨q, m', hm', hq, hpath⟩ := ih' ⟨List.cons_ne_nil _ _, hw.2.2⟩ (Folds.tail hfold) (by omega) hpath
        exact ⟨q, m', by omega, .inr hq, hpath⟩
  | group hstart body hend ih =>
      have hle := body.le
      obtain ⟨m, rfl, hbody⟩ := path_go (step_saveStart hstart) hout (Nat.le_refl _) (by omega) hpath
      obtain ⟨o, m', hm', ho, hpath⟩ := ih hw hfold (by omega) hbody
      obtain ⟨m'', rfl, hrest⟩ := path_go (step_saveEnd hend) hout (by omega) (Nat.lt_succ_self _) hpath
      exact ⟨_, m'', by omega, ⟨o, ho, rfl⟩, hrest⟩
  | optional hsplit body ih =>
      have hle := body.le
      obtain ⟨m, rfl, hpath | hpath⟩ := path_quantifier hsplit hout (by omega) hpath
      · obtain ⟨q, m', hm', hq, hpath⟩ := ih hw.1 hfold (by omega) hpath
        exact ⟨q, m', by omega, optional_matches.2 (.inr hq), hpath⟩
      · exact ⟨p, m, Nat.le_succ m, optional_matches.2 (.inl rfl), hpath⟩
  | loop hsplit body hjump ih =>
      have hle := body.le
      -- each round takes steps, so the rounds end
      induction n using Nat.strongRecOn generalizing p with
      | ind n ihn =>
          obtain ⟨m, rfl, hpath | hpath⟩ := path_quantifier hsplit hout (by omega) hpath
          · obtain ⟨o, m', hm', ho, hpath⟩ := ih hw.1 hfold (by omega) hpath
            obtain ⟨m'', rfl, hround⟩ := path_go (step_jump hjump) hout (by omega) (Nat.lt_succ_self _) hpath
            obtain ⟨q, l, hl, hq, hpath⟩ := ihn m'' (by omega) hround
            obtain ⟨r, hr⟩ := loop_matches.1 hq
            exact ⟨q, l, by omega, loop_matches.2 ⟨r + 1, o, ho, hr⟩, hpath⟩
          · exact ⟨p, m, Nat.le_succ m, loop_matches.2 ⟨0, rfl⟩, hpath⟩
  | @bounded _ lazyHere inner _ _ _ _ _ must may ih ih' =>
      have hle := must.le
      have hle' := may.le
      have hinner : Folds lower prog.ci inner := hfold
      have hcopy : Folds lower prog.ci (.repeated inner 0 (some 1) lazyHere) := hfold
      obtain ⟨o, m, hm, ho, hpath⟩ := ih (allWf_replicate hw.1 _) (hinner.replicate _) (by omega) hpath
      obtain ⟨q, m', hm', hq, hpath⟩ := ih' (allWf_replicate (optional_wf hw.1) _) (hcopy.replicate _) (by omega) hpath
      exact ⟨q, m', hm'.trans hm, (bounded_matches (hw.2 _ rfl)).2 ⟨o, ho, hq⟩, hpath⟩
  | @unbounded _ _ inner _ _ _ _ must may ih ih' =>
      have hle := must.le
      have hle' := may.le
      have hinner : Folds lower prog.ci inner := hfold
      obtain ⟨o, m, hm, ho, hpath⟩ := ih (allWf_replicate hw.1 _) (hinner.replicate _) (by omega) hpath
      obtain ⟨q, m', hm', hq, hpath⟩ := ih' (unbounded_wf hw.1) hfold (by omega) hpath
      exact ⟨q, m', hm'.trans hm, unbounded_matches.2 ⟨o, ho, hq⟩, hpath⟩

/-! ## Outcomes in order -/

theorem seqOutcomes_replicate {ci nl : Bool} {n : Nat} :
    seqOutcomes lower ci nl s (List.replicate n a) isLazy p = times (outcomes lower ci nl s a isLazy) n p := by
  induction n generalizing p with
  | zero => rfl
  | succ n ih =>
      change (outcomes lower ci nl s a isLazy p).flatMap _ = (outcomes lower ci nl s a isLazy p).flatMap _
      exact List.flatMap_congr fun o _ => ih

theorem optional_outcomes {ci nl lazyHere : Bool} :
    outcomes lower ci nl s (.repeated inner 0 (some 1) lazyHere) isLazy p =
      prefer (lazyHere || isLazy) p (outcomes lower ci nl s inner (lazyHere || isLazy) p) := by
  change [p].flatMap (times (fun q => prefer _ q (outcomes lower ci nl s inner _ q)) 1) = _
  rw [List.flatMap_singleton]
  change (prefer _ p _).flatMap (fun q => [q]) = _
  rw [List.flatMap_singleton']

theorem loop_outcomes {ci nl lazyHere : Bool} :
    outcomes lower ci nl s (.repeated inner 0 none lazyHere) isLazy p =
      star advances (lazyHere || isLazy) (outcomes lower ci nl s inner (lazyHere || isLazy)) (s.length - p.si) p := by
  change [p].flatMap _ = _
  rw [List.flatMap_singleton]

/-- The frames behind the code. -/
def At (j : Nat) (f : Frame) : Prop := f.pc = j

theorem yields_bind {outs : List Point} {g : Point → List Point} (h : Yields (prog.step lower s) (At k) f (outs.map (Frame.mk k)))
    (hg : ∀ o ∈ outs, Yields (prog.step lower s) (At j) ⟨k, o⟩ ((g o).map (Frame.mk j))) :
    Yields (prog.step lower s) (At j) f ((outs.flatMap g).map (Frame.mk j)) := by
  have hbind := h.bind (f := fun f => (g f.point).map (Frame.mk j)) fun o ho => by
    obtain ⟨o, hmem, rfl⟩ := List.mem_map.1 ho
    exact hg o hmem
  rwa [List.flatMap_map, ← List.map_flatMap] at hbind

theorem yields_exit (j : Nat) (p : Point) : Yields (prog.step lower s) (At j) ⟨j, p⟩ [⟨j, p⟩] := .exit rfl

/-- A split of a quantifier tries first what the quantifier prefers. -/
theorem yields_quantifier {eff : Bool} {here : Nat} (h : prog.insns[i]? = some (Compiler.quantifierSplit eff i here))
    {more : List Point} (hbody : Yields (prog.step lower s) (At here) ⟨i + 1, p⟩ (more.map (Frame.mk here))) :
    Yields (prog.step lower s) (At here) ⟨i, p⟩ ((prefer eff p more).map (Frame.mk here)) := by
  cases eff with
  | false =>
      change Yields _ _ _ ((more ++ [p]).map _)
      rw [List.map_append]
      exact .fork (step_split h) hbody (yields_exit here p)
  | true => exact .fork (step_split h) (yields_exit here p) hbody

theorem allRegular_replicate (h : regular a = true) (n : Nat) : regular (.seq (List.replicate n a)) = true :=
  allRegular_iff.2 fun b hb => by rwa [List.eq_of_mem_replicate hb]

theorem regular_inner {lazyHere : Bool} {min : Nat} {max : Option Nat}
    (h : regular (.repeated inner min max lazyHere) = true) : regular inner = true := (Bool.and_eq_true _ _ ▸ h).1

/-- From its first instruction, the search comes out of the code with the outcomes of the expression, in their order. -/
theorem Frag.yields (h : Frag lower prog.ci prog.insns isLazy a i j) (hr : regular a = true) (hw : a.Wf)
    (hfold : Folds lower prog.ci a) (p : Point) :
    Yields (prog.step lower s) (At j) ⟨i, p⟩
      ((outcomes lower prog.ci prog.newlineSensitive s a isLazy p).map (Frame.mk j)) := by
  induction h generalizing p with
  | empty | seqNil => exact yields_exit _ p
  | @leaf isLazy a insn i hleaf hi =>
      have hstep := step_leaf hleaf hi hfold (s := s) (p := p)
      have hout : outcomes lower prog.ci prog.newlineSensitive s a isLazy p =
          (Regex.leaf lower prog.ci prog.newlineSensitive s a p).toList := by
        cases a with
        | empty | seq | alt | repeated | group => cases hleaf
        | lit | dot | charClass | anchorStart | anchorEnd | backRef => rfl
      rw [hout]
      cases hm : Regex.leaf lower prog.ci prog.newlineSensitive s a p with
      | none =>
          rw [hm] at hstep
          exact .fail hstep
      | some q =>
          rw [hm] at hstep
          exact .go hstep (yields_exit _ q)
  | seqCons first rest ih ih' =>
      obtain ⟨hra, hrv⟩ := Bool.and_eq_true_iff.1 hr
      exact yields_bind (ih hra hw.1 (hfold.of_mem List.mem_cons_self) p) fun o _ => ih' hrv hw.2 hfold.tail o
  | altLast last hjump ih =>
      obtain ⟨hra, -⟩ := Bool.and_eq_true_iff.1 hr
      change Yields _ _ _ ((outcomes lower prog.ci prog.newlineSensitive s _ _ p ++ []).map _)
      rw [List.append_nil, ← List.flatMap_singleton' (outcomes lower prog.ci prog.newlineSensitive s _ _ p)]
      exact yields_bind (ih hra hw.2.1 (Folds.of_mem (v := [_]) hfold List.mem_cons_self) p) fun o _ =>
        .go (step_jump hjump) (yields_exit _ o)
  | altCons hsplit first hjump rest ih ih' =>
      obtain ⟨hra, hrv⟩ := Bool.and_eq_true_iff.1 hr
      change Yields _ _ _ ((outcomes lower prog.ci prog.newlineSensitive s _ _ p ++ _).map _)
      rw [List.map_append, ← List.flatMap_singleton' (outcomes lower prog.ci prog.newlineSensitive s _ _ p)]
      refine .fork (step_split hsplit) ?_ (ih' hrv ⟨List.cons_ne_nil _ _, hw.2.2⟩ (Folds.tail hfold) p)
      exact yields_bind (ih hra hw.2.1 (Folds.of_mem (v := _ :: _ :: _) hfold List.mem_cons_self) p) fun o _ =>
        .go (step_jump hjump) (yields_exit _ o)
  | @group isLazy inner idx i k hstart body hend ih =>
      have hend' : ∀ o : Point, Yields (prog.step lower s) (At (k + 1)) ⟨k, o⟩ ([o.saveEnd idx].map (Frame.mk (k + 1))) :=
        fun o => .go (step_saveEnd hend) (yields_exit (k + 1) (o.saveEnd idx))
      have hbody := yields_bind (ih hr hw hfold (p.saveStart idx)) fun o _ => hend' o
      rw [← List.map_eq_flatMap] at hbody
      exact .go (step_saveStart hstart) hbody
  | optional hsplit body ih =>
      rw [optional_outcomes]
      exact yields_quantifier hsplit (ih (regular_inner hr) hw.1 hfold p)
  | @loop isLazy lazyHere inner i k hsplit body hjump ih =>
      have hn : nullable inner = false := by
        have hboth : (regular inner && (false || !nullable inner)) = true := hr
        simpa using (Bool.and_eq_true_iff.1 hboth).2
      have hmem : ∀ p q, q ∈ outcomes lower prog.ci prog.newlineSensitive s inner (lazyHere || isLazy) p →
          Regex.advances p q = true ∧ s.length - q.si < s.length - p.si := fun p q hq =>
        body_advances hn ((mem_outcomes (regular_inner hr) hw.1).1 hq)
      rw [loop_outcomes]
      -- each round makes progress, so the rounds end
      induction hleft : s.length - p.si using Nat.strongRecOn generalizing p with
      | ind n ihn =>
          subst hleft
          rw [@star_of_le Point Regex.advances _ _ (fun p => s.length - p.si) (fun p q hq => (hmem p q hq).1)
            (fun p q hq => (hmem p q hq).2) _ _ (Nat.le_refl _)]
          refine yields_quantifier hsplit (yields_bind (ih (regular_inner hr) hw.1 hfold p) fun o ho => ?_)
          exact .go (step_jump hjump) (ihn _ (hmem p o ho).2 o rfl)
  | @bounded isLazy lazyHere inner min mx i k j must may ih ih' =>
      have hri := regular_inner hr
      have hinner : Folds lower prog.ci inner := hfold
      have hcopy : Folds lower prog.ci (.repeated inner 0 (some 1) lazyHere) := hfold
      have hrc : regular (.repeated inner 0 (some 1) lazyHere) = true := Bool.and_eq_true_iff.2 ⟨hri, rfl⟩
      have hmust := ih (allRegular_replicate hri _) (allWf_replicate hw.1 _) (hinner.replicate _) p
      have hmay := ih' (allRegular_replicate hrc _) (allWf_replicate (optional_wf hw.1) _) (hcopy.replicate _)
      have hbody := yields_bind hmust fun o _ => hmay o
      refine cast (congrArg (fun outs : List Point => Yields _ _ _ (outs.map _)) ?_) hbody
      change (seqOutcomes lower prog.ci prog.newlineSensitive s _ _ p).flatMap (seqOutcomes lower _ _ s _ _) =
        (times _ min p).flatMap (times _ (mx - min))
      rw [seqOutcomes_replicate]
      refine List.flatMap_congr fun o _ => ?_
      rw [seqOutcomes_replicate]
      congr 1
      funext q
      rw [optional_outcomes, ← Bool.or_assoc, Bool.or_self]
  | @unbounded isLazy lazyHere inner min i k j must may ih ih' =>
      have hri := regular_inner hr
      have hinner : Folds lower prog.ci inner := hfold
      have hmust := ih (allRegular_replicate hri _) (allWf_replicate hw.1 _) (hinner.replicate _) p
      have hmay := ih' hr (unbounded_wf hw.1) hfold
      have hbody := yields_bind hmust fun o _ => hmay o
      refine cast (congrArg (fun outs : List Point => Yields _ _ _ (outs.map _)) ?_) hbody
      change (seqOutcomes lower prog.ci prog.newlineSensitive s _ _ p).flatMap (outcomes lower _ _ s _ _) =
        (times _ min p).flatMap (fun q => star _ _ _ (s.length - q.si) q)
      rw [seqOutcomes_replicate]
      refine List.flatMap_congr fun o _ => ?_
      rw [loop_outcomes, ← Bool.or_assoc, Bool.or_self]

/-! ## Staying inside -/

/-- Where control can go from an instruction. -/
def Insn.targets (pc : Nat) : Insn → List Nat
  | .jump t => [t]
  | .split t u => [t, u]
  | .matched => []
  | _ => [pc + 1]

theorem quantifierSplit_targets {eff : Bool} {here pc : Nat} {t : Nat}
    (h : t ∈ (Compiler.quantifierSplit eff i here).targets pc) : t = i + 1 ∨ t = here := by
  cases eff with
  | false => simpa [Compiler.quantifierSplit, Insn.targets] using h
  | true => simpa [Compiler.quantifierSplit, Insn.targets, or_comm] using h

theorem quantifierSplit_ne_matched {eff : Bool} {here : Nat} : Compiler.quantifierSplit eff i here ≠ .matched := by
  cases eff with
  | false | true => simp [Compiler.quantifierSplit]

theorem leafInsn_targets {ci : Bool} {insn : Insn} (h : leafInsn lower ci a = some insn) (pc : Nat) :
    insn ≠ .matched ∧ insn.targets pc = [pc + 1] := by
  cases a with
  | lit | dot | charClass | anchorStart | anchorEnd | backRef =>
      cases h
      exact ⟨by simp, rfl⟩
  | empty | seq | alt | repeated | group => cases h

/-- The instruction at `pc` does not accept, and control stays between `i` and `j`. -/
def Stays (insns : List Insn) (pc i j : Nat) : Prop :=
  ∃ insn, insns[pc]? = some insn ∧ insn ≠ .matched ∧ ∀ t ∈ insn.targets pc, i ≤ t ∧ t ≤ j

theorem Stays.widen {insns : List Insn} {pc i' j' : Nat} (h : Stays insns pc i' j') (hi : i ≤ i') (hj : j' ≤ j) :
    Stays insns pc i j := by
  obtain ⟨insn, hinsn, hne, hall⟩ := h
  exact ⟨insn, hinsn, hne, fun t ht => ⟨hi.trans (hall t ht).1, (hall t ht).2.trans hj⟩⟩

theorem stays_jump {insns : List Insn} {pc t : Nat} (h : insns[pc]? = some (.jump t)) (hi : i ≤ t) (hj : t ≤ j) :
    Stays insns pc i j := by
  refine ⟨_, h, by simp, fun u hu => ?_⟩
  obtain rfl := List.mem_singleton.1 hu
  exact ⟨hi, hj⟩

theorem stays_next {insns : List Insn} {pc : Nat} {insn : Insn} (h : insns[pc]? = some insn) (hne : insn ≠ .matched)
    (htargets : insn.targets pc = [pc + 1]) (hi : i ≤ pc) (hj : pc < j) : Stays insns pc i j := by
  refine ⟨insn, h, hne, fun t ht => ?_⟩
  rw [htargets] at ht
  obtain rfl := List.mem_singleton.1 ht
  exact ⟨Nat.le_succ_of_le hi, hj⟩

theorem stays_quantifier {insns : List Insn} {here : Nat} {eff : Bool}
    (h : insns[i]? = some (Compiler.quantifierSplit eff i here)) (hi : i < here) (hj : here ≤ j) : Stays insns i i j := by
  refine ⟨_, h, quantifierSplit_ne_matched, fun t ht => ?_⟩
  rcases quantifierSplit_targets ht with rfl | rfl
  · exact ⟨Nat.le_succ _, hi.trans_le hj⟩
  · exact ⟨hi.le, hj⟩

/-- Control stays in the code of an expression until it comes to its end. -/
theorem Frag.inside {ci : Bool} {insns : List Insn} (h : Frag lower ci insns isLazy a i j) {pc : Nat} (hi : i ≤ pc)
    (hj : pc < j) : Stays insns pc i j := by
  induction h with
  | empty | seqNil => omega
  | leaf hleaf hi' =>
      obtain rfl : pc = _ := Nat.le_antisymm (Nat.le_of_lt_succ hj) hi
      obtain ⟨hne, htargets⟩ := leafInsn_targets hleaf pc
      exact stays_next hi' hne htargets (Nat.le_refl _) hj
  | seqCons first rest ih ih' | bounded first rest ih ih' | unbounded first rest ih ih' =>
      rcases Nat.lt_or_ge pc _ with hlt | hge
      · exact (ih hi hlt).widen (Nat.le_refl _) rest.le
      · exact (ih' hge hj).widen first.le (Nat.le_refl _)
  | altLast last hlast ih =>
      rcases Nat.lt_or_eq_of_le (Nat.le_of_lt_succ hj) with hlt | rfl
      · exact (ih hi hlt).widen (Nat.le_refl _) (Nat.le_succ _)
      · exact stays_jump hlast (Nat.le_succ_of_le hi) (Nat.le_refl _)
  | @altCons _ _ _ _ i k j hfork first hlast rest ih ih' =>
      have hle := first.le
      have hle' := rest.le
      rcases Nat.lt_or_eq_of_le hi with hlt | rfl
      · rcases Nat.lt_trichotomy pc k with hk | rfl | hk
        · exact (ih hlt hk).widen (Nat.le_succ i) (by omega)
        · exact stays_jump hlast (by omega) (Nat.le_refl _)
        · exact (ih' hk hj).widen (by omega) (Nat.le_refl _)
      · refine ⟨_, hfork, by simp, fun t ht => ?_⟩
        have ht' : t = i + 1 ∨ t = k + 1 := by simpa [Insn.targets] using ht
        rcases ht' with rfl | rfl
        · exact ⟨Nat.le_succ _, by omega⟩
        · exact ⟨by omega, hle'⟩
  | @group _ _ _ i k hstart body hend ih =>
      rcases Nat.lt_or_eq_of_le hi with hlt | rfl
      · rcases Nat.lt_or_eq_of_le (Nat.le_of_lt_succ hj) with hk | rfl
        · exact (ih hlt hk).widen (Nat.le_succ i) (Nat.le_succ k)
        · exact stays_next hend (by simp) rfl hi hj
      · exact stays_next hstart (by simp) rfl (Nat.le_refl _) hj
  | @optional _ _ _ i j hquantifier body ih =>
      have hle := body.le
      rcases Nat.lt_or_eq_of_le hi with hlt | rfl
      · exact (ih hlt hj).widen (Nat.le_succ i) (Nat.le_refl _)
      · exact stays_quantifier hquantifier hle (Nat.le_refl _)
  | @loop _ _ _ i k hquantifier body hback ih =>
      have hle := body.le
      rcases Nat.lt_or_eq_of_le hi with hlt | rfl
      · rcases Nat.lt_or_eq_of_le (Nat.le_of_lt_succ hj) with hk | rfl
        · exact (ih hlt hk).widen (Nat.le_succ i) (Nat.le_succ k)
        · exact stays_jump hback (Nat.le_refl _) (Nat.le_succ_of_le hi)
      · exact stays_quantifier hquantifier (by omega) (Nat.le_refl _)

theorem insn_of_accept {caps : Caps} (h : prog.step lower s f = .accept caps) :
    prog.insns[f.pc]? = some .matched ∧ caps = f.point.finish := by
  obtain ⟨pc, p⟩ := f
  cases hinsn : prog.insns[pc]? with
  | none =>
      unfold Compiled.step at h
      rw [hinsn] at h
      cases h
  | some insn =>
      cases insn with
      | jump t =>
          rw [step_jump hinsn] at h
          cases h
      | split t u =>
          rw [step_split hinsn] at h
          cases h
      | matched =>
          rw [step_matched hinsn] at h
          cases h
          exact ⟨rfl, rfl⟩
      | lit | dot | charClass | anchorStart | anchorEnd | saveStart | saveEnd | backRef =>
          rw [step_of_insn hinsn (fun t => by simp) (fun t u => by simp) (by simp)] at h
          unfold Frame.next at h
          split at h <;> cases h

theorem insn_of_halt (h : prog.step lower s f = .halt) : prog.insns[f.pc]? = none := by
  obtain ⟨pc, p⟩ := f
  cases hinsn : prog.insns[pc]? with
  | none => rfl
  | some insn =>
      cases insn with
      | jump t =>
          rw [step_jump hinsn] at h
          cases h
      | split t u =>
          rw [step_split hinsn] at h
          cases h
      | matched =>
          rw [step_matched hinsn] at h
          cases h
      | lit | dot | charClass | anchorStart | anchorEnd | saveStart | saveEnd | backRef =>
          rw [step_of_insn hinsn (fun t => by simp) (fun t u => by simp) (by simp)] at h
          unfold Frame.next at h
          split at h <;> cases h

/-- A move goes to one of the targets of its instruction. -/
theorem pc_mem_targets {insn : Insn} {t : Frame} (h : prog.insns[f.pc]? = some insn)
    (hnext : Next (prog.step lower s) f t) : t.pc ∈ insn.targets f.pc := by
  obtain ⟨pc, p⟩ := f
  cases insn with
  | jump u =>
      obtain rfl := (next_go (step_jump h)).1 hnext
      exact List.mem_singleton_self _
  | split u w =>
      rcases (next_fork (step_split h)).1 hnext with rfl | rfl
      · exact List.mem_cons_self
      · exact List.mem_cons_of_mem _ List.mem_cons_self
  | matched => exact absurd hnext (not_next_accept (step_matched h))
  | lit | dot | charClass | anchorStart | anchorEnd | saveStart | saveEnd | backRef =>
      rw [pc_of_next (step_of_insn h (fun t => by simp) (fun t u => by simp) (by simp)) hnext]
      exact List.mem_singleton_self _

end

end Regex
