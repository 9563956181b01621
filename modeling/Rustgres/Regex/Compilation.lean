-- SUMMARY: The code of an expression in a program, and that the compiler emits it.
import Rustgres.Regex.Semantics

/-!
# Compilation

A program holds the code of an expression between two positions: control enters at the first and leaves at the
second. The compiler appends such code to what it has emitted before. Its jumps are patched later, so what it says of
alternatives is about every program with the jumps in their places.
-/

namespace Regex

variable (lower : Char → List Char) (ci : Bool)

/-! ## Code in a program -/

/-- The one instruction of an expression without parts. -/
def leafInsn : Ast → Option Insn
  | .lit c => some (.lit (foldLit lower ci c))
  | .dot => some .dot
  | .charClass cc => some (.charClass cc)
  | .anchorStart => some .anchorStart
  | .anchorEnd => some .anchorEnd
  | .backRef g => some (.backRef g)
  | _ => none

/-- The program holds the code of an expression from `i` on, and the code ends before `j`. -/
inductive Frag (prog : List Insn) : Bool → Ast → Nat → Nat → Prop where
  | empty {isLazy : Bool} {i : Nat} : Frag prog isLazy .empty i i
  | leaf {isLazy : Bool} {a : Ast} {insn : Insn} {i : Nat} (h : leafInsn lower ci a = some insn)
      (hi : prog[i]? = some insn) : Frag prog isLazy a i (i + 1)
  | seqNil {isLazy : Bool} {i : Nat} : Frag prog isLazy (.seq []) i i
  | seqCons {isLazy : Bool} {a : Ast} {v : List Ast} {i k j : Nat} (first : Frag prog isLazy a i k)
      (rest : Frag prog isLazy (.seq v) k j) : Frag prog isLazy (.seq (a :: v)) i j
  | altLast {isLazy : Bool} {a : Ast} {i k : Nat} (last : Frag prog isLazy a i k)
      (hjump : prog[k]? = some (.jump (k + 1))) : Frag prog isLazy (.alt [a]) i (k + 1)
  | altCons {isLazy : Bool} {a b : Ast} {v : List Ast} {i k j : Nat} (hsplit : prog[i]? = some (.split (i + 1) (k + 1)))
      (first : Frag prog isLazy a (i + 1) k) (hjump : prog[k]? = some (.jump j))
      (rest : Frag prog isLazy (.alt (b :: v)) (k + 1) j) : Frag prog isLazy (.alt (a :: b :: v)) i j
  | group {isLazy : Bool} {inner : Ast} {idx i k : Nat} (hstart : prog[i]? = some (.saveStart idx))
      (body : Frag prog isLazy inner (i + 1) k) (hend : prog[k]? = some (.saveEnd idx)) :
      Frag prog isLazy (.group inner idx) i (k + 1)
  | optional {isLazy lazyHere : Bool} {inner : Ast} {i j : Nat}
      (hsplit : prog[i]? = some (Compiler.quantifierSplit (lazyHere || isLazy) i j))
      (body : Frag prog (lazyHere || isLazy) inner (i + 1) j) :
      Frag prog isLazy (.repeated inner 0 (some 1) lazyHere) i j
  | loop {isLazy lazyHere : Bool} {inner : Ast} {i k : Nat}
      (hsplit : prog[i]? = some (Compiler.quantifierSplit (lazyHere || isLazy) i (k + 1)))
      (body : Frag prog (lazyHere || isLazy) inner (i + 1) k) (hjump : prog[k]? = some (.jump i)) :
      Frag prog isLazy (.repeated inner 0 none lazyHere) i (k + 1)
  | bounded {isLazy lazyHere : Bool} {inner : Ast} {min mx i k j : Nat}
      (must : Frag prog (lazyHere || isLazy) (.seq (List.replicate min inner)) i k)
      (may : Frag prog (lazyHere || isLazy) (.seq (List.replicate (mx - min) (.repeated inner 0 (some 1) lazyHere))) k j) :
      Frag prog isLazy (.repeated inner min (some mx) lazyHere) i j
  | unbounded {isLazy lazyHere : Bool} {inner : Ast} {min i k j : Nat}
      (must : Frag prog (lazyHere || isLazy) (.seq (List.replicate min inner)) i k)
      (may : Frag prog (lazyHere || isLazy) (.repeated inner 0 none lazyHere) k j) :
      Frag prog isLazy (.repeated inner min none lazyHere) i j

variable {lower ci} {prog prog' : List Insn} {isLazy : Bool} {a inner : Ast} {v : List Ast} {i j : Nat}

theorem Frag.le (h : Frag lower ci prog isLazy a i j) : i ≤ j := by
  induction h with
  | empty | seqNil => exact Nat.le_refl _
  | leaf => exact Nat.le_succ _
  | seqCons _ _ ih ih' => exact ih.trans ih'
  | altLast _ _ ih => exact Nat.le_succ_of_le ih
  | altCons _ _ _ _ ih ih' => omega
  | group _ _ _ ih | optional _ _ ih | loop _ _ _ ih => omega
  | bounded _ _ ih ih' | unbounded _ _ ih ih' => exact ih.trans ih'

/-- Only the instructions of the code itself matter. -/
theorem Frag.congr (h : Frag lower ci prog isLazy a i j) (heq : ∀ k, i ≤ k → k < j → prog'[k]? = prog[k]?) :
    Frag lower ci prog' isLazy a i j := by
  induction h with
  | empty => exact .empty
  | leaf h hi => exact .leaf h ((heq _ (Nat.le_refl _) (Nat.lt_succ_self _)).trans hi)
  | seqNil => exact .seqNil
  | seqCons first rest ih ih' =>
      have hle := first.le
      have hle' := rest.le
      exact .seqCons (ih fun k hk hlt => heq k hk (hlt.trans_le hle')) (ih' fun k hk hlt => heq k (hle.trans hk) hlt)
  | altLast last hjump ih =>
      have hle := last.le
      exact .altLast (ih fun k hk hlt => heq k hk (hlt.trans (Nat.lt_succ_self _)))
        ((heq _ hle (Nat.lt_succ_self _)).trans hjump)
  | altCons hsplit first hjump rest ih ih' =>
      have hle := first.le
      have hle' := rest.le
      exact .altCons ((heq _ (Nat.le_refl _) (by omega)).trans hsplit) (ih fun k hk hlt => heq k (by omega) (by omega))
        ((heq _ (by omega) (by omega)).trans hjump) (ih' fun k hk hlt => heq k (by omega) hlt)
  | group hstart body hend ih =>
      have hle := body.le
      exact .group ((heq _ (Nat.le_refl _) (by omega)).trans hstart) (ih fun k hk hlt => heq k (by omega) (by omega))
        ((heq _ (by omega) (Nat.lt_succ_self _)).trans hend)
  | optional hsplit body ih =>
      have hle := body.le
      exact .optional ((heq _ (Nat.le_refl _) (by omega)).trans hsplit) (ih fun k hk hlt => heq k (by omega) hlt)
  | loop hsplit body hjump ih =>
      have hle := body.le
      exact .loop ((heq _ (Nat.le_refl _) (by omega)).trans hsplit) (ih fun k hk hlt => heq k (by omega) (by omega))
        ((heq _ (by omega) (Nat.lt_succ_self _)).trans hjump)
  | bounded must may ih ih' =>
      have hle := must.le
      have hle' := may.le
      exact .bounded (ih fun k hk hlt => heq k hk (hlt.trans_le hle')) (ih' fun k hk hlt => heq k (hle.trans hk) hlt)
  | unbounded must may ih ih' =>
      have hle := must.le
      have hle' := may.le
      exact .unbounded (ih fun k hk hlt => heq k hk (hlt.trans_le hle')) (ih' fun k hk hlt => heq k (hle.trans hk) hlt)

/-! ## What the compiler keeps -/

namespace Compiler

/-- The second compiler has emitted more than the first, and changed nothing. -/
structure Extends (c r : Compiler) : Prop where
  le : c.insns.length ≤ r.insns.length
  kept : ∀ k, k < c.insns.length → r.insns[k]? = c.insns[k]?
  ci : r.ci = c.ci
  lazyCtx : r.lazyCtx = c.lazyCtx

variable {c d r : Compiler}

theorem Extends.refl (c : Compiler) : Extends c c := ⟨Nat.le_refl _, fun _ _ => rfl, rfl, rfl⟩

theorem Extends.trans (h : Extends c d) (h' : Extends d r) : Extends c r where
  le := h.le.trans h'.le
  kept := fun k hk => (h'.kept k (hk.trans_le h.le)).trans (h.kept k hk)
  ci := h'.ci.trans h.ci
  lazyCtx := h'.lazyCtx.trans h.lazyCtx

@[simp]
theorem length_emit (c : Compiler) (insn : Insn) : (c.emit insn).insns.length = c.insns.length + 1 :=
  List.length_append

@[simp]
theorem length_patch (c : Compiler) (pos : Nat) (insn : Insn) : (c.patch pos insn).insns.length = c.insns.length :=
  List.length_set

theorem extends_emit (c : Compiler) (insn : Insn) : Extends c (c.emit insn) where
  le := by
    rw [length_emit]
    exact Nat.le_succ _
  kept := fun _ hk => List.getElem?_append_left hk
  ci := rfl
  lazyCtx := rfl

theorem emit_last (c : Compiler) (insn : Insn) : (c.emit insn).insns[c.insns.length]? = some insn := by
  simp [emit]

theorem patch_ne (c : Compiler) {pos k : Nat} (insn : Insn) (h : k ≠ pos) :
    (c.patch pos insn).insns[k]? = c.insns[k]? := List.getElem?_set_ne h.symm

theorem patch_self (c : Compiler) {pos : Nat} (insn : Insn) (h : pos < c.insns.length) :
    (c.patch pos insn).insns[pos]? = some insn := by
  simp [patch, h]

/-- A patch behind what was there before. -/
theorem Extends.patch (h : Extends c r) {pos : Nat} (hpos : c.insns.length ≤ pos) (insn : Insn) :
    Extends c (r.patch pos insn) where
  le := by
    rw [length_patch]
    exact h.le
  kept := fun k hk => (patch_ne r insn (Nat.ne_of_lt (hk.trans_le hpos))).trans (h.kept k hk)
  ci := h.ci
  lazyCtx := h.lazyCtx

theorem length_patchJumps (c : Compiler) (here : Nat) (jumps : List Nat) :
    (c.patchJumps here jumps).insns.length = c.insns.length := by
  induction jumps generalizing c with
  | nil => rfl
  | cons j jumps ih => exact (ih _).trans (length_patch c j _)

theorem patchJumps_ne (c : Compiler) (here : Nat) {jumps : List Nat} {k : Nat} (h : k ∉ jumps) :
    (c.patchJumps here jumps).insns[k]? = c.insns[k]? := by
  induction jumps generalizing c with
  | nil => rfl
  | cons j jumps ih =>
      rw [List.mem_cons, not_or] at h
      exact (ih _ h.2).trans (patch_ne c _ h.1)

theorem patchJumps_mem (c : Compiler) (here : Nat) {jumps : List Nat} {k : Nat} (h : k ∈ jumps)
    (hk : k < c.insns.length) : (c.patchJumps here jumps).insns[k]? = some (.jump here) := by
  induction jumps generalizing c with
  | nil => cases h
  | cons j jumps ih =>
      by_cases hrest : k ∈ jumps
      · exact ih _ hrest (by rwa [length_patch])
      · obtain rfl : k = j := (List.mem_cons.1 h).resolve_right hrest
        exact (patchJumps_ne _ here hrest).trans (patch_self c _ hk)

theorem Extends.patchJumps (h : Extends c r) {jumps : List Nat} (hjumps : ∀ j ∈ jumps, c.insns.length ≤ j) (here : Nat) :
    Extends c (r.patchJumps here jumps) := by
  induction jumps generalizing r with
  | nil => exact h
  | cons j jumps ih =>
      exact ih (h.patch (hjumps j List.mem_cons_self) _) fun k hk => hjumps k (List.mem_cons_of_mem j hk)

end Compiler

/-! ## What the compiler emits -/

open Compiler

variable (lower) in
/-- In a lazy or a greedy context, the step appends the code of the expression. -/
def Emits (f : Compiler → Compiler) (isLazy : Bool) (a : Ast) : Prop :=
  ∀ c : Compiler, c.lazyCtx = isLazy →
    Extends c (f c) ∧ Frag lower c.ci (f c).insns isLazy a c.insns.length (f c).insns.length

/-- Code stays code when more is emitted. -/
theorem Frag.extends {c r : Compiler} (h : Frag lower ci c.insns isLazy a i c.insns.length) (hr : Extends c r) :
    Frag lower ci r.insns isLazy a i c.insns.length := h.congr fun k _ hk => hr.kept k hk

theorem emits_leaf (insn : Bool → Insn) (h : ∀ ci, leafInsn lower ci a = some (insn ci)) :
    Emits lower (fun c => c.emit (insn c.ci)) isLazy a := by
  rintro c -
  refine ⟨extends_emit c _, ?_⟩
  rw [length_emit]
  exact .leaf (h c.ci) (emit_last c _)

theorem Emits.cons {f g : Compiler → Compiler} (hf : Emits lower f isLazy a) (hg : Emits lower g isLazy (.seq v)) :
    Emits lower (fun c => g (f c)) isLazy (.seq (a :: v)) := by
  intro c hc
  obtain ⟨hext, hfrag⟩ := hf c hc
  obtain ⟨hext', hfrag'⟩ := hg (f c) (hext.lazyCtx.trans hc)
  rw [hext.ci] at hfrag'
  exact ⟨hext.trans hext', .seqCons (hfrag.extends hext') hfrag'⟩

theorem emits_nil : Emits lower id isLazy (.seq []) := fun c _ => ⟨.refl c, .seqNil⟩

theorem Emits.iterate {f : Compiler → Compiler} (hf : Emits lower f isLazy a) (n : Nat) :
    Emits lower f^[n] isLazy (.seq (List.replicate n a)) := by
  induction n with
  | zero => exact emits_nil
  | succ n ih => exact hf.cons ih

/-- A copy that may be skipped. -/
theorem Emits.optional {f : Compiler → Compiler} {lazyHere : Bool} (hf : Emits lower f (lazyHere || isLazy) inner) :
    Emits lower (Compiler.optional (lazyHere || isLazy) f) (lazyHere || isLazy) (.repeated inner 0 (some 1) lazyHere) := by
  intro c hc
  have hemit := extends_emit c (.split 0 0)
  obtain ⟨hext, hfrag⟩ := hf (c.emit (.split 0 0)) (hemit.lazyCtx.trans hc)
  rw [length_emit] at hfrag
  have hlt : c.insns.length < (f (c.emit (.split 0 0))).insns.length := by
    have hle := hext.le
    rw [length_emit] at hle
    exact hle
  refine ⟨(hemit.trans hext).patch (Nat.le_refl _) _, ?_⟩
  unfold Compiler.optional
  rw [length_patch]
  have heff : (lazyHere || (lazyHere || isLazy)) = (lazyHere || isLazy) := by rw [← Bool.or_assoc, Bool.or_self]
  refine .optional ?_ ?_
  · rw [heff]
    exact patch_self _ _ hlt
  · rw [heff]
    exact hfrag.congr fun k hk _ => patch_ne _ _ (Nat.ne_of_gt hk)

/-- A body that may be run again and again. -/
theorem Emits.loop {f : Compiler → Compiler} {lazyHere : Bool} (hf : Emits lower f (lazyHere || isLazy) inner) :
    Emits lower (Compiler.unbounded (lazyHere || isLazy) f) (lazyHere || isLazy) (.repeated inner 0 none lazyHere) := by
  intro c hc
  have hemit := extends_emit c (.split 0 0)
  obtain ⟨hext, hfrag⟩ := hf (c.emit (.split 0 0)) (hemit.lazyCtx.trans hc)
  rw [length_emit] at hfrag
  have hjump := extends_emit (f (c.emit (.split 0 0))) (.jump c.insns.length)
  have hlt : c.insns.length < (f (c.emit (.split 0 0))).insns.length := by
    have hle := hext.le
    rw [length_emit] at hle
    exact hle
  refine ⟨((hemit.trans hext).trans hjump).patch (Nat.le_refl _) _, ?_⟩
  unfold Compiler.unbounded
  rw [length_patch, length_emit]
  have heff : (lazyHere || (lazyHere || isLazy)) = (lazyHere || isLazy) := by rw [← Bool.or_assoc, Bool.or_self]
  refine .loop ?_ ?_ ?_
  · rw [heff, ← length_emit _ (.jump c.insns.length)]
    refine patch_self _ _ ?_
    rw [length_emit]
    exact Nat.lt_succ_of_lt hlt
  · rw [heff]
    exact (hfrag.extends hjump).congr fun k hk _ => patch_ne _ _ (Nat.ne_of_gt hk)
  · rw [patch_ne _ _ (Nat.ne_of_gt hlt)]
    exact emit_last _ _

/-! ### Alternatives -/

variable (lower) in
/-- Between the two compilers the alternatives were emitted, but for their jumps to the end. -/
structure AltCode (c r : Compiler) (jumps : List Nat) (v : List Ast) : Prop where
  ext : Extends c r
  behind : ∀ j ∈ jumps, c.insns.length ≤ j
  within : ∀ j ∈ jumps, j < r.insns.length
  code : ∀ prog : List Insn, (∀ k, c.insns.length ≤ k → k ∉ jumps → prog[k]? = r.insns[k]?) →
    (∀ j ∈ jumps, prog[j]? = some (.jump r.insns.length)) →
    Frag lower c.ci prog c.lazyCtx (.alt v) c.insns.length r.insns.length

variable {c d e r : Compiler} {jumps : List Nat} {b : Ast}

theorem AltCode.last (hext : Extends c d) (hfrag : Frag lower c.ci d.insns c.lazyCtx a c.insns.length d.insns.length) :
    AltCode lower c (d.emit (.jump 0)) [d.insns.length] [a] where
  ext := hext.trans (extends_emit d _)
  behind := List.forall_mem_singleton.2 hext.le
  within := List.forall_mem_singleton.2 (by
    rw [length_emit]
    exact Nat.lt_succ_self _)
  code := fun prog hprog hjumps => by
    have hjump := hjumps _ (List.mem_singleton_self _)
    rw [length_emit] at hjump ⊢
    refine .altLast ((hfrag.extends (extends_emit d _)).congr fun k hk hkd => hprog k hk fun hmem => ?_) hjump
    exact Nat.ne_of_lt hkd (List.mem_singleton.1 hmem)

/-- `e` has the split, the code of the first alternative, and room for its jump. -/
theorem AltCode.cons (hext : Extends c e) (hlt : c.insns.length < d.insns.length)
    (hlen : e.insns.length = d.insns.length + 1)
    (hsplit : e.insns[c.insns.length]? = some (.split (c.insns.length + 1) (d.insns.length + 1)))
    (hbody : ∀ k, c.insns.length < k → k < d.insns.length → e.insns[k]? = d.insns[k]?)
    (hfrag : Frag lower c.ci d.insns c.lazyCtx a (c.insns.length + 1) d.insns.length)
    (hrest : AltCode lower e r jumps (b :: v)) : AltCode lower c r (d.insns.length :: jumps) (a :: b :: v) where
  ext := hext.trans hrest.ext
  behind := List.forall_mem_cons.2 ⟨hlt.le, fun j hj => hext.le.trans (hrest.behind j hj)⟩
  within := by
    have hle := hrest.ext.le
    rw [hlen] at hle
    exact List.forall_mem_cons.2 ⟨hle, hrest.within⟩
  code := fun prog hprog hjumps => by
    obtain ⟨hjump, hjumps⟩ := List.forall_mem_cons.1 hjumps
    have hbehind := hrest.behind
    rw [hlen] at hbehind
    -- before the jump of the first alternative, nothing is patched any more
    have hkept : ∀ k, c.insns.length ≤ k → k < d.insns.length → prog[k]? = e.insns[k]? := fun k hk hkd => by
      have hnot : k ∉ d.insns.length :: jumps := fun hmem => by
        rcases List.mem_cons.1 hmem with rfl | hmem
        · exact Nat.lt_irrefl _ hkd
        · have hge := hbehind k hmem
          omega
      exact (hprog k hk hnot).trans (hrest.ext.kept k (by omega))
    have hcode := hrest.code prog (fun k hk hnot => hprog k (hext.le.trans hk) fun hmem => ?_) hjumps
    · rw [hext.ci, hext.lazyCtx, hlen] at hcode
      refine .altCons ((hkept _ (Nat.le_refl _) hlt).trans hsplit) (hfrag.congr fun k hk hkd => ?_) hjump hcode
      exact (hkept k (Nat.le_of_succ_le hk) hkd).trans (hbody k hk hkd)
    · rcases List.mem_cons.1 hmem with rfl | hmem
      · rw [hlen] at hk
        exact Nat.not_succ_le_self _ hk
      · exact hnot hmem

theorem compileAlts_code (hv : ∀ a ∈ v, ∀ isLazy, Emits lower (compileAst lower a) isLazy a) (hne : v ≠ []) (c : Compiler) :
    AltCode lower c (compileAlts lower v c).1 (compileAlts lower v c).2 v := by
  induction v generalizing c with
  | nil => exact absurd rfl hne
  | cons a v ih =>
      cases v with
      | nil =>
          obtain ⟨hext, hfrag⟩ := hv a List.mem_cons_self _ c rfl
          exact .last hext hfrag
      | cons b v =>
          have hemit := extends_emit c (.split 0 0)
          obtain ⟨hext, hfrag⟩ := hv a List.mem_cons_self _ (c.emit (.split 0 0)) rfl
          have hlt := hext.le
          rw [length_emit] at hfrag hlt
          have hjump := extends_emit (compileAst lower a (c.emit (.split 0 0))) (.jump 0)
          have hall := (hemit.trans hext).trans hjump
          refine AltCode.cons (hall.patch (Nat.le_refl _) _) hlt ?_ ?_ (fun k hk hkd => ?_) hfrag
            (ih (fun b hb => hv b (List.mem_cons_of_mem a hb)) (List.cons_ne_nil b v) _)
          · rw [length_patch, length_emit]
          · rw [length_emit]
            refine patch_self _ _ ?_
            rw [length_emit]
            exact Nat.lt_succ_of_lt hlt
          · exact (patch_ne _ _ (Nat.ne_of_gt hk)).trans (hjump.kept k hkd)

/-! ### Whole expressions -/

theorem emits_seq (hv : ∀ a ∈ v, Emits lower (compileAst lower a) isLazy a) :
    Emits lower (compileSeq lower v) isLazy (.seq v) := by
  induction v with
  | nil => exact emits_nil
  | cons a v ih => exact (hv a List.mem_cons_self).cons (ih fun b hb => hv b (List.mem_cons_of_mem a hb))

theorem emits_repeated {min : Nat} {max : Option Nat} {lazyHere : Bool}
    (h : Emits lower (compileAst lower inner) (lazyHere || isLazy) inner) :
    Emits lower (compileAst lower (.repeated inner min max lazyHere)) isLazy (.repeated inner min max lazyHere) := by
  intro c hc
  subst hc
  obtain ⟨hmust, hfrag⟩ := h.iterate min { c with lazyCtx := lazyHere || c.lazyCtx } rfl
  have hctx : ∀ {r : Compiler}, Extends { c with lazyCtx := lazyHere || c.lazyCtx } r →
      Extends c { r with lazyCtx := c.lazyCtx } := fun hr => ⟨hr.le, hr.kept, hr.ci, rfl⟩
  cases max with
  | some mx =>
      obtain ⟨hmay, hfrag'⟩ := h.optional.iterate (mx - min) _ hmust.lazyCtx
      rw [hmust.ci] at hfrag'
      have hcode := Frag.bounded (hfrag.extends hmay) hfrag'
      exact ⟨hctx (hmust.trans hmay), hcode⟩
  | none =>
      obtain ⟨hmay, hfrag'⟩ := h.loop _ hmust.lazyCtx
      rw [hmust.ci] at hfrag'
      have hcode := Frag.unbounded (hfrag.extends hmay) hfrag'
      exact ⟨hctx (hmust.trans hmay), hcode⟩

theorem emits_group {idx : Nat} (h : Emits lower (compileAst lower inner) isLazy inner) :
    Emits lower (compileAst lower (.group inner idx)) isLazy (.group inner idx) := by
  intro c hc
  have hemit := extends_emit c (.saveStart idx)
  obtain ⟨hext, hfrag⟩ := h (c.emit (.saveStart idx)) (hemit.lazyCtx.trans hc)
  have hend := extends_emit (compileAst lower inner (c.emit (.saveStart idx))) (.saveEnd idx)
  have hlt := hext.le
  rw [length_emit] at hfrag hlt
  refine ⟨(hemit.trans hext).trans hend, ?_⟩
  rw [compileAst, length_emit]
  refine .group ?_ (hfrag.extends hend) (emit_last _ _)
  rw [hend.kept _ hlt, hext.kept _ (by rw [length_emit]; exact Nat.lt_succ_self _)]
  exact emit_last _ _

/-- The compiler emits the code of every expression. -/
theorem emits_compileAst (hw : a.Wf) (isLazy : Bool) : Emits lower (compileAst lower a) isLazy a := by
  induction a using Ast.ind generalizing isLazy with
  | empty => exact fun c _ => ⟨.refl c, .empty⟩
  | lit ch => exact emits_leaf (fun ci => .lit (foldLit lower ci ch)) fun _ => rfl
  | dot => exact emits_leaf (fun _ => .dot) fun _ => rfl
  | charClass cc => exact emits_leaf (fun _ => .charClass cc) fun _ => rfl
  | anchorStart => exact emits_leaf (fun _ => .anchorStart) fun _ => rfl
  | anchorEnd => exact emits_leaf (fun _ => .anchorEnd) fun _ => rfl
  | backRef idx => exact emits_leaf (fun _ => .backRef idx) fun _ => rfl
  | seq v ih => exact emits_seq fun a ha => ih a ha (allWf_iff.1 hw a ha) isLazy
  | alt v ih =>
      intro c hc
      subst hc
      have halts := compileAlts_code (fun a ha => ih a ha (allWf_iff.1 hw.2 a ha)) hw.1 c
      refine ⟨halts.ext.patchJumps halts.behind _, ?_⟩
      rw [compileAst, length_patchJumps]
      exact halts.code _ (fun k _ hk => patchJumps_ne _ _ hk) fun j hj => patchJumps_mem _ _ hj (halts.within j hj)
  | repeated inner min max lazyHere ih => exact emits_repeated (ih hw.1 _)
  | group inner idx ih => exact emits_group (ih hw isLazy)

/-- A compiled pattern is the code of its expression and one more instruction. -/
theorem compileParsed_frag {opts : RegexOptions} {groups : Nat} (hw : a.Wf) :
    ∃ j, Frag lower opts.caseInsensitive (compileParsed lower opts a groups).insns false a 0 j ∧
      (compileParsed lower opts a groups).insns[j]? = some .matched ∧
      (compileParsed lower opts a groups).insns.length = j + 1 := by
  obtain ⟨-, hfrag⟩ := emits_compileAst hw false (⟨[], opts.caseInsensitive, false⟩ : Compiler) rfl
  exact ⟨_, hfrag.extends (extends_emit _ _), emit_last _ _, length_emit _ _⟩

end Regex
