-- SUMMARY: The instructions that an expression is compiled to, the machine that runs them, and the cache of programs.
import Mathlib.Data.List.AList
import Mathlib.Logic.Function.Iterate
import Rustgres.Lib.Backtracking
import Rustgres.Regex.Syntax

/-!
# Programs

The compiler emits jumps before it knows their targets and patches them. The machine tries the program at each
position of the text in turn, with a budget of its own for each. The lower case of a character is a parameter.
-/

open Backtracking

namespace Regex

inductive Insn where
  | lit (c : Char)
  | dot
  | charClass (cc : CharClass)
  | anchorStart
  | anchorEnd
  | jump (t : Nat)
  | split (a b : Nat)
  | saveStart (g : Nat)
  | saveEnd (g : Nat)
  | backRef (g : Nat)
  | matched

variable (lower : Char → List Char)

/-! ## The compiler -/

structure Compiler where
  insns : List Insn
  ci : Bool
  lazyCtx : Bool

namespace Compiler

def emit (c : Compiler) (insn : Insn) : Compiler := { c with insns := c.insns ++ [insn] }

def patch (c : Compiler) (pos : Nat) (insn : Insn) : Compiler := { c with insns := c.insns.set pos insn }

def patchJumps (c : Compiler) (here : Nat) : List Nat → Compiler
  | [] => c
  | j :: jumps => (c.patch j (.jump here)).patchJumps here jumps

/-- A lazy quantifier prefers to skip its body. -/
def quantifierSplit (isLazy : Bool) (split here : Nat) : Insn :=
  if isLazy then .split here (split + 1) else .split (split + 1) here

/-- A copy of the body that may be skipped. -/
def optional (isLazy : Bool) (body : Compiler → Compiler) (c : Compiler) : Compiler :=
  let split := c.insns.length
  let c := body (c.emit (.split 0 0))
  c.patch split (quantifierSplit isLazy split c.insns.length)

def unbounded (isLazy : Bool) (body : Compiler → Compiler) (c : Compiler) : Compiler :=
  let split := c.insns.length
  let c := (body (c.emit (.split 0 0))).emit (.jump split)
  c.patch split (quantifierSplit isLazy split c.insns.length)

end Compiler

/-- Under `ci` a literal is compiled to the first character of its lower case. -/
def foldLit (ci : Bool) (c : Char) : Char := if ci then (lower c).headD c else c

mutual

def compileAst : Ast → Compiler → Compiler
  | .empty, c => c
  | .lit ch, c => c.emit (.lit (foldLit lower c.ci ch))
  | .dot, c => c.emit .dot
  | .charClass cc, c => c.emit (.charClass cc)
  | .anchorStart, c => c.emit .anchorStart
  | .anchorEnd, c => c.emit .anchorEnd
  | .seq v, c => compileSeq v c
  | .alt v, c =>
    let r := compileAlts v c
    r.1.patchJumps r.1.insns.length r.2
  | .repeated inner min max isLazy, c =>
    let effLazy := isLazy || c.lazyCtx
    let must := (compileAst inner)^[min] { c with lazyCtx := effLazy }
    let may := match max with
      | some mx => (Compiler.optional effLazy (compileAst inner))^[mx - min] must
      | none => Compiler.unbounded effLazy (compileAst inner) must
    { may with lazyCtx := c.lazyCtx }
  | .group inner idx, c => (compileAst inner (c.emit (.saveStart idx))).emit (.saveEnd idx)
  | .backRef idx, c => c.emit (.backRef idx)

def compileSeq : List Ast → Compiler → Compiler
  | [], c => c
  | a :: v, c => compileSeq v (compileAst a c)

/-- The alternatives, and where their jumps to the end are. -/
def compileAlts : List Ast → Compiler → Compiler × List Nat
  | [], c => (c, [])
  | [a], c =>
    let c := compileAst a c
    (c.emit (.jump 0), [c.insns.length])
  | a :: b :: v, c =>
    let split := c.insns.length
    let c := compileAst a (c.emit (.split 0 0))
    let jump := c.insns.length
    let c := c.emit (.jump 0)
    let r := compileAlts (b :: v) (c.patch split (.split (split + 1) c.insns.length))
    (r.1, jump :: r.2)

end

/-! ## The machine -/

abbrev Caps := List (Option (Nat × Nat))

/-- A position in the text, and what the groups have captured. -/
structure Point where
  si : Nat
  caps : Caps

namespace Point

def advance (p : Point) (n : Nat) : Point := { p with si := p.si + n }

def saveStart (p : Point) (g : Nat) : Point := { p with caps := p.caps.set g (some (p.si, p.si)) }

def saveEnd (p : Point) (g : Nat) : Point :=
  match p.caps[g]? with
  | some (some (st, _)) => { p with caps := p.caps.set g (some (st, p.si)) }
  | _ => p

/-- What a group has captured. -/
def group (p : Point) (g : Nat) : Option (Nat × Nat) := p.caps[g]?.join

end Point

structure Frame where
  pc : Nat
  point : Point

structure RegexOptions where
  caseInsensitive : Bool
  newlineSensitive : Bool
  expanded : Bool
  deriving DecidableEq

structure Compiled where
  insns : List Insn
  groups : Nat
  ci : Bool
  newlineSensitive : Bool

def charsEq (a b : Char) (ci : Bool) : Bool := if ci then lower a = lower b else a = b

def slice (s : List Char) (lo hi : Nat) : List Char := (s.drop lo).take (hi - lo)

/-- Whether the text goes on with what the group has captured. -/
def repeats (ci : Bool) (s : List Char) (si gs ge : Nat) : Bool :=
  let a := slice s gs ge
  let b := slice s si (si + (ge - gs))
  si + (ge - gs) ≤ s.length && if ci then (a.zip b).all fun r => lower r.1 = lower r.2 else a = b

def atStart (nl : Bool) (s : List Char) (si : Nat) : Bool := si = 0 || (nl && s[si - 1]? = some '\n')

def atEnd (nl : Bool) (s : List Char) (si : Nat) : Bool := si = s.length || (nl && s[si]? = some '\n')

/-- Go on with the next instruction, or backtrack. -/
def Frame.next (f : Frame) : Option Point → Move Frame Caps
  | some point => .go ⟨f.pc + 1, point⟩
  | none => .fail

/-- Where an instruction that reads the text leads, if it matches. -/
def Point.read (ci nl : Bool) (s : List Char) (p : Point) : Insn → Option Point
  | .lit c => if s[p.si]?.any fun x => charsEq lower x c ci then some (p.advance 1) else none
  | .dot => if s[p.si]?.any fun x => !(nl && x = '\n') then some (p.advance 1) else none
  | .charClass cc =>
    if s[p.si]?.any fun x => cc.matches x && !(nl && cc.neg && x = '\n') then some (p.advance 1) else none
  | .anchorStart => if atStart nl s p.si then some p else none
  | .anchorEnd => if atEnd nl s p.si then some p else none
  | .saveStart g => some (p.saveStart g)
  | .saveEnd g => some (p.saveEnd g)
  | .backRef g =>
    match p.group g with
    | some (gs, ge) => if repeats lower ci s p.si gs ge then some (p.advance (ge - gs)) else none
    | none => none
  | .jump _ | .split _ _ | .matched => none

/-- The captures when the whole pattern has matched. -/
def Point.finish (p : Point) : Caps :=
  match p.caps with
  | some (st, _) :: rest => some (st, p.si) :: rest
  | caps => caps

def Compiled.step (prog : Compiled) (s : List Char) (f : Frame) : Move Frame Caps :=
  match prog.insns[f.pc]? with
  | none => .halt
  | some (.jump t) => .go ⟨t, f.point⟩
  | some (.split a b) => .fork ⟨a, f.point⟩ ⟨b, f.point⟩
  | some .matched => .accept f.point.finish
  | some insn => f.next (f.point.read lower prog.ci prog.newlineSensitive s insn)

def u64Max : Nat := 2 ^ 64 - 1

/-- The moves that one position of the text is worth. -/
def Compiled.budget (prog : Compiled) (s : List Char) : Nat :=
  min (min (min (s.length * prog.insns.length) u64Max * 100) u64Max + 100000) u64Max

/-- No group has captured anything, and the match starts at `st`. -/
def Compiled.start (prog : Compiled) (st : Nat) : Point :=
  ⟨st, some (st, st) :: List.replicate prog.groups none⟩

def Compiled.run (prog : Compiled) (s : List Char) (st : Nat) : Verdict Caps :=
  search (prog.step lower s) (prog.budget s) ⟨0, prog.start st⟩ []

/-- What an attempt finds; after one that finds nothing, the search goes on. -/
def foundBy (next : Option (Nat × Nat × Caps)) : Verdict Caps → Option (Nat × Nat × Caps)
  | .accepted caps =>
    match caps[0]?.join with
    | some (ms, me) => some (ms, me, caps)
    | none => none
  | .failed | .exhausted => next

/-- The first of the positions from `st` on where the program matches. -/
def Compiled.findFrom (prog : Compiled) (s : List Char) : Nat → Nat → Option (Nat × Nat × Caps)
  | 0, _ => none
  | n + 1, st => foundBy (prog.findFrom s n (st + 1)) (prog.run lower s st)

def Compiled.findAt (prog : Compiled) (s : List Char) (start : Nat) : Option (Nat × Nat × Caps) :=
  prog.findFrom lower s (s.length + 1 - start) start

/-! ## Compiling a pattern -/

def compileParsed (opts : RegexOptions) (ast : Ast) (groups : Nat) : Compiled :=
  let c := compileAst lower ast ⟨[], opts.caseInsensitive, false⟩
  ⟨(c.emit .matched).insns, groups, opts.caseInsensitive, opts.newlineSensitive⟩

def compilePattern (pattern : List Char) (opts : RegexOptions) : Except ParseError Compiled := do
  let (ast, groups) ← parsePattern pattern opts.expanded
  .ok (compileParsed lower opts ast groups)

def regexCacheCap : Nat := 64

abbrev RegexCache := AList fun _ : List Char × RegexOptions => Compiled

/-- A program from the cache, or a new one, which goes into the cache; a full cache is emptied first. -/
def compileOpts (cache : RegexCache) (pattern : List Char) (opts : RegexOptions) :
    Except ParseError Compiled × RegexCache :=
  match cache.lookup (pattern, opts) with
  | some hit => (.ok hit, cache)
  | none =>
    match compilePattern lower pattern opts with
    | .error e => (.error e, cache)
    | .ok prog =>
      let cache := if regexCacheCap ≤ cache.entries.length then ∅ else cache
      (.ok prog, cache.insert (pattern, opts) prog)

end Regex
