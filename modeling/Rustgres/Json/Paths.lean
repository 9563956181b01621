-- SUMMARY: Paths into jsonb documents: how they are read, where updates go, and the laws between the two.
import Rustgres.Json.Producers

/-!
# Paths

A path is followed by the reader and by the updates, each with its own reading of array indexes. An update at a path
that resolves puts the value at one place and leaves the others.
-/

namespace Json

open Num

/-! ## Reading -/

namespace JsonbVal

def field (v : JsonbVal) (key : Text) : Option JsonbVal :=
  match v with
  | .object pairs => (pairs.find? (·.1 = key)).map Prod.snd
  | _ => none

/-- Negative indexes count from the end. -/
def index (v : JsonbVal) (idx : Int) : Option JsonbVal :=
  match v with
  | .array elems =>
    let i := if idx < 0 then elems.length + idx else idx
    if i < 0 ∨ elems.length ≤ i then none else elems[i.toNat]?
  | _ => none

/-- An integer of 64 bits, without white space around it. -/
def asInt (elem : Text) : Option Int :=
  if elem.isEmpty then none
  else (readInt elem).bind fun i => if -2 ^ 63 ≤ i ∧ i < 2 ^ 63 then some i else none

/-- An element that reads as an integer is an index first, and a key where there is no such element. -/
def path : JsonbVal → List Text → Option JsonbVal
  | cur, [] => some cur
  | cur, elem :: rest =>
    (match asInt elem with
    | some i => (cur.index i).or (cur.field elem)
    | none => cur.field elem).bind (·.path rest)

end JsonbVal

/-! ## Places -/

/-- What is at a place in an array or an object. -/
def child : JsonbVal → Nat → Option JsonbVal
  | .array elems, i => elems[i]?
  | .object pairs, i => pairs[i]?.map Prod.snd
  | _, _ => none

/-- The document with another value at a place, which is that of the key in an object. -/
def setChild (elem : Text) (v : JsonbVal) : JsonbVal → Nat → JsonbVal
  | .array elems, i => .array (elems.set i v)
  | .object pairs, i => .object (pairs.set i (elem, v))
  | d, _ => d

/-- The place an update takes a path element for. -/
def writeStep (elem : Text) : JsonbVal → Option Nat
  | .array elems =>
    match parsePathIndex elem 0 with
    | .error _ => none
    | .ok raw =>
      match placeIndex elems.length raw with
      | .at_ i => some i
      | .front | .back => none
  | .object pairs => pairs.findIdx? (·.1 = elem)
  | _ => none

/-- The place the reader takes a path element for. -/
def readStep (elem : Text) : JsonbVal → Option Nat
  | .array elems =>
    (JsonbVal.asInt elem).bind fun idx =>
      let i := if idx < 0 then elems.length + idx else idx
      if i < 0 ∨ elems.length ≤ i then none else some i.toNat
  | .object pairs => pairs.findIdx? (·.1 = elem)
  | _ => none

/-- What an update reaches along a path. -/
def walkTo : JsonbVal → List Text → Option JsonbVal
  | d, [] => some d
  | d, elem :: rest => ((writeStep elem d).bind (child d)).bind (walkTo · rest)

/-- The path resolves for an update. -/
def Resolves (d : JsonbVal) (path : List Text) : Prop := (walkTo d path).isSome

/-- The document with another value where the path leads. -/
def putAt (v : JsonbVal) : JsonbVal → List Text → JsonbVal
  | _, [] => v
  | d, elem :: rest =>
    match writeStep elem d with
    | none => d
    | some i =>
      match child d i with
      | none => d
      | some c => setChild elem (putAt v c rest) d i

/-- The reader on the second path leaves the way of an update on the first one at some document. -/
def Parts : JsonbVal → List Text → List Text → Prop
  | d, e :: p, f :: q =>
    readStep f d ≠ writeStep e d ∨ ∃ i c, writeStep e d = some i ∧ child d i = some c ∧ Parts c p q
  | _, _, _ => False

/-- No array on the way is given an index with white space in front. -/
def Unspaced : JsonbVal → List Text → Prop
  | _, [] => True
  | d, e :: p =>
    (∀ elems, d = .array elems → e.dropWhile isPathSpace = e) ∧
      ∀ i c, writeStep e d = some i → child d i = some c → Unspaced c p

theorem find_findIdx {α : Type} (f : α → Bool) (l : List α) : (l.findIdx? f).bind (l[·]?) = l.find? f := by
  induction l with
  | nil => rfl
  | cons a l ih =>
      rw [List.findIdx?_cons, List.find?_cons]
      cases f a with
      | true => rfl
      | false =>
          rw [← ih]
          cases l.findIdx? f <;> rfl

theorem path_cons (d : JsonbVal) (e : Text) (p : List Text) :
    d.path (e :: p) = ((readStep e d).bind (child d)).bind (·.path p) := by
  rw [JsonbVal.path]
  congr 1
  cases d with
  | null | bool | number | str => cases JsonbVal.asInt e <;> rfl
  | object pairs =>
      have hfield : (readStep e (.object pairs)).bind (child (.object pairs)) = (pairs.find? (·.1 = e)).map Prod.snd := by
        rw [← find_findIdx, readStep]
        cases pairs.findIdx? (·.1 = e) <;> rfl
      rw [hfield]
      cases JsonbVal.asInt e <;> rfl
  | array elems =>
      rw [readStep]
      cases JsonbVal.asInt e with
      | none => rfl
      | some idx =>
          simp only [JsonbVal.index, JsonbVal.field, Option.or_none, Option.bind_some]
          generalize (if idx < 0 then (elems.length : Int) + idx else idx) = i
          split <;> rfl

/-! ## One place -/

/-- Where an update steps, and what is there. -/
theorem walkTo_cons {d c : JsonbVal} {e : Text} {p : List Text} (h : walkTo d (e :: p) = some c) :
    ∃ i x, writeStep e d = some i ∧ child d i = some x ∧ walkTo x p = some c := by
  rw [walkTo] at h
  obtain ⟨x, hx, hc⟩ := Option.bind_eq_some_iff.1 h
  obtain ⟨i, hi, hx⟩ := Option.bind_eq_some_iff.1 hx
  exact ⟨i, x, hi, hx, hc⟩

/-- A place that a step leads to has that key in an object. -/
theorem key_of_step {pairs : List (Text × JsonbVal)} {e : Text} {i : Nat} {p : Text × JsonbVal}
    (h : pairs.findIdx? (·.1 = e) = some i) (hp : pairs[i]? = some p) : p.1 = e := by
  obtain ⟨hlt, heq, -⟩ := List.findIdx?_eq_some_iff_getElem.1 h
  rw [List.getElem?_eq_getElem hlt] at hp
  cases hp
  simpa using heq

theorem findIdx_set {pairs : List (Text × JsonbVal)} {e : Text} {i : Nat} (h : pairs.findIdx? (·.1 = e) = some i)
    (v : JsonbVal) (f : Text) : (pairs.set i (e, v)).findIdx? (·.1 = f) = pairs.findIdx? (·.1 = f) := by
  have hkeys : (pairs.set i (e, v)).map Prod.fst = pairs.map Prod.fst := by
    obtain ⟨hlt, heq, -⟩ := List.findIdx?_eq_some_iff_getElem.1 h
    rw [List.map_set]
    apply List.ext_getElem?
    intro j
    rw [List.getElem?_set]
    split
    · rename_i hij
      subst hij
      rw [if_pos (by rw [List.length_map]; exact hlt), List.getElem?_map, List.getElem?_eq_getElem hlt, Option.map_some]
      simpa using (of_decide_eq_true heq).symm
    · rfl
  have hfind : ∀ l : List (Text × JsonbVal), l.findIdx? (·.1 = f) = (l.map Prod.fst).findIdx? (· = f) := by
    intro l
    rw [List.findIdx?_map]
    rfl
  rw [hfind, hfind, hkeys]

/-- A step after an update of a place is what it was. -/
theorem writeStep_setChild {d : JsonbVal} {e : Text} {i : Nat} (h : writeStep e d = some i) (v : JsonbVal) (f : Text) :
    writeStep f (setChild e v d i) = writeStep f d := by
  cases d with
  | array elems => simp only [setChild, writeStep, List.length_set]
  | object pairs => exact findIdx_set h v f
  | null | bool | number | str => rfl

theorem readStep_setChild {d : JsonbVal} {e : Text} {i : Nat} (h : writeStep e d = some i) (v : JsonbVal) (f : Text) :
    readStep f (setChild e v d i) = readStep f d := by
  cases d with
  | array elems => simp only [setChild, readStep, List.length_set]
  | object pairs => exact findIdx_set h v f
  | null | bool | number | str => rfl

theorem child_setChild {d c : JsonbVal} {i : Nat} (h : child d i = some c) (e : Text) (v : JsonbVal) (j : Nat) :
    child (setChild e v d i) j = if j = i then some v else child d j := by
  cases d with
  | array elems =>
      have hlt : i < elems.length := (List.getElem?_eq_some_iff.1 h).1
      simp only [setChild, child, List.getElem?_set, hlt, if_true]
      grind
  | object pairs =>
      obtain ⟨p, hp, -⟩ := Option.map_eq_some_iff.1 h
      have hlt : i < pairs.length := (List.getElem?_eq_some_iff.1 hp).1
      simp only [setChild, child, List.getElem?_set, hlt, if_true]
      grind
  | null | bool | number | str => cases h

/-- The value that is there put again. -/
theorem setChild_child {d c : JsonbVal} {e : Text} {i : Nat} (hs : writeStep e d = some i) (hc : child d i = some c) :
    setChild e c d i = d := by
  cases d with
  | array elems =>
      obtain ⟨hlt, heq⟩ := List.getElem?_eq_some_iff.1 hc
      rw [setChild, ← heq, List.set_getElem_self]
  | object pairs =>
      obtain ⟨p, hp, hpc⟩ := Option.map_eq_some_iff.1 hc
      obtain ⟨hlt, heq⟩ := List.getElem?_eq_some_iff.1 hp
      have hkey := key_of_step hs hp
      have hpair : (e, c) = pairs[i] := by rw [heq, ← hkey, ← hpc]
      rw [setChild, hpair, List.set_getElem_self]
  | null | bool | number | str => cases hc

theorem setChild_setChild (e : Text) (v w : JsonbVal) (d : JsonbVal) (i : Nat) :
    setChild e w (setChild e v d i) i = setChild e w d i := by
  cases d with
  | array elems => rw [setChild, setChild, setChild, List.set_set]
  | object pairs => rw [setChild, setChild, setChild, List.set_set]
  | null | bool | number | str => rfl

/-! ## The two readings of an index -/

theorem readInt_space {s : Text} {i : Int} (h : readInt s = some i) : s.dropWhile isPathSpace = s := by
  cases s with
  | nil => rfl
  | cons c s =>
      have hspace : isPathSpace c = false := by
        by_contra hcon
        rw [Bool.not_eq_false] at hcon
        simp only [isPathSpace, isSpace, Bool.or_eq_true, decide_eq_true_eq] at hcon
        rcases hcon with ((((rfl | rfl) | rfl) | rfl) | rfl) | rfl
        all_goals
          rw [readInt, List.all_cons] at h
          · cases h
          · intro s hs
            cases hs
          · intro s hs
            cases hs
      rw [List.dropWhile_cons_of_neg (by rw [hspace]; decide)]

theorem parsePathIndex_ok {s : Text} {level : Nat} {i : Int} :
    parsePathIndex s level = .ok i ↔ readInt (s.dropWhile isPathSpace) = some i ∧ -2 ^ 31 ≤ i ∧ i < 2 ^ 31 := by
  unfold parsePathIndex
  cases readInt (s.dropWhile isPathSpace) with
  | none => simp
  | some j =>
      dsimp only
      split
      · rename_i hout
        constructor
        · intro h
          cases h
        · rintro ⟨h, hlo, hhi⟩
          cases h
          omega
      · rename_i hin
        constructor
        · intro h
          cases h
          exact ⟨rfl, by omega, by omega⟩
        · rintro ⟨h, -, -⟩
          cases h
          rfl

/-- The place an index stands for. -/
theorem placeIndex_at {len j : Nat} {raw : Int} (h : placeIndex len raw = .at_ j) :
    (if raw < 0 then len + raw else raw) = j ∧ j < len := by
  unfold placeIndex at h
  split at h
  · cases h
  · split at h
    · split at h
      · cases h
      · cases h
        rw [if_pos (by omega)]
        omega
    · split at h
      · cases h
      · cases h
        rw [if_neg (by omega)]
        omega

theorem writeStep_array {elems : List JsonbVal} {e : Text} {i : Nat} (h : writeStep e (.array elems) = some i) :
    ∃ raw : Int, readInt (e.dropWhile isPathSpace) = some raw ∧ -2 ^ 31 ≤ raw ∧ raw < 2 ^ 31 ∧
      placeIndex elems.length raw = .at_ i := by
  rw [writeStep] at h
  cases hp : parsePathIndex e 0 with
  | error => simp [hp] at h
  | ok raw =>
      obtain ⟨hread, hlo, hhi⟩ := parsePathIndex_ok.1 hp
      rw [hp] at h
      dsimp only at h
      refine ⟨raw, hread, hlo, hhi, ?_⟩
      cases hplace : placeIndex elems.length raw with
      | at_ j =>
          rw [hplace] at h
          cases h
          rfl
      | front | back =>
          rw [hplace] at h
          cases h

/-- The reader takes an index it can read for the same place. -/
theorem readStep_array {elems : List JsonbVal} {e : Text} {i : Nat} (h : writeStep e (.array elems) = some i) {raw : Int}
    (hraw : readInt e = some raw) : readStep e (.array elems) = some i := by
  obtain ⟨raw', hread, hlo, hhi, hplace⟩ := writeStep_array h
  rw [readInt_space hraw, hraw] at hread
  cases hread
  obtain ⟨hidx, hlt⟩ := placeIndex_at hplace
  have hne : e.isEmpty = false := by
    cases e with
    | nil => cases hraw
    | cons => rfl
  have hint : JsonbVal.asInt e = some raw := by
    rw [JsonbVal.asInt, hne, if_neg (by decide), hraw, Option.bind_some, if_pos ⟨by omega, by omega⟩]
  rw [readStep, hint, Option.bind_some]
  dsimp only
  rw [hidx, if_neg (by omega), Int.toNat_natCast]

/-- Where both readings find a place it is the same one. -/
theorem steps_agree {d : JsonbVal} {e : Text} {i j : Nat} (hr : readStep e d = some i) (hw : writeStep e d = some j) :
    i = j := by
  cases d with
  | array elems =>
      obtain ⟨idx, hidx, -⟩ := Option.bind_eq_some_iff.1 hr
      unfold JsonbVal.asInt at hidx
      split at hidx
      · cases hidx
      · obtain ⟨raw, hraw, -⟩ := Option.bind_eq_some_iff.1 hidx
        rw [readStep_array hw hraw] at hr
        exact (Option.some.inj hr).symm
  | object pairs => exact Option.some.inj (hr.symm.trans hw)
  | null | bool | number | str => cases hw

/-- Without white space in front the reader goes where the update goes. -/
theorem readStep_of_writeStep {d : JsonbVal} {e : Text} {i : Nat}
    (he : ∀ elems, d = .array elems → e.dropWhile isPathSpace = e) (h : writeStep e d = some i) :
    readStep e d = some i := by
  cases d with
  | array elems =>
      obtain ⟨raw, hread, -⟩ := writeStep_array h
      rw [he elems rfl] at hread
      exact readStep_array h hread
  | object pairs => exact h
  | null | bool | number | str => cases h

/-! ## The laws -/

theorem putAt_cons {d x : JsonbVal} {e : Text} {i : Nat} (hs : writeStep e d = some i) (hc : child d i = some x)
    (v : JsonbVal) (p : List Text) : putAt v d (e :: p) = setChild e (putAt v x p) d i := by
  rw [putAt, hs]
  dsimp only
  rw [hc]

theorem resolves_cons {d : JsonbVal} {e : Text} {p : List Text} (h : Resolves d (e :: p)) :
    ∃ i x, writeStep e d = some i ∧ child d i = some x ∧ Resolves x p := by
  obtain ⟨c, hc⟩ := Option.isSome_iff_exists.1 h
  obtain ⟨i, x, hs, hx, hwalk⟩ := walkTo_cons hc
  exact ⟨i, x, hs, hx, Option.isSome_iff_exists.2 ⟨c, hwalk⟩⟩

theorem parsePathIndex_level {e : Text} {i : Int} (h : parsePathIndex e 0 = .ok i) (level : Nat) :
    parsePathIndex e level = .ok i := parsePathIndex_ok.2 (parsePathIndex_ok.1 h)

theorem walkTo_append (d : JsonbVal) (p q : List Text) : walkTo d (p ++ q) = (walkTo d p).bind (walkTo · q) := by
  induction p generalizing d with
  | nil => rfl
  | cons e p ih =>
      rw [List.cons_append, walkTo, walkTo]
      cases (writeStep e d).bind (child d) with
      | none => rfl
      | some x => exact ih x

theorem putAt_append {d c : JsonbVal} {p : List Text} (h : walkTo d p = some c) (v : JsonbVal) (q : List Text) :
    putAt v d (p ++ q) = putAt (putAt v c q) d p := by
  induction p generalizing d with
  | nil =>
      cases h
      rfl
  | cons e p ih =>
      obtain ⟨i, x, hs, hx, hwalk⟩ := walkTo_cons h
      rw [List.cons_append, putAt_cons hs hx, putAt_cons hs hx, ih hwalk]

theorem walkTo_putAt {d c : JsonbVal} {p : List Text} (h : walkTo d p = some c) (v : JsonbVal) :
    walkTo (putAt v d p) p = some v := by
  induction p generalizing d with
  | nil => rfl
  | cons e p ih =>
      obtain ⟨i, x, hs, hx, hwalk⟩ := walkTo_cons h
      rw [putAt_cons hs hx, walkTo, writeStep_setChild hs, hs, Option.bind_some, child_setChild hx, if_pos rfl,
        Option.bind_some, ih hwalk]

theorem putAt_walkTo {d c : JsonbVal} {p : List Text} (h : walkTo d p = some c) : putAt c d p = d := by
  induction p generalizing d with
  | nil =>
      cases h
      rfl
  | cons e p ih =>
      obtain ⟨i, x, hs, hx, hwalk⟩ := walkTo_cons h
      rw [putAt_cons hs hx, ih hwalk, setChild_child hs hx]

theorem putAt_putAt {d c : JsonbVal} {p : List Text} (h : walkTo d p = some c) (v w : JsonbVal) :
    putAt w (putAt v d p) p = putAt w d p := by
  induction p generalizing d with
  | nil => rfl
  | cons e p ih =>
      obtain ⟨i, x, hs, hx, hwalk⟩ := walkTo_cons h
      have hstep : writeStep e (setChild e (putAt v x p) d i) = some i := by rw [writeStep_setChild hs, hs]
      have hchild : child (setChild e (putAt v x p) d i) i = some (putAt v x p) := by
        rw [child_setChild hx, if_pos rfl]
      rw [putAt_cons hs hx, putAt_cons hs hx, putAt_cons hstep hchild, ih hwalk, setChild_setChild]

/-- An update walks to the last container and changes that. -/
theorem setPathRec_append {newval : Option JsonbVal} {op : JsonbPathOp} {d c : JsonbVal} {p q : List Text}
    (h : walkTo d p = some c) (hq : q ≠ []) (level : Nat) :
    setPathRec newval op d ((p ++ q).map some) level
      = (setPathRec newval op c (q.map some) (level + p.length)).map fun c' => putAt c' d p := by
  induction p generalizing d level with
  | nil =>
      cases h
      rw [List.nil_append, List.length_nil, Nat.add_zero]
      change _ = (setPathRec newval op c (q.map some) level).map id
      cases setPathRec newval op c (q.map some) level <;> rfl
  | cons e p ih =>
      obtain ⟨i, x, hs, hx, hwalk⟩ := walkTo_cons h
      have hmore : ((p ++ q).map some).isEmpty = false := by simp [hq]
      have hcount : level + 1 + p.length = level + (e :: p).length := by
        rw [List.length_cons]
        omega
      have hrest := ih hwalk (level + 1)
      rw [hcount] at hrest
      have hput : ∀ c' : JsonbVal, putAt c' d (e :: p) = setChild e (putAt c' x p) d i := fun c' => putAt_cons hs hx c' p
      cases d with
      | null | bool | number | str => cases hs
      | object pairs =>
          obtain ⟨r, hr, hrx⟩ := Option.map_eq_some_iff.1 hx
          have hfind : pairs.findIdx? (·.1 = e) = some i := hs
          rw [List.cons_append, List.map_cons, setPathRec, hfind]
          simp only [hmore, Bool.false_eq_true, if_false, hr, hrx, hrest, hput]
          cases setPathRec newval op c (q.map some) (level + (e :: p).length) <;> rfl
      | array elems =>
          obtain ⟨raw, hread, hlo, hhi, hplace⟩ := writeStep_array hs
          have hget : elems[i]? = some x := hx
          rw [List.cons_append, List.map_cons, setPathRec, parsePathIndex_ok.2 ⟨hread, hlo, hhi⟩]
          simp only [hplace, hmore, Bool.false_eq_true, if_false, hget, hrest, hput]
          cases setPathRec newval op c (q.map some) (level + (e :: p).length) <;> rfl

/-- The last step of an update at a place that is there. -/
theorem setPathRec_last {op : JsonbPathOp} (hop : op = .replace ∨ op = .create) (v : JsonbVal) {d x : JsonbVal} {e : Text}
    {i : Nat} (hs : writeStep e d = some i) (hx : child d i = some x) (level : Nat) :
    setPathRec (some v) op d [some e] level = .ok (setChild e v d i) := by
  cases d with
  | null | bool | number | str => cases hs
  | object pairs =>
      have hfind : pairs.findIdx? (·.1 = e) = some i := hs
      rw [setPathRec, hfind]
      rcases hop with rfl | rfl <;> rfl
  | array elems =>
      obtain ⟨raw, hread, hlo, hhi, hplace⟩ := writeStep_array hs
      rw [setPathRec, parsePathIndex_ok.2 ⟨hread, hlo, hhi⟩]
      dsimp only
      rw [hplace]
      rcases hop with rfl | rfl <;> rfl

/-- An update where the path resolves puts the value there. -/
theorem setPathRec_resolves {op : JsonbPathOp} (hop : op = .replace ∨ op = .create) (v : JsonbVal) {d : JsonbVal}
    {p : List Text} (hp : p ≠ []) (h : Resolves d p) (level : Nat) :
    setPathRec (some v) op d (p.map some) level = .ok (putAt v d p) := by
  obtain ⟨p, e, rfl⟩ := (List.eq_nil_or_concat p).resolve_left hp
  rw [List.concat_eq_append] at h ⊢
  rw [Resolves, walkTo_append] at h
  obtain ⟨y, hy⟩ := Option.isSome_iff_exists.1 h
  obtain ⟨c, hc, hlast⟩ := Option.bind_eq_some_iff.1 hy
  obtain ⟨i, x, hs, hx, -⟩ := walkTo_cons hlast
  rw [setPathRec_append hc (List.cons_ne_nil e []), List.map_singleton, setPathRec_last hop v hs hx, putAt_append hc,
    putAt_cons hs hx]
  rfl

theorem path_putAt {d : JsonbVal} {p : List Text} (v : JsonbVal) (h : Resolves d p) (hp : Unspaced d p) :
    (putAt v d p).path p = some v := by
  induction p generalizing d with
  | nil => rfl
  | cons e p ih =>
      obtain ⟨i, x, hs, hx, hrest⟩ := resolves_cons h
      rw [putAt_cons hs hx, path_cons, readStep_setChild hs, readStep_of_writeStep hp.1 hs, Option.bind_some,
        child_setChild hx, if_pos rfl, Option.bind_some, ih hrest (hp.2 i x hs hx)]

theorem path_putAt_parts {d : JsonbVal} {p q : List Text} (v : JsonbVal) (h : Resolves d p) (hpq : Parts d p q) :
    (putAt v d p).path q = d.path q := by
  induction p generalizing d q with
  | nil => cases hpq
  | cons e p ih =>
      cases q with
      | nil => cases hpq
      | cons f q =>
          obtain ⟨i, x, hs, hx, hrest⟩ := resolves_cons h
          rw [putAt_cons hs hx, path_cons, path_cons, readStep_setChild hs]
          cases hr : readStep f d with
          | none => rfl
          | some j =>
              rw [Option.bind_some, Option.bind_some, child_setChild hx]
              by_cases hij : j = i
              · rcases hpq with hne | ⟨i', x', hs', hx', hparts⟩
                · rw [hr, hs, hij] at hne
                  exact absurd rfl hne
                · rw [hs] at hs'
                  cases hs'
                  rw [hx] at hx'
                  cases hx'
                  rw [if_pos hij, hij, hx, Option.bind_some, Option.bind_some, ih hrest hparts]
              · rw [if_neg hij]

theorem putAt_path {d c : JsonbVal} {p : List Text} (h : Resolves d p) (hc : d.path p = some c) : putAt c d p = d := by
  induction p generalizing d with
  | nil =>
      cases hc
      rfl
  | cons e p ih =>
      obtain ⟨i, x, hs, hx, hrest⟩ := resolves_cons h
      rw [path_cons] at hc
      obtain ⟨y, hy, hpath⟩ := Option.bind_eq_some_iff.1 hc
      obtain ⟨j, hr, hy⟩ := Option.bind_eq_some_iff.1 hy
      rw [steps_agree hr hs, hx] at hy
      cases hy
      rw [putAt_cons hs hx, ih hrest hpath, setChild_child hs hx]

/-! ## Paths that do not resolve -/

/-- An array or an object. -/
def Holds : JsonbVal → Prop
  | .array _ => True
  | .object _ => True
  | _ => False

/-- An update that makes a new element or a new key, in the container that the path leads to but for its end. -/
def Creates (op : JsonbPathOp) (d : JsonbVal) (p : List Text) : Prop :=
  op.creates = true ∧ ∃ c, walkTo d p.dropLast = some c ∧ Holds c

theorem child_of_step {d : JsonbVal} {e : Text} {i : Nat} (h : writeStep e d = some i) : ∃ x, child d i = some x := by
  cases d with
  | null | bool | number | str => cases h
  | object pairs =>
      obtain ⟨hlt, -⟩ := List.findIdx?_eq_some_iff_getElem.1 h
      exact ⟨pairs[i].2, by rw [child, List.getElem?_eq_getElem hlt]; rfl⟩
  | array elems =>
      obtain ⟨raw, -, -, -, hplace⟩ := writeStep_array h
      have hlt := (placeIndex_at hplace).2
      exact ⟨elems[i], List.getElem?_eq_getElem hlt⟩

/-- Without a place to step to nothing changes, but where something is created. -/
theorem setPathRec_nowhere {newval : Option JsonbVal} {op : JsonbPathOp} {d d' : JsonbVal} {e : Text} {p : List Text}
    (h : writeStep e d = none) (hc : p = [] → op.creates = true → ¬Holds d) {level : Nat}
    (hok : setPathRec newval op d ((e :: p).map some) level = .ok d') : d' = d := by
  have hend : ∀ {c : JsonbVal}, Holds d → (p.map some).isEmpty = true → op.creates = true → d' = c := by
    intro c hd hp hcreates
    cases p with
    | nil => exact absurd hd (hc rfl hcreates)
    | cons => cases hp
  cases d with
  | null | bool | number | str =>
      cases hok
      rfl
  | object pairs =>
      have hfind : pairs.findIdx? (·.1 = e) = none := h
      rw [List.map_cons, setPathRec, hfind] at hok
      dsimp only at hok
      split at hok
      · rename_i hp
        unfold setMissingKey at hok
        split at hok
        · rename_i hcreates
          exact hend trivial hp hcreates
        · cases hok
          rfl
      · cases hok
        rfl
  | array elems =>
      rw [List.map_cons, setPathRec] at hok
      cases hparse : parsePathIndex e level with
      | error err =>
          rw [hparse] at hok
          cases hok
      | ok raw =>
          have hparse' : parsePathIndex e 0 = .ok raw := parsePathIndex_ok.2 (parsePathIndex_ok.1 hparse)
          rw [writeStep, hparse'] at h
          rw [hparse] at hok
          dsimp only at h hok
          have hbeside : ∀ front, setBeside front elems (p.map some).isEmpty newval op = .ok d' → d' = .array elems := by
            intro front hb
            unfold setBeside at hb
            split at hb
            · rename_i hboth
              obtain ⟨hp, hcreates⟩ := Bool.and_eq_true_iff.1 hboth
              exact hend trivial hp hcreates
            · cases hb
              rfl
          cases hplace : placeIndex elems.length raw with
          | at_ i =>
              rw [hplace] at h
              cases h
          | front =>
              rw [hplace] at hok
              exact hbeside true hok
          | back =>
              rw [hplace] at hok
              exact hbeside false hok

theorem setPathRec_unresolved {newval : Option JsonbVal} {op : JsonbPathOp} {d d' : JsonbVal} {p : List Text}
    (h : ¬Resolves d p) (hc : ¬Creates op d p) {level : Nat}
    (hok : setPathRec newval op d (p.map some) level = .ok d') : d' = d := by
  induction p generalizing d d' level with
  | nil => exact absurd rfl h
  | cons e p ih =>
      cases hs : writeStep e d with
      | none =>
          refine setPathRec_nowhere hs (fun hp hcreates hd => hc ⟨hcreates, d, ?_, hd⟩) hok
          rw [hp]
          rfl
      | some i =>
          obtain ⟨x, hx⟩ := child_of_step hs
          have hwalk : walkTo d [e] = some x := by
            rw [walkTo, hs, Option.bind_some, hx, Option.bind_some]
            rfl
          have hstep : ∀ q, walkTo d (e :: q) = walkTo x q := by
            intro q
            rw [walkTo, hs, Option.bind_some, hx, Option.bind_some]
          have hp : p ≠ [] := by
            rintro rfl
            apply h
            rw [Resolves, hwalk]
            rfl
          have hrest : ¬Resolves x p := fun hr => h (by rw [Resolves, hstep]; exact hr)
          have hnew : ¬Creates op x p := by
            rintro ⟨hcreates, c, hwc, hh⟩
            refine hc ⟨hcreates, c, ?_, hh⟩
            rw [List.dropLast_cons_of_ne_nil hp, hstep]
            exact hwc
          have happ : setPathRec newval op d ((e :: p).map some) level
              = (setPathRec newval op x (p.map some) (level + 1)).map fun c' => putAt c' d [e] :=
            setPathRec_append hwalk hp level
          rw [hok] at happ
          cases hinner : setPathRec newval op x (p.map some) (level + 1) with
          | error err =>
              rw [hinner] at happ
              cases happ
          | ok x' =>
              rw [hinner, ih hrest hnew hinner] at happ
              rw [Except.ok.inj happ]
              exact putAt_walkTo hwalk

/-! ## Insertion and deletion -/

theorem setPathRec_insert {op : JsonbPathOp} (hop : op = .insertBefore ∨ op = .insertAfter) {elems : List JsonbVal}
    {e : Text} {v d' : JsonbVal} {level : Nat} (hok : setPathRec (some v) op (.array elems) [some e] level = .ok d') :
    ∃ i, i ≤ elems.length ∧ d' = .array (elems.insertIdx i v) := by
  rw [setPathRec] at hok
  cases hparse : parsePathIndex e level with
  | error err =>
      rw [hparse] at hok
      cases hok
  | ok raw =>
      rw [hparse] at hok
      dsimp only at hok
      cases hplace : placeIndex elems.length raw with
      | front =>
          rw [hplace] at hok
          refine ⟨0, Nat.zero_le _, ?_⟩
          rcases hop with rfl | rfl
          · exact (Except.ok.inj hok).symm
          · exact (Except.ok.inj hok).symm
      | back =>
          rw [hplace] at hok
          refine ⟨elems.length, Nat.le_refl _, ?_⟩
          rw [List.insertIdx_length_self]
          rcases hop with rfl | rfl
          · exact (Except.ok.inj hok).symm
          · exact (Except.ok.inj hok).symm
      | at_ i =>
          rw [hplace] at hok
          have hlt := (placeIndex_at hplace).2
          rcases hop with rfl | rfl
          · exact ⟨i, hlt.le, (Except.ok.inj hok).symm⟩
          · exact ⟨i + 1, hlt, (Except.ok.inj hok).symm⟩

theorem setPathRec_delete {elems : List JsonbVal} {e : Text} {i : Nat} (hs : writeStep e (.array elems) = some i)
    (level : Nat) : setPathRec none .delete (.array elems) [some e] level = .ok (.array (elems.eraseIdx i)) := by
  obtain ⟨raw, hread, hlo, hhi, hplace⟩ := writeStep_array hs
  rw [setPathRec, parsePathIndex_ok.2 ⟨hread, hlo, hhi⟩]
  dsimp only
  rw [hplace]
  rfl

/-! ## Updates and readings -/

/-- What an update does to a document, for every update that succeeds. -/
structure Updates (d v d' : JsonbVal) (p : List Text) (op : JsonbPathOp) : Prop where
  read : Resolves d p → Unspaced d p → d'.path p = some v
  others : Resolves d p → ∀ q, Parts d p q → d'.path q = d.path q
  same : Resolves d p → d.path p = some v → d' = d
  again : Resolves d p → ∀ w op', op' = .replace ∨ op' = .create →
    jsonbSetPath d' (p.map some) (some w) op' = jsonbSetPath d (p.map some) (some w) op'
  nothing : ¬Resolves d p → ¬Creates op d p → d' = d

/-- An insertion at an index of an array, and the deletion at any index that leads to what was inserted. -/
structure Inserts (d v d' : JsonbVal) (p : List Text) (elems : List JsonbVal) (i : Nat) : Prop where
  inserted : walkTo d' p = some (.array (elems.insertIdx i v))
  deleted : ∀ f, writeStep f (.array (elems.insertIdx i v)) = some i →
    jsonbSetPath d' ((p ++ [f]).map some) none .delete = .ok d

end Json
