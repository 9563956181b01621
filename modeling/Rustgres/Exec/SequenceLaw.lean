-- SUMMARY: What sequences promise over any run, and the steps that break the promise.
import Mathlib.Algebra.Order.Ring.Int
import Rustgres.Exec.Sequences
import Rustgres.Lib.Loops
import Rustgres.Lib.Run

/-!
# The Law of Sequences

Every current value lies within the bounds of its sequence, and `nextval` answers the last value plus
the increment, wraps around under CYCLE, or fails. A run keeps this law until ALTER SEQUENCE carries a
value over into bounds that exclude it, or a cycling sequence leaves the machine integers.
-/

namespace Sequences

variable {cat : Catalog} {st st' : SeqState} {ctx : SeqCtx} {name : String}

/-! ## The law -/

/-- What the checks of the options guarantee. -/
structure WellFormed (s : SeqVersion) : Prop where
  increment : s.params.increment ≠ 0
  bounds : s.params.minValue < s.params.maxValue
  start : s.params.minValue ≤ s.params.start ∧ s.params.start ≤ s.params.maxValue
  machine : -2 ^ 63 ≤ s.params.minValue ∧ s.params.maxValue < 2 ^ 63

def InBounds (s : SeqVersion) : Prop :=
  ∀ v ∈ s.current, s.params.minValue ≤ v ∧ v ≤ s.params.maxValue

instance (s : SeqVersion) : Decidable (InBounds s) :=
  inferInstanceAs (Decidable (∀ v ∈ s.current, _))

/-- A property of every version of every sequence. -/
def Everywhere (P : SeqVersion → Prop) (st : SeqState) : Prop :=
  ∀ name, ∀ s ∈ (st.sequences.lookup name).getD [], P s

/-- The answer due to the next call: the last value plus the increment within the bounds, else the
other end of a cycling sequence, else none. -/
def due (s : SeqVersion) : Option Int :=
  match s.current with
  | none => some s.params.start
  | some v =>
    if s.isCalled then
      let n := v + s.params.increment
      if s.params.minValue ≤ n ∧ n ≤ s.params.maxValue then some n
      else if s.params.cycle then
        some (if 0 < s.params.increment then s.params.minValue else s.params.maxValue)
      else none
    else some v

/-- The version that a call of `nextval` may advance. -/
def usable (cat : Catalog) (st : SeqState) (ctx : SeqCtx) (name : String) : Option SeqVersion :=
  (findSequence st name ctx).filter fun s => cat.sequencePrivs ctx s &&& privUsage ≠ 0

/-- A call answers what is due and remembers it, or fails and changes nothing. -/
def Answers (cat : Catalog) (st : SeqState) (ctx : SeqCtx) (name : String) : Prop :=
  match (usable cat st ctx name).bind due with
  | some v =>
    (seqNextval cat st ctx name).2 = .ok v ∧
      (seqNextval cat st ctx name).1.sequences = (modifySequence st name ctx (called v)).sequences
  | none => (seqNextval cat st ctx name).1 = st ∧ ∃ e, (seqNextval cat st ctx name).2 = .error e

/-- The law at one step. -/
def Obeys (cat : Catalog) (st : SeqState) : SeqCtx × SeqStmt → Prop
  | (ctx, .nextval name) => Answers cat st ctx name ∧ Everywhere InBounds (seqNextval cat st ctx name).1
  | (ctx, stmt) => Everywhere InBounds (exec cat st ctx stmt)

def step (cat : Catalog) (st : SeqState) (i : SeqCtx × SeqStmt) : Option SeqState :=
  some (exec cat st i.1 i.2)

/-- The law at every step of a run. -/
def Lawful (cat : Catalog) (st : SeqState) (stmts : List (SeqCtx × SeqStmt)) : Prop :=
  run.Along (step cat) (Obeys cat) st stmts

/-! ## The steps that break it -/

/-- The next value of a cycling sequence is no machine integer. -/
def Overflows (s : SeqVersion) : Prop :=
  s.params.cycle ∧ s.isCalled ∧ ∃ v ∈ s.current, checkedAdd v s.params.increment = none

/-- ALTER SEQUENCE is accepted without RESTART, and its bounds exclude the current value. -/
def Strands (cat : Catalog) (ctx : SeqCtx) (live : SeqVersion) (opts : SequenceOpts) : Prop :=
  (live.owner = ctx.role ∨ cat.isSuperuser ctx) ∧
    (∀ owned ∈ opts.ownedBy, ∃ link, ownedLink cat ctx owned live.owner = .ok link) ∧
    ∃ t p, sequenceParams opts (some live) = .ok (t, p, none) ∧
      ∃ v ∈ live.current, v < p.minValue ∨ p.maxValue < v

def Safe (cat : Catalog) (st : SeqState) : SeqCtx × SeqStmt → Prop
  | (ctx, .nextval name) => ∀ s ∈ usable cat st ctx name, ¬Overflows s
  | (ctx, .alter name _ opts) => ∀ live ∈ findSequence st name ctx, ¬Strands cat ctx live opts
  | _ => True

/-- No step strands a value, and no step overflows. -/
def Clean (cat : Catalog) (st : SeqState) (stmts : List (SeqCtx × SeqStmt)) : Prop :=
  run.Along (step cat) (Safe cat) st stmts

/-! ## Options -/

theorem resolveRestart_bounds {opts : SequenceOpts} {p : SeqParams} {r : Option Int}
    (hstart : p.minValue ≤ p.start ∧ p.start ≤ p.maxValue) (h : resolveRestart opts p = .ok r) :
    ∀ v ∈ r, p.minValue ≤ v ∧ v ≤ p.maxValue := by
  unfold resolveRestart at h
  split at h
  · cases h
    intro v hv
    cases hv
  · split at h
    · cases h
      intro v hv
      cases hv
      exact hstart
    · split at h
      · cases h
      · rename_i hr
        cases h
        intro v hv
        cases hv
        omega

theorem sequenceParams_spec {opts : SequenceOpts} {cur : Option SeqVersion} {t : SeqType}
    {p : SeqParams} {r : Option Int} (h : sequenceParams opts cur = .ok (t, p, r)) :
    p.increment ≠ 0 ∧ p.minValue < p.maxValue ∧ (p.minValue ≤ p.start ∧ p.start ≤ p.maxValue) ∧
      (t.minValue ≤ p.minValue ∧ p.maxValue ≤ t.maxValue) ∧
      ∀ v ∈ r, p.minValue ≤ v ∧ v ≤ p.maxValue := by
  unfold sequenceParams at h
  dsimp only at h
  split at h
  · cases h
  · rename_i hinc
    split at h
    · cases h
    split at h
    · cases h
    split at h
    · cases h
    split at h
    · cases h
    split at h
    · cases h
    split at h
    · cases h
    rename_i hmax hmin _ hlt hstart _
    obtain ⟨r', hr', hp⟩ := Loops.map_eq_ok h
    cases hp
    refine ⟨hinc, by omega, by omega, by omega, fun v hv => ?_⟩
    exact resolveRestart_bounds (by omega) hr' v hv

/-! ## Versions -/

theorem mem_modifyFirst {α : Type} {p : α → Bool} {f : α → α} {l : List α} {a : α}
    (h : a ∈ modifyFirst p f l) : a ∈ l ∨ ∃ b, l.find? p = some b ∧ a = f b := by
  unfold modifyFirst at h
  induction l with
  | nil => simp at h
  | cons b l ih =>
      rw [List.findIdx_cons] at h
      by_cases hb : p b
      · simp only [hb, cond_true, List.modify_zero_cons, List.mem_cons] at h
        rcases h with h | h
        · exact .inr ⟨b, by rw [List.find?_cons_of_pos hb], h⟩
        · exact .inl (List.mem_cons_of_mem b h)
      · have hfalse : p b = false := by simpa using hb
        simp only [hfalse, cond_false, List.modify_succ_cons, List.mem_cons] at h
        rcases h with h | h
        · exact .inl (h ▸ List.mem_cons_self)
        · rw [List.find?_cons_of_neg hb]
          rcases ih h with h | h
          · exact .inl (List.mem_cons_of_mem b h)
          · exact .inr h

theorem findSequence_mem {s : SeqVersion} (h : findSequence st name ctx = some s) :
    s ∈ (st.sequences.lookup name).getD [] := by
  unfold findSequence at h
  obtain ⟨vs, hvs, hs⟩ := Option.bind_eq_some_iff.1 h
  rw [hvs]
  exact List.mem_of_find?_eq_some hs

namespace Everywhere

variable {P : SeqVersion → Prop}

theorem congr (h : Everywhere P st) (hst : st'.sequences = st.sequences) : Everywhere P st' := by
  unfold Everywhere
  rw [hst]
  exact h

theorem modify (h : Everywhere P st) {f : SeqVersion → SeqVersion}
    (hf : ∀ s, findSequence st name ctx = some s → P (f s)) :
    Everywhere P (modifySequence st name ctx f) := by
  intro name' s hs
  unfold modifySequence at hs
  dsimp only at hs
  by_cases hname : name' = name
  · subst hname
    rw [Dict.lookup_update] at hs
    cases hl : st.sequences.lookup name' with
    | none =>
        rw [hl] at hs
        cases hs
    | some vs =>
        rw [hl] at hs
        rcases mem_modifyFirst hs with hs | ⟨b, hb, rfl⟩
        · exact h name' s (by rwa [hl])
        · exact hf b (by rw [findSequence, hl]; exact hb)
  · rw [Dict.lookup_update_ne hname] at hs
    exact h name' s hs

theorem push (h : Everywhere P st) {s : SeqVersion} (hs : P s) : Everywhere P (pushVersion st name s) := by
  intro name' s' hs'
  unfold pushVersion at hs'
  dsimp only at hs'
  by_cases hname : name' = name
  · subst hname
    rw [AList.lookup_insert] at hs'
    rcases List.mem_append.1 hs' with hs' | hs'
    · exact h name' s' hs'
    · exact List.mem_singleton.1 hs' ▸ hs
  · rw [AList.lookup_insert_ne hname] at hs'
    exact h name' s' hs'

theorem initial : Everywhere P SeqState.initial := by
  intro name s hs
  cases hs

end Everywhere

/-! ## One answer -/

section Due

variable {s : SeqVersion}

theorem inBounds_due (hwf : WellFormed s) (hin : InBounds s) {v : Int} (h : due s = some v) :
    s.params.minValue ≤ v ∧ v ≤ s.params.maxValue := by
  have hbounds := hwf.bounds
  unfold due at h
  split at h
  · cases h
    exact hwf.start
  · rename_i c hc
    split at h
    · dsimp only at h
      split at h
      · cases h
        assumption
      · split at h
        · cases h
          split
          · omega
          · omega
        · cases h
    · cases h
      exact hin _ hc

theorem checkedAdd_eq {a b n : Int} (h : checkedAdd a b = some n) : n = a + b := by
  unfold checkedAdd at h
  split at h
  · cases h
    rfl
  · cases h

/-- Away from an overflow the code answers what is due. -/
theorem nextValue_due (hwf : WellFormed s) (hin : InBounds s) (hsafe : ¬Overflows s) :
    match due s with
    | some v => nextValue s name = .ok v
    | none => ∃ e, nextValue s name = .error e := by
  have hinc := hwf.increment
  have hmachine := hwf.machine
  unfold due nextValue
  cases hc : s.current with
  | none => rfl
  | some c =>
      have hbounds := hin c hc
      by_cases hcalled : s.isCalled
      · simp only [hcalled, if_true, Bool.not_true, Bool.false_eq_true, if_false]
        by_cases hn : s.params.minValue ≤ c + s.params.increment ∧
            c + s.params.increment ≤ s.params.maxValue
        · have hadd : checkedAdd c s.params.increment = some (c + s.params.increment) :=
            if_pos (by omega)
          rw [if_pos hn, hadd]
          dsimp only
          rw [if_neg]
          split
          · omega
          · omega
        · rw [if_neg hn]
          by_cases hcycle : s.params.cycle
          · have hadd : checkedAdd c s.params.increment = some (c + s.params.increment) := by
              unfold checkedAdd
              rw [if_pos]
              by_contra hout
              exact hsafe ⟨hcycle, hcalled, c, hc, if_neg hout⟩
            simp only [hcycle, if_true, hadd]
            rw [if_pos]
            split
            · omega
            · omega
          · have hfalse : s.params.cycle = false := by simpa using hcycle
            simp only [hfalse, Bool.false_eq_true, if_false]
            cases hadd : checkedAdd c s.params.increment with
            | none => exact ⟨_, rfl⟩
            | some m =>
                have hm := checkedAdd_eq hadd
                dsimp only
                rw [if_pos]
                · exact ⟨_, rfl⟩
                · split
                  · omega
                  · omega
      · have hfalse : s.isCalled = false := by simpa using hcalled
        simp only [hfalse, Bool.false_eq_true, if_false, Bool.not_false, if_true]

/-- At an overflow an answer is due, and the code fails. -/
theorem nextValue_overflow (hwf : WellFormed s) (h : Overflows s) :
    (∃ v, due s = some v) ∧ ∃ e, nextValue s name = .error e := by
  obtain ⟨hcycle, hcalled, c, hc, hadd⟩ := h
  have hc : s.current = some c := hc
  have hmachine := hwf.machine
  have hout : ¬(s.params.minValue ≤ c + s.params.increment ∧
      c + s.params.increment ≤ s.params.maxValue) := by
    intro hn
    unfold checkedAdd at hadd
    rw [if_pos (by omega)] at hadd
    cases hadd
  constructor
  · unfold due
    rw [hc]
    simp only [hcalled, if_true, if_neg hout, hcycle]
    exact ⟨_, rfl⟩
  · unfold nextValue
    rw [hc]
    simp only [hcalled, Bool.not_true, Bool.false_eq_true, if_false, hadd]
    exact ⟨_, rfl⟩

end Due

/-! ## One step -/

theorem range_seqType (t : SeqType) : -2 ^ 63 ≤ t.minValue ∧ t.maxValue < 2 ^ 63 := by
  cases t <;> decide

theorem wellFormed_of_params {opts : SequenceOpts} {cur : Option SeqVersion} {t : SeqType}
    {r : Option Int} {s : SeqVersion} (h : sequenceParams opts cur = .ok (t, s.params, r)) :
    WellFormed s := by
  obtain ⟨hinc, hbounds, hstart, htype, -⟩ := sequenceParams_spec h
  have hrange := range_seqType t
  exact ⟨hinc, hbounds, hstart, by omega, by omega⟩

theorem WellFormed.congr {s s' : SeqVersion} (h : WellFormed s) (hp : s'.params = s.params) :
    WellFormed s' := by
  obtain ⟨hinc, hbounds, hstart, hmachine⟩ := h
  rw [← hp] at hinc hbounds hstart hmachine
  exact ⟨hinc, hbounds, hstart, hmachine⟩

/-- An accepted ALTER SEQUENCE, and the version it adds. -/
structure Alters (cat : Catalog) (st : SeqState) (ctx : SeqCtx) (name : String) (opts : SequenceOpts)
    (live : SeqVersion) (t : SeqType) (p : SeqParams) (restart : Option Int)
    (link : Option (String × String × Option Nat)) : Prop where
  found : findSequence st name ctx = some live
  allowed : live.owner = ctx.role ∨ cat.isSuperuser ctx
  params : sequenceParams opts (some live) = .ok (t, p, restart)
  link : (opts.ownedBy.elim (.ok live.ownedBy) fun owned => ownedLink cat ctx owned live.owner)
    = .ok link

/-- The stamped version in force, and the new one behind it. -/
def altered (st : SeqState) (ctx : SeqCtx) (name : String) (next : SeqVersion) : SeqState :=
  pushVersion (modifySequence st name ctx fun s => { s with droppedXmax := ctx.own }) name next

theorem installAltered_sequences {prev : SeqVersion} {t : SeqType} {p : SeqParams} {r : Option Int}
    {link : Option (String × String × Option Nat)}
    (hr : ∀ v ∈ r, p.minValue ≤ v ∧ v ≤ p.maxValue) :
    (installAltered st ctx name prev t p r link).1.sequences
      = (altered st ctx name (alteredVersion prev t p r link ctx.own)).sequences := by
  unfold installAltered altered
  cases r with
  | none => rfl
  | some v =>
      have hv := hr v rfl
      dsimp only
      rw [if_neg (by omega), if_neg (by omega)]
      rfl

theorem Alters.exec_sequences {opts : SequenceOpts} {live : SeqVersion} {t : SeqType} {p : SeqParams}
    {restart : Option Int} {link : Option (String × String × Option Nat)}
    (h : Alters cat st ctx name opts live t p restart link) (ifExists : Bool) :
    (execAlterSequence cat st ctx name ifExists opts).1.sequences
      = (altered st ctx name (alteredVersion live t p restart link ctx.own)).sequences := by
  have hallowed : ¬(live.owner ≠ ctx.role ∧ (!cat.isSuperuser ctx) = true) := by
    rintro ⟨howner, hsuper⟩
    rcases h.allowed with ha | ha
    · exact howner ha
    · rw [ha] at hsuper
      cases hsuper
  unfold execAlterSequence
  rw [h.found]
  dsimp only
  rw [if_neg hallowed, h.params]
  dsimp only
  rw [h.link]
  exact installAltered_sequences (sequenceParams_spec h.params).2.2.2.2

theorem execAlter_cases (cat : Catalog) (st : SeqState) (ctx : SeqCtx) (name : String)
    (ifExists : Bool) (opts : SequenceOpts) :
    (execAlterSequence cat st ctx name ifExists opts).1 = st ∨
      ∃ live t p restart link, Alters cat st ctx name opts live t p restart link := by
  unfold execAlterSequence
  cases hfound : findSequence st name ctx with
  | none => exact .inl rfl
  | some live =>
      dsimp only
      split
      · exact .inl rfl
      · rename_i hallowed
        cases hparams : sequenceParams opts (some live) with
        | error e => exact .inl rfl
        | ok out =>
            obtain ⟨t, p, restart⟩ := out
            dsimp only
            cases hlink : opts.ownedBy.elim (.ok live.ownedBy) fun owned =>
                ownedLink cat ctx owned live.owner with
            | error e => exact .inl rfl
            | ok link =>
                refine .inr ⟨live, t, p, restart, link, hfound, ?_, hparams, hlink⟩
                by_contra hnot
                rw [not_or] at hnot
                exact hallowed ⟨hnot.1, by simpa using hnot.2⟩

theorem Everywhere.altered {P : SeqVersion → Prop} (h : Everywhere P st) {next : SeqVersion}
    (hstamp : ∀ s xmax, P s → P { s with droppedXmax := xmax }) (hnext : P next) :
    Everywhere P (altered st ctx name next) := by
  apply Everywhere.push _ hnext
  exact h.modify fun s hs => hstamp s ctx.own (h name s (findSequence_mem hs))

theorem mem_altered {next : SeqVersion} :
    next ∈ ((Sequences.altered st ctx name next).sequences.lookup name).getD [] := by
  unfold Sequences.altered pushVersion
  dsimp only
  rw [AList.lookup_insert]
  exact List.mem_append_right _ List.mem_cons_self

/-- What every step keeps, if a new version, a stamp, and the answers given keep it. -/
theorem Everywhere.exec {P : SeqVersion → Prop} (h : Everywhere P st) (stmt : SeqStmt)
    (hnew : ∀ t p xmin opts r, sequenceParams opts none = .ok (t, p, r) →
      ∀ s : SeqVersion, s.params = p → s.current = (newVersion t p xmin).current → P s)
    (hstamp : ∀ s xmax, P s → P { s with droppedXmax := xmax })
    (hnext : ∀ n live v, stmt = .nextval n → usable cat st ctx n = some live → P live →
      nextValue live n = .ok v → P (called v live))
    (hset : ∀ (live : SeqVersion) v b, P live → live.params.minValue ≤ v → v ≤ live.params.maxValue →
      P { live with current := some v, isCalled := b })
    (halter : ∀ n ifExists opts live t p r link, stmt = .alter n ifExists opts →
      Alters cat st ctx n opts live t p r link → P (alteredVersion live t p r link ctx.own)) :
    Everywhere P (Sequences.exec cat st ctx stmt) := by
  cases stmt with
  | create n ifNotExists opts =>
      unfold Sequences.exec execCreateSequence
      dsimp only
      split
      · split <;> exact h
      · cases hparams : sequenceParams opts none with
        | error e => exact h
        | ok out =>
            obtain ⟨t, p, r⟩ := out
            dsimp only
            split
            · exact h
            · exact h.push (hnew t p ctx.own opts r hparams _ rfl rfl)
  | alter n ifExists opts =>
      rcases execAlter_cases cat st ctx n ifExists opts with hst | ⟨live, t, p, r, link, ha⟩
      · unfold Sequences.exec
        dsimp only
        rw [hst]
        exact h
      · apply (h.altered hstamp (halter n ifExists opts live t p r link rfl ha)).congr
        exact ha.exec_sequences ifExists
  | nextval n =>
      unfold Sequences.exec seqNextval
      dsimp only
      cases hfound : findSequence st n ctx with
      | none => exact h
      | some live =>
          dsimp only
          split
          · exact h
          · rename_i hpriv
            have husable : usable cat st ctx n = some live := by
              unfold usable
              rw [hfound, Option.filter_some, if_pos (by simpa using hpriv)]
            cases hv : nextValue live n with
            | error e => exact h
            | ok v =>
                have hcalled := hnext n live v rfl husable (h n live (findSequence_mem hfound)) hv
                have hmodify : Everywhere P (modifySequence st n ctx (called v)) :=
                  h.modify fun s hs => by
                    rw [hfound] at hs
                    cases hs
                    exact hcalled
                exact hmodify.congr rfl
  | setval n value isCalled =>
      unfold Sequences.exec seqSetval
      dsimp only
      cases hfound : findSequence st n ctx with
      | none => exact h
      | some live =>
          dsimp only
          split
          · exact h
          · split
            · exact h
            · have hmodify : Everywhere P
                  (modifySequence st n ctx fun s => { s with current := some value, isCalled }) :=
                h.modify fun s hs => by
                  rw [hfound] at hs
                  cases hs
                  exact hset live value isCalled (h n live (findSequence_mem hfound)) (by omega) (by omega)
              split
              · exact hmodify.congr rfl
              · exact hmodify.congr rfl

theorem wellFormed_exec (h : Everywhere WellFormed st) (ctx : SeqCtx) (stmt : SeqStmt) :
    Everywhere WellFormed (exec cat st ctx stmt) := by
  apply h.exec
  · intro t p xmin opts r hparams s hp _
    exact wellFormed_of_params (hp ▸ hparams)
  · exact fun s xmax hs => hs.congr rfl
  · exact fun n live v _ _ hlive _ => hlive.congr rfl
  · exact fun live v b hlive _ _ => hlive.congr rfl
  · exact fun n ifExists opts live t p r link _ ha =>
      wellFormed_of_params (s := alteredVersion live t p r link ctx.own) ha.params

theorem usable_eq_some {s : SeqVersion} :
    usable cat st ctx name = some s ↔
      findSequence st name ctx = some s ∧ cat.sequencePrivs ctx s &&& privUsage ≠ 0 := by
  unfold usable
  rw [Option.filter_eq_some_iff, decide_eq_true_iff]

theorem seqNextval_unusable (h : usable cat st ctx name = none) :
    ∃ e, seqNextval cat st ctx name = (st, .error e) := by
  unfold seqNextval
  cases hfound : findSequence st name ctx with
  | none => exact ⟨_, rfl⟩
  | some live =>
      dsimp only
      by_cases hpriv : cat.sequencePrivs ctx live &&& privUsage = 0
      · rw [if_pos hpriv]
        exact ⟨_, rfl⟩
      · rw [usable_eq_some.2 ⟨hfound, hpriv⟩] at h
        cases h

theorem seqNextval_error {s : SeqVersion} {e : ExecError} (hs : usable cat st ctx name = some s)
    (hv : nextValue s name = .error e) : seqNextval cat st ctx name = (st, .error e) := by
  obtain ⟨hfound, hpriv⟩ := usable_eq_some.1 hs
  unfold seqNextval
  rw [hfound]
  dsimp only
  rw [if_neg hpriv, hv]

theorem seqNextval_ok {s : SeqVersion} {v : Int} (hs : usable cat st ctx name = some s)
    (hv : nextValue s name = .ok v) :
    (seqNextval cat st ctx name).2 = .ok v ∧
      (seqNextval cat st ctx name).1.sequences = (modifySequence st name ctx (called v)).sequences := by
  obtain ⟨hfound, hpriv⟩ := usable_eq_some.1 hs
  unfold seqNextval
  rw [hfound]
  dsimp only
  rw [if_neg hpriv, hv]
  exact ⟨rfl, rfl⟩

/-- A call answers what is due exactly if the version does not overflow. -/
theorem answers_iff (hwf : Everywhere WellFormed st) (hin : Everywhere InBounds st) :
    Answers cat st ctx name ↔ ∀ s ∈ usable cat st ctx name, ¬Overflows s := by
  unfold Answers
  cases hs : usable cat st ctx name with
  | none =>
      obtain ⟨e, he⟩ := seqNextval_unusable hs
      simp [he]
  | some s =>
      have hmem := findSequence_mem (usable_eq_some.1 hs).1
      have hsafe : (∀ s' ∈ some s, ¬Overflows s') ↔ ¬Overflows s := by simp
      rw [Option.bind_some, hsafe]
      by_cases hover : Overflows s
      · obtain ⟨⟨v, hdue⟩, e, he⟩ := @nextValue_overflow name _ (hwf name s hmem) hover
        simp [hdue, seqNextval_error hs he, hover]
      · have hnext := @nextValue_due name _ (hwf name s hmem) (hin name s hmem) hover
        refine iff_of_true ?_ hover
        cases hdue : due s with
        | none =>
            rw [hdue] at hnext
            obtain ⟨e, he⟩ := hnext
            rw [seqNextval_error hs he]
            exact ⟨rfl, e, rfl⟩
        | some v =>
            rw [hdue] at hnext
            exact seqNextval_ok hs hnext

theorem inBounds_nextValue {s : SeqVersion} {v : Int} (hwf : WellFormed s) (hin : InBounds s)
    (h : nextValue s name = .ok v) : InBounds (called v s) := by
  intro v' hv'
  cases hv'
  by_cases hover : Overflows s
  · obtain ⟨-, e, he⟩ := @nextValue_overflow name _ hwf hover
    rw [he] at h
    cases h
  · have hnext := @nextValue_due name _ hwf hin hover
    cases hdue : due s with
    | none =>
        rw [hdue] at hnext
        obtain ⟨e, he⟩ := hnext
        rw [he] at h
        cases h
    | some w =>
        rw [hdue] at hnext
        cases hnext.symm.trans h
        exact inBounds_due hwf hin hdue

theorem strands_iff {opts : SequenceOpts} {live : SeqVersion} {t : SeqType} {p : SeqParams}
    {r : Option Int} {link : Option (String × String × Option Nat)}
    (ha : Alters cat st ctx name opts live t p r link) :
    ¬Strands cat ctx live opts ↔ InBounds (alteredVersion live t p r link ctx.own) := by
  have hlink : ∀ owned ∈ opts.ownedBy, ∃ link, ownedLink cat ctx owned live.owner = .ok link := by
    intro owned howned
    have hl := ha.link
    rw [Option.mem_def.1 howned] at hl
    exact ⟨link, hl⟩
  cases r with
  | some v =>
      have hv := (sequenceParams_spec ha.params).2.2.2.2 v rfl
      refine iff_of_true ?_ ?_
      · rintro ⟨-, -, t', p', hp', -⟩
        rw [ha.params] at hp'
        cases hp'
      · intro v' hv'
        cases hv'
        exact hv
  | none =>
      constructor
      · intro hnot v hv
        by_contra hout
        refine hnot ⟨ha.allowed, hlink, t, p, ha.params, v, hv, ?_⟩
        change ¬(p.minValue ≤ v ∧ v ≤ p.maxValue) at hout
        omega
      · rintro hin ⟨-, -, t', p', hp', v, hv, hout⟩
        rw [ha.params] at hp'
        cases hp'
        have hv : p.minValue ≤ v ∧ v ≤ p.maxValue := hin v hv
        omega

theorem alters_of_strands {opts : SequenceOpts} {live : SeqVersion}
    (hfound : findSequence st name ctx = some live) (h : Strands cat ctx live opts) :
    ∃ t p link, Alters cat st ctx name opts live t p none link := by
  obtain ⟨hallowed, hlink, t, p, hparams, -⟩ := h
  cases howned : opts.ownedBy with
  | none => exact ⟨t, p, live.ownedBy, hfound, hallowed, hparams, by rw [howned]; rfl⟩
  | some owned =>
      obtain ⟨link, hl⟩ := hlink owned howned
      exact ⟨t, p, link, hfound, hallowed, hparams, by rw [howned]; exact hl⟩

theorem obeys_iff_safe (hwf : Everywhere WellFormed st) (hin : Everywhere InBounds st)
    (i : SeqCtx × SeqStmt) : Obeys cat st i ↔ Safe cat st i := by
  obtain ⟨ctx, stmt⟩ := i
  have hkeep (halter : ∀ n ifExists opts live t p r link, stmt = .alter n ifExists opts →
      Alters cat st ctx n opts live t p r link → InBounds (alteredVersion live t p r link ctx.own)) :
      Everywhere InBounds (exec cat st ctx stmt) := by
    apply hin.exec
    · intro t p xmin opts r _ s _ hs v hv
      rw [hs] at hv
      cases hv
    · exact fun s xmax hs => hs
    · intro n live v _ hlive _ hv
      have hmem := findSequence_mem (usable_eq_some.1 hlive).1
      exact inBounds_nextValue (hwf n live hmem) (hin n live hmem) hv
    · intro live v b _ hlo hhi v' hv'
      cases hv'
      exact ⟨hlo, hhi⟩
    · exact halter
  cases stmt with
  | create n ifNotExists opts => exact iff_of_true (hkeep fun _ _ _ _ _ _ _ _ h _ => nomatch h) trivial
  | setval n value isCalled => exact iff_of_true (hkeep fun _ _ _ _ _ _ _ _ h _ => nomatch h) trivial
  | nextval n =>
      have hbounds := hkeep fun _ _ _ _ _ _ _ _ h _ => nomatch h
      exact (and_iff_left hbounds).trans (answers_iff hwf hin)
  | alter n ifExists opts =>
      constructor
      · intro hafter live hfound hstrands
        obtain ⟨t, p, link, ha⟩ := alters_of_strands hfound hstrands
        refine (strands_iff ha).2 ?_ hstrands
        have hafter : Everywhere InBounds (execAlterSequence cat st ctx n ifExists opts).1 := hafter
        exact hafter.congr (ha.exec_sequences ifExists).symm n _ mem_altered
      · intro hsafe
        apply hkeep
        intro n' _ opts' live t p r link heq ha
        cases heq
        exact (strands_iff ha).1 (hsafe live ha.found)

/-! ## Runs -/

theorem lawful_iff_clean {stmts : List (SeqCtx × SeqStmt)} (hwf : Everywhere WellFormed st)
    (hin : Everywhere InBounds st) : Lawful cat st stmts ↔ Clean cat st stmts := by
  induction stmts generalizing st with
  | nil => exact Iff.rfl
  | cons i stmts ih =>
      unfold Lawful Clean run.Along
      have hwf' := @wellFormed_exec cat st hwf i.1 i.2
      rw [obeys_iff_safe hwf hin]
      refine and_congr_right fun hsafe => ?_
      have hobeys := (obeys_iff_safe hwf hin i).2 hsafe
      have hin' : Everywhere InBounds (exec cat st i.1 i.2) := by
        obtain ⟨ctx, stmt⟩ := i
        cases stmt with
        | nextval n => exact hobeys.2
        | _ => exact hobeys
      constructor
      · rintro h _ ⟨⟩
        exact (ih hwf' hin').1 (h _ rfl)
      · rintro h _ ⟨⟩
        exact (ih hwf' hin').2 (h _ rfl)

/-! ## Calls alone -/

/-- What the calls of `nextval` on `name` answer, in order. -/
def answered (cat : Catalog) (name : String) : SeqState → List (SeqCtx × String) → List Int
  | _, [] => []
  | st, (ctx, n) :: calls =>
    (if n = name then (seqNextval cat st ctx n).2.toOption.toList else [])
      ++ answered cat name (seqNextval cat st ctx n).1 calls

/-- A call leaves the only version of `name` alone, or advances it and answers its new value. -/
theorem seqNextval_single {s : SeqVersion} (h : st.sequences.lookup name = some [s]) (ctx : SeqCtx)
    (n : String) :
    ((seqNextval cat st ctx n).1.sequences.lookup name = some [s] ∧
        (n = name → (seqNextval cat st ctx n).2.toOption = none)) ∨
      ∃ v, n = name ∧ nextValue s name = .ok v ∧ (seqNextval cat st ctx n).2 = .ok v ∧
        (seqNextval cat st ctx n).1.sequences.lookup name = some [called v s] := by
  cases hs : usable cat st ctx n with
  | none =>
      obtain ⟨e, he⟩ := seqNextval_unusable hs
      rw [he]
      exact .inl ⟨h, fun _ => rfl⟩
  | some s' =>
      cases hv : nextValue s' n with
      | error e =>
          rw [seqNextval_error hs hv]
          exact .inl ⟨h, fun _ => rfl⟩
      | ok v =>
          obtain ⟨hanswer, hseqs⟩ := seqNextval_ok hs hv
          rw [hanswer, hseqs]
          unfold modifySequence
          dsimp only
          by_cases hn : n = name
          · subst hn
            have hfound := (usable_eq_some.1 hs).1
            unfold findSequence at hfound
            rw [h, Option.bind_some] at hfound
            have hs' := List.mem_singleton.1 (List.mem_of_find?_eq_some hfound)
            have hvisible := List.find?_some hfound
            subst hs'
            refine .inr ⟨v, rfl, hv, rfl, ?_⟩
            rw [Dict.lookup_update, h, Option.map_some, modifyFirst, List.findIdx_cons, hvisible]
            rfl
          · rw [Dict.lookup_update_ne (Ne.symm hn)]
            exact .inl ⟨h, fun hname => absurd hname hn⟩

/-- Beyond `c` in the direction of the increment. -/
def Ahead (s : SeqVersion) (c v : Int) : Prop := 0 < s.params.increment * (v - c)

theorem Ahead.trans {s : SeqVersion} {a b c : Int} (hab : Ahead s a b) (hbc : Ahead s b c) :
    Ahead s a c := by
  unfold Ahead at *
  have hsplit : s.params.increment * (c - a)
      = s.params.increment * (c - b) + s.params.increment * (b - a) := by
    rw [← Int.mul_add, show c - b + (b - a) = c - a by omega]
  omega

theorem Ahead.ne {s : SeqVersion} {c v : Int} (h : Ahead s c v) : c ≠ v := by
  rintro rfl
  unfold Ahead at h
  simp at h

theorem ahead_nextValue {s : SeqVersion} {c v : Int} (hinc : s.params.increment ≠ 0)
    (hcycle : s.params.cycle = false) (hc : s.current = some c) (hcalled : s.isCalled = true)
    (h : nextValue s name = .ok v) : Ahead s c v := by
  unfold nextValue at h
  rw [hc] at h
  simp only [hcalled, Bool.not_true, Bool.false_eq_true, if_false, hcycle] at h
  have hv : v = c + s.params.increment := by
    cases hadd : checkedAdd c s.params.increment with
    | none =>
        rw [hadd] at h
        cases h
    | some n =>
        rw [hadd] at h
        dsimp only at h
        rw [← checkedAdd_eq hadd]
        by_cases hpast :
            if 0 < s.params.increment then s.params.maxValue < n else n < s.params.minValue
        · rw [if_pos hpast] at h
          cases h
        · rw [if_neg hpast] at h
          cases h
          rfl
  unfold Ahead
  rw [hv, show c + s.params.increment - c = s.params.increment by omega]
  exact mul_self_pos.2 hinc

/-- Once called, a sequence that does not cycle only moves on. -/
theorem answered_ahead (calls : List (SeqCtx × String)) :
    ∀ {st : SeqState} {s : SeqVersion} {c : Int}, st.sequences.lookup name = some [s] →
      s.params.increment ≠ 0 → s.params.cycle = false → s.current = some c → s.isCalled = true →
      (∀ v ∈ answered cat name st calls, Ahead s c v) ∧ (answered cat name st calls).Nodup := by
  induction calls with
  | nil =>
      intro st s c _ _ _ _ _
      exact ⟨fun v hv => (nomatch hv), List.nodup_nil⟩
  | cons call calls ih =>
      obtain ⟨ctx, n⟩ := call
      intro st s c hst hinc hcycle hc hcalled
      unfold answered
      rcases @seqNextval_single cat st name s hst ctx n with ⟨hst', hnone⟩ | ⟨v, hn, hv, hok, hst'⟩
      · have hempty : (if n = name then (seqNextval cat st ctx n).2.toOption.toList else []) = [] := by
          split
          · rename_i hn
            rw [hnone hn]
            rfl
          · rfl
        rw [hempty, List.nil_append]
        exact ih hst' hinc hcycle hc hcalled
      · have hahead := ahead_nextValue hinc hcycle hc hcalled hv
        obtain ⟨hrest, hnodup⟩ := ih hst' hinc hcycle rfl rfl
        rw [if_pos hn, hok]
        change (∀ w ∈ v :: _, Ahead s c w) ∧ (v :: _).Nodup
        constructor
        · intro w hw
          rcases List.mem_cons.1 hw with rfl | hw
          · exact hahead
          · exact hahead.trans (hrest w hw)
        · exact List.nodup_cons.2 ⟨fun hmem => (hrest v hmem).ne rfl, hnodup⟩

theorem answered_nodup (calls : List (SeqCtx × String)) :
    ∀ {st : SeqState} {s : SeqVersion}, st.sequences.lookup name = some [s] → WellFormed s →
      s.params.cycle = false → (answered cat name st calls).Nodup := by
  induction calls with
  | nil => exact fun _ _ _ => List.nodup_nil
  | cons call calls ih =>
      obtain ⟨ctx, n⟩ := call
      intro st s hst hwf hcycle
      unfold answered
      rcases @seqNextval_single cat st name s hst ctx n with ⟨hst', hnone⟩ | ⟨v, hn, hv, hok, hst'⟩
      · have hempty : (if n = name then (seqNextval cat st ctx n).2.toOption.toList else []) = [] := by
          split
          · rename_i hn
            rw [hnone hn]
            rfl
          · rfl
        rw [hempty, List.nil_append]
        exact ih hst' hwf hcycle
      · obtain ⟨hrest, hnodup⟩ := answered_ahead calls hst' hwf.increment hcycle rfl rfl
        rw [if_pos hn, hok]
        exact List.nodup_cons.2 ⟨fun hmem => (hrest v hmem).ne rfl, hnodup⟩

/-- From the empty catalog on, a run obeys the law exactly if it is clean; and wherever it leads, calls
of a sequence that does not cycle never answer a value twice. -/
theorem sequence_law (cat : Catalog) (stmts : List (SeqCtx × SeqStmt)) :
    (Lawful cat .initial stmts ↔ Clean cat .initial stmts) ∧
      ∀ st name s calls, run (step cat) .initial stmts = some st →
        st.sequences.lookup name = some [s] → s.params.cycle = false →
        (answered cat name st calls).Nodup := by
  refine ⟨lawful_iff_clean Everywhere.initial Everywhere.initial, ?_⟩
  intro st name s calls hrun hst hcycle
  have hwf : Everywhere WellFormed st := by
    apply run.invariant (fun _ => Everywhere WellFormed) Everywhere.initial _ hrun
    rintro _ m i _ _ hm ⟨⟩
    exact wellFormed_exec hm i.1 i.2
  exact answered_nodup calls hst (hwf name s (by rw [hst]; exact List.mem_singleton_self s)) hcycle

/-! ## Runs on one sequence -/

/-- A catalog where everybody may do everything. -/
def openCatalog : Catalog :=
  ⟨fun _ _ => privUsage + privUpdate, fun _ => true, fun _ _ => [], fun _ _ _ => .ok none⟩

def someone : SeqCtx := ⟨⟨∅, 1⟩, 1, 1, "postgres"⟩

def counting : List (SeqCtx × SeqStmt) :=
  [(someone, .create "s" false SequenceOpts.default), (someone, .nextval "s")]

theorem sequence_law_counting :
    Lawful openCatalog .initial counting ∧
      ∃ st, run (step openCatalog) .initial counting = some st ∧
        (answered openCatalog "s" st [(someone, "s"), (someone, "s")]).Nodup := by
  constructor
  · apply (sequence_law openCatalog counting).1.2
    refine ⟨trivial, ?_⟩
    rintro _ ⟨⟩
    refine ⟨?_, fun _ _ => trivial⟩
    intro s hs hover
    have hcycle : (usable openCatalog _ someone "s").map (·.params.cycle) = some s.params.cycle :=
      congrArg (Option.map (·.params.cycle)) hs
    rw [hover.1] at hcycle
    revert hcycle
    decide
  · exact ⟨_, rfl, (sequence_law openCatalog counting).2 _ "s" _ _ rfl rfl rfl⟩

/-- A cycling sequence at the largest machine integer. -/
def overflowing : List (SeqCtx × SeqStmt) :=
  [(someone, .create "s" false { SequenceOpts.default with start := some (2 ^ 63 - 1), cycle := some true }),
    (someone, .nextval "s"), (someone, .nextval "s")]

/-- New bounds that the value handed out last does not fit. -/
def stranding : List (SeqCtx × SeqStmt) :=
  [(someone, .create "s" false { SequenceOpts.default with start := some 5 }),
    (someone, .nextval "s"),
    (someone, .alter "s" false { SequenceOpts.default with start := some 1, maxValue := some 3 })]

theorem runs_break_law :
    ¬Lawful openCatalog .initial overflowing ∧ ¬Lawful openCatalog .initial stranding := by
  constructor
  · intro h
    have hsecond := ((h.2 _ rfl).2 _ rfl).1.1
    have hanswer : (seqNextval openCatalog _ someone "s").2 = .ok 1 := hsecond.1
    revert hanswer
    decide
  · intro h
    have hthird : Everywhere InBounds _ := ((h.2 _ rfl).2 _ rfl).1
    have hlast := hthird "s" _ mem_altered
    revert hlast
    decide

end Sequences
