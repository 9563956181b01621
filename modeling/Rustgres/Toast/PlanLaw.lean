-- SUMMARY: The planner ends, follows each column's strategy, and stops only when it may; stored values are got back.
import Rustgres.Toast.Plan

/-!
# What a Plan Guarantees

Each turn of a round changes one column. What is known of a column that has been compressed or moved, and
the width of the row, hold at each turn; from the last turn they carry over to the plan.
-/

namespace Toast

namespace PlanInput

variable {t : PlanInput} {compress : List UInt8 → ToastCompression → Option (List UInt8)}

/-! ## Widths -/

/-- The compressed form of a column, if compression saves enough. -/
def attempt (t : PlanInput) (compress : List UInt8 → ToastCompression → Option (List UInt8)) (i : Nat) :
    Option (List UInt8) :=
  if !t.compressOk then none
  else
    match toastableBytes (t.value i) with
    | none => none
    | some raw => (compress raw (t.methodFor i)).filter fun c => c.length + 2 < raw.length

/-- What a column takes in the row under a plan. -/
def storedSize (t : PlanInput) (compress : List UInt8 → ToastCompression → Option (List UInt8)) (i : Nat) :
    ToastPlan → Nat
  | .plain => t.size i
  | .compressed => ((t.attempt compress i).getD []).length
  | .external | .compressedExternal => toastPointerSize

/-- The row's width under a plan. -/
def rowWidth (t : PlanInput) (compress : List UInt8 → ToastCompression → Option (List UInt8))
    (p : Nat → ToastPlan) : Nat :=
  (t.eligible.map fun i => t.storedSize compress i (p i)).sum

/-- The same form of a column, back in line. -/
def inLine : ToastPlan → ToastPlan
  | .external => .plain
  | .compressedExternal => .compressed
  | .plain => .plain
  | .compressed => .compressed

theorem nodup_eligible : t.eligible.Nodup := List.nodup_range.filter _

theorem mem_eligible {i : Nat} :
    i ∈ t.eligible ↔ i < t.values.length ∧ t.storage i ≠ .plain ∧ 0 < t.size i := by
  unfold eligible
  rw [List.mem_filter, List.mem_range, decide_eq_true_iff]

theorem sum_map_update {l : List Nat} {b : Nat} (f : Nat → Nat) (v : Nat) (hnd : l.Nodup) (hb : b ∈ l) :
    (l.map (Function.update f b v)).sum + f b = (l.map f).sum + v := by
  induction l with
  | nil => cases hb
  | cons a l ih =>
      obtain ⟨ha, hnd⟩ := List.nodup_cons.1 hnd
      rw [List.map_cons, List.sum_cons, List.map_cons, List.sum_cons]
      rcases List.mem_cons.1 hb with rfl | hb
      · have hrest : l.map (Function.update f b v) = l.map f := by
          apply List.map_congr_left
          intro i hi
          have hne : i ≠ b := by
            rintro rfl
            exact ha hi
          exact Function.update_of_ne hne v f
        rw [hrest, Function.update_self]
        omega
      · have hne : a ≠ b := by
          rintro rfl
          exact ha hb
        have := ih hnd hb
        rw [Function.update_of_ne hne]
        omega

/-- Changing the plan of one column changes the width by what that column takes. -/
theorem rowWidth_update {b : Nat} (p : Nat → ToastPlan) (q : ToastPlan) (hb : b ∈ t.eligible) :
    t.rowWidth compress (Function.update p b q) + t.storedSize compress b (p b)
      = t.rowWidth compress p + t.storedSize compress b q := by
  have hsum := sum_map_update (fun i => t.storedSize compress i (p i)) (t.storedSize compress b q)
    nodup_eligible hb
  have hmap : (fun i => t.storedSize compress i (Function.update p b q i))
      = Function.update (fun i => t.storedSize compress i (p i)) b (t.storedSize compress b q) := by
    funext i
    by_cases heq : i = b
    · subst heq
      rw [Function.update_self, Function.update_self]
    · rw [Function.update_of_ne heq, Function.update_of_ne heq]
  unfold rowWidth
  rw [hmap]
  exact hsum

/-! ## One column -/

/-- What the planner has marked about the column `i` agrees with its plan and its strategy. -/
structure Coherent (t : PlanInput) (compress : List UInt8 → ToastCompression → Option (List UInt8))
    (m : Marks) (i : Nat) : Prop where
  off : i ∉ t.eligible → m.plan i = t.preset i
  kept : (t.reused i).isSome → m.plan i = t.preset i ∧ m.compressed i = none
  raw : m.compressed i = none → m.sizes i = t.size i ∧
    (t.reused i = none → m.plan i = .plain ∨ m.plan i = .external)
  packed : ∀ c, m.compressed i = some c → t.attempt compress i = some c ∧ m.sizes i = c.length ∧
    (m.plan i = .compressed ∨ m.plan i = .compressedExternal) ∧ t.storage i ≠ .external
  tried : m.incompressible i = true → t.attempt compress i = none ∨ t.storage i = .external

theorem isExternal_preset {i : Nat} (h : (t.reused i).isSome) : (t.preset i).isExternal = true := by
  obtain ⟨c, hc⟩ := Option.isSome_iff_exists.1 h
  unfold preset
  rw [hc]
  cases c <;> rfl

theorem preset_plain {i : Nat} (h : t.reused i = none) : t.preset i = .plain := by
  unfold preset
  rw [h]

theorem coherent_initial (i : Nat) : t.Coherent compress t.initialMarks i := by
  refine ⟨fun _ => rfl, fun _ => ⟨rfl, rfl⟩, fun _ => ⟨rfl, fun h => .inl (preset_plain h)⟩, ?_, ?_⟩
  · intro c hc
    cases hc
  · intro h
    cases h

/-- Only column `b` has changed. -/
def Frame (b : Nat) (m m' : Marks) : Prop :=
  ∀ i, i ≠ b → m'.plan i = m.plan i ∧ m'.sizes i = m.sizes i ∧ m'.compressed i = m.compressed i ∧
    m'.incompressible i = m.incompressible i

theorem Frame.refl (b : Nat) (m : Marks) : Frame b m m := fun _ _ => ⟨rfl, rfl, rfl, rfl⟩

theorem Frame.trans {b : Nat} {m m' m'' : Marks} (h : Frame b m m') (h' : Frame b m' m'') :
    Frame b m m'' := by
  intro i hi
  obtain ⟨hp, hs, hc, hn⟩ := h i hi
  obtain ⟨hp', hs', hc', hn'⟩ := h' i hi
  exact ⟨hp'.trans hp, hs'.trans hs, hc'.trans hc, hn'.trans hn⟩

theorem Frame.coherent {b i : Nat} {m m' : Marks} (h : Frame b m m') (hi : i ≠ b)
    (hc : t.Coherent compress m i) : t.Coherent compress m' i := by
  obtain ⟨hp, hs, hcomp, hn⟩ := h i hi
  obtain ⟨hoff, hkept, hraw, hpacked, htried⟩ := hc
  rw [← hp] at hoff hkept hraw hpacked
  rw [← hs] at hraw hpacked
  rw [← hcomp] at hkept hraw hpacked
  rw [← hn] at htried
  exact ⟨hoff, hkept, hraw, hpacked, htried⟩

theorem Frame.movable {b i : Nat} {m m' : Marks} {forCompression mainOnly : Bool} (h : Frame b m m')
    (hi : i ≠ b) : t.movable forCompression mainOnly m' i = t.movable forCompression mainOnly m i := by
  obtain ⟨hp, hs, hcomp, hn⟩ := h i hi
  unfold PlanInput.movable
  rw [hp, hs, hcomp, hn]

/-- The plan stands for the marks: the width is that of the plan. -/
theorem curWidth_eq {m : Marks} (h : ∀ i, t.Coherent compress m i) :
    t.curWidth m = t.rowWidth compress m.plan := by
  unfold curWidth rowWidth
  congr 1
  apply List.map_congr_left
  intro i _
  obtain ⟨-, hkept, hraw, hpacked, -⟩ := h i
  cases hc : m.compressed i with
  | none =>
      obtain ⟨hsize, hplan⟩ := hraw hc
      cases hr : t.reused i with
      | none =>
          rcases hplan hr with hp | hp
          · rw [hp, hsize]
            rfl
          · rw [hp]
            rfl
      | some c =>
          have hp := (hkept (by rw [hr]; rfl)).1
          rw [hp]
          unfold preset
          rw [hr]
          cases c <;> rfl
  | some c =>
      obtain ⟨hattempt, hsize, hplan, -⟩ := hpacked c hc
      rcases hplan with hp | hp
      · rw [hp, hsize]
        unfold storedSize
        rw [hattempt]
        rfl
      · rw [hp]
        rfl

/-! ## One turn -/

theorem movable_iff {forCompression mainOnly : Bool} {m : Marks} {i : Nat} :
    t.movable forCompression mainOnly m i = true ↔ (m.plan i).isExternal = false ∧
      (if mainOnly then t.storage i = .main else t.storage i = .extended ∨ t.storage i = .external) ∧
      (forCompression = true → m.incompressible i = false ∧ m.compressed i = none) ∧
      maxalignToastPointer < m.sizes i := by
  unfold movable
  cases forCompression <;> cases mainOnly <;> simp [and_assoc]

/-- A column that may still be treated keeps no pointer of an old version. -/
theorem Coherent.fresh {m : Marks} {i : Nat} (h : t.Coherent compress m i)
    (hin : (m.plan i).isExternal = false) : t.reused i = none := by
  cases hr : t.reused i with
  | none => rfl
  | some c =>
      have hsome : (t.reused i).isSome := by
        rw [hr]
        rfl
      rw [(h.kept hsome).1, isExternal_preset hsome] at hin
      cases hin

theorem tryCompressAttr_eq (i : Nat) (m : Marks) :
    t.tryCompressAttr compress i m = match t.attempt compress i with
      | some c =>
        { m with
          sizes := Function.update m.sizes i c.length
          compressed := Function.update m.compressed i (some c)
          plan := Function.update m.plan i .compressed }
      | none => markIncompressible i m := by
  unfold tryCompressAttr attempt
  split
  · rfl
  · cases toastableBytes (t.value i) with
    | none => rfl
    | some raw =>
        dsimp only
        cases compress raw (t.methodFor i) with
        | none => rfl
        | some c =>
            dsimp only
            by_cases hlt : c.length + 2 < raw.length
            · rw [if_pos hlt, Option.filter_some, if_pos (decide_eq_true hlt)]
            · rw [if_neg hlt, Option.filter_some, if_neg (by simpa using hlt)]

theorem frame_markIncompressible (b : Nat) (m : Marks) : Frame b m (markIncompressible b m) :=
  fun _ hi => ⟨rfl, rfl, rfl, Function.update_of_ne hi _ _⟩

theorem frame_tryCompressAttr (b : Nat) (m : Marks) : Frame b m (t.tryCompressAttr compress b m) := by
  rw [tryCompressAttr_eq]
  split
  · exact fun _ hi => ⟨Function.update_of_ne hi _ _, Function.update_of_ne hi _ _,
      Function.update_of_ne hi _ _, rfl⟩
  · exact frame_markIncompressible b m

theorem frame_externalizeAttr (b : Nat) (m : Marks) : Frame b m (externalizeAttr b m) :=
  fun _ hi => ⟨Function.update_of_ne hi _ _, rfl, rfl, rfl⟩

theorem frame_compressOrMove (b : Nat) (m : Marks) : Frame b m (t.compressOrMove compress b m) := by
  have hfirst : Frame b m
      (if t.storage b = .extended then t.tryCompressAttr compress b m else markIncompressible b m) := by
    split
    · exact frame_tryCompressAttr b m
    · exact frame_markIncompressible b m
  unfold compressOrMove
  dsimp only
  generalize (if t.storage b = .extended then t.tryCompressAttr compress b m
    else markIncompressible b m) = m' at hfirst ⊢
  split
  · exact hfirst.trans (frame_externalizeAttr b m')
  · exact hfirst

theorem Coherent.markIncompressible {m : Marks} {i : Nat} (h : t.Coherent compress m i)
    (hno : t.attempt compress i = none ∨ t.storage i = .external) :
    t.Coherent compress (PlanInput.markIncompressible i m) i :=
  ⟨h.off, h.kept, h.raw, h.packed, fun _ => hno⟩

theorem Coherent.tryCompressAttr {m : Marks} {i : Nat} (h : t.Coherent compress m i)
    (hi : i ∈ t.eligible) (hin : (m.plan i).isExternal = false) (hst : t.storage i ≠ .external) :
    t.Coherent compress (t.tryCompressAttr compress i m) i := by
  have hfresh := h.fresh hin
  rw [tryCompressAttr_eq]
  cases hc : t.attempt compress i with
  | none => exact h.markIncompressible (.inl hc)
  | some c =>
      refine ⟨fun hoff => absurd hi hoff, fun hr => ?_, fun hnone => ?_, fun c' hc' => ?_, h.tried⟩
      · rw [hfresh] at hr
        cases hr
      · dsimp only at hnone
        rw [Function.update_self] at hnone
        cases hnone
      · dsimp only at hc' ⊢
        rw [Function.update_self] at hc' ⊢
        rw [Function.update_self]
        cases hc'
        exact ⟨hc, rfl, .inl rfl, hst⟩

theorem Coherent.externalizeAttr {m : Marks} {i : Nat} (h : t.Coherent compress m i)
    (hi : i ∈ t.eligible) (hin : (m.plan i).isExternal = false) :
    t.Coherent compress (PlanInput.externalizeAttr i m) i := by
  have hfresh := h.fresh hin
  refine ⟨fun hoff => absurd hi hoff, fun hr => ?_, fun hnone => ⟨(h.raw hnone).1, fun _ => ?_⟩,
    fun c hc => ?_, h.tried⟩
  · rw [hfresh] at hr
    cases hr
  · have hnone : m.compressed i = none := hnone
    unfold PlanInput.externalizeAttr
    dsimp only
    rw [Function.update_self, hnone]
    exact .inr rfl
  · have hc : m.compressed i = some c := hc
    obtain ⟨hattempt, hsize, -, hst⟩ := h.packed c hc
    unfold PlanInput.externalizeAttr
    dsimp only
    rw [Function.update_self, hc]
    exact ⟨hattempt, hsize, .inr rfl, hst⟩

theorem isExternal_tryCompressAttr {m : Marks} {i : Nat} (hin : (m.plan i).isExternal = false) :
    ((t.tryCompressAttr compress i m).plan i).isExternal = false := by
  rw [tryCompressAttr_eq]
  split
  · dsimp only
    rw [Function.update_self]
    rfl
  · exact hin

theorem isExternal_externalizeAttr (i : Nat) (m : Marks) :
    ((externalizeAttr i m).plan i).isExternal = true := by
  unfold externalizeAttr
  dsimp only
  rw [Function.update_self]
  split <;> rfl

theorem Coherent.compressOrMove {m : Marks} {i : Nat} (h : t.Coherent compress m i) (hi : i ∈ t.eligible)
    (hin : (m.plan i).isExternal = false) (hst : t.storage i = .extended ∨ t.storage i = .external) :
    t.Coherent compress (t.compressOrMove compress i m) i := by
  have hfirst : t.Coherent compress (if t.storage i = .extended then t.tryCompressAttr compress i m
        else PlanInput.markIncompressible i m) i ∧
      ((if t.storage i = .extended then t.tryCompressAttr compress i m
        else PlanInput.markIncompressible i m).plan i).isExternal = false := by
    rcases hst with hst | hst
    · rw [if_pos hst]
      refine ⟨h.tryCompressAttr hi hin ?_, isExternal_tryCompressAttr hin⟩
      rw [hst]
      exact ToastStorage.noConfusion
    · rw [if_neg (by rw [hst]; exact ToastStorage.noConfusion)]
      exact ⟨h.markIncompressible (.inr hst), hin⟩
  unfold PlanInput.compressOrMove
  dsimp only
  generalize (if t.storage i = .extended then t.tryCompressAttr compress i m
    else PlanInput.markIncompressible i m) = m' at hfirst ⊢
  split
  · exact hfirst.1.externalizeAttr hi hfirst.2
  · exact hfirst.1

/-! ## Columns that are done -/

theorem not_movable_of_external {forCompression mainOnly : Bool} {m : Marks} {i : Nat}
    (h : (m.plan i).isExternal = true) : t.movable forCompression mainOnly m i = false := by
  unfold movable
  rw [h]
  rfl

/-- What the compression of a column leaves: it has been compressed, or is marked. -/
def Tried (m : Marks) (i : Nat) : Prop := m.incompressible i = true ∨ (m.compressed i).isSome = true

theorem Tried.not_movable {m : Marks} {i : Nat} {mainOnly : Bool} (h : Tried m i) :
    t.movable true mainOnly m i = false := by
  cases hm : t.movable true mainOnly m i with
  | false => rfl
  | true =>
      obtain ⟨-, -, hno, -⟩ := movable_iff.1 hm
      obtain ⟨hinc, hcomp⟩ := hno rfl
      rcases h with h | h
      · rw [hinc] at h
        cases h
      · rw [hcomp] at h
        cases h

theorem tried_markIncompressible (i : Nat) (m : Marks) : Tried (markIncompressible i m) i := by
  unfold markIncompressible
  exact .inl (Function.update_self i true m.incompressible)

theorem tried_tryCompressAttr (i : Nat) (m : Marks) : Tried (t.tryCompressAttr compress i m) i := by
  rw [tryCompressAttr_eq]
  split
  · refine .inr ?_
    dsimp only
    rw [Function.update_self]
    rfl
  · exact tried_markIncompressible i m

theorem tried_compressOrMove (i : Nat) (m : Marks) : Tried (t.compressOrMove compress i m) i := by
  have hfirst : Tried (if t.storage i = .extended then t.tryCompressAttr compress i m
      else markIncompressible i m) i := by
    split
    · exact tried_tryCompressAttr i m
    · exact tried_markIncompressible i m
  unfold compressOrMove
  dsimp only
  generalize (if t.storage i = .extended then t.tryCompressAttr compress i m
    else markIncompressible i m) = m' at hfirst ⊢
  split
  · exact hfirst
  · exact hfirst

/-! ## A round -/

/-- No column is left that the round may treat. -/
def NoneLeft (t : PlanInput) (forCompression mainOnly : Bool) (m : Marks) : Prop :=
  ∀ i ∈ t.eligible, t.movable forCompression mainOnly m i = false

/-- A round whose action finishes its column ends, with the row within the limit or with none left. -/
theorem round_spec {limit : Nat} {forCompression mainOnly : Bool} {act : Nat → Marks → Marks}
    (inv : Marks → Prop) (hframe : ∀ b m, Frame b m (act b m))
    (hdone : ∀ b m, t.movable forCompression mainOnly (act b m) b = false)
    (hact : ∀ m b, inv m → limit < t.curWidth m → b ∈ t.eligible →
      t.movable forCompression mainOnly m b = true →
      (∀ i ∈ t.eligible, t.movable forCompression mainOnly m i = true → m.sizes i ≤ m.sizes b) →
      inv (act b m)) {m : Marks} (hm : inv m) :
    ∃ m', t.round limit forCompression mainOnly act m = .ok m' ∧ inv m' ∧
      (t.curWidth m' ≤ limit ∨ t.NoneLeft forCompression mainOnly m') := by
  obtain ⟨m', hrun, hinv, hexit⟩ := @Greedy.drain_spec _ _ (fun m => decide (t.curWidth m ≤ limit))
    (t.biggestAttr forCompression mainOnly) act inv
    (fun m => t.eligible.countP (t.movable forCompression mainOnly m)) (fun m b hinv hstop hfind => by
      obtain ⟨hb, hmovable, hlargest⟩ := Greedy.largest_some hfind
      refine ⟨hact m b hinv (Nat.lt_of_not_le (of_decide_eq_false hstop)) hb hmovable hlargest, ?_⟩
      apply Greedy.countP_lt hb hmovable (hdone b m)
      intro i _ hi
      by_cases heq : i = b
      · rw [heq, hdone b m] at hi
        cases hi
      · rwa [(hframe b m).movable heq] at hi)
    (t.eligible.length + 1) m hm (Nat.lt_succ_of_le List.countP_le_length)
  unfold round
  rw [hrun]
  refine ⟨m', rfl, hinv, ?_⟩
  rcases hexit with hstop | hnone
  · exact .inl (of_decide_eq_true hstop)
  · exact .inr (Greedy.largest_none hnone)

/-- An action on `b` leaves none for a round that has none left and does not treat `b`. -/
theorem NoneLeft.frame {forCompression mainOnly : Bool} {b : Nat} {m m' : Marks}
    (h : t.NoneLeft forCompression mainOnly m) (hframe : Frame b m m')
    (hb : t.movable forCompression mainOnly m' b = false) : t.NoneLeft forCompression mainOnly m' := by
  intro i hi
  by_cases heq : i = b
  · rw [heq]
    exact hb
  · rw [hframe.movable heq]
    exact h i hi

theorem not_movable_of_main {forCompression : Bool} {m : Marks} {i : Nat} (h : t.storage i = .main) :
    t.movable forCompression false m i = false := by
  cases hm : t.movable forCompression false m i with
  | false => rfl
  | true =>
      obtain ⟨-, hst, -, -⟩ := movable_iff.1 hm
      rw [h] at hst
      rcases hst with hst | hst <;> cases hst

/-! ## Columns out of line -/

/-- No column of strategy MAIN has been moved. -/
def MainStays (t : PlanInput) (m : Marks) : Prop :=
  ∀ i, t.storage i = .main → t.reused i = none → (m.plan i).isExternal = false

/-- Each column of strategy MAIN that was moved is at least as wide as those that may be moved still, and
back in line it would make the row too wide. -/
def MainForced (t : PlanInput) (m : Marks) : Prop :=
  ∀ i, t.storage i = .main → t.reused i = none → (m.plan i).isExternal = true →
    t.mainTarget + toastPointerSize < t.curWidth m + m.sizes i ∧
      ∀ j ∈ t.eligible, t.movable false true m j = true → m.sizes j ≤ m.sizes i

theorem MainStays.frame {b : Nat} {m m' : Marks} (h : t.MainStays m) (hframe : Frame b m m')
    (hb : t.storage b ≠ .main ∨ (m'.plan b).isExternal = false) : t.MainStays m' := by
  intro i hst hfresh
  by_cases heq : i = b
  · subst heq
    rcases hb with hb | hb
    · exact absurd hst hb
    · exact hb
  · rw [(hframe i heq).1]
    exact h i hst hfresh

/-- Moving a column takes its width off the row and adds a pointer. -/
theorem curWidth_externalizeAttr {m : Marks} {b : Nat} (hb : b ∈ t.eligible)
    (hin : (m.plan b).isExternal = false) :
    t.curWidth (externalizeAttr b m) + m.sizes b = t.curWidth m + toastPointerSize := by
  have hmap : (fun i => if ((externalizeAttr b m).plan i).isExternal then toastPointerSize
        else (externalizeAttr b m).sizes i)
      = Function.update (fun i => if (m.plan i).isExternal then toastPointerSize else m.sizes i) b
        toastPointerSize := by
    funext i
    by_cases heq : i = b
    · subst heq
      rw [isExternal_externalizeAttr, Function.update_self]
      rfl
    · rw [(frame_externalizeAttr b m i heq).1, Function.update_of_ne heq]
      rfl
  have hsum := sum_map_update (fun i => if (m.plan i).isExternal then toastPointerSize else m.sizes i)
    toastPointerSize nodup_eligible hb
  have hinline : (if (m.plan b).isExternal then toastPointerSize else m.sizes b) = m.sizes b := by
    rw [hin]
    rfl
  unfold curWidth
  rw [hmap, ← hsum, hinline]

/-- A column of strategy MAIN is moved while the row exceeds the larger target. -/
theorem MainForced.externalizeAttr {m : Marks} {b : Nat} (h : t.MainForced m)
    (hwide : t.mainTarget < t.curWidth m) (hb : b ∈ t.eligible)
    (hmovable : t.movable false true m b = true)
    (hlargest : ∀ i ∈ t.eligible, t.movable false true m i = true → m.sizes i ≤ m.sizes b) :
    t.MainForced (PlanInput.externalizeAttr b m) := by
  obtain ⟨hin, -, -, hsize⟩ := movable_iff.1 hmovable
  have hwidth := curWidth_externalizeAttr hb hin
  have hframe := frame_externalizeAttr b m
  have hrest (j : Nat) (hj : t.movable false true (PlanInput.externalizeAttr b m) j = true) :
      t.movable false true m j = true := by
    by_cases heq : j = b
    · rw [heq, not_movable_of_external (isExternal_externalizeAttr b m)] at hj
      cases hj
    · rwa [hframe.movable heq] at hj
  intro i hst hfresh hout
  by_cases heq : i = b
  · subst heq
    refine ⟨?_, fun j hj hmov => hlargest j hj (hrest j hmov)⟩
    have hsame : (PlanInput.externalizeAttr i m).sizes i = m.sizes i := rfl
    rw [hsame]
    omega
  · rw [(hframe i heq).1] at hout
    obtain ⟨hforced, hwider⟩ := h i hst hfresh hout
    refine ⟨?_, fun j hj hmov => hwider j hj (hrest j hmov)⟩
    have hsame : (PlanInput.externalizeAttr b m).sizes i = m.sizes i := rfl
    have hb := hwider b hb hmovable
    rw [hsame]
    omega

/-! ## The plan -/

/-- What is left when the rounds stop early: the row fits, or no column is left for the rounds before the
last. -/
def Settled (t : PlanInput) (m : Marks) : Prop :=
  t.curWidth m ≤ t.target ∨ (t.NoneLeft false false m ∧ t.NoneLeft true true m)

/-- All columns are coherent once an action on one keeps it so. -/
theorem coherent_act {b : Nat} {m m' : Marks} (h : ∀ i, t.Coherent compress m i) (hframe : Frame b m m')
    (hb : t.Coherent compress m' b) : ∀ i, t.Coherent compress m' i := by
  intro i
  by_cases heq : i = b
  · rw [heq]
    exact hb
  · exact hframe.coherent heq (h i)

theorem storage_ne_main {i : Nat} (h : t.storage i = .extended ∨ t.storage i = .external) :
    t.storage i ≠ .main := by
  rcases h with h | h <;> rw [h] <;> exact ToastStorage.noConfusion

/-- The first round: compression, and the moves that compression cannot avoid. -/
theorem first_round {m : Marks} (hc : ∀ i, t.Coherent compress m i) (hm : t.MainStays m) :
    ∃ m', t.round t.target true false (t.compressOrMove compress) m = .ok m' ∧
      (∀ i, t.Coherent compress m' i) ∧ t.MainStays m' := by
  obtain ⟨m', hr, hinv, -⟩ := @round_spec t t.target true false (t.compressOrMove compress)
    (fun m => (∀ i, t.Coherent compress m i) ∧ t.MainStays m) frame_compressOrMove
    (fun b m => (tried_compressOrMove b m).not_movable) (fun m b ⟨hc, hm⟩ _ hb hmovable _ => by
      obtain ⟨hin, hst, -, -⟩ := movable_iff.1 hmovable
      have hframe := @frame_compressOrMove t compress b m
      exact ⟨coherent_act hc hframe ((hc b).compressOrMove hb hin hst),
        hm.frame hframe (.inl (storage_ne_main hst))⟩)
    m ⟨hc, hm⟩
  exact ⟨m', hr, hinv⟩

/-- The second round: moves. -/
theorem second_round {m : Marks} (hc : ∀ i, t.Coherent compress m i) (hm : t.MainStays m) :
    ∃ m', t.round t.target false false externalizeAttr m = .ok m' ∧
      (∀ i, t.Coherent compress m' i) ∧ t.MainStays m' ∧
      (t.curWidth m' ≤ t.target ∨ t.NoneLeft false false m') := by
  obtain ⟨m', hr, ⟨hc', hm'⟩, hexit⟩ := @round_spec t t.target false false externalizeAttr
    (fun m => (∀ i, t.Coherent compress m i) ∧ t.MainStays m) frame_externalizeAttr
    (fun b m => not_movable_of_external (isExternal_externalizeAttr b m))
    (fun m b ⟨hc, hm⟩ _ hb hmovable _ => by
      obtain ⟨hin, hst, -, -⟩ := movable_iff.1 hmovable
      have hframe := frame_externalizeAttr b m
      exact ⟨coherent_act hc hframe ((hc b).externalizeAttr hb hin),
        hm.frame hframe (.inl (storage_ne_main hst))⟩)
    m ⟨hc, hm⟩
  exact ⟨m', hr, hc', hm', hexit⟩

/-- The third round: compression of MAIN columns, while the others are done. -/
theorem third_round {m : Marks} (hc : ∀ i, t.Coherent compress m i) (hm : t.MainStays m)
    (hd : t.curWidth m ≤ t.target ∨ t.NoneLeft false false m) :
    ∃ m', t.round t.target true true (t.tryCompressAttr compress) m = .ok m' ∧
      (∀ i, t.Coherent compress m' i) ∧ t.MainStays m' ∧ t.Settled m' := by
  obtain ⟨m', hr, ⟨hc', hm', hd'⟩, hexit⟩ := @round_spec t t.target true true
    (t.tryCompressAttr compress)
    (fun m => (∀ i, t.Coherent compress m i) ∧ t.MainStays m ∧
      (t.curWidth m ≤ t.target ∨ t.NoneLeft false false m)) frame_tryCompressAttr
    (fun b m => (tried_tryCompressAttr b m).not_movable)
    (fun m b ⟨hc, hm, hd⟩ hwide hb hmovable _ => by
      obtain ⟨hin, hst, -, -⟩ := movable_iff.1 hmovable
      have hst : t.storage b = .main := hst
      have hne : t.storage b ≠ .external := by
        rw [hst]
        exact ToastStorage.noConfusion
      have hframe := @frame_tryCompressAttr t compress b m
      refine ⟨coherent_act hc hframe ((hc b).tryCompressAttr hb hin hne),
        hm.frame hframe (.inr (isExternal_tryCompressAttr hin)), .inr ?_⟩
      rcases hd with hfits | hnone
      · exact absurd hfits (Nat.not_le_of_lt hwide)
      · exact hnone.frame hframe (not_movable_of_main hst))
    m ⟨hc, hm, hd⟩
  refine ⟨m', hr, hc', hm', ?_⟩
  rcases hexit with hfits | hnone
  · exact .inl hfits
  · rcases hd' with hfits | hd
    · exact .inl hfits
    · exact .inr ⟨hd, hnone⟩

/-- The last round: moves of MAIN columns, against the larger target. -/
theorem last_round {m : Marks} (hc : ∀ i, t.Coherent compress m i) (hf : t.MainForced m)
    (hs : t.Settled m) :
    ∃ m', t.round t.mainTarget false true externalizeAttr m = .ok m' ∧
      (∀ i, t.Coherent compress m' i) ∧ t.MainForced m' ∧ t.Settled m' ∧
      (t.curWidth m' ≤ t.mainTarget ∨ t.NoneLeft false true m') := by
  obtain ⟨m', hr, ⟨hc', hf', hs'⟩, hexit⟩ := @round_spec t t.mainTarget false true externalizeAttr
    (fun m => (∀ i, t.Coherent compress m i) ∧ t.MainForced m ∧ t.Settled m) frame_externalizeAttr
    (fun b m => not_movable_of_external (isExternal_externalizeAttr b m))
    (fun m b ⟨hc, hf, hs⟩ hwide hb hmovable hlargest => by
      obtain ⟨hin, hst, -, hsize⟩ := movable_iff.1 hmovable
      have hst : t.storage b = .main := hst
      have hframe := frame_externalizeAttr b m
      have hout := isExternal_externalizeAttr b m
      refine ⟨coherent_act hc hframe ((hc b).externalizeAttr hb hin),
        hf.externalizeAttr hwide hb hmovable hlargest, ?_⟩
      rcases hs with hfits | ⟨hnone, hnone'⟩
      · have hwidth := curWidth_externalizeAttr hb hin
        refine .inl ?_
        unfold maxalignToastPointer at hsize
        unfold toastPointerSize at hwidth
        omega
      · exact .inr ⟨hnone.frame hframe (not_movable_of_main hst),
          hnone'.frame hframe (not_movable_of_external hout)⟩)
    m ⟨hc, hf, hs⟩
  exact ⟨m', hr, hc', hf', hs', hexit⟩

theorem mainStays_initial : t.MainStays t.initialMarks := by
  intro i _ hfresh
  have hp : t.initialMarks.plan i = .plain := preset_plain hfresh
  rw [hp]
  rfl

/-- The four rounds end. -/
theorem rounds_spec : ∃ m, t.rounds compress t.initialMarks = .ok m ∧ (∀ i, t.Coherent compress m i) ∧
    t.MainForced m ∧ t.Settled m ∧ (t.curWidth m ≤ t.mainTarget ∨ t.NoneLeft false true m) := by
  obtain ⟨m₁, hr₁, hc₁, hm₁⟩ := @first_round t compress _ coherent_initial mainStays_initial
  obtain ⟨m₂, hr₂, hc₂, hm₂, hd₂⟩ := second_round hc₁ hm₁
  obtain ⟨m₃, hr₃, hc₃, hm₃, hs₃⟩ := third_round hc₂ hm₂ hd₂
  have hf₃ : t.MainForced m₃ := by
    intro i hst hfresh hout
    rw [hm₃ i hst hfresh] at hout
    cases hout
  obtain ⟨m₄, hr₄, hrest⟩ := last_round hc₃ hf₃ hs₃
  refine ⟨m₄, ?_, hrest⟩
  unfold rounds
  rw [hr₁]
  show (t.round t.target false false externalizeAttr m₁ >>= _) = _
  rw [hr₂]
  show (t.round t.target true true (t.tryCompressAttr compress) m₂ >>= _) = _
  rw [hr₃]
  exact hr₄

/-! ## What a plan guarantees -/

/-- A plan follows the strategies of the columns, and goes on as long as it may. -/
structure Planned (t : PlanInput) (compress : List UInt8 → ToastCompression → Option (List UInt8))
    (p : Nat → ToastPlan) : Prop where
  kept : ∀ i c, t.reused i = some c → p i = if c then .compressedExternal else .external
  plain : ∀ i, t.storage i = .plain → t.reused i = none → p i = .plain
  external : ∀ i, t.storage i = .external → t.reused i = none → p i = .plain ∨ p i = .external
  saves : ∀ i, t.reused i = none → p i = .compressed ∨ p i = .compressedExternal →
    (t.attempt compress i).isSome
  forced : ∀ i, t.storage i = .main → t.reused i = none → (p i).isExternal = true →
    t.mainTarget < t.rowWidth compress (Function.update p i (inLine (p i)))
  -- Rows up to the threshold are left alone.
  settled : (t.rowWidth compress p ≤ toastTupleThreshold ∧ p = t.preset) ∨
    t.rowWidth compress p ≤ t.target ∨
    ((∀ i ∈ t.eligible, (p i).isExternal = false → maxalignToastPointer < t.storedSize compress i (p i) →
        t.storage i = .main ∧ (p i = .compressed ∨ t.attempt compress i = none)) ∧
      (t.rowWidth compress p ≤ t.mainTarget ∨ ∀ i ∈ t.eligible, (p i).isExternal = false →
        t.storedSize compress i (p i) ≤ maxalignToastPointer))

/-- The size marked for a column is what it takes in line. -/
theorem Coherent.sizes_eq {m : Marks} {i : Nat} (h : t.Coherent compress m i) (hfresh : t.reused i = none) :
    m.sizes i = t.storedSize compress i (inLine (m.plan i)) := by
  cases hc : m.compressed i with
  | none =>
      obtain ⟨hsize, hplan⟩ := h.raw hc
      rw [hsize]
      rcases hplan hfresh with hp | hp <;> rw [hp] <;> rfl
  | some c =>
      obtain ⟨hattempt, hsize, hplan, -⟩ := h.packed c hc
      have hstored : t.storedSize compress i .compressed = c.length := by
        unfold storedSize
        rw [hattempt]
        rfl
      rw [hsize, ← hstored]
      rcases hplan with hp | hp <;> rw [hp] <;> rfl

theorem inLine_of_not_external {q : ToastPlan} (h : q.isExternal = false) : inLine q = q := by
  cases q with
  | plain => rfl
  | compressed => rfl
  | external => cases h
  | compressedExternal => cases h

theorem Coherent.plain {m : Marks} {i : Nat} (h : t.Coherent compress m i) (hst : t.storage i = .plain)
    (hfresh : t.reused i = none) : m.plan i = .plain := by
  have hoff : i ∉ t.eligible := fun hi => (mem_eligible.1 hi).2.1 hst
  rw [h.off hoff, preset_plain hfresh]

theorem Coherent.external {m : Marks} {i : Nat} (h : t.Coherent compress m i)
    (hst : t.storage i = .external) (hfresh : t.reused i = none) :
    m.plan i = .plain ∨ m.plan i = .external := by
  cases hc : m.compressed i with
  | none => exact (h.raw hc).2 hfresh
  | some c => exact absurd hst (h.packed c hc).2.2.2

theorem Coherent.saves {m : Marks} {i : Nat} (h : t.Coherent compress m i) (hfresh : t.reused i = none)
    (hp : m.plan i = .compressed ∨ m.plan i = .compressedExternal) :
    m.compressed i = t.attempt compress i ∧ (t.attempt compress i).isSome := by
  cases hc : m.compressed i with
  | none =>
      rcases (h.raw hc).2 hfresh with hplain | hext
      · rw [hplain] at hp
        rcases hp with hp | hp <;> cases hp
      · rw [hext] at hp
        rcases hp with hp | hp <;> cases hp
  | some c =>
      rw [(h.packed c hc).1]
      exact ⟨rfl, rfl⟩

theorem preset_reused {i : Nat} {c : Bool} (h : t.reused i = some c) :
    t.preset i = if c then .compressedExternal else .external := by
  unfold preset
  rw [h]
  cases c <;> rfl

/-- A column that a round leaves in line, wide, is none that the round may treat. -/
theorem Settled.planned {m : Marks} (hs : t.Settled m) (hc : ∀ i, t.Coherent compress m i)
    (hexit : t.curWidth m ≤ t.mainTarget ∨ t.NoneLeft false true m) :
    t.rowWidth compress m.plan ≤ t.target ∨
      ((∀ i ∈ t.eligible, (m.plan i).isExternal = false →
          maxalignToastPointer < t.storedSize compress i (m.plan i) →
          t.storage i = .main ∧ (m.plan i = .compressed ∨ t.attempt compress i = none)) ∧
        (t.rowWidth compress m.plan ≤ t.mainTarget ∨ ∀ i ∈ t.eligible, (m.plan i).isExternal = false →
          t.storedSize compress i (m.plan i) ≤ maxalignToastPointer)) := by
  have hsize (i : Nat) (hin : (m.plan i).isExternal = false) :
      m.sizes i = t.storedSize compress i (m.plan i) := by
    rw [(hc i).sizes_eq ((hc i).fresh hin), inLine_of_not_external hin]
  rw [curWidth_eq hc] at hexit
  unfold Settled at hs
  rw [curWidth_eq hc] at hs
  rcases hs with hfits | ⟨hmoved, htried⟩
  · exact .inl hfits
  · have hmain : ∀ i ∈ t.eligible, (m.plan i).isExternal = false → maxalignToastPointer < m.sizes i →
        t.storage i = .main := by
      intro i hi hin hwide
      have hno := hmoved i hi
      cases hst : t.storage i with
      | main => rfl
      | plain => exact absurd hst (mem_eligible.1 hi).2.1
      | extended =>
          have hmov : t.movable false false m i = true :=
            movable_iff.2 ⟨hin, Or.inl hst, nofun, hwide⟩
          rw [hmov] at hno
          cases hno
      | external =>
          have hmov : t.movable false false m i = true :=
            movable_iff.2 ⟨hin, Or.inr hst, nofun, hwide⟩
          rw [hmov] at hno
          cases hno
    refine .inr ⟨fun i hi hin hwide => ?_, ?_⟩
    · rw [← hsize i hin] at hwide
      have hst := hmain i hi hin hwide
      refine ⟨hst, ?_⟩
      have hno := htried i hi
      cases hcomp : m.compressed i with
      | some c =>
          obtain ⟨-, -, hplan, -⟩ := (hc i).packed c hcomp
          rcases hplan with hp | hp
          · exact .inl hp
          · rw [hp] at hin
            cases hin
      | none =>
          cases hinc : m.incompressible i with
          | true =>
              rcases (hc i).tried hinc with hnone | hext
              · exact .inr hnone
              · rw [hst] at hext
                cases hext
          | false =>
              have hmov : t.movable true true m i = true :=
                movable_iff.2 ⟨hin, hst, fun _ => ⟨hinc, hcomp⟩, hwide⟩
              rw [hmov] at hno
              cases hno
    · rcases hexit with hfits | hnone
      · exact .inl hfits
      · refine .inr fun i hi hin => Nat.le_of_not_lt fun hwide => ?_
        rw [← hsize i hin] at hwide
        have hno := hnone i hi
        have hmov : t.movable false true m i = true :=
          movable_iff.2 ⟨hin, hmain i hi hin hwide, nofun, hwide⟩
        rw [hmov] at hno
        cases hno

theorem MainForced.planned {m : Marks} (hf : t.MainForced m) (hc : ∀ i, t.Coherent compress m i) {i : Nat}
    (hst : t.storage i = .main) (hfresh : t.reused i = none) (hout : (m.plan i).isExternal = true) :
    t.mainTarget < t.rowWidth compress (Function.update m.plan i (inLine (m.plan i))) := by
  have hi : i ∈ t.eligible := by
    by_contra hoff
    rw [(hc i).off hoff, preset_plain hfresh] at hout
    cases hout
  have hpointer : t.storedSize compress i (m.plan i) = toastPointerSize := by
    revert hout
    cases m.plan i with
    | plain => exact fun h => (nomatch h)
    | compressed => exact fun h => (nomatch h)
    | external => exact fun _ => rfl
    | compressedExternal => exact fun _ => rfl
  have hupdate := @rowWidth_update t compress i m.plan (inLine (m.plan i)) hi
  obtain ⟨hforced, -⟩ := hf i hst hfresh hout
  rw [curWidth_eq hc, (hc i).sizes_eq hfresh] at hforced
  rw [hpointer] at hupdate
  omega

theorem planned_of_marks {m : Marks} (hc : ∀ i, t.Coherent compress m i) (hf : t.MainForced m)
    (hs : t.Settled m) (hexit : t.curWidth m ≤ t.mainTarget ∨ t.NoneLeft false true m) :
    t.Planned compress m.plan where
  kept i c hr := by
    have hsome : (t.reused i).isSome := by
      rw [hr]
      rfl
    rw [((hc i).kept hsome).1, preset_reused hr]
  plain i hst hfresh := (hc i).plain hst hfresh
  external i hst hfresh := (hc i).external hst hfresh
  saves i hfresh hp := ((hc i).saves hfresh hp).2
  forced i hst hfresh hout := hf.planned hc hst hfresh hout
  settled := .inr (hs.planned hc hexit)

theorem curWidth_initial : t.curWidth t.initialMarks = t.width := by
  unfold curWidth width
  congr 1
  apply List.map_congr_left
  intro i _
  show (if (t.preset i).isExternal then toastPointerSize else t.size i) = _
  cases hr : t.reused i with
  | none =>
      rw [preset_plain hr]
      rfl
  | some c =>
      rw [isExternal_preset (by rw [hr]; rfl)]
      rfl

theorem planned_preset (hle : t.width ≤ toastTupleThreshold) : t.Planned compress t.preset where
  kept i c hr := preset_reused hr
  plain i _ hfresh := preset_plain hfresh
  external i _ hfresh := .inl (preset_plain hfresh)
  saves i hfresh hp := by
    rw [preset_plain hfresh] at hp
    rcases hp with hp | hp <;> cases hp
  forced i _ hfresh hout := by
    rw [preset_plain hfresh] at hout
    cases hout
  settled := by
    have hwidth := @curWidth_eq t compress t.initialMarks coherent_initial
    rw [curWidth_initial] at hwidth
    refine .inl ⟨?_, rfl⟩
    show t.rowWidth compress t.initialMarks.plan ≤ _
    rw [← hwidth]
    exact hle

theorem planToast_spec : ∃ p, t.planToast compress = .ok ((List.range t.values.length).map p) ∧
    t.Planned compress p := by
  unfold planToast
  by_cases hnone : t.eligible = []
  · rw [if_pos hnone]
    refine ⟨t.preset, rfl, planned_preset ?_⟩
    unfold width
    rw [hnone]
    exact Nat.zero_le _
  · rw [if_neg hnone]
    by_cases hle : t.width ≤ toastTupleThreshold
    · rw [if_pos hle]
      exact ⟨t.preset, rfl, planned_preset hle⟩
    · rw [if_neg hle]
      obtain ⟨m, hr, hc, hf, hs, hexit⟩ := @rounds_spec t compress
      rw [hr]
      exact ⟨m.plan, rfl, planned_of_marks hc hf hs hexit⟩

end PlanInput

/-! ## Getting values back -/

theorem flatten_chunkBytes (data : List UInt8) : (chunkBytes data).flatten = data := by
  induction data using chunkBytes.induct with
  | case1 =>
      rw [chunkBytes, if_pos rfl]
      rfl
  | case2 data hne ih =>
      rw [chunkBytes, if_neg hne, List.flatten_cons, ih, List.take_append_drop]

theorem length_of_mem_chunkBytes {data chunk : List UInt8} (h : chunk ∈ chunkBytes data) :
    1 ≤ chunk.length ∧ chunk.length ≤ toastMaxChunkSize := by
  induction data using chunkBytes.induct with
  | case1 =>
      rw [chunkBytes, if_pos rfl] at h
      cases h
  | case2 data hne ih =>
      rw [chunkBytes, if_neg hne] at h
      rcases List.mem_cons.1 h with rfl | h
      · have hpos := List.length_pos_iff.2 hne
        rw [List.length_take]
        unfold toastMaxChunkSize
        omega
      · exact ih h

namespace PlanInput

variable {t : PlanInput}

/-- What a plan stores of the column `i` yields `raw`: the chunks behind a pointer, and the compressed form
of a value in line. -/
structure GivenBack (t : PlanInput) (p : Nat → ToastPlan) (i : Nat) (raw : List UInt8) : Prop where
  outOfLine : (p i).isExternal = true → ∃ data,
    outOfLineBytes compressed (t.value i) t.compressOk (t.methodFor i) (p i) = some data ∧
      (∀ chunk ∈ chunkBytes data, 1 ≤ chunk.length ∧ chunk.length ≤ toastMaxChunkSize) ∧
      detoast ⟨p i = .compressedExternal, t.methodFor i⟩ (chunkBytes data) = .ok raw
  packed : p i = .compressed → ∃ c, t.attempt compressed i = some c ∧
    decompressValue c (t.methodFor i) = .ok raw

theorem attempt_eq_some {compress : List UInt8 → ToastCompression → Option (List UInt8)} {i : Nat}
    {raw c : List UInt8} (hraw : toastableBytes (t.value i) = some raw)
    (h : t.attempt compress i = some c) : t.compressOk = true ∧ compress raw (t.methodFor i) = some c := by
  unfold attempt at h
  rw [hraw] at h
  cases hok : t.compressOk with
  | false =>
      rw [hok] at h
      cases h
  | true =>
      rw [hok] at h
      exact ⟨rfl, (Option.filter_eq_some_iff.1 h).1⟩

theorem Planned.givenBack {p : Nat → ToastPlan} (h : t.Planned compressed p) {i : Nat} {raw : List UInt8}
    (hfresh : t.reused i = none) (hraw : toastableBytes (t.value i) = some raw)
    (hle : raw.length ≤ 1000000000) : t.GivenBack p i raw := by
  refine ⟨fun hout => ?_, fun hp => ?_⟩
  · cases hp : p i with
    | plain =>
        rw [hp] at hout
        cases hout
    | compressed =>
        rw [hp] at hout
        cases hout
    | external =>
        refine ⟨raw, hraw, fun chunk => length_of_mem_chunkBytes, ?_⟩
        show Except.ok (chunkBytes raw).flatten = _
        rw [flatten_chunkBytes]
    | compressedExternal =>
        obtain ⟨c, hc⟩ := Option.isSome_iff_exists.1 (h.saves i hfresh (.inr hp))
        obtain ⟨hok, hcomp⟩ := attempt_eq_some hraw hc
        refine ⟨c, ?_, fun chunk => length_of_mem_chunkBytes, ?_⟩
        · unfold outOfLineBytes
          dsimp only
          rw [hraw]
          dsimp only
          rw [hok, hcomp]
          rfl
        · show decompressValue (chunkBytes c).flatten (t.methodFor i) = _
          rw [flatten_chunkBytes]
          exact decompressValue_compressed hcomp hle
  · obtain ⟨c, hc⟩ := Option.isSome_iff_exists.1 (h.saves i hfresh (.inl hp))
    obtain ⟨-, hcomp⟩ := attempt_eq_some hraw hc
    exact ⟨c, hc, decompressValue_compressed hcomp hle⟩

end PlanInput

/-- A pointer is kept only if it stands for the bytes that the new version has. -/
theorem of_reuseOf {info : Nat → Option ToastInfo} {vid : Nat} {old new : Option Value} {c : Bool}
    (h : reuseOf info vid old new = some c) :
    vid ≠ 0 ∧ (∃ i, info vid = some i ∧ i.compressed = c) ∧
      ∃ o nw bytes, old = some o ∧ new = some nw ∧ toastableBytes o = some bytes ∧
        toastableBytes nw = some bytes := by
  unfold reuseOf at h
  split at h
  · cases h
  · rename_i hne
    split at h
    · cases h
    · rename_i i hi
      split at h
      · rename_i o nw ho hnw
        split at h
        · rename_i heq
          subst heq
          cases h
          obtain ⟨o', ho', hbytes⟩ := Option.bind_eq_some_iff.1 ho
          obtain ⟨nw', hnw', hbytes'⟩ := Option.bind_eq_some_iff.1 hnw
          exact ⟨hne, ⟨i, hi, rfl⟩, o', nw', o, ho', hnw', hbytes, hbytes'⟩
        · cases h
      · cases h

/-- The planner ends on every row, and its plan follows the strategies of the columns and goes on as long
as it may. What is stored of a column that is toasted anew yields its value, up to the decoders' limit; and
the pointer of an old version is kept only for the same bytes. -/
theorem toast_planning (t : PlanInput)
    (compress : List UInt8 → ToastCompression → Option (List UInt8)) :
    (∃ p, t.planToast compress = .ok ((List.range t.values.length).map p) ∧ t.Planned compress p) ∧
      (∃ p, t.planToast compressed = .ok ((List.range t.values.length).map p) ∧ t.Planned compressed p ∧
        ∀ i raw, t.reused i = none → toastableBytes (t.value i) = some raw → raw.length ≤ 1000000000 →
          t.GivenBack p i raw) ∧
      ∀ oldValues oldToast info i c,
        (toastUpdateReuse oldValues oldToast t.values info)[i]? = some (some c) →
          oldToast.getD i 0 ≠ 0 ∧ (∃ ti, info (oldToast.getD i 0) = some ti ∧ ti.compressed = c) ∧
            ∃ o nw bytes, oldValues[i]? = some o ∧ t.values[i]? = some nw ∧
              toastableBytes o = some bytes ∧ toastableBytes nw = some bytes := by
  refine ⟨PlanInput.planToast_spec, ?_, ?_⟩
  · obtain ⟨p, hp, hplanned⟩ := @PlanInput.planToast_spec t compressed
    exact ⟨p, hp, hplanned, fun i raw hfresh hraw hle => hplanned.givenBack hfresh hraw hle⟩
  · intro oldValues oldToast info i c h
    unfold toastUpdateReuse at h
    rw [List.getElem?_map] at h
    obtain ⟨j, hj, hreuse⟩ := Option.map_eq_some_iff.1 h
    obtain ⟨hlt, hget⟩ := List.getElem?_eq_some_iff.1 hj
    rw [List.getElem_range] at hget
    subst hget
    exact of_reuseOf hreuse

/-- A row of one text of `n` zeros, in a table with the least target. -/
def zerosRow (n : Nat) : PlanInput :=
  ⟨⟨[.extended], [none], 128⟩, [.text (List.replicate n 0)], true, .pglz, [none]⟩

/-- A row between its table's target and the threshold is left alone, though its column might be
compressed. -/
theorem plan_leaves_row : (zerosRow 1000).planToast compressed = .ok [.plain] ∧
    (zerosRow 1000).target < (zerosRow 1000).width ∧
    (zerosRow 1000).movable true false (zerosRow 1000).initialMarks 0 = true := by
  have hsize : (zerosRow 1000).size 0 = 1000 := List.length_replicate
  have heligible : (zerosRow 1000).eligible = [0] := by
    unfold PlanInput.eligible
    show List.filter _ [0] = [0]
    rw [List.filter_cons_of_pos]
    · rfl
    · rw [hsize]
      rfl
  have hwidth : (zerosRow 1000).width = 1000 := by
    have hfresh : ((zerosRow 1000).reused 0).isSome = false := rfl
    unfold PlanInput.width
    rw [heligible, List.map_singleton, List.sum_singleton, hfresh, hsize]
    rfl
  refine ⟨?_, ?_, ?_⟩
  · unfold PlanInput.planToast
    have hthreshold : 1000 ≤ toastTupleThreshold := by decide
    rw [heligible, hwidth, if_neg (List.cons_ne_nil 0 []), if_pos hthreshold]
    rfl
  · have htarget : (zerosRow 1000).target ≤ 128 := Nat.sub_le _ _
    rw [hwidth]
    omega
  · apply PlanInput.movable_iff.2
    refine ⟨rfl, Or.inl rfl, fun _ => ⟨rfl, rfl⟩, ?_⟩
    show _ < (zerosRow 1000).size 0
    rw [hsize]
    decide

end Toast
