-- SUMMARY: Frames of a range with offsets: the scan for the keys between two doubles.
import Rustgres.Lib.Loops
import Rustgres.Windows.FrameKinds

/-!
# Ranges With Offsets

The code takes the rows from the first to the last whose key, as a double, lies between two doubles.
-/

namespace Windows

open Encoding (Value)

variable {E : Type} {K : KeyOps}

/-! ## The scan -/

section

variable {input : WindowInput} {idxs : List Nat} {lo hi : UInt64}

/-- The key of a row lies between two doubles. -/
def Inside (K : KeyOps) (input : WindowInput) (idxs : List Nat) (lo hi : UInt64) (p : Nat) : Prop :=
  ∃ f, toF K (firstKey input idxs p) = .ok f ∧ K.leF64 lo f = true ∧ K.leF64 f hi = true

/-- The frame found among the first `m` rows. -/
def Found (K : KeyOps) (input : WindowInput) (idxs : List Nat) (lo hi : UInt64) (n m : Nat) (found : Nat × Nat) : Prop :=
  (found.1 = n ∧ ∀ p < m, ¬Inside K input idxs lo hi p) ∨
  (found.1 < m ∧ found.2 < m ∧ Inside K input idxs lo hi found.1 ∧ Inside K input idxs lo hi found.2 ∧
    ∀ p < m, Inside K input idxs lo hi p → found.1 ≤ p ∧ p ≤ found.2)

theorem offsetStep_null {n p : Nat} {found : Nat × Nat} (h : firstKey input idxs p = .null) :
    offsetStep K input idxs lo hi n found p = .ok found := by
  rw [offsetStep, h]

theorem offsetStep_key {n p : Nat} {found : Nat × Nat} (h : firstKey input idxs p ≠ .null) :
    offsetStep K input idxs lo hi n found p =
      (toF K (firstKey input idxs p)).bind fun f =>
        if K.leF64 lo f && K.leF64 f hi then .ok (if found.1 = n then p else found.1, p) else .ok found := by
  unfold offsetStep
  split
  · exact absurd ‹_› h
  · rfl

theorem toF_null : ¬∃ f, toF K .null = .ok f := by
  rintro ⟨f, hf⟩
  cases hf

/-- One more row of the scan. -/
theorem offsetStep_found {n p : Nat} {found : Nat × Nat} (hp : p < n)
    (hkey : firstKey input idxs p = .null ∨ ∃ f, toF K (firstKey input idxs p) = .ok f)
    (h : Found K input idxs lo hi n p found) :
    ∃ found', offsetStep K input idxs lo hi n found p = .ok found' ∧ Found K input idxs lo hi n (p + 1) found' := by
  have hold : ¬Inside K input idxs lo hi p → Found K input idxs lo hi n (p + 1) found := by
    intro hout
    rcases h with ⟨hn, hnone⟩ | ⟨hs, he, hins, hine, hall⟩
    · refine .inl ⟨hn, fun q hq => ?_⟩
      rcases Nat.lt_succ_iff_lt_or_eq.1 hq with hlt | rfl
      · exact hnone q hlt
      · exact hout
    · refine .inr ⟨by omega, by omega, hins, hine, fun q hq hin => ?_⟩
      rcases Nat.lt_succ_iff_lt_or_eq.1 hq with hlt | rfl
      · exact hall q hlt hin
      · exact absurd hin hout
  by_cases hnull : firstKey input idxs p = .null
  · refine ⟨found, offsetStep_null hnull, hold ?_⟩
    rintro ⟨f, hf, -⟩
    rw [hnull] at hf
    exact toF_null ⟨f, hf⟩
  · obtain ⟨f, hf⟩ := hkey.resolve_left hnull
    rw [offsetStep_key hnull, hf]
    simp only [Except.bind]
    by_cases hin : K.leF64 lo f = true ∧ K.leF64 f hi = true
    · rw [hin.1, hin.2]
      refine ⟨_, rfl, .inr ?_⟩
      have hpin : Inside K input idxs lo hi p := ⟨f, hf, hin⟩
      rcases h with ⟨hn, hnone⟩ | ⟨hs, he, hins, hine, hall⟩
      · rw [if_pos hn]
        refine ⟨Nat.lt_succ_self p, Nat.lt_succ_self p, hpin, hpin, fun q hq hqin => ?_⟩
        rcases Nat.lt_succ_iff_lt_or_eq.1 hq with hlt | rfl
        · exact absurd hqin (hnone q hlt)
        · exact ⟨Nat.le_refl _, Nat.le_refl _⟩
      · rw [if_neg (by omega)]
        refine ⟨by show found.1 < p + 1; omega, Nat.lt_succ_self p, hins, hpin, fun q hq hqin => ?_⟩
        rcases Nat.lt_succ_iff_lt_or_eq.1 hq with hlt | rfl
        · exact ⟨(hall q hlt hqin).1, Nat.le_of_lt hlt⟩
        · exact ⟨Nat.le_of_lt hs, Nat.le_refl _⟩
    · have hfalse : (K.leF64 lo f && K.leF64 f hi) = false := by
        rw [← Bool.not_eq_true, Bool.and_eq_true]
        exact hin
      rw [hfalse]
      refine ⟨found, rfl, hold ?_⟩
      rintro ⟨f', hf', hin'⟩
      rw [hf] at hf'
      cases hf'
      exact hin hin'

theorem offsetScan_found {n m : Nat} (hm : m ≤ n)
    (hkeys : ∀ p < m, firstKey input idxs p = .null ∨ ∃ f, toF K (firstKey input idxs p) = .ok f) :
    ∃ found, (List.range m).foldlM (offsetStep K input idxs lo hi n) (n, n) = .ok found ∧
      Found K input idxs lo hi n m found := by
  induction m with
  | zero => exact ⟨(n, n), rfl, .inl ⟨rfl, fun p hp => absurd hp (Nat.not_lt_zero p)⟩⟩
  | succ m ih =>
    obtain ⟨found, hfound, hinv⟩ := ih (by omega) fun p hp => hkeys p (by omega)
    obtain ⟨found', hstep, hinv'⟩ := offsetStep_found (by omega) (hkeys m (Nat.lt_succ_self m)) hinv
    refine ⟨found', ?_, hinv'⟩
    rw [List.range_succ, List.foldlM_append, hfound]
    simp [bind, Except.bind, pure, Except.pure, hstep]

/-- A key that is no number of the supported types stops the scan. -/
theorem offsetScan_error {n p : Nat} (hp : p < n) (hkey : firstKey input idxs p ≠ .null)
    (hbad : ¬∃ f, toF K (firstKey input idxs p) = .ok f) : ∃ e, offsetScan K input idxs lo hi n = .error e := by
  have hfold : ∀ m, p < m → ∃ e, (List.range m).foldlM (offsetStep K input idxs lo hi n) (n, n) = .error e := by
    intro m hm
    induction m with
    | zero => exact absurd hm (Nat.not_lt_zero p)
    | succ m ih =>
      rw [List.range_succ, List.foldlM_append]
      rcases Nat.lt_succ_iff_lt_or_eq.1 hm with hlt | rfl
      · obtain ⟨e, he⟩ := ih hlt
        exact ⟨e, by rw [he]; rfl⟩
      · cases hrest : (List.range p).foldlM (offsetStep K input idxs lo hi n) (n, n) with
        | error e => exact ⟨e, rfl⟩
        | ok found =>
          cases hf : toF K (firstKey input idxs p) with
          | ok f => exact absurd ⟨f, hf⟩ hbad
          | error e =>
            refine ⟨e, ?_⟩
            simp [bind, Except.bind, offsetStep_key hkey, hf]
  obtain ⟨e, he⟩ := hfold n hp
  exact ⟨e, by rw [offsetScan, he]; rfl⟩

/-- The scan finds the rows inside, when these are rows in a row. -/
theorem covers_offsetScan {n : Nat} {Q : Nat → Prop}
    (hconvex : ∀ p q m, q < n → Inside K input idxs lo hi p → Inside K input idxs lo hi q → p ≤ m → m ≤ q →
      Inside K input idxs lo hi m) :
    Covers (offsetScan K input idxs lo hi n) n Q ↔
      (∀ p < n, firstKey input idxs p = .null ∨ ∃ f, toF K (firstKey input idxs p) = .ok f) ∧
        ∀ p < n, (Inside K input idxs lo hi p ↔ Q p) := by
  by_cases hkeys : ∀ p < n, firstKey input idxs p = .null ∨ ∃ f, toF K (firstKey input idxs p) = .ok f
  · rw [and_iff_right hkeys]
    obtain ⟨found, hfound, hinv⟩ := @offsetScan_found K input idxs lo hi n n (Nat.le_refl n) hkeys
    have hframe : ∃ frame, offsetScan K input idxs lo hi n = .ok frame ∧
        ∀ p < n, (frame.1 ≤ p ∧ p ≤ frame.2 ↔ Inside K input idxs lo hi p) := by
      rw [offsetScan, hfound]
      rcases hinv with ⟨hn, hnone⟩ | ⟨hs, he, hins, hine, hall⟩
      · refine ⟨(1, 0), by simp [bind, Except.bind, hn], fun p hp => ?_⟩
        exact ⟨fun h => by omega, fun h => absurd h (hnone p hp)⟩
      · refine ⟨found, by simp [bind, Except.bind, Nat.ne_of_lt hs], fun p hp => ⟨fun h => ?_, hall p hp⟩⟩
        exact hconvex found.1 found.2 p he hins hine h.1 h.2
    obtain ⟨frame, hok, hrows⟩ := hframe
    rw [hok, covers_ok]
    exact forall₂_congr fun p hp => by rw [hrows p hp]
  · refine ⟨fun h => ?_, fun h => absurd h.1 hkeys⟩
    simp only [not_forall, not_or] at hkeys
    obtain ⟨p, hp, hnull, hbad⟩ := hkeys
    obtain ⟨e, he⟩ := @offsetScan_error K input idxs lo hi n p hp hnull hbad
    rw [he] at h
    exact absurd h not_covers_error

end

/-! ## Keys in order -/

theorem compareValues_keys {a b : Value} (ha : a ≠ .null) (hb : b ≠ .null) (desc : Bool) (nullsFirst : Option Bool) :
    compareValues K a b desc nullsFirst = (K.compare a b).map fun ord => if desc then ord.swap else ord := by
  unfold compareValues
  split
  · exact absurd rfl ha
  · exact absurd rfl ha
  · exact absurd rfl hb
  · rfl

theorem compareValues_null_left {b : Value} (hb : b ≠ .null) (desc : Bool) (nullsFirst : Option Bool) :
    compareValues K .null b desc nullsFirst = .ok (if nullsFirst.getD desc then .lt else .gt) := by
  cases b <;> first | rfl | exact absurd rfl hb

theorem compareValues_null_right {a : Value} (ha : a ≠ .null) (desc : Bool) (nullsFirst : Option Bool) :
    compareValues K a .null desc nullsFirst = .ok (if nullsFirst.getD desc then .gt else .lt) := by
  cases a <;> first | rfl | exact absurd rfl ha

section

variable {o : OrderTerm E} {input : WindowInput} {idxs : List Nat} (P : OrderedPartition K [o] input idxs)

theorem ranked_first {p q : Nat} (hp : p < idxs.length) (hq : q < idxs.length) :
    compareValues K (firstKey input idxs p) (firstKey input idxs q) o.desc o.nullsFirst =
      .ok (compare (P.rank p 0) (P.rank q 0)) := by
  have hrank := P.ranked p hp q hq 0 o rfl
  rwa [termValue_zero, termValue_zero] at hrank

include P in
/-- Nulls stand at one end. -/
theorem null_side {p q : Nat} (hpq : p ≤ q) (hq : q < idxs.length) :
    (firstKey input idxs p ≠ .null → firstKey input idxs q = .null → o.nullsFirst.getD o.desc = false) ∧
      (firstKey input idxs p = .null → firstKey input idxs q ≠ .null → o.nullsFirst.getD o.desc = true) := by
  have hrank := ranked_first P (Nat.lt_of_le_of_lt hpq hq) hq
  have hle := P.rank_first_le hpq hq (by simp)
  have hgt : compare (P.rank p 0) (P.rank q 0) ≠ .gt := by
    rw [Ne, compare_gt_iff_gt]
    omega
  constructor
  · intro hp hnull
    rw [hnull, compareValues_null_right hp, Except.ok.injEq] at hrank
    cases hside : o.nullsFirst.getD o.desc with
    | false => rfl
    | true => exact absurd (by rw [← hrank, hside]; rfl) hgt
  · intro hnull hne
    rw [hnull, compareValues_null_left hne, Except.ok.injEq] at hrank
    cases hside : o.nullsFirst.getD o.desc with
    | true => rfl
    | false => exact absurd (by rw [← hrank, hside]; rfl) hgt

include P in
/-- The doubles of two keys in the order of the partition. -/
theorem double_le (hR : RoundsInOrder K) {p q : Nat} {a b : UInt64} (hpq : p ≤ q) (hq : q < idxs.length)
    (ha : toF K (firstKey input idxs p) = .ok a) (hb : toF K (firstKey input idxs q) = .ok b) :
    (o.desc = false → K.leF64 b b = true → K.leF64 a b = true) ∧
      (o.desc = true → K.leF64 a a = true → K.leF64 b a = true) := by
  have hne : ∀ {r f}, toF K (firstKey input idxs r) = .ok f → firstKey input idxs r ≠ .null := by
    intro r f hf hnull
    rw [hnull] at hf
    exact toF_null ⟨f, hf⟩
  have hp := Nat.lt_of_le_of_lt hpq hq
  have hle := P.rank_first_le hpq hq (by simp)
  constructor
  · intro hasc
    have hrank := ranked_first P hp hq
    rw [compareValues_keys (hne ha) (hne hb), hasc] at hrank
    obtain ⟨ord, hord, heq⟩ := Loops.map_eq_ok hrank
    refine hR.mono _ _ a b ord hord ?_ ha hb
    rw [show ord = compare (P.rank p 0) (P.rank q 0) from heq, Ne, compare_gt_iff_gt]
    omega
  · intro hdesc
    have hrank := ranked_first P hq hp
    rw [compareValues_keys (hne hb) (hne ha), hdesc] at hrank
    obtain ⟨ord, hord, heq⟩ := Loops.map_eq_ok hrank
    refine hR.mono _ _ b a ord hord ?_ hb ha
    have hswap : ord.swap = compare (P.rank q 0) (P.rank p 0) := heq
    rintro rfl
    have hlt := compare_lt_iff_lt.1 hswap.symm
    omega

include P in
/-- The rows inside two doubles are rows in a row. -/
theorem inside_convex (hR : RoundsInOrder K) {lo hi : UInt64}
    (hkeys : ∀ p < idxs.length, firstKey input idxs p = .null ∨ ∃ f, toF K (firstKey input idxs p) = .ok f)
    {p q m : Nat} (hq : q < idxs.length) (hpin : Inside K input idxs lo hi p) (hqin : Inside K input idxs lo hi q)
    (hpm : p ≤ m) (hmq : m ≤ q) : Inside K input idxs lo hi m := by
  obtain ⟨a, ha, hloa, hahi⟩ := hpin
  obtain ⟨b, hb, hlob, hbhi⟩ := hqin
  have hm := Nat.lt_of_le_of_lt hmq hq
  have hne : ∀ {r f}, toF K (firstKey input idxs r) = .ok f → firstKey input idxs r ≠ .null := by
    intro r f hf hnull
    rw [hnull] at hf
    exact toF_null ⟨f, hf⟩
  have hmne : firstKey input idxs m ≠ .null := by
    intro hnull
    have hlast := (null_side P hpm hm).1 (hne ha) hnull
    have hfirst := (null_side P hmq hq).2 hnull (hne hb)
    rw [hlast] at hfirst
    cases hfirst
  obtain ⟨f, hf⟩ := (hkeys m hm).resolve_left hmne
  refine ⟨f, hf, ?_⟩
  cases hdir : o.desc with
  | false =>
    have hfb := (double_le P hR hmq hq hf hb).1 hdir (hR.numbers _ _ hlob).2
    have haf := (double_le P hR hpm hm ha hf).1 hdir (hR.numbers _ _ hfb).1
    exact ⟨hR.trans _ _ _ hloa haf, hR.trans _ _ _ hfb hbhi⟩
  | true =>
    have hfa := (double_le P hR hpm hm ha hf).2 hdir (hR.numbers _ _ hloa).2
    have hbf := (double_le P hR hmq hq hf hb).2 hdir (hR.numbers _ _ hfa).1
    exact ⟨hR.trans _ _ _ hlob hbf, hR.trans _ _ _ hfa hahi⟩

end

end Windows
