-- SUMMARY: Binary formats: writers, readers that may fault, what a reader reads back, and clean readers.
import Rustgres.Lib.Bytes

/-!
# Codecs

Writers of the usual building blocks of a binary format, and the readers for them. A reader stops
with a reported error, a panic, or when its stack is used up. `ReadsBack p bs a P` says exactly when
`p` gets `a` back from its bytes `bs`; `Clean` readers only ever stop with reported errors.
-/

open Bytes

namespace Codecs

/-! ## Writers -/

namespace Put

def u8 (b : UInt8) : Bytes := [b]
def u32 (n : UInt32) : Bytes := be 4 n.toNat
def u64 (n : UInt64) : Bytes := be 8 n.toNat
def i16 (n : Int16) : Bytes := be 2 n.toUInt16.toNat
def i32 (n : Int32) : Bytes := be 4 n.toUInt32.toNat
def i64 (n : Int64) : Bytes := be 8 n.toUInt64.toNat
def bool (b : Bool) : Bytes := [if b then 1 else 0]

/-- The length of a sequence, as a `u32` cast. -/
def len (n : Nat) : Bytes := be 4 n

def utf8 (s : String) : Bytes := s.toByteArray.data.toList

/-- Length-prefixed bytes. -/
def blob (b : Bytes) : Bytes := len b.length ++ b

def str (s : String) : Bytes := blob (utf8 s)

def opt (enc : α → Bytes) : Option α → Bytes
  | none => [0]
  | some a => 1 :: enc a

def list (enc : α → Bytes) (l : List α) : Bytes := len l.length ++ l.flatMap enc

@[simp] theorem length_u8 (b : UInt8) : (u8 b).length = 1 := rfl
@[simp] theorem length_u32 (n : UInt32) : (u32 n).length = 4 := length_be 4 _
@[simp] theorem length_u64 (n : UInt64) : (u64 n).length = 8 := length_be 8 _
@[simp] theorem length_i16 (n : Int16) : (i16 n).length = 2 := length_be 2 _
@[simp] theorem length_i32 (n : Int32) : (i32 n).length = 4 := length_be 4 _
@[simp] theorem length_i64 (n : Int64) : (i64 n).length = 8 := length_be 8 _
@[simp] theorem length_bool (b : Bool) : (bool b).length = 1 := rfl
@[simp] theorem length_len (n : Nat) : (len n).length = 4 := length_be 4 _

@[simp]
theorem length_blob (b : Bytes) : (blob b).length = 4 + b.length := by simp [blob]

@[simp]
theorem length_str (s : String) : (str s).length = 4 + (utf8 s).length := length_blob _

theorem one_le_length_opt (enc : α → Bytes) (o : Option α) : 1 ≤ (opt enc o).length := by
  cases o <;> simp [opt]

/-- Elements of at least one byte: a sequence is not longer than its bytes. -/
theorem length_le_flatMap {e : α → Bytes} {l : List α} (h : ∀ a ∈ l, 1 ≤ (e a).length) :
    l.length ≤ (l.flatMap e).length := by
  induction l with
  | nil => simp
  | cons a l ih =>
      have hhead := h a (by simp)
      have htail := ih fun b hb => h b (by simp [hb])
      simp only [List.length_cons, List.flatMap_cons, List.length_append]
      omega

end Put

/-! ## Readers -/

/-- Why a reader stops. -/
inductive Fault where
  | error (msg : String)
  | panic
  | stackOverflow
deriving DecidableEq, Repr

/-- If at all, the outcome is a reported error. -/
def Reports (r : Except Fault α) : Prop := ∀ f, r = .error f → ∃ msg, f = .error msg

namespace Reports

variable {α β : Type}

theorem ok (a : α) : Reports (.ok a) := fun _ h => nomatch h

theorem error (msg : String) : Reports (.error (.error msg) : Except Fault α) := by
  intro f h
  cases h
  exact ⟨msg, rfl⟩

theorem bind {r : Except Fault α} {k : α → Except Fault β} (h : Reports r)
    (hk : ∀ a, Reports (k a)) : Reports (r >>= k) := by
  cases r with
  | ok a => exact hk a
  | error f =>
      obtain ⟨msg, rfl⟩ := h f rfl
      exact error msg

end Reports

abbrev Reader := StateT Bytes.Dec (Except Fault)

namespace Reader

variable {α β : Type}

/-- A decoder that reports its errors. -/
def lift (p : DecM α) : Reader α := fun d => (p d).mapError .error

def raise (f : Fault) : Reader α := fun _ => .error f

def fail (what : String) : Reader α := fun d => .error (.error (d.err what))

/-- The outcome of a text parser; its message is part of the one that is reported. -/
def parsed (what : String) : Except Fault α → Reader α
  | .ok a => pure a
  | .error (.error msg) => fail (what ++ msg)
  | .error f => raise f

def take (n : Nat) : Reader Bytes := lift (Bytes.Dec.take n)

def uint (w : Nat) : Reader Nat := lift (Bytes.Dec.uint w)

def u8 : Reader UInt8 := UInt8.ofNat <$> uint 1
def u32 : Reader UInt32 := UInt32.ofNat <$> uint 4
def u64 : Reader UInt64 := UInt64.ofNat <$> uint 8
def i16 : Reader Int16 := (fun n => (UInt16.ofNat n).toInt16) <$> uint 2
def i32 : Reader Int32 := (fun n => (UInt32.ofNat n).toInt32) <$> uint 4
def i64 : Reader Int64 := (fun n => (UInt64.ofNat n).toInt64) <$> uint 8
def bool : Reader Bool := (· != 0) <$> u8

def blob : Reader Bytes := do
  let n ← uint 4
  take n

/-- Exactly `n` bytes. -/
def block (n : Nat) : Reader { b : Bytes // b.length = n } := do
  let b ← take n
  if h : b.length = n then return ⟨b, h⟩ else fail "truncated value"

def str : Reader String := do
  let b ← blob
  match String.fromUTF8? ⟨b.toArray⟩ with
  | some s => return s
  | none => fail "invalid utf-8 in string"

def opt (p : Reader α) : Reader (Option α) := do
  if ← bool then some <$> p else return none

/-- `n` values in sequence. -/
def times : Nat → Reader α → Reader (List α)
  | 0, _ => return []
  | n + 1, p => do
    let a ← p
    let as ← times n p
    return a :: as

def list (p : Reader α) : Reader (List α) := do
  let n ← uint 4
  times n p

/-- A field that buffers older than version `v` do not have. -/
def since (v : Nat) (old : α) (p : Reader α) : Reader α := fun d =>
  if v ≤ d.version then p d else .ok (old, d)

/-- Errors are reported with a label in front. -/
def label (what : String) (p : Reader α) : Reader α := fun d =>
  (p d).mapError fun
    | .error msg => .error (what ++ msg)
    | f => f

/-- Whatever the reader returns satisfies `R`. -/
def Returns (R : α → Prop) (p : Reader α) : Prop := ∀ d a d', p d = .ok (a, d') → R a

theorem bind_ok {p : Reader α} {k : α → Reader β} {d d' : Bytes.Dec} {b : β}
    (h : (p >>= k) d = .ok (b, d')) : ∃ a d₁, p d = .ok (a, d₁) ∧ k a d₁ = .ok (b, d') := by
  simp only [Bind.bind, StateT.bind, Except.bind] at h
  cases hp : p d with
  | error f => rw [hp] at h; cases h
  | ok r => rw [hp] at h; exact ⟨r.1, r.2, rfl, h⟩

theorem bind_of_ok {p : Reader α} {k : α → Reader β} {d d₁ : Bytes.Dec} {a : α}
    (h : p d = .ok (a, d₁)) : (p >>= k) d = k a d₁ := by
  simp only [Bind.bind, StateT.bind, Except.bind, h]

theorem map_ok {p : Reader α} {f : α → β} {d d' : Bytes.Dec} {b : β}
    (h : (f <$> p) d = .ok (b, d')) : ∃ a, p d = .ok (a, d') ∧ f a = b := by
  rw [map_eq_pure_bind] at h
  obtain ⟨a, d₁, hp, hk⟩ := bind_ok h
  cases hk
  exact ⟨a, hp, rfl⟩

theorem map_of_ok {p : Reader α} {f : α → β} {d d' : Bytes.Dec} {a : α}
    (h : p d = .ok (a, d')) : (f <$> p) d = .ok (f a, d') := by
  rw [map_eq_pure_bind, bind_of_ok h]
  rfl

theorem lift_ok {p : DecM α} {d d' : Bytes.Dec} {a : α} (h : p d = .ok (a, d')) :
    lift p d = .ok (a, d') := by
  simp [lift, h, Except.mapError]

namespace Returns

theorem pure {R : α → Prop} {a : α} (h : R a) : Returns R (Pure.pure a) := by
  intro d x d' hx
  cases hx
  exact h

theorem fail {R : α → Prop} {what : String} : Returns R (Reader.fail what) := by
  intro d x d' hx
  cases hx

theorem bind {R : β → Prop} {p : Reader α} {k : α → Reader β} (h : ∀ a, Returns R (k a)) :
    Returns R (p >>= k) := by
  intro d b d' hb
  obtain ⟨a, d₁, -, hk⟩ := bind_ok hb
  exact h a d₁ b d' hk

theorem bind_of {Q : α → Prop} {R : β → Prop} {p : Reader α} {k : α → Reader β}
    (hp : Returns Q p) (h : ∀ a, Q a → Returns R (k a)) : Returns R (p >>= k) := by
  intro d b d' hb
  obtain ⟨a, d₁, ha, hk⟩ := bind_ok hb
  exact h a (hp d a d₁ ha) d₁ b d' hk

theorem times (n : Nat) (p : Reader α) : Returns (fun l => l.length = n) (times n p) := by
  induction n with
  | zero => exact pure rfl
  | succ n ih =>
      apply bind
      intro a
      refine ih.bind_of fun as has => ?_
      exact pure (by simp [has])

end Returns

end Reader

/-! ## Reading back -/

variable {α β : Type}

/-- In a buffer of format `v`, `p` gets `a` back from exactly the bytes `bs` if `P`, and it never
returns `a` on them if not. The bytes are short enough for a length word. -/
structure ReadsBack (v : Nat) (p : Reader α) (bs : Bytes) (a : α) (P : Prop) : Prop where
  of : bs.length < 2 ^ 32 → P → ∀ pre post, p ⟨pre ++ bs ++ post, pre.length, v⟩
    = .ok (a, ⟨pre ++ bs ++ post, (pre ++ bs).length, v⟩)
  not_of : bs.length < 2 ^ 32 → ¬ P → ∀ pre post d, p ⟨pre ++ bs ++ post, pre.length, v⟩
    ≠ .ok (a, d)

namespace ReadsBack

variable {v : Nat} {p : Reader α} {q : Reader β} {bs bs' : Bytes} {a : α} {b : β} {P Q : Prop}

theorem congr (h : ReadsBack v p bs a P) (hPQ : P ↔ Q) : ReadsBack v p bs a Q := by
  rwa [hPQ] at h

/-- The bytes are taken to be short. -/
theorem short (h : bs.length < 2 ^ 32 → ReadsBack v p bs a P) : ReadsBack v p bs a P :=
  ⟨fun hs => (h hs).of hs, fun hs => (h hs).not_of hs⟩

/-- A reader that always gets its value back. -/
theorem always (h : bs.length < 2 ^ 32 → ∀ pre post, p ⟨pre ++ bs ++ post, pre.length, v⟩
    = .ok (a, ⟨pre ++ bs ++ post, (pre ++ bs).length, v⟩)) : ReadsBack v p bs a True :=
  ⟨fun hs _ => h hs, fun _ hn => absurd trivial hn⟩

theorem pure (a : α) : ReadsBack v (Pure.pure a) [] a True := by
  apply always
  intro _ pre post
  rw [List.append_nil]
  rfl

theorem bind {k : α → Reader β} (hp : ReadsBack v p bs a True) (hk : ReadsBack v (k a) bs' b Q) :
    ReadsBack v (p >>= k) (bs ++ bs') b Q := by
  have hrun : (bs ++ bs').length < 2 ^ 32 → ∀ pre post,
      (p >>= k) ⟨pre ++ (bs ++ bs') ++ post, pre.length, v⟩
        = k a ⟨pre ++ bs ++ bs' ++ post, (pre ++ bs).length, v⟩ := by
    intro hs pre post
    rw [List.length_append] at hs
    have hfirst := hp.of (by omega) trivial pre (bs' ++ post)
    simp only [List.append_assoc] at hfirst ⊢
    exact Reader.bind_of_ok hfirst
  constructor
  · intro hs hQ pre post
    rw [hrun hs]
    rw [List.length_append] at hs
    have hrest := hk.of (by omega) hQ (pre ++ bs) post
    simpa only [List.append_assoc] using hrest
  · intro hs hQ pre post d
    rw [hrun hs]
    rw [List.length_append] at hs
    exact hk.not_of (by omega) hQ (pre ++ bs) post d

/-- A value that is not always read back, and that shows in the result. -/
theorem step {k : α → Reader β} (hp : ReadsBack v p bs a P) (hk : ReadsBack v (k a) bs' b Q)
    (hret : ∀ x, Reader.Returns (fun y => y = b → x = a) (k x)) :
    ReadsBack v (p >>= k) (bs ++ bs') b (P ∧ Q) := by
  by_cases hP : P
  · exact ((hp.congr (iff_true_intro hP)).bind hk).congr (by simp only [hP, true_and])
  · constructor
    · intro _ h
      exact absurd h.1 hP
    · intro hs _ pre post d h
      rw [List.length_append] at hs
      obtain ⟨x, d₁, hx, h⟩ := Reader.bind_ok h
      have hxa : x = a := hret x _ _ _ h rfl
      refine hp.not_of (by omega) hP pre (bs' ++ post) d₁ ?_
      simpa only [List.append_assoc, hxa] using hx

/-! Chains of fields, and their bytes in a list. -/

theorem field {k : α → Reader β} {rest : List Bytes} (hp : ReadsBack v p bs a True)
    (hk : ReadsBack v (k a) rest.flatten b Q) :
    ReadsBack v (p >>= k) (bs :: rest).flatten b Q :=
  hp.bind hk

theorem part {k : α → Reader β} {rest : List Bytes} (hp : ReadsBack v p bs a P)
    (hk : ReadsBack v (k a) rest.flatten b Q)
    (hret : ∀ x, Reader.Returns (fun y => y = b → x = a) (k x)) :
    ReadsBack v (p >>= k) (bs :: rest).flatten b (P ∧ Q) :=
  hp.step hk hret

theorem done (a : α) : ReadsBack v (Pure.pure a) ([] : List Bytes).flatten a True := pure a

/-- The last read of a chain. -/
theorem last {f : α → β} (hp : ReadsBack v p bs a P) (hf : ∀ x, f x = f a → x = a) :
    ReadsBack v (p >>= fun x => Pure.pure (f x)) bs (f a) P := by
  constructor
  · intro hs hP pre post
    rw [Reader.bind_of_ok (hp.of hs hP pre post)]
    rfl
  · intro hs hP pre post d h
    obtain ⟨x, d₁, hx, h⟩ := Reader.bind_ok h
    have hfx : f x = f a := (Prod.mk.inj (Except.ok.inj h)).1
    exact hp.not_of hs hP pre post d₁ (hf x hfx ▸ hx)

theorem last_always {f : α → β} (hp : ReadsBack v p bs a True) :
    ReadsBack v (p >>= fun x => Pure.pure (f x)) bs (f a) True := by
  have h := hp.bind (k := fun x => Pure.pure (f x)) (pure (f a))
  rwa [List.append_nil] at h

theorem map {f : α → β} (hp : ReadsBack v p bs a P) (hf : ∀ x, f x = f a → x = a) :
    ReadsBack v (f <$> p) bs (f a) P := by
  rw [map_eq_pure_bind]
  exact hp.last hf

theorem map_always {f : α → β} (hp : ReadsBack v p bs a True) :
    ReadsBack v (f <$> p) bs (f a) True := by
  rw [map_eq_pure_bind]
  exact hp.last_always

/-- What `p` never returns it does not get back. -/
theorem of_returns {R : α → Prop} (hret : Reader.Returns R p)
    (h : R a → ReadsBack v p bs a P) : ReadsBack v p bs a (R a ∧ P) := by
  by_cases hR : R a
  · exact (h hR).congr (by simp only [hR, true_and])
  · constructor
    · intro _ h
      exact absurd h.1 hR
    · intro _ _ pre post d h
      exact hR (hret _ _ _ h)

theorem uint {w n : Nat} (h : n < 256 ^ w) : ReadsBack v (Reader.uint w) (be w n) n True := by
  apply always
  intro _ pre post
  have hdec := Decodes.uint (v := v) w n pre post
  rw [Nat.mod_eq_of_lt h] at hdec
  exact Reader.lift_ok hdec

theorem take (bs : Bytes) : ReadsBack v (Reader.take bs.length) bs bs True := by
  apply always
  intro _ pre post
  exact Reader.lift_ok (Decodes.take (v := v) bs pre post)

/-- An integer of `w` bytes is read back through its conversions. -/
private theorem converted {w : Nat} {f : Nat → α} {g : α → Nat}
    (hinv : ∀ x, f (g x) = x) (hlt : ∀ x, g x < 256 ^ w) (x : α) :
    ReadsBack v (f <$> Reader.uint w) (be w (g x)) x True := by
  apply always
  intro hs pre post
  rw [Reader.map_of_ok ((uint (v := v) (hlt x)).of hs trivial pre post), hinv]

theorem u8 (n : UInt8) : ReadsBack v Reader.u8 (Put.u8 n) n True := by
  have h := converted (v := v) (w := 1) (f := UInt8.ofNat) (g := UInt8.toNat)
    (fun x => UInt8.ofNat_toNat) (fun x => x.toNat_lt) n
  simpa [be, Put.u8, Reader.u8] using h

theorem u32 (n : UInt32) : ReadsBack v Reader.u32 (Put.u32 n) n True :=
  converted (fun _ => UInt32.ofNat_toNat) (fun x => x.toNat_lt) n

theorem u64 (n : UInt64) : ReadsBack v Reader.u64 (Put.u64 n) n True :=
  converted (fun _ => UInt64.ofNat_toNat) (fun x => x.toNat_lt) n

theorem i16 (n : Int16) : ReadsBack v Reader.i16 (Put.i16 n) n True :=
  converted (g := fun n : Int16 => n.toUInt16.toNat)
    (fun _ => congrArg UInt16.toInt16 UInt16.ofNat_toNat) (fun x => x.toUInt16.toNat_lt) n

theorem i32 (n : Int32) : ReadsBack v Reader.i32 (Put.i32 n) n True :=
  converted (g := fun n : Int32 => n.toUInt32.toNat)
    (fun _ => congrArg UInt32.toInt32 UInt32.ofNat_toNat) (fun x => x.toUInt32.toNat_lt) n

theorem i64 (n : Int64) : ReadsBack v Reader.i64 (Put.i64 n) n True :=
  converted (g := fun n : Int64 => n.toUInt64.toNat)
    (fun _ => congrArg UInt64.toInt64 UInt64.ofNat_toNat) (fun x => x.toUInt64.toNat_lt) n

theorem bool (b : Bool) : ReadsBack v Reader.bool (Put.bool b) b True := by
  apply always
  intro hs pre post
  have hbyte := (u8 (v := v) (if b then 1 else 0)).of hs trivial pre post
  rw [Reader.bool]
  rw [Put.u8] at hbyte
  rw [Put.bool, Reader.map_of_ok hbyte]
  cases b <;> rfl

theorem blob (b : Bytes) : ReadsBack v Reader.blob (Put.blob b) b True := by
  apply always
  intro hs pre post
  rw [Put.length_blob] at hs
  have hlen : ReadsBack v (Reader.uint 4) (Put.len b.length) b.length True := uint (by omega)
  exact ((hlen.bind (k := Reader.take) (take b)).of (by simp; omega) trivial pre post)

theorem block {n : Nat} (b : { b : Bytes // b.length = n }) :
    ReadsBack v (Reader.block n) b.1 b True := by
  obtain ⟨b, hb⟩ := b
  apply always
  intro hs pre post
  have htake := (take (v := v) b).of hs trivial pre post
  rw [hb] at htake
  rw [Reader.block, Reader.bind_of_ok htake, dif_pos hb]
  rfl

theorem str (s : String) : ReadsBack v Reader.str (Put.str s) s True := by
  have hvalid : String.fromUTF8? ⟨(Put.utf8 s).toArray⟩ = some s := by
    simp [String.fromUTF8?, Put.utf8, s.isValidUTF8, String.fromUTF8]
  apply always
  intro hs pre post
  rw [Reader.str, Put.str, Reader.bind_of_ok ((blob (v := v) (Put.utf8 s)).of hs trivial pre post), hvalid]
  rfl

theorem opt {enc : α → Bytes} {P : α → Prop} {o : Option α}
    (h : ∀ a ∈ o, ReadsBack v p (enc a) a (P a)) :
    ReadsBack v (Reader.opt p) (Put.opt enc o) o (∀ a ∈ o, P a) := by
  cases o with
  | none =>
      refine ((bool false).bind (k := fun b => if b then some <$> p else return none)
        (pure none)).congr ?_
      simp
  | some a =>
      have hval : ReadsBack v (some <$> p) (enc a) (some a) (P a) :=
        (h a rfl).map fun _ hx => Option.some.inj hx
      refine ((bool true).bind (k := fun b => if b then some <$> p else return none) hval).congr ?_
      simp

theorem times {e : α → Bytes} {P : α → Prop} {l : List α}
    (h : ∀ a ∈ l, ReadsBack v p (e a) a (P a)) :
    ReadsBack v (Reader.times l.length p) (l.flatMap e) l (∀ a ∈ l, P a) := by
  induction l with
  | nil => exact (pure []).congr (by simp)
  | cons a l ih =>
      have hhead := h a (by simp)
      have htail := ih fun b hb => h b (by simp [hb])
      have hrest := htail.last (f := fun as => a :: as) fun x hx => (List.cons.inj hx).2
      rw [List.length_cons, Reader.times, List.flatMap_cons]
      refine (hhead.step hrest ?_).congr (by simp)
      intro x
      apply Reader.Returns.bind
      intro as
      exact Reader.Returns.pure fun h => (List.cons.inj h).1

theorem len {n : Nat} (h : n < 2 ^ 32) : ReadsBack v (Reader.uint 4) (Put.len n) n True :=
  uint (by omega)

theorem list {e : α → Bytes} {P : α → Prop} {l : List α} (hpos : ∀ a ∈ l, 1 ≤ (e a).length)
    (h : ∀ a ∈ l, ReadsBack v p (e a) a (P a)) :
    ReadsBack v (Reader.list p) (Put.list e l) l (∀ a ∈ l, P a) := by
  apply short
  intro hs
  have hle := Put.length_le_flatMap hpos
  rw [Put.list, List.length_append] at hs
  exact (len (by omega)).bind (times h)

theorem opt_always {e : α → Bytes} {o : Option α}
    (h : ∀ a ∈ o, ReadsBack v p (e a) a True) :
    ReadsBack v (Reader.opt p) (Put.opt e o) o True :=
  (opt h).congr (by simp)

theorem list_always {e : α → Bytes} {l : List α} (hpos : ∀ a ∈ l, 1 ≤ (e a).length)
    (h : ∀ a ∈ l, ReadsBack v p (e a) a True) :
    ReadsBack v (Reader.list p) (Put.list e l) l True :=
  (list hpos h).congr (by simp)

theorem label {what : String} (h : ReadsBack v p bs a P) :
    ReadsBack v (Reader.label what p) bs a P := by
  constructor
  · intro hs hP pre post
    rw [Reader.label, h.of hs hP]
    rfl
  · intro hs hP pre post d hd
    refine h.not_of hs hP pre post d ?_
    rw [Reader.label] at hd
    cases hr : p ⟨pre ++ bs ++ post, pre.length, v⟩ with
    | error f => rw [hr] at hd; cases hd
    | ok r => rw [hr] at hd; exact hd

theorem since {k : Nat} {o : α} (hk : k ≤ v) (h : ReadsBack v p bs a P) :
    ReadsBack v (Reader.since k o p) bs a P := by
  constructor
  · intro hs hP pre post
    rw [Reader.since, if_pos hk]
    exact h.of hs hP pre post
  · intro hs hP pre post d
    rw [Reader.since, if_pos hk]
    exact h.not_of hs hP pre post d

/-- The branch of the tag that was written. -/
theorem tag {k : UInt8 → Reader α} {t : UInt8} (h : ReadsBack v (k t) bs a P) :
    ReadsBack v (Reader.u8 >>= k) (t :: bs) a P :=
  (u8 t).bind h

theorem parsed {what : String} {r : Except Fault α} :
    ReadsBack v (Reader.parsed what r) [] a (r = .ok a) := by
  cases r with
  | ok x =>
      constructor
      · intro hs h pre post
        cases h
        exact (pure a).of hs trivial pre post
      · intro _ h pre post d hd
        cases hd
        exact h rfl
  | error f =>
      constructor
      · intro _ h
        cases h
      · intro _ _ pre post d hd
        cases f <;> cases hd

/-- A value that is written as a text. -/
theorem text {what : String} {parse : String → Except Fault α} {f : α → β} {s : String}
    (hf : ∀ x, f x = f a → x = a) :
    ReadsBack v (Reader.str >>= fun s => f <$> Reader.parsed what (parse s)) (Put.str s) (f a)
      (parse s = .ok a) := by
  have h := (str (v := v) s).bind (k := fun s => f <$> Reader.parsed what (parse s))
    (parsed.map hf)
  rwa [List.append_nil] at h

end ReadsBack

/-! ## Clean readers -/

/-- The bytes behind the position. -/
def left (d : Bytes.Dec) : Nat := d.buf.length - d.pos

/-- With at most `n` bytes left in a buffer whose texts all satisfy `S`, the reader stops with a
reported error or moves forward in the same buffer. -/
structure Clean (S : String → Prop) (n : Nat) (p : Reader α) : Prop where
  reports : ∀ d, left d ≤ n → (∀ s, Put.utf8 s <:+: d.buf → S s) → Reports (p d)
  advances : ∀ d a d', left d ≤ n → (∀ s, Put.utf8 s <:+: d.buf → S s) → p d = .ok (a, d') →
    d'.buf = d.buf ∧ d.pos ≤ d'.pos

namespace Clean

variable {S : String → Prop} {n : Nat} {p : Reader α} {q : Reader β}

theorem pure (a : α) : Clean S n (Pure.pure a) := by
  constructor
  · intro d _ _ f h
    cases h
  · intro d a' d' _ _ h
    cases h
    exact ⟨rfl, le_rfl⟩

theorem fail (what : String) : Clean S n (Reader.fail what : Reader α) := by
  constructor
  · intro d _ _ f h
    cases h
    exact ⟨_, rfl⟩
  · intro d a d' _ _ h
    cases h

theorem reported (msg : String) : Clean S n (Reader.raise (.error msg) : Reader α) := by
  constructor
  · intro d _ _ f h
    cases h
    exact ⟨_, rfl⟩
  · intro d a d' _ _ h
    cases h

theorem bind {k : α → Reader β} (hp : Clean S n p) (hk : ∀ a, Clean S n (k a)) :
    Clean S n (p >>= k) := by
  constructor
  · intro d hn hS f h
    simp only [Bind.bind, StateT.bind, Except.bind] at h
    cases hd : p d with
    | error f' =>
        rw [hd] at h
        cases h
        exact hp.reports d hn hS f hd
    | ok r =>
        rw [hd] at h
        obtain ⟨hbuf, hpos⟩ := hp.advances d r.1 r.2 hn hS hd
        have hn' : left r.2 ≤ n := by
          simp only [left, hbuf] at hn ⊢
          omega
        exact (hk r.1).reports r.2 hn' (hbuf ▸ hS) f h
  · intro d b d' hn hS h
    obtain ⟨a, d₁, hd, h⟩ := Reader.bind_ok h
    obtain ⟨hbuf, hpos⟩ := hp.advances d a d₁ hn hS hd
    have hn' : left d₁ ≤ n := by
      simp only [left, hbuf] at hn ⊢
      omega
    obtain ⟨hbuf', hpos'⟩ := (hk a).advances d₁ b d' hn' (hbuf ▸ hS) h
    exact ⟨hbuf'.trans hbuf, hpos.trans hpos'⟩

theorem map {f : α → β} (hp : Clean S n p) : Clean S n (f <$> p) := by
  rw [map_eq_pure_bind]
  exact hp.bind fun a => pure (f a)

theorem take (k : Nat) : Clean S n (Reader.take k) := by
  constructor
  · intro d _ _ f h
    simp only [Reader.take, Reader.lift, Bytes.Dec.take] at h
    split at h
    · cases h
      exact ⟨_, rfl⟩
    · cases h
  · intro d a d' _ _ h
    simp only [Reader.take, Reader.lift, Bytes.Dec.take] at h
    split at h
    · cases h
    · cases h
      exact ⟨rfl, Nat.le_add_right _ _⟩

theorem uint_eq (w : Nat) : Reader.uint w = ofBe <$> Reader.take w := by
  funext d
  simp only [Reader.uint, Reader.take, Reader.lift, Bytes.Dec.uint, map_eq_pure_bind, Bind.bind,
    StateT.bind, Except.bind]
  cases Bytes.Dec.take w d <;> rfl

theorem uint (w : Nat) : Clean S n (Reader.uint w) := by
  rw [uint_eq]
  exact (take w).map

theorem u8 : Clean S n Reader.u8 := (uint 1).map
theorem u32 : Clean S n Reader.u32 := (uint 4).map
theorem u64 : Clean S n Reader.u64 := (uint 8).map
theorem i16 : Clean S n Reader.i16 := (uint 2).map
theorem i32 : Clean S n Reader.i32 := (uint 4).map
theorem i64 : Clean S n Reader.i64 := (uint 8).map
theorem bool : Clean S n Reader.bool := u8.map
theorem blob : Clean S n Reader.blob := (uint 4).bind take

theorem block (k : Nat) : Clean S n (Reader.block k) := by
  refine (take k).bind fun b => ?_
  split
  · exact pure _
  · exact fail _

theorem str : Clean S n Reader.str := by
  refine blob.bind fun b => ?_
  split
  · exact pure _
  · exact fail _

theorem opt (hp : Clean S n p) : Clean S n (Reader.opt p) := by
  refine bool.bind fun b => ?_
  cases b with
  | true => exact hp.map
  | false => exact pure _

theorem times (hp : Clean S n p) (k : Nat) : Clean S n (Reader.times k p) := by
  induction k with
  | zero => exact pure _
  | succ k ih => exact hp.bind fun _ => ih.bind fun _ => pure _

theorem list (hp : Clean S n p) : Clean S n (Reader.list p) :=
  (uint 4).bind fun k => hp.times k

theorem since {k : Nat} {old : α} (hp : Clean S n p) : Clean S n (Reader.since k old p) := by
  constructor
  · intro d hn hS f h
    rw [Reader.since] at h
    split at h
    · exact hp.reports d hn hS f h
    · cases h
  · intro d a d' hn hS h
    rw [Reader.since] at h
    split at h
    · exact hp.advances d a d' hn hS h
    · cases h
      exact ⟨rfl, le_rfl⟩

theorem label {what : String} (hp : Clean S n p) : Clean S n (Reader.label what p) := by
  constructor
  · intro d hn hS f h
    rw [Reader.label] at h
    cases hr : p d with
    | error f' =>
        obtain ⟨msg, rfl⟩ := hp.reports d hn hS f' hr
        rw [hr] at h
        cases h
        exact ⟨_, rfl⟩
    | ok r => rw [hr] at h; cases h
  · intro d a d' hn hS h
    rw [Reader.label] at h
    cases hr : p d with
    | error f' => rw [hr] at h; cases h
    | ok r =>
        rw [hr] at h
        exact hp.advances d a d' hn hS (hr.trans h)

theorem parsed (what : String) {r : Except Fault α} (h : Reports r) :
    Clean S n (Reader.parsed what r) := by
  cases r with
  | ok a => exact pure a
  | error f =>
      obtain ⟨msg, rfl⟩ := h f rfl
      exact fail _

/-- The bytes that were taken stand in the buffer. -/
theorem take_within {k : Nat} {d d' : Bytes.Dec} {b : Bytes} (h : Reader.take k d = .ok (b, d')) :
    b <:+: d.buf := by
  simp only [Reader.take, Reader.lift, Bytes.Dec.take] at h
  split at h
  · cases h
  · cases h
    have htake := List.take_prefix k (d.buf.drop d.pos)
    exact htake.isInfix.trans (List.drop_suffix d.pos d.buf).isInfix

theorem str_within {d d' : Bytes.Dec} {s : String} (h : Reader.str d = .ok (s, d')) :
    Put.utf8 s <:+: d.buf := by
  obtain ⟨b, d₁, hb, h⟩ := Reader.bind_ok h
  obtain ⟨k, d₂, hk, hb⟩ := Reader.bind_ok hb
  have hbuf : d₂.buf = d.buf := by
    refine ((uint (S := fun _ => True) (n := left d) 4).advances d k d₂ le_rfl ?_ hk).1
    intros
    trivial
  have hs : Put.utf8 s = b := by
    by_cases hvalid : ByteArray.IsValidUTF8 ⟨b.toArray⟩
    · simp only [String.fromUTF8?, dif_pos hvalid] at h
      cases h
      simp [Put.utf8, String.fromUTF8]
    · simp only [String.fromUTF8?, dif_neg hvalid] at h
      cases h
  rw [hs, ← hbuf]
  exact take_within hb

/-- A text of the buffer satisfies `S`. -/
theorem str_bind {k : String → Reader β} (hk : ∀ s, S s → Clean S n (k s)) :
    Clean S n (Reader.str >>= k) := by
  constructor
  · intro d hn hS f h
    simp only [Bind.bind, StateT.bind, Except.bind] at h
    cases hd : Reader.str d with
    | error f' =>
        rw [hd] at h
        cases h
        exact str.reports d hn hS f hd
    | ok r =>
        rw [hd] at h
        obtain ⟨hbuf, hpos⟩ := str.advances d r.1 r.2 hn hS hd
        have hn' : left r.2 ≤ n := by
          simp only [left, hbuf] at hn ⊢
          omega
        exact (hk r.1 (hS _ (str_within hd))).reports r.2 hn' (hbuf ▸ hS) f h
  · intro d b d' hn hS h
    obtain ⟨s, d₁, hd, h⟩ := Reader.bind_ok h
    obtain ⟨hbuf, hpos⟩ := str.advances d s d₁ hn hS hd
    have hn' : left d₁ ≤ n := by
      simp only [left, hbuf] at hn ⊢
      omega
    obtain ⟨hbuf', hpos'⟩ :=
      (hk s (hS _ (str_within hd))).advances d₁ b d' hn' (hbuf ▸ hS) h
    exact ⟨hbuf'.trans hbuf, hpos.trans hpos'⟩

theorem text {what : String} {parse : String → Except Fault α} {f : α → β}
    (h : ∀ s, S s → Reports (parse s)) :
    Clean S n (Reader.str >>= fun s => f <$> Reader.parsed what (parse s)) :=
  str_bind fun s hs => (parsed what (h s hs)).map

/-- A tag takes a byte, so fewer bytes are left for its branch. -/
theorem tag {k : UInt8 → Reader α} (hk : ∀ m, m < n → ∀ t, Clean S m (k t)) :
    Clean S n (Reader.u8 >>= k) := by
  have hbyte : ∀ d t d', Reader.u8 d = .ok (t, d') → d'.buf = d.buf ∧ d'.pos = d.pos + 1
      ∧ d.pos + 1 ≤ d.buf.length := by
    intro d t d' h
    obtain ⟨x, h, -⟩ := Reader.map_ok h
    rw [uint_eq] at h
    obtain ⟨b, h, -⟩ := Reader.map_ok h
    simp only [Reader.take, Reader.lift, Bytes.Dec.take] at h
    split at h
    · cases h
    · cases h
      exact ⟨rfl, rfl, by omega⟩
  constructor
  · intro d hn hS f h
    simp only [Bind.bind, StateT.bind, Except.bind] at h
    cases hd : Reader.u8 d with
    | error f' =>
        rw [hd] at h
        cases h
        exact u8.reports d hn hS f hd
    | ok r =>
        rw [hd] at h
        obtain ⟨hbuf, hpos, hlen⟩ := hbyte d r.1 r.2 hd
        have hlt : left r.2 < n := by
          simp only [left, hbuf, hpos] at hn ⊢
          omega
        exact (hk _ hlt r.1).reports r.2 le_rfl (hbuf ▸ hS) f h
  · intro d a d' hn hS h
    obtain ⟨t, d₁, hd, h⟩ := Reader.bind_ok h
    obtain ⟨hbuf, hpos, hlen⟩ := hbyte d t d₁ hd
    have hlt : left d₁ < n := by
      simp only [left, hbuf, hpos] at hn ⊢
      omega
    obtain ⟨hbuf', hpos'⟩ := (hk _ hlt t).advances d₁ a d' le_rfl (hbuf ▸ hS) h
    exact ⟨hbuf'.trans hbuf, by omega⟩

end Clean

end Codecs
