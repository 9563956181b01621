-- SUMMARY: Big-endian byte strings and the positional decoder monad with its round-trip rules.
import Mathlib.Data.Nat.Digits.Defs
import Mathlib.Tactic.Common

/-!
# Bytes

Fixed-width big-endian integers as byte lists, and a decoder that walks a buffer
by position. `Decodes p bs a` says that `p` reads exactly the bytes `bs` wherever
they stand in a buffer; the rules below compose such facts along a decoder's own
structure.
-/

abbrev Bytes := List UInt8

namespace Bytes

-- ---------------------------------------------------------------------------
-- Big-endian integers
-- ---------------------------------------------------------------------------

/-- The `w` low bytes of `n`, most significant first. -/
def be : Nat → Nat → Bytes
  | 0, _ => []
  | w + 1, n => UInt8.ofNat (n / 256 ^ w) :: be w n

/-- The number a big-endian byte string denotes. -/
def ofBe (bs : Bytes) : Nat :=
  bs.foldl (fun acc b => acc * 256 + b.toNat) 0

@[simp]
theorem length_be (w n : Nat) : (be w n).length = w := by
  induction w with
  | zero => rfl
  | succ w ih => simp [be, ih]

private theorem foldl_be (w n acc : Nat) :
    (be w n).foldl (fun acc b => acc * 256 + b.toNat) acc = acc * 256 ^ w + n % 256 ^ w := by
  induction w generalizing acc with
  | zero => simp [be, Nat.mod_one]
  | succ w ih =>
      have hbyte : (UInt8.ofNat (n / 256 ^ w)).toNat = n / 256 ^ w % 256 := by simp
      rw [be, List.foldl_cons, ih, hbyte, Nat.mod_pow_succ, Nat.pow_succ]
      ring

@[simp]
theorem ofBe_be (w n : Nat) : ofBe (be w n) = n % 256 ^ w := by
  simp [ofBe, foldl_be]

-- ---------------------------------------------------------------------------
-- The decoder
-- ---------------------------------------------------------------------------

/-- A read position in a buffer, with the format version the buffer was written in. -/
structure Dec where
  buf : Bytes
  pos : Nat
  version : Nat
deriving DecidableEq, Repr

/-- Decoders: they advance the position or fail with a message. -/
abbrev DecM := StateT Dec (Except String)

namespace Dec

def err (d : Dec) (what : String) : String :=
  what ++ " at offset " ++ toString d.pos

/-- The next `n` bytes. -/
def take (n : Nat) : DecM Bytes := fun d =>
  if d.pos + n > d.buf.length then
    .error (d.err "truncated value")
  else
    .ok ((d.buf.drop d.pos).take n, { d with pos := d.pos + n })

/-- A big-endian unsigned integer of `w` bytes. -/
def uint (w : Nat) : DecM Nat := do
  let b ← take w
  return ofBe b

/-- Succeeds only at the end of the buffer. -/
def done : DecM Unit := fun d =>
  if d.pos = d.buf.length then .ok ((), d) else .error (d.err "trailing bytes")

/-- `n` values in sequence. -/
def replicate (n : Nat) (p : DecM α) : DecM (List α) :=
  match n with
  | 0 => return []
  | n + 1 => do
      let a ← p
      let as ← replicate n p
      return a :: as

end Dec

/-- In a buffer of format `v`, `p` reads `bs` wherever it stands, returns `a` and stops after
`bs`. -/
def Decodes (v : Nat) (p : DecM α) (bs : Bytes) (a : α) : Prop :=
  ∀ pre post, p ⟨pre ++ bs ++ post, pre.length, v⟩
    = .ok (a, ⟨pre ++ bs ++ post, (pre ++ bs).length, v⟩)

namespace Decodes

variable {v : Nat}

theorem pure (a : α) : Decodes v (Pure.pure a) [] a := by
  intro pre post
  rw [List.append_nil]
  rfl

theorem bind {p : DecM α} {f : α → DecM β} {bs bs' : Bytes} {a : α} {b : β}
    (hp : Decodes v p bs a) (hf : Decodes v (f a) bs' b) :
    Decodes v (p >>= f) (bs ++ bs') b := by
  intro pre post
  have h₁ := hp pre (bs' ++ post)
  have h₂ := hf (pre ++ bs) post
  simp only [List.append_assoc] at h₁ h₂ ⊢
  simp only [Bind.bind, StateT.bind, Except.bind, h₁, h₂]

theorem take (bs : Bytes) : Decodes v (Dec.take bs.length) bs bs := by
  intro pre post
  simp [Dec.take]

theorem uint (w n : Nat) : Decodes v (Dec.uint w) (be w n) (n % 256 ^ w) := by
  have htake := take (v := v) (be w n)
  rw [length_be] at htake
  simpa [Dec.uint] using htake.bind (f := fun b => Pure.pure (ofBe b)) (pure _)

theorem replicate {p : DecM α} {enc : α → Bytes} {as : List α}
    (h : ∀ a ∈ as, Decodes v p (enc a) a) :
    Decodes v (Dec.replicate as.length p) (as.flatMap enc) as := by
  induction as with
  | nil => exact pure []
  | cons a as ih =>
      have hhead := h a (by simp)
      have htail := ih fun b hb => h b (by simp [hb])
      have hrest := htail.bind (f := fun as => Pure.pure (a :: as)) (pure _)
      rw [List.append_nil] at hrest
      exact hhead.bind (f := fun a => Dec.replicate as.length p >>= fun as => Pure.pure (a :: as))
        hrest

/-- A decoder run on exactly its bytes, followed by the end-of-buffer check. -/
theorem run_done {p : DecM α} {bs : Bytes} {a : α} (h : Decodes v p bs a) :
    ((p >>= fun a => Dec.done >>= fun _ => Pure.pure a) : DecM α) ⟨bs, 0, v⟩
      = .ok (a, ⟨bs, bs.length, v⟩) := by
  have hrun := h [] []
  simp only [List.nil_append, List.append_nil, List.length_nil] at hrun
  have hdone : Dec.done ⟨bs, bs.length, v⟩ = .ok ((), ⟨bs, bs.length, v⟩) := by simp [Dec.done]
  simp only [Bind.bind, StateT.bind, Except.bind, hrun, hdone]
  rfl

end Decodes

end Bytes
