import Mathlib.Data.List.Basic

/-!
The two primitives a framing layer builds a secure stream from, as far as it sees them. A
`cipher.Stream` in counter mode XORs what it is given with its keystream and moves along it by
as many bytes; a `hash.Hash` is a function of the bytes written to it, so its state is those
bytes. Two streams at one place of one keystream undo each other, which is what keeps the two
ends of a connection in step.
-/

namespace Cipher

/-- A `cipher.Stream` from `cipher.NewCTR`: its keystream, and how many bytes of it are used. -/
structure Ctr where
  keystream : Nat → UInt8
  used : Nat

/-- `XORKeyStream(dst, src)`: `src` XOR the next bytes of the keystream. -/
def Ctr.xorKeyStream (c : Ctr) (src : List UInt8) : List UInt8 × Ctr :=
  (src.mapIdx fun i b => b ^^^ c.keystream (c.used + i), { c with used := c.used + src.length })

/-- A `hash.Hash`: the bytes written to it, and what `Sum(nil)` computes from them. -/
structure Hash where
  sum : List UInt8 → List UInt8
  written : List UInt8

def Hash.write (h : Hash) (b : List UInt8) : Hash :=
  { h with written := h.written ++ b }

/-- `Sum(nil)`. -/
def Hash.digest (h : Hash) : List UInt8 :=
  h.sum h.written

/-- Every digest has at least `n` bytes. -/
def Hash.AtLeast (h : Hash) (n : Nat) : Prop :=
  ∀ bytes, n ≤ (h.sum bytes).length

-- Equation lemmas of the definitions above, made once here rather than by the proofs below
-- that unfold them in parallel.
section
attribute [local simp] Ctr.xorKeyStream Hash.write Hash.digest
end

namespace Ctr

variable (c : Ctr)

@[simp] theorem xorKeyStream_length (src : List UInt8) : (c.xorKeyStream src).1.length = src.length := by
  simp [xorKeyStream]

@[simp] theorem xorKeyStream_keystream (src : List UInt8) : (c.xorKeyStream src).2.keystream = c.keystream :=
  rfl

@[simp] theorem xorKeyStream_used (src : List UInt8) : (c.xorKeyStream src).2.used = c.used + src.length :=
  rfl

/-- Two calls in a row are one call on the two inputs joined. -/
theorem xorKeyStream_append (a b : List UInt8) :
    c.xorKeyStream (a ++ b) =
      ((c.xorKeyStream a).1 ++ ((c.xorKeyStream a).2.xorKeyStream b).1, ((c.xorKeyStream a).2.xorKeyStream b).2) := by
  simp only [xorKeyStream, List.mapIdx_append, List.length_append, Prod.mk.injEq]
  refine ⟨?_, by rw [Nat.add_assoc]⟩
  -- the second part's keystream starts where the first part's ended
  congr 2
  funext i x
  rw [Nat.add_comm i a.length, Nat.add_assoc]

/-- A stream at the same place of the same keystream decrypts what this one encrypted. -/
theorem xorKeyStream_xorKeyStream (src : List UInt8) :
    (c.xorKeyStream (c.xorKeyStream src).1).1 = src := by
  simp only [xorKeyStream, List.mapIdx_mapIdx]
  apply List.ext_getElem (by simp)
  intro i _ _
  simp [UInt8.xor_assoc]

/-- The same, with where the stream ends up: as far along as the encrypting one. -/
theorem xorKeyStream_decrypt (src : List UInt8) :
    c.xorKeyStream (c.xorKeyStream src).1 = (src, (c.xorKeyStream src).2) := by
  refine Prod.ext (c.xorKeyStream_xorKeyStream src) ?_
  simp [xorKeyStream]

theorem xorKeyStream_injective {a b : List UInt8} (same : (c.xorKeyStream a).1 = (c.xorKeyStream b).1) : a = b := by
  rw [← c.xorKeyStream_xorKeyStream a, ← c.xorKeyStream_xorKeyStream b, same]

end Ctr

@[simp] theorem Hash.write_sum (h : Hash) (b : List UInt8) : (h.write b).sum = h.sum :=
  rfl

theorem Hash.AtLeast.write {h : Hash} {n : Nat} (long : h.AtLeast n) (b : List UInt8) : (h.write b).AtLeast n :=
  long

theorem Hash.write_write (h : Hash) (a b : List UInt8) : (h.write a).write b = h.write (a ++ b) := by
  simp [Hash.write]

end Cipher
