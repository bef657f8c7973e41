import Mathlib.Data.List.Basic
import Mathlib.Data.Nat.Bitwise

/-!
Bit strings packed into bytes, most significant bit first: bit `i` is bit `7 - i % 8` of byte
`i / 8`, and a bit past the last byte reads as clear. Setting a bit changes that bit only, and
two byte strings of one length with the same bits are the same.
-/

namespace Bitset

/-- The mask of bit `i` within its byte, `1 << (7 - i % 8)`. -/
def mask (i : Nat) : UInt8 := 1 <<< (7 - i % 8).toUInt8

/-- Bit `i` of `bits`, `bits[i/8] & mask(i) != 0`. -/
def test (bits : List UInt8) (i : Nat) : Bool := bits.getD (i / 8) 0 &&& mask i != 0

/-- `bits[i/8] |= mask(i)`. -/
def set (bits : List UInt8) (i : Nat) : List UInt8 := bits.modify (i / 8) (· ||| mask i)

-- Equation lemmas of the definitions above, made once here rather than by the proofs below
-- that unfold them in parallel.
section
attribute [local simp] test set
end

theorem mask_toNat (i : Nat) : (mask i).toNat = 2 ^ (7 - i % 8) := by
  have each : ∀ k : Fin 8, ((1 : UInt8) <<< (7 - k.val).toUInt8).toNat = 2 ^ (7 - k.val) := by
    decide
  exact each ⟨i % 8, Nat.mod_lt i (by decide)⟩

/-- A bit is the matching bit of the byte that holds it. -/
theorem test_eq_testBit (bits : List UInt8) (i : Nat) :
    test bits i = (bits.getD (i / 8) 0).toNat.testBit (7 - i % 8) := by
  apply Bool.eq_iff_iff.mpr
  rw [test, bne_iff_ne, ne_eq, ← UInt8.toNat_inj, UInt8.toNat_and, mask_toNat, UInt8.toNat_zero,
    Nat.and_two_pow]
  cases (bits.getD (i / 8) 0).toNat.testBit (7 - i % 8) <;> simp

@[simp] theorem length_set (bits : List UInt8) (i : Nat) : (set bits i).length = bits.length :=
  List.length_modify _ _ _

theorem test_of_length_le {bits : List UInt8} {i : Nat} (past : 8 * bits.length ≤ i) :
    test bits i = false := by
  rw [test_eq_testBit, List.getD_eq_default _ _ (by omega)]
  simp

@[simp] theorem test_replicate_zero (n i : Nat) : test (List.replicate n 0) i = false := by
  rw [test_eq_testBit, List.getD_eq_getElem?_getD, List.getElem?_replicate]
  split <;> simp

/-- Setting bit `i` sets that bit, when its byte is there, and no other. -/
theorem test_set (bits : List UInt8) (i j : Nat) :
    test (set bits i) j = (test bits j || decide (i = j ∧ i / 8 < bits.length)) := by
  rw [test_eq_testBit, test_eq_testBit, set, List.getD_eq_getElem?_getD,
    List.getD_eq_getElem?_getD, List.getElem?_modify]
  by_cases same : i / 8 = j / 8
  · cases lookup : bits[j / 8]? with
    | none =>
        have outside : bits.length ≤ j / 8 := List.getElem?_eq_none_iff.mp lookup
        simp only [Option.map_eq_map, Option.map_none, Option.getD_none]
        have : ¬ (i = j ∧ i / 8 < bits.length) := by omega
        simp [this]
    | some b =>
        have inside : j / 8 < bits.length := (List.getElem?_eq_some_iff.mp lookup).1
        simp only [Option.map_eq_map, Option.map_some, Option.getD_some, same, if_true,
          UInt8.toNat_or, mask_toNat, Nat.testBit_or, Nat.testBit_two_pow]
        -- the byte and the place in it name the bit
        have place : (7 - i % 8 = 7 - j % 8) ↔ (i = j ∧ i / 8 < bits.length) := by omega
        simp only [place, same]
  · have other : ¬ (i = j ∧ i / 8 < bits.length) := fun ⟨eq, _⟩ => same (eq ▸ rfl)
    simp [same, other]

/-- Two byte strings of one length with the same bits are the same. -/
theorem ext {a b : List UInt8} (length : a.length = b.length) (same : ∀ i, test a i = test b i) :
    a = b := by
  apply List.ext_getElem length
  intro k inA inB
  apply UInt8.toNat_inj.mp
  apply Nat.eq_of_testBit_eq
  intro m
  by_cases small : m < 8
  · -- bit `m` of byte `k` is bit `8 k + 7 - m` of the string
    have bit := same (8 * k + (7 - m))
    have byte : (8 * k + (7 - m)) / 8 = k := by omega
    have place : 7 - (8 * k + (7 - m)) % 8 = m := by omega
    rwa [test_eq_testBit, test_eq_testBit, byte, place, List.getD_eq_getElem _ _ inA,
      List.getD_eq_getElem _ _ inB] at bit
  · have high : ∀ x : UInt8, x.toNat.testBit m = false := fun x =>
      Nat.testBit_lt_two_pow (Nat.lt_of_lt_of_le x.toNat_lt (Nat.pow_le_pow_right (by decide) (by omega)))
    rw [high, high]

end Bitset
