import Mathlib.Data.Nat.Digits.Lemmas
import Mathlib.Data.Nat.Size
import Mathlib.Data.List.GetD
import Mjoy.Types.BigInt

/-!
`PaddedBigBytes`, `ReadBits`, `bigEndianByteAt` and `Byte` of `common/math/big.go`. Each reads
only the absolute value of its integer, so the integer is that value here, a natural number,
and `bigint.Bits()` is its digits in base `2 ^ (8 * wordBytes)`, lowest first.

`ReadBits` writes the bytes of the words, lowest first, from the end of the buffer until the
words or the buffer run out. What it writes is the low end of the little-endian byte stream of
the number, so the buffer ends with the number big-endian (`readBits_eq`). `PaddedBigBytes`
answers `Bytes()` when the number has at least `n` whole bytes of bits, and otherwise reads it
into `n` zero bytes; either way the answer has `max n (len b.Bytes())` bytes and spells the
number.
-/

namespace Mjoy.Math

open Mjoy.Types

/-- The two sizes of `big.Word`. -/
inductive WordSize where
  | w32
  | w64

/-- `wordBytes`, the bytes of a `big.Word`. -/
def WordSize.wordBytes : WordSize → Nat
  | .w32 => 4
  | .w64 => 8

-- Equation lemmas of the definitions above, made once here rather than by the proofs below
-- that unfold them in parallel.
section
attribute [local simp] WordSize.wordBytes
end

theorem WordSize.wordBytes_pos (ws : WordSize) : 0 < ws.wordBytes := by
  cases ws <;> decide

/-- `bigint.Bits()`: the words of the absolute value, least significant first, with no zero
word on top. -/
def bits (ws : WordSize) (b : Nat) : List Nat :=
  Nat.digits (2 ^ (8 * ws.wordBytes)) b

/-- `bigint.BitLen()`. -/
def bitLen (b : Nat) : Nat :=
  Nat.size b

/-- The inner loop of `ReadBits`: at most `k` more bytes of the word `d`, lowest first, each
written just before index `i` while `i > 0`. -/
def writeWord : Nat → Nat → List UInt8 × Nat → List UInt8 × Nat
  | 0, _, s => s
  | k + 1, d, (buf, i) =>
      if i > 0 then writeWord k (d >>> 8) (buf.set (i - 1) d.toUInt8, i - 1) else (buf, i)

/-- `ReadBits(bigint, buf)`. -/
def readBits (ws : WordSize) (b : Nat) (buf : List UInt8) : List UInt8 :=
  ((bits ws b).foldl (fun s d => writeWord ws.wordBytes d s) (buf, buf.length)).1

/-- `PaddedBigBytes(bigint, n)`. -/
def paddedBigBytes (ws : WordSize) (b : Nat) (n : Int) : List UInt8 :=
  if ((bitLen b / 8 : Nat) : Int) ≥ n then magnitudeBytes b
  else readBits ws b (List.replicate n.toNat 0)

/-- `bigEndianByteAt(bigint, n)`: byte `n` of the number, counted from the least significant. -/
def bigEndianByteAt (ws : WordSize) (b n : Nat) : UInt8 :=
  let words := bits ws b
  let i := n / ws.wordBytes
  if i ≥ words.length then 0
  else (words.getD i 0 >>> (8 * (n % ws.wordBytes))).toUInt8

/-- `Byte(bigint, padlength, n)`: byte `n` of the number written big-endian in `padlength`
bytes. -/
def byte (ws : WordSize) (b padlength n : Nat) : UInt8 :=
  if n ≥ padlength then 0 else bigEndianByteAt ws b (padlength - 1 - n)

section
attribute [local simp] bits bitLen writeWord readBits paddedBigBytes bigEndianByteAt byte
end

/-! ### The bytes `ReadBits` writes -/

/-- The `w` low bytes of `d`, lowest first. -/
def littleEndian (w d : Nat) : List UInt8 :=
  (List.range w).map fun j => (d / 256 ^ j).toUInt8

section
attribute [local simp] littleEndian
end

@[simp] theorem length_littleEndian (w d : Nat) : (littleEndian w d).length = w := by
  simp [littleEndian]

theorem littleEndian_succ (w d : Nat) :
    littleEndian (w + 1) d = d.toUInt8 :: littleEndian w (d >>> 8) := by
  simp only [littleEndian, List.range_succ_eq_map, List.map_cons, List.map_map, Nat.pow_zero,
    Nat.div_one, Nat.shiftRight_eq_div_pow, Function.comp_def, Nat.pow_succ', Nat.div_div_eq_div_mul]

theorem toNat_toUInt8 (d : Nat) : d.toUInt8.toNat = d % 256 := by
  rw [Nat.toUInt8_eq, UInt8.toNat_ofNat']

/-- The low bytes of `d` spell `d` modulo their range. -/
theorem ofDigits_littleEndian (w d : Nat) :
    Nat.ofDigits 256 ((littleEndian w d).map UInt8.toNat) = d % 256 ^ w := by
  induction w generalizing d with
  | zero => simp [littleEndian, Nat.mod_one]
  | succ w ih =>
      rw [littleEndian_succ, List.map_cons, Nat.ofDigits_cons, ih, toNat_toUInt8,
        Nat.shiftRight_eq_div_pow, show (2 : Nat) ^ 8 = 256 from rfl, Nat.pow_succ', Nat.mod_mul]

/-- The inner loop writes the first `min i k` of the `k` low bytes of the word backwards, just
before index `i`. -/
theorem writeWord_spec (k d : Nat) (buf : List UInt8) (i : Nat) (inside : i ≤ buf.length) :
    writeWord k d (buf, i) = (buf.take (i - min i k) ++ ((littleEndian k d).take (min i k)).reverse ++
      buf.drop i, i - min i k) := by
  induction k generalizing d buf i with
  | zero => simp [writeWord]
  | succ k ih =>
      by_cases start : i = 0
      · subst start
        simp [writeWord]
      · -- byte `i - 1` takes the lowest byte, and the rest of the word goes before it
        have room : i - 1 ≤ (buf.set (i - 1) d.toUInt8).length := by simp; omega
        rw [writeWord, if_pos (by omega), ih _ _ _ room, littleEndian_succ]
        have taken : min i (k + 1) = min (i - 1) k + 1 := by omega
        have before : (buf.set (i - 1) d.toUInt8).take (i - 1 - min (i - 1) k) =
            buf.take (i - 1 - min (i - 1) k) := List.take_set_of_le (by omega)
        have after : (buf.set (i - 1) d.toUInt8).drop (i - 1) = d.toUInt8 :: buf.drop i := by
          rw [List.set_eq_take_append_cons_drop, if_pos (by omega), List.drop_left' (by simp; omega),
            show i - 1 + 1 = i by omega]
        rw [before, after, taken, List.take_succ_cons, List.reverse_cons,
          show i - (min (i - 1) k + 1) = i - 1 - min (i - 1) k by omega]
        simp

/-- Taking `t1 + t2` of two lists is taking `t1` of the first and `t2` of the second, when the
first is taken whole or the second not at all. -/
theorem take_append_add {l1 l2 : List UInt8} {t1 t2 : Nat} (whole : t2 = 0 ∨ t1 = l1.length)
    (inside : t1 ≤ l1.length) : (l1 ++ l2).take (t1 + t2) = l1.take t1 ++ l2.take t2 := by
  rw [List.take_append]
  rcases whole with none | all
  · subst none
    simp [show t1 - l1.length = 0 by omega]
  · subst all
    simp

/-- The loop over the words writes the low end of their byte stream backwards, just before
index `i`, until the stream or the room before `i` runs out. -/
theorem foldl_writeWord (w : Nat) (words : List Nat) (buf : List UInt8) (i : Nat)
    (inside : i ≤ buf.length) :
    let stream := words.flatMap (littleEndian w)
    words.foldl (fun s d => writeWord w d s) (buf, i) =
      (buf.take (i - min i stream.length) ++ (stream.take (min i stream.length)).reverse ++ buf.drop i,
        i - min i stream.length) := by
  induction words generalizing buf i with
  | nil => simp
  | cons d ds ih =>
      simp only [List.foldl_cons, List.flatMap_cons, List.length_append, length_littleEndian]
      rw [writeWord_spec w d buf i inside]
      -- the first word takes `t1` bytes of room, the other words `t2` of what is left
      generalize t1def : min i w = t1
      generalize (ds.flatMap (littleEndian w)) = rest at ih ⊢
      have room : i - t1 ≤ (buf.take (i - t1) ++ ((littleEndian w d).take t1).reverse ++ buf.drop i).length := by
        simp
        omega
      rw [ih _ _ room]
      generalize t2def : min (i - t1) rest.length = t2
      have total : min i (w + rest.length) = t1 + t2 := by omega
      have short : (buf.take (i - t1)).length = i - t1 := by simp; omega
      have front : (buf.take (i - t1) ++ (((littleEndian w d).take t1).reverse ++ buf.drop i)).take
          (i - t1 - t2) = buf.take (i - t1 - t2) := by
        rw [List.take_append_of_le_length (by omega), List.take_take, Nat.min_eq_left (by omega)]
      have back : (buf.take (i - t1) ++ (((littleEndian w d).take t1).reverse ++ buf.drop i)).drop
          (i - t1) = ((littleEndian w d).take t1).reverse ++ buf.drop i := List.drop_left' short
      have stream : (littleEndian w d ++ rest).take (t1 + t2) = (littleEndian w d).take t1 ++ rest.take t2 :=
        take_append_add (by simp; omega) (by simp; omega)
      rw [List.append_assoc (buf.take (i - t1)), front, back, total, stream, List.reverse_append,
        Nat.sub_sub]
      simp

/-- Words below `256 ^ w` written as their bytes spell the number the words spell. -/
theorem ofDigits_flatMap_littleEndian (w : Nat) (words : List Nat) (small : ∀ d ∈ words, d < 256 ^ w) :
    Nat.ofDigits 256 ((words.flatMap (littleEndian w)).map UInt8.toNat) =
      Nat.ofDigits (256 ^ w) words := by
  induction words with
  | nil => simp
  | cons d ds ih =>
      rw [List.flatMap_cons, List.map_append, Nat.ofDigits_append, ofDigits_littleEndian,
        List.length_map, length_littleEndian, ih fun e mem => small e (List.mem_cons_of_mem d mem),
        Nat.ofDigits_cons, Nat.mod_eq_of_lt (small d List.mem_cons_self)]

/-- The first `t` of some digits below 256 spell the number they all spell, modulo `256 ^ t`. -/
theorem ofDigits_take (l : List Nat) (small : ∀ x ∈ l, x < 256) (t : Nat) :
    Nat.ofDigits 256 (l.take t) = Nat.ofDigits 256 l % 256 ^ t := by
  have low : Nat.ofDigits 256 (l.take t) < 256 ^ (l.take t).length :=
    Nat.ofDigits_lt_base_pow_length (by decide) fun x mem => small x (List.mem_of_mem_take mem)
  conv_rhs => rw [← List.take_append_drop t l, Nat.ofDigits_append]
  rcases Nat.lt_or_ge l.length t with short | long
  · rw [List.drop_eq_nil_of_le short.le, Nat.ofDigits_nil, Nat.mul_zero, Nat.add_zero,
      Nat.mod_eq_of_lt]
    exact Nat.lt_of_lt_of_le low (Nat.pow_le_pow_right (by decide) (by simp))
  · rw [List.length_take, Nat.min_eq_left long] at low
    rw [List.length_take, Nat.min_eq_left long, Nat.add_mul_mod_self_left, Nat.mod_eq_of_lt low]

section Stream

variable (ws : WordSize) (b : Nat)

theorem word_base : 2 ^ (8 * ws.wordBytes) = 256 ^ ws.wordBytes := by
  rw [Nat.pow_mul]

theorem bits_lt : ∀ d ∈ bits ws b, d < 256 ^ ws.wordBytes := fun d mem => by
  rw [← word_base]
  exact Nat.digits_lt_base (Nat.one_lt_two_pow (by have := ws.wordBytes_pos; omega)) mem

/-- The bytes of the words of `b`, lowest first, spell `b`. -/
theorem ofDigits_stream :
    Nat.ofDigits 256 (((bits ws b).flatMap (littleEndian ws.wordBytes)).map UInt8.toNat) = b := by
  rw [ofDigits_flatMap_littleEndian _ _ (bits_lt ws b), ← word_base, bits, Nat.ofDigits_digits]

theorem length_stream :
    ((bits ws b).flatMap (littleEndian ws.wordBytes)).length = (bits ws b).length * ws.wordBytes := by
  rw [List.length_flatMap]
  simp [List.sum_replicate]

/-- The words of `b` hold it. -/
theorem lt_words : b < 256 ^ ((bits ws b).length * ws.wordBytes) := by
  have below : b < (2 ^ (8 * ws.wordBytes)) ^ (bits ws b).length :=
    Nat.lt_base_pow_length_digits (Nat.one_lt_two_pow (by have := ws.wordBytes_pos; omega))
  rwa [word_base, ← Nat.pow_mul, Nat.mul_comm] at below

end Stream

theorem length_magnitudeBytes_le_iff {b k : Nat} : (magnitudeBytes b).length ≤ k ↔ b < 256 ^ k := by
  rw [magnitudeBytes, List.length_reverse, List.length_map]
  exact Nat.digits_length_le_iff (by decide) b

/-- `ReadBits` into a buffer with room for the number writes `min (len buf) (len words *
wordBytes)` bytes at the end: the number big-endian, zero-filled in front. The bytes before
them are left as they were. -/
theorem readBits_eq (ws : WordSize) (b : Nat) (buf : List UInt8)
    (fits : (magnitudeBytes b).length ≤ buf.length) :
    let written := min buf.length ((bits ws b).length * ws.wordBytes)
    (magnitudeBytes b).length ≤ written ∧
      readBits ws b buf = buf.take (buf.length - written) ++
        List.replicate (written - (magnitudeBytes b).length) 0 ++ magnitudeBytes b := by
  intro written
  have loop := foldl_writeWord ws.wordBytes (bits ws b) buf buf.length (Nat.le_refl _)
  dsimp only at loop
  rw [length_stream] at loop
  -- the number fits the bytes written
  have below : b < 256 ^ written := by
    rcases Nat.le_total buf.length ((bits ws b).length * ws.wordBytes) with room | words
    · rw [show written = buf.length from Nat.min_eq_left room]
      exact length_magnitudeBytes_le_iff.mp fits
    · rw [show written = (bits ws b).length * ws.wordBytes from Nat.min_eq_right words]
      exact lt_words ws b
  -- what is written is the number, in `written` bytes
  have small : ∀ x ∈ ((bits ws b).flatMap (littleEndian ws.wordBytes)).map UInt8.toNat, x < 256 := by
    intro x mem
    obtain ⟨y, -, rfl⟩ := List.mem_map.mp mem
    exact y.toNat_lt
  have value : setBytes (((bits ws b).flatMap (littleEndian ws.wordBytes)).take written).reverse = b := by
    rw [setBytes_eq_ofDigits, List.map_reverse, List.reverse_reverse, List.map_take,
      ofDigits_take _ small, ofDigits_stream, Nat.mod_eq_of_lt below]
  have size : (((bits ws b).flatMap (littleEndian ws.wordBytes)).take written).reverse.length =
      written := by
    rw [List.length_reverse, List.length_take, length_stream]
    omega
  have shape := pad_magnitudeBytes_setBytes
    (((bits ws b).flatMap (littleEndian ws.wordBytes)).take written).reverse
  rw [value, size] at shape
  refine ⟨length_magnitudeBytes_le_iff.mpr below, ?_⟩
  change _ = (buf.take (buf.length - written) ++
    (((bits ws b).flatMap (littleEndian ws.wordBytes)).take written).reverse ++ buf.drop buf.length,
      buf.length - written) at loop
  rw [readBits, loop, List.drop_length, List.append_nil, ← shape, List.append_assoc]

/-- `Bytes()` has a byte for every eight bits, rounded up. -/
theorem length_magnitudeBytes (b : Nat) : (magnitudeBytes b).length = (bitLen b + 7) / 8 := by
  have bitsBytes : ∀ k, b < 256 ^ k ↔ bitLen b ≤ 8 * k := fun k => by
    rw [show (256 : Nat) = 2 ^ 8 from rfl, ← Nat.pow_mul, bitLen, Nat.size_le]
  apply Nat.le_antisymm
  · exact length_magnitudeBytes_le_iff.mpr ((bitsBytes _).mpr (by omega))
  · have := (bitsBytes _).mp (length_magnitudeBytes_le_iff.mp (Nat.le_refl (magnitudeBytes b).length))
    omega

/-- Zero bytes in front do not change the number a byte string spells. -/
theorem setBytes_replicate_zero_append (k : Nat) (x : List UInt8) :
    setBytes (List.replicate k 0 ++ x) = setBytes x := by
  rw [setBytes_eq_ofDigits, setBytes_eq_ofDigits, List.map_append, List.reverse_append,
    List.map_replicate, List.reverse_replicate]
  exact Nat.ofDigits_append_replicate_zero _

/-- `PaddedBigBytes(b, n)` has `max n (len b.Bytes())` bytes and spells `b`. -/
theorem paddedBigBytes_spec (ws : WordSize) (b : Nat) (n : Int) :
    ((paddedBigBytes ws b n).length : Int) = max n (magnitudeBytes b).length ∧
      setBytes (paddedBigBytes ws b n) = b := by
  have bytes := length_magnitudeBytes b
  unfold paddedBigBytes
  by_cases enough : ((bitLen b / 8 : Nat) : Int) ≥ n
  · -- `n` whole bytes of bits or more: `Bytes()` is long enough
    rw [if_pos enough]
    exact ⟨by omega, setBytes_magnitudeBytes b⟩
  · -- fewer: the number is read into `n` zero bytes, which have room for it
    rw [if_neg enough]
    have room : (magnitudeBytes b).length ≤ (List.replicate n.toNat (0 : UInt8)).length := by
      rw [List.length_replicate]
      omega
    obtain ⟨fits, written⟩ := readBits_eq ws b _ room
    rw [written, List.take_replicate, List.append_assoc, setBytes_replicate_zero_append,
      setBytes_replicate_zero_append, setBytes_magnitudeBytes]
    refine ⟨?_, rfl⟩
    simp only [List.length_append, List.length_replicate] at fits ⊢
    omega

/-! ### Reading one byte -/

/-- Digit `i` of `n` in base `p`, and past the last digit zero. -/
theorem getD_digits {p : Nat} (hp : 2 ≤ p) (n i : Nat) : (Nat.digits p n).getD i 0 = n / p ^ i % p := by
  rw [Nat.self_div_pow_eq_ofDigits_drop i n hp, List.getD_eq_getElem?_getD, ← List.head?_drop]
  cases tail : (Nat.digits p n).drop i with
  | nil => simp
  | cons d rest =>
      have mem : d ∈ Nat.digits p n := List.mem_of_mem_drop (tail ▸ List.mem_cons_self)
      rw [List.head?_cons, Option.getD_some, Nat.ofDigits_cons, Nat.add_mul_mod_self_left,
        Nat.mod_eq_of_lt (Nat.digits_lt_base hp mem)]

/-- Byte `r` of the low `w` bytes of `x`, for `r < w`, is byte `r` of `x`. -/
theorem byte_of_word (x w r : Nat) (inWord : r < w) : x % 256 ^ w / 256 ^ r % 256 = x / 256 ^ r % 256 := by
  obtain ⟨k, rfl⟩ : ∃ k, w = r + (k + 1) := ⟨w - r - 1, by omega⟩
  rw [Nat.pow_add, Nat.mod_mul_right_div_self,
    Nat.mod_mod_of_dvd _ (dvd_pow_self 256 (Nat.succ_ne_zero k))]

theorem toUInt8_mod (a : Nat) : (a % 256).toUInt8 = a.toUInt8 :=
  UInt8.toNat_inj.mp (by rw [toNat_toUInt8, toNat_toUInt8, Nat.mod_mod])

/-- `bigEndianByteAt(b, n)` is byte `n` of the number, counted from the least significant. -/
theorem bigEndianByteAt_eq (ws : WordSize) (b n : Nat) :
    bigEndianByteAt ws b n = (b / 256 ^ n).toUInt8 := by
  have pos := ws.wordBytes_pos
  have split : ws.wordBytes * (n / ws.wordBytes) + n % ws.wordBytes = n := Nat.div_add_mod n _
  have inWord : n % ws.wordBytes < ws.wordBytes := Nat.mod_lt n pos
  unfold bigEndianByteAt
  dsimp only
  split
  · -- past the words: the number has no byte there
    rename_i past
    have small : b < 256 ^ n := by
      calc b < 256 ^ ((bits ws b).length * ws.wordBytes) := lt_words ws b
        _ ≤ 256 ^ n := Nat.pow_le_pow_right (by decide) (by
          have := Nat.mul_le_mul_right ws.wordBytes past
          rw [Nat.mul_comm (n / ws.wordBytes)] at this
          omega)
    rw [Nat.div_eq_of_lt small]
    rfl
  · -- the word holds bytes `w q` to `w q + w - 1`; the shift drops the ones below byte `n`
    rw [bits, getD_digits (by have := Nat.one_lt_two_pow (n := 8 * ws.wordBytes) (by omega); omega),
      word_base, Nat.shiftRight_eq_div_pow, Nat.pow_mul 2 8, show (2 : Nat) ^ 8 = 256 from rfl,
      ← toUInt8_mod, ← toUInt8_mod (b / 256 ^ n), byte_of_word _ _ _ inWord, ← Nat.pow_mul,
      Nat.div_div_eq_div_mul, ← Nat.pow_add, split]

theorem getD_append_zeros (digits : List Nat) (m k : Nat) :
    (digits ++ List.replicate m 0).getD k 0 = digits.getD k 0 := by
  rcases Nat.lt_or_ge k digits.length with inside | outside
  · exact List.getD_append _ _ _ _ inside
  · rw [List.getD_append_right _ _ _ _ outside, List.getD_eq_default _ _ outside,
      List.getD_eq_getElem?_getD, List.getElem?_replicate]
    split <;> rfl

/-- `Byte(b, padlength, n)` is byte `n` of the number written big-endian in `padlength` bytes,
zero-filled in front: of what `PaddedBigBytes` and `ReadBits` write there. -/
theorem byte_eq_getD (ws : WordSize) (b pad n : Nat) (fits : (magnitudeBytes b).length ≤ pad) :
    byte ws b pad n =
      (List.replicate (pad - (magnitudeBytes b).length) 0 ++ magnitudeBytes b).getD n 0 := by
  have padded : List.replicate (pad - (magnitudeBytes b).length) 0 ++ magnitudeBytes b =
      ((Nat.digits 256 b ++ List.replicate (pad - (magnitudeBytes b).length) 0).map Nat.toUInt8).reverse := by
    rw [List.map_append, List.reverse_append, List.map_replicate, List.reverse_replicate]
    rfl
  have length : ((Nat.digits 256 b ++ List.replicate (pad - (magnitudeBytes b).length) 0).map
      Nat.toUInt8).length = pad := by
    simp only [List.length_map, List.length_append, List.length_replicate]
    rw [magnitudeBytes, List.length_reverse, List.length_map] at fits ⊢
    omega
  unfold byte
  split
  · rename_i past
    rw [List.getD_eq_default _ _ (by rw [padded, List.length_reverse, length]; omega)]
  · -- byte `n` from the front is digit `pad - 1 - n` from the back
    rename_i inside
    rw [bigEndianByteAt_eq, padded, List.getD_reverse _ (by rw [length]; omega), length,
      show (0 : UInt8) = (0 : Nat).toUInt8 from rfl, List.getD_map, getD_append_zeros,
      getD_digits (by decide), toUInt8_mod]

/-- For both word sizes: `PaddedBigBytes(b, n)` has `max n (len b.Bytes())` bytes and spells `b`;
`ReadBits(b, buf)` into a buffer with room for `b` leaves the front of the buffer as it was and
ends it with `b` big-endian, zero-filled in front. -/
theorem paddedBigBytes_readBits (ws : WordSize) :
    (∀ (b : Nat) (n : Int),
      ((paddedBigBytes ws b n).length : Int) = max n (magnitudeBytes b).length ∧
        setBytes (paddedBigBytes ws b n) = b) ∧
      ∀ (b : Nat) (buf : List UInt8), (magnitudeBytes b).length ≤ buf.length →
        let written := min buf.length ((bits ws b).length * ws.wordBytes)
        (magnitudeBytes b).length ≤ written ∧
          readBits ws b buf = buf.take (buf.length - written) ++
            List.replicate (written - (magnitudeBytes b).length) 0 ++ magnitudeBytes b :=
  ⟨paddedBigBytes_spec ws, readBits_eq ws⟩

/-- 258 on 32-bit words into six bytes of 9: one word is written, the first two bytes stay. -/
theorem paddedBigBytes_readBits_front :
    (magnitudeBytes 258).length ≤ 6 ∧ readBits .w32 258 [9, 9, 9, 9, 9, 9] = [9, 9, 0, 0, 1, 2] := by
  have room : (magnitudeBytes 258).length ≤ [(9 : UInt8), 9, 9, 9, 9, 9].length := by
    decide +kernel
  refine ⟨room, ?_⟩
  rw [((paddedBigBytes_readBits .w32).2 258 _ room).2]
  decide +kernel

end Mjoy.Math
