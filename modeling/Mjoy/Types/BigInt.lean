import Mathlib.Data.Nat.Digits.Defs
import Mathlib.Tactic.Ring
import Mjoy.Lib.Msgp

/-!
The msgp codec of `types.BigInt` (`common/types/bigint.go` and `bigint_gen.go`). The integer
is written as a map of one field, "bigint", whose value is a `bin` object: the byte of the
integer's sign (255 for a negative one), then its magnitude, big-endian and without leading
zeros (`bigToBytes`). The decoder reads the map's fields, the "bigint" one with `ReadIntf`,
and `bigFromBytes` turns a byte slice back into the integer. It reads the sign byte without
checking that the slice is not empty.

`UnmarshalMsg` runs the steps of `DecodeMsg` on a byte slice and is the same function here.
-/

namespace Mjoy.Types

/-- `x.Bytes()`: the absolute value, big-endian, without leading zeros; empty for zero. -/
def magnitudeBytes (n : Nat) : List UInt8 :=
  ((Nat.digits 256 n).map Nat.toUInt8).reverse

/-- `z.SetBytes(buf)`: the bytes as a big-endian unsigned number. -/
def setBytes (buf : List UInt8) : Nat :=
  buf.foldl (fun acc b => acc * 256 + b.toNat) 0

/-- `byte(v.Sign())`: 255 for a negative integer, 0 for zero and 1 for a positive one. -/
def signByte (v : Int) : UInt8 :=
  if v < 0 then 255 else if v = 0 then 0 else 1

/-- `bigToBytes(v)`. -/
def bigToBytes (v : Int) : List UInt8 :=
  signByte v :: magnitudeBytes v.natAbs

/-- The run-time panics of the decoder. -/
inductive Panic where
  | indexOutOfRange
  deriving DecidableEq, Repr

/-- `bigFromBytes(b)`: nil, and anything but a byte slice, give zero; the first byte of a
slice is its sign, read without a length check. -/
def bigFromBytes : Msgp.Intf → Except Panic Int
  | .nil => .ok 0
  | .other _ => .ok 0
  | .bin [] => .error .indexOutOfRange
  | .bin (neg :: magnitude) =>
      let v : Int := setBytes magnitude
      .ok (if neg = 255 then -v else v)

/-- The name of the map's one field, "bigint". -/
def bigintField : List UInt8 := [0x62, 0x69, 0x67, 0x69, 0x6e, 0x74]

/-- `BigInt.EncodeMsg` and `MarshalMsg`: a map of one entry, "bigint", holding the bytes of
`bigToBytes`. -/
def encodeMsg (v : Int) : List UInt8 :=
  [0x81, 0xa6] ++ bigintField ++ Msgp.writeIntf (some (bigToBytes v))

/-- How decoding ends without a value: a msgp error is returned, a panic is not. -/
inductive DecodeFailure where
  | read (err : Msgp.ReadError)
  | panicked (reason : Panic)
  deriving DecidableEq, Repr

/-- The loop of `BigInt.DecodeMsg` over the `n` fields of the map: "bigint" is read with
`ReadIntf` and converted by `bigFromBytes`, and any other field skipped. `ReadIntf` reads an
object of a type other than nil and `bin` whole; here it is skipped. -/
def decodeFields : Nat → Int → List UInt8 → Except DecodeFailure (Int × List UInt8)
  | 0, z, buf => .ok (z, buf)
  | n + 1, z, buf => do
      let (field, buf) ← (Msgp.readMapKeyPtr buf).mapError .read
      if field = bigintField then
        let (intf, buf) ← (Msgp.readIntf buf).mapError .read
        let buf ← match intf with
          | .other _ => (Msgp.skip buf).mapError .read
          | _ => pure buf
        let z ← (bigFromBytes intf).mapError .panicked
        decodeFields n z buf
      else
        let buf ← (Msgp.skip buf).mapError .read
        decodeFields n z buf

/-- `(*BigInt).DecodeMsg` on a reader over `buf`, into a value that holds `z`: when the map
has no "bigint" field the value keeps `z`. -/
def decodeMsg (z : Int) (buf : List UInt8) : Except DecodeFailure (Int × List UInt8) := do
  let (size, buf) ← (Msgp.readMapHeader buf).mapError .read
  decodeFields size z buf

-- Equation lemmas of the definitions above, made once here rather than by the proofs below
-- that unfold them in parallel.
section
attribute [local simp] magnitudeBytes setBytes signByte bigToBytes bigFromBytes encodeMsg decodeFields decodeMsg
end

/-! ### The magnitude and the sign read back -/

theorem foldr_toUInt8_ofDigits :
    ∀ digits : List Nat, (∀ d ∈ digits, d < 256) →
      (digits.map Nat.toUInt8).foldr (fun b acc => acc * 256 + b.toNat) 0 = Nat.ofDigits 256 digits
  | [], _ => rfl
  | d :: rest, small => by
      have below : d < 256 := small d (List.mem_cons_self ..)
      have tail := foldr_toUInt8_ofDigits rest fun e mem => small e (List.mem_cons_of_mem d mem)
      have byte : (d.toUInt8).toNat = d := by simp [Nat.toUInt8, Nat.mod_eq_of_lt below]
      rw [List.map_cons, List.foldr_cons, tail, byte, Nat.ofDigits_cons]
      omega

@[simp] theorem setBytes_magnitudeBytes (n : Nat) : setBytes (magnitudeBytes n) = n := by
  rw [setBytes, magnitudeBytes, List.foldl_reverse,
    foldr_toUInt8_ofDigits _ fun d mem => Nat.digits_lt_base (by omega) mem, Nat.ofDigits_digits]

/-- `SetBytes` reads the bytes as the digits of base 256, the last byte first. -/
theorem setBytes_eq_ofDigits (y : List UInt8) : setBytes y = Nat.ofDigits 256 (y.map UInt8.toNat).reverse := by
  -- the fold from any accumulator
  suffices fold : ∀ acc : Nat, y.foldl (fun acc b => acc * 256 + b.toNat) acc =
      acc * 256 ^ y.length + Nat.ofDigits 256 (y.map UInt8.toNat).reverse by
    simpa [setBytes] using fold 0
  induction y with
  | nil => intro acc; simp
  | cons b rest ih =>
      intro acc
      rw [List.foldl_cons, ih, List.map_cons, List.reverse_cons, Nat.ofDigits_append]
      simp only [List.length_cons, List.length_reverse, List.length_map, Nat.ofDigits_singleton]
      ring

/-- A byte string that does not start with a zero byte is the magnitude of the number it
spells. -/
theorem magnitudeBytes_setBytes {y : List UInt8} (lead : y.head? ≠ some 0) : magnitudeBytes (setBytes y) = y := by
  rw [setBytes_eq_ofDigits, magnitudeBytes, Nat.digits_ofDigits 256 (by norm_num)]
  · simp [List.map_reverse, Function.comp_def, Nat.toUInt8_eq]
  · intro d mem
    obtain ⟨b, -, rfl⟩ := List.mem_map.mp (List.mem_reverse.mp mem)
    exact b.toNat_lt
  · intro nonempty
    cases y with
    | nil => simp at nonempty
    | cons b rest =>
        have nonzero : b.toNat ≠ 0 := fun zero => lead (by simp [UInt8.toNat_inj.mp (show b.toNat = (0 : UInt8).toNat from zero)])
        simpa [List.getLast_reverse] using nonzero

/-- Padded on the left with zeros to the length of a byte string, the magnitude of the number
the string spells is the string: what `copy(sig[32-len(r):32], r)` does with `r.Bytes()`. -/
theorem pad_magnitudeBytes_setBytes : ∀ x : List UInt8,
    List.replicate (x.length - (magnitudeBytes (setBytes x)).length) 0 ++ magnitudeBytes (setBytes x) = x
  | [] => by simp [magnitudeBytes, setBytes]
  | b :: rest => by
      by_cases zero : b = 0
      · subst zero
        have tail := pad_magnitudeBytes_setBytes rest
        have skipped : setBytes (0 :: rest) = setBytes rest := by simp [setBytes]
        have fits : (magnitudeBytes (setBytes rest)).length ≤ rest.length := by
          have lengths := congrArg List.length tail
          simp only [List.length_append, List.length_replicate] at lengths
          omega
        rw [skipped, List.length_cons, show rest.length + 1 - (magnitudeBytes (setBytes rest)).length =
          (rest.length - (magnitudeBytes (setBytes rest)).length) + 1 by omega, List.replicate_succ, List.cons_append,
          tail]
      · rw [magnitudeBytes_setBytes (by simpa using zero)]
        simp

theorem bigFromBytes_bigToBytes (v : Int) : bigFromBytes (.bin (bigToBytes v)) = .ok v := by
  rcases Int.lt_trichotomy v 0 with negative | rfl | positive
  · have : ((v.natAbs : Nat) : Int) = -v := by omega
    simp [bigToBytes, signByte, bigFromBytes, negative, this]
  · rfl
  · have notNeg : ¬ v < 0 := by omega
    have nonzero : v ≠ 0 := by omega
    have : ((v.natAbs : Nat) : Int) = v := by omega
    simp [bigToBytes, signByte, bigFromBytes, notNeg, nonzero, this]

/-! ### The codec -/

/-- Decoding what `EncodeMsg` wrote gives back the integer, for every integer whose bytes fit
the 32-bit length of a `bin` object. A "bigint" field holding an empty byte slice, which a peer
can send, makes `bigFromBytes` index the first byte of nothing: a panic. -/
theorem decodeMsg_round_trip_or_panic (v z : Int) (rest : List UInt8) (short : (bigToBytes v).length < 2 ^ 32) :
    decodeMsg z (encodeMsg v ++ rest) = .ok (v, rest) ∧
      decodeMsg z ([0x81, 0xa6] ++ bigintField ++ Msgp.writeIntf (some []) ++ rest) =
        .error (.panicked .indexOutOfRange) := by
  -- the map header and the field name read the same way in front of any value
  have header (body : List UInt8) : Msgp.readMapHeader (0x81 :: body) = .ok (1, body) :=
    Msgp.readHeader_fix _ _ _ _ _ _ (by decide)
  have key (body : List UInt8) : Msgp.readMapKeyPtr (0xa6 :: (bigintField ++ body)) = .ok (bigintField, body) :=
    Msgp.readMapKeyPtr_fixstr 0xa6 bigintField body (by decide) (by decide) (by decide)
  have value := Msgp.readIntf_writeIntf (some (bigToBytes v)) rest (fun b same => by cases same; exact short)
  have empty := Msgp.readIntf_writeIntf (some []) rest (fun b same => by cases same; decide)
  constructor
  · simp [decodeMsg, encodeMsg, header, key, decodeFields, value, Msgp.Intf.ofOption, bigFromBytes_bigToBytes,
      Except.mapError]
  · simp [decodeMsg, header, key, decodeFields, empty, Msgp.Intf.ofOption, bigFromBytes, Except.mapError]

theorem decodeMsg_round_trip_or_panic_minus300 :
    (bigToBytes (-300)).length < 2 ^ 32 ∧ decodeMsg 0 (encodeMsg (-300) ++ []) = .ok (-300, []) ∧
      decodeMsg 0 ([0x81, 0xa6] ++ bigintField ++ Msgp.writeIntf (some []) ++ []) =
        .error (.panicked .indexOutOfRange) :=
  have short : (bigToBytes (-300)).length < 2 ^ 32 := by simp [bigToBytes, magnitudeBytes]
  ⟨short, decodeMsg_round_trip_or_panic (-300) 0 [] short⟩

end Mjoy.Types
