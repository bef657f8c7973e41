import Mathlib.Data.List.Basic

/-!
Hexadecimal strings as Go's `encoding/hex` writes and reads them: `EncodeToString` writes two
lower-case digits per byte, high half first; `DecodeString` reads two digits of either case per
byte and fails on any other character or on an odd number of them. What `EncodeToString` writes
reads back as the bytes it was written from.
-/

namespace Hex

/-- The digit of a half byte, `hextable[n]`. -/
def toHexChar (n : Nat) : Char :=
  if n < 10 then Char.ofNat (48 + n) else Char.ofNat (87 + n)

/-- `fromHexChar(c)`: the value of a digit of either case. -/
def fromHexChar (c : Char) : Option Nat :=
  if '0' ≤ c ∧ c ≤ '9' then some (c.toNat - 48)
  else if 'a' ≤ c ∧ c ≤ 'f' then some (c.toNat - 87)
  else if 'A' ≤ c ∧ c ≤ 'F' then some (c.toNat - 55)
  else none

/-- The errors of `Decode`: `InvalidByteError` with the character, and `ErrLength`. -/
inductive Error where
  | invalidByte (c : Char)
  | length
  deriving DecidableEq

/-- `Decode` over the characters, two at a time. A last lone digit is checked before the
length is reported. -/
def decode : List Char → Except Error (List UInt8)
  | [] => .ok []
  | [c] => if (fromHexChar c).isSome then .error .length else .error (.invalidByte c)
  | a :: b :: rest =>
      match fromHexChar a, fromHexChar b with
      | some high, some low => (fun bytes => (high * 16 + low).toUInt8 :: bytes) <$> decode rest
      | none, _ => .error (.invalidByte a)
      | some _, none => .error (.invalidByte b)

/-- `DecodeString(s)`. -/
def decodeString (s : String) : Except Error (List UInt8) :=
  decode s.toList

/-- The two digits one byte is written as, high half first. -/
def hexPair (b : UInt8) : List Char :=
  [toHexChar (b.toNat / 16), toHexChar (b.toNat % 16)]

/-- `EncodeToString(b)`. -/
def encodeToString (b : List UInt8) : String :=
  String.ofList (b.flatMap hexPair)

-- Equation lemmas of the definitions above, made once here rather than by the proofs below
-- that unfold them in parallel.
section
attribute [local simp] decode decodeString hexPair encodeToString
end

/-- Each of the sixteen digits reads back as its value. -/
theorem fromHexChar_toHexChar {n : Nat} (small : n < 16) : fromHexChar (toHexChar n) = some n := by
  rcases n with _ | _ | _ | _ | _ | _ | _ | _ | _ | _ | _ | _ | _ | _ | _ | _ | n
  all_goals first | rfl | omega

/-- Reading the digits of a byte string gives that byte string back. -/
theorem decode_flatMap_hexPair (bytes : List UInt8) : decode (bytes.flatMap hexPair) = .ok bytes := by
  induction bytes with
  | nil => rfl
  | cons b rest ih =>
      have bound := b.toNat_lt
      have high := fromHexChar_toHexChar (show b.toNat / 16 < 16 by omega)
      have low := fromHexChar_toHexChar (show b.toNat % 16 < 16 by omega)
      -- the two halves make the byte again
      have halves : (b.toNat / 16 * 16 + b.toNat % 16).toUInt8 = b := by
        rw [show b.toNat / 16 * 16 + b.toNat % 16 = b.toNat by omega, Nat.toUInt8_eq, UInt8.ofNat_toNat]
      simp [decode, hexPair, high, low, halves, ih]

theorem decodeString_encodeToString (bytes : List UInt8) :
    decodeString (encodeToString bytes) = .ok bytes := by
  rw [decodeString, encodeToString, String.toList_ofList, decode_flatMap_hexPair]

end Hex
