import Mjoy.Lib.Hex
import Mjoy.Lib.Loop
import Mjoy.Lib.Table
import Mjoy.Transaction.Signing

/-!
Decrypting a key file of the passphrase key store
(`accounts/keystore/keystore_passphrase.go`, `presale.go`, `utils/crypto/crypto.go`).
`DecryptKey` reads the file as version 1 or 3, derives a key from the passphrase with the
parameters the file gives, checks the MAC and decrypts the private scalar.

The file is taken after `json.Unmarshal`. Its `kdfparams` are a `map[string]interface{}`, read by
unchecked type assertions (`KDFParams["salt"].(string)`, and `ensureInt`'s `x.(float64)`), so a
file without them makes the decryption panic (`decryptKey_panics_without_salt`). Go slices are
modelled with their capacity, which is what a slice expression is checked against: the key
derivations return a slice whose capacity is a whole number of 32-byte blocks.

The key derivations, Keccak-256, the AES modes, the curve and the UUID parser are parameters
(`Primitives`).
-/

namespace Mjoy.Keystore

/-- A value of an `interface{}` that `json.Unmarshal` fills. A JSON number is a `float64`; it
is kept as the integer `int(x)` makes of it, the only use the code has for it. -/
inductive JsonValue where
  | null
  | bool (b : Bool)
  | number (n : Int)
  | string (s : String)
  | array (items : List JsonValue)
  | object (fields : List (String × JsonValue))

/-- The panics of the decryption. -/
inductive Panic where
  /-- A type assertion `x.(string)` or `x.(float64)` on a value of another type, or on nil. -/
  | typeAssertion
  /-- A slice expression beyond the capacity of its operand. -/
  | sliceBounds
  /-- `cipher.NewCTR` or `cipher.NewCBCDecrypter` with an IV that is not one block long. -/
  | ivLength
  /-- `CryptBlocks` on a text that is not made of whole blocks. -/
  | partialBlocks
  /-- `key.PublicKey` of the nil key `ToECDSAUnsafe` returns for an invalid scalar. -/
  | nilDereference
  deriving DecidableEq

/-- The errors of `DecryptKey`, and its panics. -/
inductive KeyError where
  /-- "Version not supported: %v" -/
  | versionNotSupported (version : Int)
  /-- "Cipher not supported: %v" -/
  | cipherNotSupported (cipher : String)
  /-- An error of `hex.DecodeString`. -/
  | hex (e : Hex.Error)
  /-- An error of `scrypt.Key`. -/
  | kdf (e : String)
  /-- "Unsupported PBKDF2 PRF: %s" -/
  | unsupportedPRF (prf : String)
  /-- "Unsupported KDF: %s" -/
  | unsupportedKDF (kdf : String)
  /-- `aes.KeySizeError` of `aes.NewCipher`. -/
  | invalidKeySize (size : Nat)
  /-- `ErrDecrypt`, "could not decrypt key with given passphrase". -/
  | decrypt
  | panicked (p : Panic)
  deriving DecidableEq

/-- A byte slice: the backing array from the slice's first element, and the slice's length. -/
structure GoSlice where
  array : List UInt8
  len : Nat
  len_le : len ≤ array.length

namespace GoSlice

/-- The bytes of the slice. -/
def bytes (s : GoSlice) : List UInt8 :=
  s.array.take s.len

/-- A slice of exactly these bytes, with no room behind them. -/
def ofList (b : List UInt8) : GoSlice :=
  ⟨b, b.length, le_refl _⟩

/-- `s[lo:hi]`: the bounds are checked against the capacity, not the length. -/
def slice (s : GoSlice) (lo hi : Nat) : Except Panic GoSlice :=
  if h : lo ≤ hi ∧ hi ≤ s.array.length then .ok ⟨s.array.drop lo, hi - lo, by simp only [List.length_drop]; omega⟩
  else .error .sliceBounds

-- Equation lemmas of the definitions above, made once here rather than by the proofs below
-- that unfold them in parallel.
section
attribute [local simp] bytes
end

end GoSlice

/-- The primitives the decryption calls. -/
structure Primitives where
  /-- `scrypt.Key(password, salt, N, r, p, keyLen)`. -/
  scrypt : List UInt8 → List UInt8 → Int → Int → Int → Int → Except String GoSlice
  /-- `pbkdf2.Key(password, salt, iter, keyLen, sha256.New)`. -/
  pbkdf2 : List UInt8 → List UInt8 → Int → Int → GoSlice
  /-- `crypto.Keccak256`. -/
  keccak : List UInt8 → List UInt8
  /-- The AES-CTR key stream of a key and an IV: the byte the `i`-th byte is XORed with. -/
  keyStream : List UInt8 → List UInt8 → Nat → UInt8
  /-- AES-CBC decryption of whole blocks, with a key and an IV. -/
  cbcDecrypt : List UInt8 → List UInt8 → List UInt8 → List UInt8
  /-- The uncompressed public key of a scalar, `FromECDSAPub(&priv.PublicKey)`. -/
  publicKey : Nat → List UInt8
  /-- `uuid.Parse(s)`, empty for a malformed one. -/
  uuidParse : String → List UInt8

structure CipherparamsJSON where
  iv : String

structure CryptoJSON where
  cipher : String
  cipherText : String
  cipherParams : CipherparamsJSON
  kdf : String
  kdfParams : Table String JsonValue
  mac : String

structure EncryptedKeyJSONV3 where
  address : String
  crypto : CryptoJSON
  id : String
  version : Int

structure EncryptedKeyJSONV1 where
  address : String
  crypto : CryptoJSON
  id : String
  version : String

/-- A key file after `json.Unmarshal`: `DecryptKey` reads it as version 1 when its `version` is
the string "1", and as version 3 otherwise. -/
inductive KeyFile where
  | v1 (k : EncryptedKeyJSONV1)
  | v3 (k : EncryptedKeyJSONV3)

/-- `Key`: the id, the address and the private scalar `D`. -/
structure Key where
  id : List UInt8
  address : List UInt8
  d : Nat

/-- `version`, the version of the files this key store writes. -/
def version : Int := 3

def keyHeaderKDF : String := "scrypt"

/-- A panic as the decryption's outcome. -/
def panicking {α : Type} (x : Except Panic α) : Except KeyError α :=
  x.mapError .panicked

/-- `hex.DecodeString(s)`. -/
def decodeHex (s : String) : Except KeyError (List UInt8) :=
  (Hex.decodeString s).mapError .hex

/-- `x.(string)` of a map entry, nil when the key is missing. -/
def assertString : Option JsonValue → Except Panic String
  | some (.string s) => .ok s
  | _ => .error .typeAssertion

/-- `ensureInt(x)`: `x.(int)` fails for every value `json.Unmarshal` makes, and `x.(float64)` is
not checked. -/
def ensureInt : Option JsonValue → Except Panic Int
  | some (.number n) => .ok n
  | _ => .error .typeAssertion

/-- `getKDFKey(cryptoJSON, auth)`. -/
def getKDFKey (prims : Primitives) (cryptoJSON : CryptoJSON) (auth : String) : Except KeyError GoSlice := do
  let authArray := auth.toUTF8.toList
  let saltHex ← panicking (assertString (cryptoJSON.kdfParams.get "salt"))
  let salt ← decodeHex saltHex
  let dkLen ← panicking (ensureInt (cryptoJSON.kdfParams.get "dklen"))
  if cryptoJSON.kdf = keyHeaderKDF then
    let n ← panicking (ensureInt (cryptoJSON.kdfParams.get "n"))
    let r ← panicking (ensureInt (cryptoJSON.kdfParams.get "r"))
    let p ← panicking (ensureInt (cryptoJSON.kdfParams.get "p"))
    (prims.scrypt authArray salt n r p dkLen).mapError .kdf
  else if cryptoJSON.kdf = "pbkdf2" then
    let c ← panicking (ensureInt (cryptoJSON.kdfParams.get "c"))
    let prf ← panicking (assertString (cryptoJSON.kdfParams.get "prf"))
    if prf ≠ "hmac-sha256" then throw (.unsupportedPRF prf)
    pure (prims.pbkdf2 authArray salt c dkLen)
  else throw (.unsupportedKDF cryptoJSON.kdf)

/-- `aes.NewCipher(key)` takes keys of 16, 24 or 32 bytes. -/
def checkKeySize (key : List UInt8) : Except KeyError Unit :=
  if key.length = 16 ∨ key.length = 24 ∨ key.length = 32 then .ok () else .error (.invalidKeySize key.length)

/-- `aesCTRXOR(key, inText, iv)`: the text XORed with the key stream. -/
def aesCTRXOR (prims : Primitives) (key inText iv : List UInt8) : Except KeyError (List UInt8) := do
  checkKeySize key
  if iv.length ≠ 16 then throw (.panicked .ivLength)
  pure (inText.zipIdx.map fun (b, i) => b ^^^ prims.keyStream key iv i)

/-- `pkcs7Unpad(in)`, none where the source returns nil. -/
def pkcs7Unpad (input : List UInt8) : Option (List UInt8) :=
  match input.getLast? with
  | none => none
  | some padding =>
      if padding.toNat > input.length ∨ padding > 16 then none
      else if padding = 0 then none
      else if (input.drop (input.length - padding.toNat)).all (· = padding) then
        some (input.take (input.length - padding.toNat))
      else none

/-- `aesCBCDecrypt(key, cipherText, iv)`. -/
def aesCBCDecrypt (prims : Primitives) (key cipherText iv : List UInt8) : Except KeyError (List UInt8) := do
  checkKeySize key
  if iv.length ≠ 16 then throw (.panicked .ivLength)
  if cipherText.length % 16 ≠ 0 then throw (.panicked .partialBlocks)
  match pkcs7Unpad (prims.cbcDecrypt key iv cipherText) with
  | some plaintext => pure plaintext
  | none => throw .decrypt

/-- `decryptKeyV3(keyProtected, auth)`: the plain key bytes and the id. -/
def decryptKeyV3 (prims : Primitives) (keyProtected : EncryptedKeyJSONV3) (auth : String) :
    Except KeyError (List UInt8 × List UInt8) := do
  if keyProtected.version ≠ version then throw (.versionNotSupported keyProtected.version)
  if keyProtected.crypto.cipher ≠ "aes-128-ctr" then throw (.cipherNotSupported keyProtected.crypto.cipher)
  let keyId := prims.uuidParse keyProtected.id
  let mac ← decodeHex keyProtected.crypto.mac
  let iv ← decodeHex keyProtected.crypto.cipherParams.iv
  let cipherText ← decodeHex keyProtected.crypto.cipherText
  let derivedKey ← getKDFKey prims keyProtected.crypto auth
  let macKey ← panicking (derivedKey.slice 16 32)
  let calculatedMAC := prims.keccak (macKey.bytes ++ cipherText)
  if calculatedMAC ≠ mac then throw .decrypt
  let encryptKey ← panicking (derivedKey.slice 0 16)
  let plainText ← aesCTRXOR prims encryptKey.bytes cipherText iv
  pure (plainText, keyId)

/-- `decryptKeyV1(keyProtected, auth)`. -/
def decryptKeyV1 (prims : Primitives) (keyProtected : EncryptedKeyJSONV1) (auth : String) :
    Except KeyError (List UInt8 × List UInt8) := do
  let keyId := prims.uuidParse keyProtected.id
  let mac ← decodeHex keyProtected.crypto.mac
  let iv ← decodeHex keyProtected.crypto.cipherParams.iv
  let cipherText ← decodeHex keyProtected.crypto.cipherText
  let derivedKey ← getKDFKey prims keyProtected.crypto auth
  let macKey ← panicking (derivedKey.slice 16 32)
  let calculatedMAC := prims.keccak (macKey.bytes ++ cipherText)
  if calculatedMAC ≠ mac then throw .decrypt
  let encryptKey ← panicking (derivedKey.slice 0 16)
  let cbcKey ← panicking ((GoSlice.ofList (prims.keccak encryptKey.bytes)).slice 0 16)
  let plainText ← aesCBCDecrypt prims cbcKey.bytes cipherText iv
  pure (plainText, keyId)

/-- `ToECDSAUnsafe(d)`: the scalar of the bytes, none (nil) when it is not below N or is zero. -/
def toECDSAUnsafe (d : List UInt8) : Option Nat :=
  let D := Types.setBytes d
  if (D : Int) ≥ Transaction.secp256k1N then none
  else if D = 0 then none
  else some D

/-- `DecryptKey(keyjson, auth)`. -/
def decryptKey (prims : Primitives) (keyjson : KeyFile) (auth : String) : Except KeyError Key := do
  let (keyBytes, keyId) ← match keyjson with
    | .v1 k => decryptKeyV1 prims k auth
    | .v3 k => decryptKeyV3 prims k auth
  match toECDSAUnsafe keyBytes with
  | none => throw (.panicked .nilDereference)
  | some d =>
      pure { id := keyId, address := Transaction.pubkeyToAddress prims.keccak (prims.publicKey d), d := d }

section
attribute [local simp] panicking decodeHex getKDFKey decryptKeyV3 decryptKey
end

/-! ### A file whose `kdfparams` hold no salt -/

theorem assertString_of_not_string {x : Option JsonValue} (notString : ∀ s, x ≠ some (.string s)) :
    assertString x = .error .typeAssertion := by
  cases x with
  | none => rfl
  | some v =>
      cases v
      case string s => exact absurd rfl (notString s)
      all_goals rfl

/-- The salt is read first, by a type assertion nothing checks. -/
theorem getKDFKey_panics_without_salt (prims : Primitives) {cryptoJSON : CryptoJSON} (auth : String)
    (noSalt : ∀ s, cryptoJSON.kdfParams.get "salt" ≠ some (.string s)) :
    getKDFKey prims cryptoJSON auth = .error (.panicked .typeAssertion) := by
  simp only [getKDFKey, assertString_of_not_string noSalt, panicking, Except.mapError, Loop.error_bind]

/-- A version 3 file whose `kdfparams` hold no string `salt`, and whose version, cipher and hex
fields pass the checks before it, makes `DecryptKey` panic for every passphrase. -/
theorem decryptKey_panics_without_salt (prims : Primitives) (k : EncryptedKeyJSONV3) (auth : String)
    (v3 : k.version = version) (aes : k.crypto.cipher = "aes-128-ctr")
    (hexOk : ∀ field ∈ [k.crypto.mac, k.crypto.cipherParams.iv, k.crypto.cipherText],
      ∃ b, Hex.decodeString field = .ok b)
    (noSalt : ∀ s, k.crypto.kdfParams.get "salt" ≠ some (.string s)) :
    decryptKey prims (.v3 k) auth = .error (.panicked .typeAssertion) := by
  obtain ⟨mac, macOk⟩ := hexOk k.crypto.mac (by simp)
  obtain ⟨iv, ivOk⟩ := hexOk k.crypto.cipherParams.iv (by simp)
  obtain ⟨cipherText, textOk⟩ := hexOk k.crypto.cipherText (by simp)
  have derived := getKDFKey_panics_without_salt prims auth noSalt
  simp [decryptKey, decryptKeyV3, v3, aes, decodeHex, macOk, ivOk, textOk, derived, Except.mapError]

/-- A version 3 file as `EncryptKey` writes it, one byte of cipher text, with the `salt` entry of
its `kdfparams` left out. -/
def saltlessKeyFile : EncryptedKeyJSONV3 :=
  { address := "", id := "", version := 3,
    crypto := { cipher := "aes-128-ctr", cipherText := "00", cipherParams := { iv := "00" }, kdf := "scrypt",
                kdfParams := [("n", .number 262144), ("r", .number 8), ("p", .number 1), ("dklen", .number 32)],
                mac := "00" } }

/-- Primitives for a run that panics before it calls any. -/
def idlePrimitives : Primitives :=
  { scrypt := fun _ _ _ _ _ _ => .error "", pbkdf2 := fun _ _ _ _ => GoSlice.ofList [],
    keccak := fun _ => [], keyStream := fun _ _ _ => 0, cbcDecrypt := fun _ _ text => text,
    publicKey := fun _ => [], uuidParse := fun _ => [] }

section
attribute [local simp] saltlessKeyFile
end

theorem decryptKey_panics_without_salt_scrypt :
    decryptKey idlePrimitives (.v3 saltlessKeyFile) "" = .error (.panicked .typeAssertion) := by
  have absent : saltlessKeyFile.crypto.kdfParams.get "salt" = none := rfl
  refine decryptKey_panics_without_salt idlePrimitives saltlessKeyFile "" rfl rfl ?_ (by simp [absent])
  intro field mem
  simp only [saltlessKeyFile, List.mem_cons, List.not_mem_nil, or_false] at mem
  rcases mem with rfl | rfl | rfl <;> exact ⟨[0], rfl⟩

end Mjoy.Keystore
