import Mjoy.Types.BigInt

/-!
Signing transactions (`core/transaction/transaction_signing.go`, with `ChainId` and
`WithSignature` of `transaction.go`). `SignTx` signs the hash of the unsigned fields and the
chain id, and `SignatureValues` turns the 65-byte signature `[R || S || V]` into the
transaction's `R`, `S` and `V`: `V` is the recovery id plus 27 for chain id 0 and plus
`35 + 2 * chainId` otherwise. `Sender` checks the chain id that `V` gives, takes
`2 * chainId + 8` off `V`, and `recoverPlain` takes off 27 more before it recovers the key.

secp256k1 is a parameter (`Secp256k1`): `Sign`, `Ecrecover` and the public key of a private
key. So is the hash that `MSigner.Hash` computes from the chain id and the unsigned fields;
both sides of a round trip call it on the same fields.
-/

set_option linter.dupNamespace false

namespace Mjoy.Transaction

open Mjoy.Types

/-- The fields of `txdata` that signing reads: everything but `V`, `R` and `S`. -/
structure TxData where
  accountNonce : UInt64
  recipient : Option (List UInt8)
  amount : Int
  payload : List UInt8

/-- A transaction: its data and its signature values. -/
structure Transaction where
  data : TxData
  v : Int
  r : Int
  s : Int

/-- `tx.Nonce()`. -/
def Transaction.nonce (tx : Transaction) : UInt64 :=
  tx.data.accountNonce

/-- The errors of signing and recovery. -/
inductive SignError where
  /-- An error of `crypto.Sign` or `crypto.Ecrecover`. -/
  | crypto (text : String)
  /-- "wrong size for signature: got %d, want 65". -/
  | wrongSize (got : Nat)
  /-- `ErrInvalidChainId`. -/
  | invalidChainId
  /-- `ErrInvalidSig`. -/
  | invalidSig
  /-- "invalid public key". -/
  | invalidPublicKey
  deriving DecidableEq, Repr

/-- The curve operations the signer calls. -/
structure Secp256k1 (PrivateKey : Type) where
  /-- `crypto.Sign(hash, prv)`: a signature `[R || S || V]`. -/
  sign : List UInt8 → PrivateKey → Except String (List UInt8)
  /-- `crypto.Ecrecover(hash, sig)`: the uncompressed public key. -/
  ecrecover : List UInt8 → List UInt8 → Except String (List UInt8)
  /-- `FromECDSAPub(&prv.PublicKey)`. -/
  publicKey : PrivateKey → List UInt8

/-- `secp256k1_N`, the order of the curve. -/
def secp256k1N : Int := 0xfffffffffffffffffffffffffffffffebaaedce6af48a03bbfd25e8cd0364141

/-- `secp256k1_halfN`. -/
def secp256k1HalfN : Int := secp256k1N / 2

/-- `ValidateSignatureValues(v, r, s, homestead)`. -/
def validateSignatureValues (v : UInt8) (r s : Int) (homestead : Bool) : Bool :=
  if r < 1 ∨ s < 1 then false
  else if homestead ∧ s > secp256k1HalfN then false
  else decide (r < secp256k1N ∧ s < secp256k1N ∧ (v = 0 ∨ v = 1))

/-- `Address.SetBytes(b)` on the zero address: the last 20 bytes, right-aligned. -/
def bytesToAddress (b : List UInt8) : List UInt8 :=
  if b.length > 20 then b.drop (b.length - 20) else List.replicate (20 - b.length) 0 ++ b

/-- `PubkeyToAddress(p)`: the last 20 bytes of the hash of the key without its prefix byte. -/
def pubkeyToAddress (keccak : List UInt8 → List UInt8) (pub : List UInt8) : List UInt8 :=
  bytesToAddress ((keccak (pub.drop 1)).drop 12)

/-- `deriveChainId(v)`. Below 2^64 the arithmetic is on `uint64`: `v.Uint64()` is the absolute
value, and `v - 35` wraps around. -/
def deriveChainId (v : Int) : Int :=
  if v.natAbs < 2 ^ 64 then
    let u := v.natAbs
    if u = 27 ∨ u = 28 then 0 else ((u + 2 ^ 64 - 35) % 2 ^ 64 / 2 : Nat)
  else (v - 35) / 2

/-- `tx.ChainId()`. -/
def Transaction.chainId (tx : Transaction) : Int :=
  deriveChainId tx.v

/-- `MSigner`. -/
structure MSigner where
  chainId : Int
  chainIdMul : Int

/-- `NewMSigner(chainId)`. -/
def newMSigner (chainId : Int) : MSigner :=
  { chainId, chainIdMul := chainId * 2 }

-- Equation lemmas of the definitions above, made once here rather than by the proofs below
-- that unfold them in parallel.
section
attribute [local simp] validateSignatureValues bytesToAddress pubkeyToAddress deriveChainId Transaction.chainId newMSigner
end

section Signer

variable {PrivateKey : Type} (crypto : Secp256k1 PrivateKey) (keccak : List UInt8 → List UInt8)
  (sigHash : Int → TxData → List UInt8)

/-- `s.Hash(tx)`: the hash of the unsigned fields and the chain id. -/
def MSigner.hash (s : MSigner) (tx : Transaction) : List UInt8 :=
  sigHash s.chainId tx.data

/-- `s.SignatureValues(tx, sig)`. The recovery id plus 27, or plus 35 for a chain id other
than 0, is a byte sum that wraps around. -/
def MSigner.signatureValues (s : MSigner) (sig : List UInt8) : Except SignError (Int × Int × Int) :=
  if sig.length ≠ 65 then .error (.wrongSize sig.length)
  else
    let r : Int := setBytes (sig.take 32)
    let s' : Int := setBytes ((sig.drop 32).take 32)
    let recovery := sig.getD 64 0
    let v : Int := (recovery + 27).toNat
    if s.chainId ≠ 0 then .ok (r, s', ((recovery + 35).toNat : Int) + s.chainIdMul)
    else .ok (r, s', v)

/-- `tx.WithSignature(signer, sig)`. -/
def withSignature (tx : Transaction) (s : MSigner) (sig : List UInt8) : Except SignError Transaction := do
  let (r, s', v) ← s.signatureValues sig
  pure { tx with r, s := s', v }

/-- `SignTx(tx, s, prv)`. -/
def signTx (tx : Transaction) (s : MSigner) (prv : PrivateKey) : Except SignError Transaction := do
  let sig ← (crypto.sign (s.hash sigHash tx) prv).mapError .crypto
  withSignature tx s sig

/-- `recoverPlain(sighash, R, S, Vb, homestead)`. `byte(Vb.Uint64() - 27)` is taken on the
absolute value, with `uint64` and then byte wrap-around. -/
def recoverPlain (sighash : List UInt8) (r s vb : Int) (homestead : Bool) : Except SignError (List UInt8) := do
  if vb.natAbs ≥ 256 then .error .invalidSig
  let v : UInt8 := ((vb.natAbs % 2 ^ 64 + 2 ^ 64 - 27) % 2 ^ 64).toUInt8
  if !validateSignatureValues v r s homestead then .error .invalidSig
  -- `copy(sig[32-len(r):32], r)`: the bytes right-aligned in 32
  let rBytes := magnitudeBytes r.natAbs
  let sBytes := magnitudeBytes s.natAbs
  let sig := List.replicate (32 - rBytes.length) 0 ++ rBytes ++ List.replicate (32 - sBytes.length) 0 ++ sBytes ++ [v]
  let pub ← (crypto.ecrecover sighash sig).mapError .crypto
  if pub.head? ≠ some 4 then .error .invalidPublicKey
  -- `copy(addr[:], Keccak256(pub[1:])[12:])`
  pure (((keccak (pub.drop 1)).drop 12 ++ List.replicate 20 0).take 20)

/-- `s.Sender(tx)`. -/
def MSigner.sender (s : MSigner) (tx : Transaction) : Except SignError (List UInt8) :=
  if tx.chainId ≠ s.chainId then .error .invalidChainId
  else recoverPlain crypto keccak (s.hash sigHash tx) tx.r tx.s (tx.v - s.chainIdMul - 8) true

section
attribute [local simp] MSigner.hash MSigner.signatureValues withSignature signTx recoverPlain MSigner.sender
end

/-- What `SignTx` makes of a 65-byte signature: `R` and `S` read from its first two words and
`V` from its last byte. -/
theorem signTx_of_sign {s : MSigner} {tx : Transaction} {prv : PrivateKey} {sig : List UInt8}
    (signed : crypto.sign (s.hash sigHash tx) prv = .ok sig) (length : sig.length = 65) :
    signTx crypto sigHash tx s prv = .ok { tx with
      r := setBytes (sig.take 32), s := setBytes ((sig.drop 32).take 32),
      v := if s.chainId ≠ 0 then ((sig.getD 64 0 + 35).toNat : Int) + s.chainIdMul else ((sig.getD 64 0 + 27).toNat : Int) } := by
  by_cases zero : s.chainId = 0 <;>
    simp [signTx, signed, withSignature, MSigner.signatureValues, length, zero, Except.mapError]

end Signer

/-- A recovery id with a small offset added: the byte sum does not wrap. -/
theorem toNat_recovery_add {recovery : UInt8} (small : recovery ≤ 1) (offset : UInt8) (below : offset.toNat ≤ 35) :
    (recovery + offset).toNat = recovery.toNat + offset.toNat := by
  have : recovery.toNat ≤ 1 := by simpa [UInt8.le_iff_toNat_le] using small
  rw [UInt8.toNat_add]
  omega

/-- For chain id 0, `V` is 27 or 28 and gives back chain id 0. -/
theorem deriveChainId_chain_zero {recovery : Nat} (small : recovery ≤ 1) :
    deriveChainId ((recovery : Int) + 27) = 0 := by
  have abs : ((recovery : Int) + 27).natAbs = recovery + 27 := by omega
  unfold deriveChainId
  rw [abs, if_pos (by omega), if_pos (by omega)]

/-- For a chain id above 0, `V` is the recovery id plus `35 + 2 * chainId`, and gives back the
chain id on both paths of `deriveChainId`. -/
theorem deriveChainId_chain {recovery : Nat} (small : recovery ≤ 1) {chainId : Int} (positive : 0 < chainId) :
    deriveChainId (((recovery + 35 : Nat) : Int) + chainId * 2) = chainId := by
  have abs : ((((recovery + 35 : Nat) : Int) + chainId * 2).natAbs : Int) = ((recovery + 35 : Nat) : Int) + chainId * 2 :=
    Int.natAbs_of_nonneg (by omega)
  unfold deriveChainId
  dsimp only
  split_ifs <;> omega

/-- No byte but 0 and 1 passes as a recovery id. -/
theorem validateSignatureValues_eq_false {v : UInt8} (high : 2 ≤ v.toNat) (r s : Int) (homestead : Bool) :
    validateSignatureValues v r s homestead = false := by
  have notLow : v ≠ 0 ∧ v ≠ 1 := by
    constructor <;> (intro same; subst same; simp at high)
  unfold validateSignatureValues
  split_ifs <;> simp [notLow]

section Signer

variable {PrivateKey : Type} (crypto : Secp256k1 PrivateKey) (keccak : List UInt8 → List UInt8)
  (sigHash : Int → TxData → List UInt8)

/-- A `V` whose byte, once 27 is taken off, is neither 0 nor 1 is rejected before any key is
recovered. -/
theorem recoverPlain_rejects {vb : Int} (small : vb.natAbs < 256)
    (high : 2 ≤ ((vb.natAbs % 2 ^ 64 + 2 ^ 64 - 27) % 2 ^ 64).toUInt8.toNat) (sighash : List UInt8) (r s : Int)
    (homestead : Bool) :
    recoverPlain crypto keccak sighash r s vb homestead = .error .invalidSig := by
  have notLarge : ¬ vb.natAbs ≥ 256 := by omega
  have rejected := validateSignatureValues_eq_false high r s homestead
  simp only [recoverPlain, notLarge, rejected]
  rfl

/-- What the claim assumes of secp256k1: `Sign` gives 65 bytes `[R || S || V]` with a recovery
id `V` of 0 or 1 and `R` and `S` in the ranges `ValidateSignatureValues` accepts, and
`Ecrecover` gives back the uncompressed public key of the key that signed. -/
structure Secp256k1.Recovers (curve : Secp256k1 PrivateKey) : Prop where
  sign : ∀ h prv, ∃ sig, curve.sign h prv = .ok sig ∧ sig.length = 65 ∧ sig.getD 64 0 ≤ 1 ∧
    validateSignatureValues (sig.getD 64 0) (setBytes (sig.take 32)) (setBytes ((sig.drop 32).take 32)) true = true ∧
    curve.ecrecover h sig = .ok (curve.publicKey prv)
  uncompressed : ∀ prv, (curve.publicKey prv).head? = some 4

/-- A 65-byte signature is its two words and its last byte. -/
theorem signature_split {sig : List UInt8} (length : sig.length = 65) :
    sig.take 32 ++ ((sig.drop 32).take 32 ++ [sig.getD 64 0]) = sig := by
  have last : (sig.drop 32).drop 32 = [sig.getD 64 0] := by
    rw [List.drop_drop]
    apply List.ext_getElem (by simp [length])
    intro i lt _
    have zero : i = 0 := by simp [length] at lt; omega
    subst zero
    simp [List.getD_eq_getElem?_getD, length]
  calc sig.take 32 ++ ((sig.drop 32).take 32 ++ [sig.getD 64 0])
      = sig.take 32 ++ ((sig.drop 32).take 32 ++ (sig.drop 32).drop 32) := by rw [last]
    _ = sig := by rw [List.take_append_drop, List.take_append_drop]

/-- With a hash of 32 bytes, the address `recoverPlain` copies out is `PubkeyToAddress`'s. -/
theorem copiedAddress_eq {keccak : List UInt8 → List UInt8} (wide : ∀ b, (keccak b).length = 32) (pub : List UInt8) :
    ((keccak (pub.drop 1)).drop 12 ++ List.replicate 20 0).take 20 = pubkeyToAddress keccak pub := by
  have twenty : ((keccak (pub.drop 1)).drop 12).length = 20 := by simp [wide]
  rw [pubkeyToAddress, bytesToAddress, List.take_append_of_le_length (by omega), List.take_of_length_le (by omega),
    if_neg (by omega), twenty]
  simp

/-- For every chain id above 0, `Sender` gives back the address of the key that signed: `V` is
the recovery id plus `35 + 2 * chainId`, the chain id it gives back is the signer's, and the
signature `recoverPlain` rebuilds from `R`, `S` and `V` is the one `Sign` made. -/
theorem sender_signTx (recovers : crypto.Recovers) (wide : ∀ b, (keccak b).length = 32) {chainId : Int}
    (positive : 0 < chainId) (tx : Transaction) (prv : PrivateKey) :
    ∃ signed, signTx crypto sigHash tx (newMSigner chainId) prv = .ok signed ∧ signed.chainId = chainId ∧
      (newMSigner chainId).sender crypto keccak sigHash signed = .ok (pubkeyToAddress keccak (crypto.publicKey prv)) := by
  obtain ⟨sig, signed, length, small, valid, recovered⟩ := recovers.sign ((newMSigner chainId).hash sigHash tx) prv
  have made := signTx_of_sign crypto sigHash signed length
  have split := signature_split length
  have nonzero : (newMSigner chainId).chainId ≠ 0 := by simp [newMSigner]; omega
  simp only [nonzero, ne_eq, not_false_eq_true, if_true] at made
  generalize sig.getD 64 0 = recovery at small made valid split
  rw [toNat_recovery_add small 35 (by decide)] at made
  have recoveryNat : recovery.toNat ≤ 1 := by simpa [UInt8.le_iff_toNat_le] using small
  have chain := deriveChainId_chain recoveryNat positive
  refine ⟨_, made, by simpa [Transaction.chainId, newMSigner] using chain, ?_⟩
  -- `V` minus `2 * chainId + 8` is the recovery id plus 27, and its byte less 27 the recovery id
  have vb : ((recovery.toNat + (35 : UInt8).toNat : Nat) : Int) + (newMSigner chainId).chainIdMul -
      (newMSigner chainId).chainIdMul - 8 = ((recovery.toNat + 27 : Nat) : Int) := by
    simp only [UInt8.reduceToNat]
    omega
  have byte : (((recovery.toNat + 27) % 2 ^ 64 + 2 ^ 64 - 27) % 2 ^ 64).toUInt8 = recovery := by
    rw [show ((recovery.toNat + 27) % 2 ^ 64 + 2 ^ 64 - 27) % 2 ^ 64 = recovery.toNat by omega]
    simp [Nat.toUInt8_eq]
  -- the words `recoverPlain` pads back to 32 bytes are the signature's
  have rWord := pad_magnitudeBytes_setBytes (sig.take 32)
  have sWord := pad_magnitudeBytes_setBytes ((sig.drop 32).take 32)
  rw [List.length_take, length, show min 32 65 = 32 from rfl] at rWord
  rw [List.length_take, List.length_drop, length, show min 32 (65 - 32) = 32 from rfl] at sWord
  have rebuilt : List.replicate (32 - (magnitudeBytes (setBytes (sig.take 32))).length) 0 ++
      magnitudeBytes (setBytes (sig.take 32)) ++
      List.replicate (32 - (magnitudeBytes (setBytes ((sig.drop 32).take 32))).length) 0 ++
      magnitudeBytes (setBytes ((sig.drop 32).take 32)) ++ [recovery] = sig := by
    rw [rWord, List.append_assoc (sig.take 32), sWord, List.append_assoc, split]
  have notLarge : ¬ recovery.toNat + 27 ≥ 256 := by omega
  have sameHash : (newMSigner chainId).hash sigHash { tx with
      v := ((recovery.toNat + (35 : UInt8).toNat : Nat) : Int) + (newMSigner chainId).chainIdMul,
      r := setBytes (sig.take 32), s := setBytes ((sig.drop 32).take 32) } =
      (newMSigner chainId).hash sigHash tx := rfl
  rw [MSigner.sender, if_neg (by simpa [Transaction.chainId, newMSigner] using chain), vb, recoverPlain]
  simp only [Int.natAbs_natCast, notLarge, if_false, byte, valid, Bool.not_true, rebuilt, sameHash, recovered]
  rw [← copiedAddress_eq wide]
  simp [Except.mapError, recovers.uncompressed prv]

/-- For chain id 0, `SignatureValues` adds 27 to the recovery id and the chain id `V` gives back
is 0; but `Sender` still takes `2 * 0 + 8` off `V` before `recoverPlain` takes off 27, so the
recovery id it validates is the byte 248 or 249. Every transaction signed for chain id 0 is
rejected with `ErrInvalidSig`, whatever its key and content. -/
theorem sender_rejects_chain_zero
    (signs : ∀ h prv, ∃ sig, crypto.sign h prv = .ok sig ∧ sig.length = 65 ∧ sig.getD 64 0 ≤ 1)
    (tx : Transaction) (prv : PrivateKey) :
    ∃ signed, signTx crypto sigHash tx (newMSigner 0) prv = .ok signed ∧ signed.chainId = 0 ∧
      (newMSigner 0).sender crypto keccak sigHash signed = .error .invalidSig := by
  obtain ⟨sig, signed, length, small⟩ := signs ((newMSigner 0).hash sigHash tx) prv
  have made := signTx_of_sign crypto sigHash signed length
  simp only [newMSigner, Int.zero_mul, ne_eq, not_true_eq_false, if_false] at made
  generalize sig.getD 64 0 = recovery at small made
  rw [toNat_recovery_add small 27 (by decide)] at made
  have recovered : recovery.toNat ≤ 1 := by simpa [UInt8.le_iff_toNat_le] using small
  have chain := deriveChainId_chain_zero recovered
  refine ⟨_, made, chain, ?_⟩
  -- `V` is 27 or 28; 8 and then 27 come off it
  rw [MSigner.sender, if_neg (by simpa [Transaction.chainId, newMSigner] using chain)]
  apply recoverPlain_rejects crypto keccak
  · simp only [newMSigner, UInt8.reduceToNat]
    omega
  · simp only [newMSigner, UInt8.reduceToNat, Nat.toUInt8_eq, UInt8.toNat_ofNat']
    omega

end Signer

/-- A curve of one key, whose signatures are 65 zero bytes: recovery id 0. -/
def oneKeyCurve : Secp256k1 Unit :=
  { sign := fun _ _ => .ok (List.replicate 65 0), ecrecover := fun _ _ => .ok [4], publicKey := fun _ => [4] }

/-- A transfer of 1 with nonce 0 and no recipient, not yet signed. -/
def unsignedTx : Transaction :=
  { data := { accountNonce := 0, recipient := none, amount := 1, payload := [] }, v := 0, r := 0, s := 0 }

theorem sender_rejects_chain_zero_one_key :
    (∀ h prv, ∃ sig, oneKeyCurve.sign h prv = .ok sig ∧ sig.length = 65 ∧ sig.getD 64 0 ≤ 1) ∧
      ∃ signed, signTx oneKeyCurve (fun _ _ => []) unsignedTx (newMSigner 0) () = .ok signed ∧
        signed.chainId = 0 ∧ (newMSigner 0).sender oneKeyCurve id (fun _ _ => []) signed = .error .invalidSig :=
  have signs : ∀ h prv, ∃ sig, oneKeyCurve.sign h prv = .ok sig ∧ sig.length = 65 ∧ sig.getD 64 0 ≤ 1 :=
    fun _ _ => ⟨_, rfl, rfl, by decide⟩
  ⟨signs, sender_rejects_chain_zero oneKeyCurve id (fun _ _ => []) signs unsignedTx ()⟩

end Mjoy.Transaction
