import Mjoy.Trie.Codec

/-!
Merkle proofs (`trie/proof.go`). `Prove` walks the trie along a key, collecting the nodes it
passes, and writes to the proof database each of them that is stored on its own (its
collapsed encoding is at least a hash long) and the root, under its hash. `VerifyProof`
starts from a root hash and follows the key through the nodes it finds there.

For the empty trie `Prove` collects no node and writes nothing, while the root hash it is
checked against is `emptyRoot`: `VerifyProof` reports the root node missing.
-/

set_option linter.dupNamespace false

namespace Mjoy.Trie

open KeyValue

section Hasher

variable (keccak : List UInt8 → List UInt8) (cachegen cachelimit : UInt16)

/-- `hashChildren(original, db)`: the collapsed node, with short keys in compact form and
children hashed or embedded, and the copy with the children's hashes cached. `hash` runs the
same steps before `store`. -/
def hashChildren (n : Node) (db : Option Writes) : Except Failure (Node × Node × Option Writes) :=
  match n with
  | .shortNode key val flags => do
      let (collapsedVal, cachedVal, written) ← match val with
        | .valueNode _ => pure (val, val, db)
        | _ => hash keccak cachegen cachelimit val db false
      let collapsedVal := if collapsedVal.isNil then .valueNode [] else collapsedVal
      pure (.shortNode (hexToCompact key) collapsedVal flags, .shortNode key cachedVal flags, written)
  | .fullNode children flags => do
      let (collapsed, cached, written) ← (List.finRange 16).foldlM
        (hashChildStep (fun i written => hash keccak cachegen cachelimit (children i) written false) children)
        (children, children, db)
      let collapsed :=
        if (children 16).isNil then Function.update collapsed 16 (.valueNode []) else collapsed
      pure (.fullNode collapsed flags, .fullNode cached flags, written)
  | n => pure (n, n, db)

-- Equation lemmas of the definitions above, made once here rather than by the proofs below
-- that unfold them in parallel.
section
attribute [local simp] hashChildren
end

/-- A branch without a cached hash is hashed as `hashChildren` and then `store`. -/
theorem hash_eq_hashChildren {n : Node} (branch : n.isBranch = true) {db : Option Writes}
    (uncached : hashCached cachegen cachelimit n db = none) (force : Bool) :
    hash keccak cachegen cachelimit n db force =
      (hashChildren keccak cachegen cachelimit n db).map fun r => hashFinish keccak r.1 r.2.1 r.2.2 force := by
  cases n with
  | shortNode key val flags =>
      simp only [hash, uncached, hashChildren]
      cases val <;> simp [Except.map, bind, Except.bind] <;> split <;> rfl
  | fullNode children flags =>
      simp only [hash, uncached, hashChildren]
      simp only [bind, Except.bind, Except.map]
      split <;> rfl
  | _ => simp [Node.isBranch] at branch

end Hasher

section Prove

variable (keccak : List UInt8 → List UInt8) (decodeMsg : List UInt8 → Except String Node) (db : Database)

/-- The first loop of `Prove`: the nodes on the path of `key`, a hash node resolved in place
and not collected. A short node that does not match ends the walk, after it is collected. -/
def proveWalk : Nat → Node → List UInt8 → List Node → Except Failure (List Node)
  | 0, _, _, _ => .error .outOfFuel
  | fuel + 1, tn, key, nodes =>
      if key = [] ∨ tn.isNil then .ok nodes
      else
        match tn with
        | .shortNode k val _ =>
            if key.length < k.length ∨ k ≠ key.take k.length then .ok (nodes ++ [tn])
            else proveWalk fuel val (key.drop k.length) (nodes ++ [tn])
        | .fullNode children _ => do
            let i ← childIndex key.head?
            proveWalk fuel (children i) key.tail (nodes ++ [tn])
        | .hashNode h => do
            let tn ← resolveHash decodeMsg db 0 h []
            proveWalk fuel tn key nodes
        | _ => .error (.panicked .invalidNode)

/-- One turn of the second loop of `Prove`: a node whose collapsed form is stored on its own,
or the root, is written under its hash once `fromLevel` nodes have been skipped. -/
def proveStep (acc : Nat × Writes) (entry : Node × Nat) : Except Failure (Nat × Writes) := do
  let (fromLevel, writes) := acc
  let (n, i) := entry
  let (collapsed, _, _) ← hashChildren keccak 0 0 n none
  let (hn, _) := store keccak collapsed none false
  let stored := match hn with
    | .hashNode h => some h
    | _ => none
  if stored.isSome ∨ i = 0 then
    if fromLevel > 0 then pure (fromLevel - 1, writes)
    else
      let enc := encodeNode collapsed
      pure (fromLevel, writes ++ [(stored.getD (keccak enc), enc)])
  else pure (fromLevel, writes)

/-- `Prove(key, fromLevel, proofDb)`: the writes made to the proof database. -/
def Trie.prove (t : Trie) (key : List UInt8) (fromLevel : Nat) : Except Failure Writes := do
  let key := keybytesToHex key
  let nodes ← proveWalk decodeMsg db (2 * key.length + 2) t.root key []
  let (_, writes) ← nodes.zipIdx.foldlM (proveStep keccak) (fromLevel, [])
  pure writes

section
attribute [local simp] proveWalk Trie.prove
end

end Prove

/-- `get(tn, key)` of `proof.go`: follow `key` inside one decoded node, to the hash node,
value or nil where it leaves it, with the rest of the key. -/
def proofGet : Node → List UInt8 → Except Failure (List UInt8 × Node)
  | .shortNode k val _, key =>
      if key.length < k.length ∨ k ≠ key.take k.length then .ok ([], .nil)
      else proofGet val (key.drop k.length)
  | .fullNode children _, key => do
      let i ← childIndex key.head?
      proofGet (children i) key.tail
  | .hashNode h, key => .ok (key, .hashNode h)
  | .nil, key => .ok (key, .nil)
  | .valueNode v, _ => .ok ([], .valueNode v)

/-- The errors `VerifyProof` returns. -/
inductive ProofError where
  | missing (index : Nat) (hash : List UInt8)
  | badNode (index : Nat) (err : DecodeError)
  | panicked (reason : Failure)

section
attribute [local simp] proofGet
end

section Verify

variable (decodeMsg : List UInt8 → Except String Node) (proofDb : Database)

/-- The loop of `VerifyProof` from node `i` on, with `fuel` turns left. -/
def verifyFrom : Nat → Nat → List UInt8 → List UInt8 → Except ProofError (Option (List UInt8))
  | 0, _, _, _ => .error (.panicked .outOfFuel)
  | fuel + 1, i, wantHash, key =>
      match proofDb wantHash with
      | none => .error (.missing i wantHash)
      | some buf =>
          match decodeNode decodeMsg wantHash buf 0 with
          | .error err => .error (.badNode i err)
          | .ok n =>
              match proofGet n key with
              | .error reason => .error (.panicked reason)
              | .ok (keyrest, .hashNode h) => verifyFrom fuel (i + 1) h keyrest
              | .ok (_, .valueNode v) => .ok (some v)
              | .ok (_, _) => .ok none

/-- `VerifyProof(rootHash, key, proofDb)`: the value the proof gives for `key`. On the nodes
`Prove` writes every turn of its loop follows at least one nibble of the key, so the hex key's
length bounds them; a crafted proof can keep the loop going for ever (`verifyProof_panics_or_loops`). -/
def verifyProof (rootHash key : List UInt8) : Except ProofError (Option (List UInt8)) :=
  verifyFrom decodeMsg proofDb ((keybytesToHex key).length + 1) 0 rootHash (keybytesToHex key)

section
attribute [local simp] verifyFrom verifyProof
end

end Verify

/-- A proof for any key in the empty trie is empty, and `VerifyProof` against the empty
trie's root hash reports the root node missing, where `Get` returns nil. -/
theorem verifyProof_empty_trie (keccak : List UInt8 → List UInt8) (db : Database) (key : List UInt8) :
    Trie.prove keccak NodeIntf.decodeMsg db { root := .nil } key 0 = .ok [] ∧
      Trie.hash keccak { root := .nil } = .ok (emptyRoot, { root := .nil }) ∧
      Trie.tryGet NodeIntf.decodeMsg db { root := .nil } key = .ok (none, { root := .nil }) ∧
      verifyProof NodeIntf.decodeMsg (Store.empty.putAll []) emptyRoot key = .error (.missing 0 emptyRoot) := by
  refine ⟨?_, ?_, ?_, ?_⟩
  · simp [Trie.prove, proveWalk, Node.isNil]
  · simp [Trie.hash, Trie.hashRoot, Node.isNil]
  · simp [Trie.tryGet, tryGet, fuelFor]
  · simp [verifyProof, verifyFrom, Store.empty]

/-! ### Proofs that `Prove` does not make -/

/-- `VerifyProof` trusts the shape of the nodes it is given. A short node whose key is the
whole hex key of `key`, terminator included, and whose value is a full node leaves `get` at the
full node with an empty key, and `key[0]` panics. A short node whose compact key `[0x00]`
decodes to the empty key, stored under the hash it points to, sends the loop back to itself
with the same key: no amount of fuel makes it return. -/
theorem verifyProof_panics_or_loops (key rootHash : List UInt8)
    (short : (encodeNode (.shortNode (hexToCompact (keybytesToHex key)) (.fullNode (fun _ => .nil) {}) {})).length <
      2 ^ 32)
    (shortLoop : (encodeNode (.shortNode [0] (.hashNode rootHash) {})).length < 2 ^ 32) :
    verifyProof NodeIntf.decodeMsg
        (Store.empty.put rootHash
          (encodeNode (.shortNode (hexToCompact (keybytesToHex key)) (.fullNode (fun _ => .nil) {}) {})))
        rootHash key = .error (.panicked (.panicked .indexOutOfRange)) ∧
      ∀ fuel i hexKey, verifyFrom NodeIntf.decodeMsg
        (Store.empty.put rootHash (encodeNode (.shortNode [0] (.hashNode rootHash) {}))) fuel i rootHash hexKey =
          .error (.panicked .outOfFuel) := by
  constructor
  · -- the short node takes the whole key, terminator included
    have read := codecLaw _ (.short (.full fun _ => .nil)) short
    have keyBack := compactToHex_hexToCompact (Or.inr (keybytesToHex_terminated key))
    simp [verifyProof, verifyFrom, decodeNode, encodeNode_ne_nil, read, Node.fromWire, keyBack,
      Node.setNodeflag, proofGet, childIndex]
  · -- each turn decodes the same node and follows its hash back to it
    have read := codecLaw _ (.short (.hash rootHash)) shortLoop
    intro fuel
    induction fuel with
    | zero => intro i hexKey; rfl
    | succ fuel ih =>
        intro i hexKey
        simp [verifyFrom, decodeNode, encodeNode_ne_nil, read, Node.fromWire, compactToHex, keybytesToHex,
          Node.setNodeflag, proofGet, ih]

theorem verifyProof_panics_or_loops_one :
    (encodeNode (.shortNode (hexToCompact (keybytesToHex [1])) (.fullNode (fun _ => .nil) {}) {})).length < 2 ^ 32 ∧
      (encodeNode (.shortNode [0] (.hashNode [9]) {})).length < 2 ^ 32 ∧
      verifyProof NodeIntf.decodeMsg
          (Store.empty.put [9]
            (encodeNode (.shortNode (hexToCompact (keybytesToHex [1])) (.fullNode (fun _ => .nil) {}) {})))
          [9] [1] = .error (.panicked (.panicked .indexOutOfRange)) ∧
        ∀ fuel i hexKey, verifyFrom NodeIntf.decodeMsg
          (Store.empty.put [9] (encodeNode (.shortNode [0] (.hashNode [9]) {}))) fuel i [9] hexKey =
            .error (.panicked .outOfFuel) :=
  have short : (encodeNode (.shortNode (hexToCompact (keybytesToHex [1])) (.fullNode (fun _ => .nil) {}) {})).length <
      2 ^ 32 := by decide
  have shortLoop : (encodeNode (.shortNode [0] (.hashNode [9]) {})).length < 2 ^ 32 := by decide
  ⟨short, shortLoop, verifyProof_panics_or_loops [1] [9] short shortLoop⟩

end Mjoy.Trie
