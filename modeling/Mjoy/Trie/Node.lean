import Mjoy.Lib.Msgp
import Mjoy.Trie.Encoding

/-!
Trie nodes (`trie/node.go`), the bytes `hasher.store` writes for a node
(`node_gen.go` through the vendored msgp writer), and `decodeNode`.

The msgp reader is a parameter `decodeMsg` of the model: it turns bytes into the
node tree they encode, before `toNode`'s conversions, which `Node.fromWire` models.
-/

namespace Mjoy.Trie

open Msgp

/-- `nodeFlag`: the cached hash (nil when absent), the cache generation and the
dirty bit of a short or full node. -/
structure NodeFlag where
  hash : Option (List UInt8) := none
  gen : UInt16 := 0
  dirty : Bool := false

inductive Node where
  | fullNode (children : Fin 17 → Node) (flags : NodeFlag)
  | shortNode (key : List UInt8) (val : Node) (flags : NodeFlag)
  | hashNode (bytes : List UInt8)
  | valueNode (bytes : List UInt8)
  /-- `NodeIntf{nil}`, an absent child. -/
  | nil

instance : Inhabited Node := ⟨.nil⟩

namespace Node

/-- `cache()`. The source panics when it is called on a nil node; every caller
in the model checks for nil first. -/
def cache : Node → Option (List UInt8) × Bool
  | fullNode _ flags => (flags.hash, flags.dirty)
  | shortNode _ _ flags => (flags.hash, flags.dirty)
  | _ => (none, true)

def canUnload (cachegen cachelimit : UInt16) : Node → Bool
  | fullNode _ flags => !flags.dirty && cachegen - flags.gen ≥ cachelimit
  | shortNode _ _ flags => !flags.dirty && cachegen - flags.gen ≥ cachelimit
  | _ => false

/-- `setNodeflag`: the decoded node gets the hash it was stored under, and it and
every node embedded in it get the current generation. -/
def setNodeflag (hash : Option (List UInt8)) (cachegen : UInt16) : Node → Node
  | shortNode key val flags =>
      shortNode key (val.setNodeflag none cachegen) { flags with hash := hash, gen := cachegen }
  | fullNode children flags =>
      fullNode (fun i => (children i).setNodeflag none cachegen) { flags with hash := hash, gen := cachegen }
  | n => n

-- Equation lemmas of the definitions above, made once here rather than by the proofs below
-- that unfold them in parallel.
section
attribute [local simp] cache canUnload setNodeflag
end

end Node

/-! ### Wire encoding -/

/-- `fromNode`: a one-letter type tag written as a msgp string, then the node's
generated `EncodeMsg`, with every child written through `fromNode` again. -/
def fromNode : Node → Option (List UInt8)
  | .fullNode children _ =>
      some ([0xa1, 0x46, 0x81, 0xa8, 0x43, 0x68, 0x69, 0x6c, 0x64, 0x72, 0x65, 0x6e, 0xdc, 0x00, 0x11] ++
        (List.finRange 17).flatMap fun i => writeIntf (fromNode (children i)))
  | .shortNode key val _ =>
      some ([0xa1, 0x53, 0x82, 0xa3, 0x4b, 0x65, 0x79] ++ writeBytes key ++
        [0xa3, 0x56, 0x61, 0x6c] ++ writeIntf (fromNode val))
  | .hashNode h => some ([0xa1, 0x48] ++ writeBytes h)
  | .valueNode v => some ([0xa1, 0x56] ++ writeBytes v)
  | .nil => none

/-- What `hasher.store` hashes and stores for a node: `NodeIntf.EncodeMsg`,
which passes `fromNode`'s result to `WriteIntf`. -/
def encodeNode (n : Node) : List UInt8 :=
  writeIntf (fromNode n)

section
attribute [local simp] fromNode encodeNode
end

/-! ### Decoding -/

namespace Node

/-- `toNode`'s conversions, which the generated decoder applies to every node it
reads: a short node's key goes back from compact to hex, and an empty value
becomes nil. `none` is the panic of `compactToHex` on an empty key. -/
def fromWire : Node → Option Node
  | fullNode children flags =>
      if present : ∀ i, (fromWire (children i)).isSome then
        some (fullNode (fun i => (fromWire (children i)).get (present i)) flags)
      else none
  | shortNode key val flags => do
      let key ← compactToHex key
      let val ← fromWire val
      pure (shortNode key val flags)
  | valueNode v => if v = [] then some nil else some (valueNode v)
  | n => some n

section
attribute [local simp] fromWire
end

end Node

/-- Failures of `decodeNode`: the two errors it returns, and the panic that
`compactToHex` raises on an empty key. -/
inductive DecodeError where
  | unexpectedEOF
  | msgp (reason : String)
  | compactKeyPanic

/-- `decodeNode(hash, buf, cachegen)`. -/
def decodeNode (decodeMsg : List UInt8 → Except String Node) (hash buf : List UInt8)
    (cachegen : UInt16) : Except DecodeError Node :=
  if buf = [] then .error .unexpectedEOF
  else
    match decodeMsg buf with
    | .error reason => .error (.msgp reason)
    | .ok raw =>
        match raw.fromWire with
        | none => .error .compactKeyPanic
        | some node => .ok (node.setNodeflag (some hash) cachegen)

section
attribute [local simp] decodeNode
end

end Mjoy.Trie
