import Mjoy.Lib.Store
import Mjoy.Trie.Node
import Mjoy.Trie.Tree

/-!
The trie of `trie/trie.go`: lookup, insertion and deletion on the nodes held in memory,
which load from the database the nodes they reach through a hash node.

The source recurses once per nibble of the key and once per hash node it resolves; a
database that stores a hash node under its own hash makes it recurse forever. The model
gives each public call a recursion depth (`fuelFor`) that is enough whenever every hash
node resolves to a short or full node, and fails with `outOfFuel` past it.
-/

set_option linter.dupNamespace false

namespace Mjoy.Trie

open KeyValue

/-- The database under a trie, as the trie reads it: node hash to encoding. -/
abbrev Database := Store (List UInt8) (List UInt8)

/-- What a panic of the source is about. -/
inductive Panic where
  /-- `panic(fmt.Sprintf("%T: invalid node: %v", n, n))`. -/
  | invalidNode
  /-- A key or a child index out of range. -/
  | indexOutOfRange
  /-- A type assertion such as `value.Node.(ValueNode)` that does not hold. -/
  | typeAssertion
  /-- A method called on a nil node. -/
  | nilNode
  /-- `mustDecodeNode` on bytes `decodeNode` rejects. -/
  | decode (err : DecodeError)

inductive Failure where
  /-- `MissingNodeError{NodeHash, Path}`. -/
  | missingNode (nodeHash path : List UInt8)
  | panicked (reason : Panic)
  | outOfFuel

/-- `newFlag()`: a node just made is dirty and tagged with the current generation. -/
def newFlag (cachegen : UInt16) : NodeFlag :=
  { dirty := true, gen := cachegen }

def Node.isNil : Node → Bool
  | .nil => true
  | _ => false

/-- `n.Children[b]`: the slot of the nibble `b`; a panic when `b` (or the nibble itself)
is out of range. -/
def childIndex (b : Option UInt8) : Except Failure (Fin 17) :=
  match b.bind slot with
  | some i => .ok i
  | none => .error (.panicked .indexOutOfRange)

-- Equation lemmas of the definitions above, made once here rather than by the proofs below
-- that unfold them in parallel.
section
attribute [local simp] Node.isNil childIndex
end

section Operations

variable (decodeMsg : List UInt8 → Except String Node) (db : Database) (cachegen : UInt16)

/-- `resolveHash`: load and decode the node stored under a hash. -/
def resolveHash (n pre : List UInt8) : Except Failure Node :=
  match db n with
  | none => .error (.missingNode n pre)
  | some enc =>
      match decodeNode decodeMsg n enc cachegen with
      | .ok node => .ok node
      | .error err => .error (.panicked (.decode err))

def resolve (n : Node) (pre : List UInt8) : Except Failure Node :=
  match n with
  | .hashNode h => resolveHash decodeMsg db cachegen h pre
  | _ => .ok n

/-- `tryGet`: the value at `key` from position `pos` on, the node to keep in place of
`origNode`, and whether a hash node was resolved on the way. -/
def tryGet : Nat → Node → List UInt8 → Nat → Except Failure (Option (List UInt8) × Node × Bool)
  | 0, _, _, _ => .error .outOfFuel
  | fuel + 1, origNode, key, pos =>
      match origNode with
      | .nil => .ok (none, .nil, false)
      | .valueNode v => .ok (some v, .valueNode v, false)
      | .shortNode nkey val flags =>
          if key.length - pos < nkey.length ∨ nkey ≠ (key.drop pos).take nkey.length then
            .ok (none, origNode, false)
          else do
            let (value, newnode, didResolve) ← tryGet fuel val key (pos + nkey.length)
            if didResolve then
              pure (value, .shortNode nkey newnode { flags with gen := cachegen }, true)
            else pure (value, origNode, false)
      | .fullNode children flags => do
          let i ← childIndex key[pos]?
          let (value, newnode, didResolve) ← tryGet fuel (children i) key (pos + 1)
          if didResolve then
            pure (value, .fullNode (Function.update children i newnode) { flags with gen := cachegen }, true)
          else pure (value, origNode, false)
      | .hashNode h => do
          let child ← resolveHash decodeMsg db cachegen h (key.take pos)
          let (value, newnode, _) ← tryGet fuel child key pos
          pure (value, newnode, true)

/-- `insert`: the dirty bit and the node to put in place of `n`. -/
def insert : Nat → Node → List UInt8 → List UInt8 → Node → Except Failure (Bool × Node)
  | 0, _, _, _, _ => .error .outOfFuel
  | fuel + 1, n, pre, key, value =>
      if key = [] then
        match n with
        | .valueNode v =>
            match value with
            | .valueNode w => .ok (v != w, value)
            | _ => .error (.panicked .typeAssertion)
        | _ => .ok (true, value)
      else
        match n with
        | .shortNode nkey nval _ =>
            let matchlen := prefixLen key nkey
            if matchlen = nkey.length then do
              -- the whole key of the short node matches: only its value changes
              let (dirty, nn) ← insert fuel nval (pre ++ key.take matchlen) (key.drop matchlen) value
              if dirty then pure (true, .shortNode nkey nn (newFlag cachegen)) else pure (false, n)
            else do
              -- branch out where the keys differ
              let oldIndex ← childIndex nkey[matchlen]?
              let (_, oldChild) ←
                insert fuel .nil (pre ++ nkey.take (matchlen + 1)) (nkey.drop (matchlen + 1)) nval
              let newIndex ← childIndex key[matchlen]?
              let (_, newChild) ←
                insert fuel .nil (pre ++ key.take (matchlen + 1)) (key.drop (matchlen + 1)) value
              let branch := Node.fullNode
                (Function.update (Function.update (fun _ => .nil) oldIndex oldChild) newIndex newChild)
                (newFlag cachegen)
              if matchlen = 0 then pure (true, branch)
              else pure (true, .shortNode (key.take matchlen) branch (newFlag cachegen))
        | .fullNode children _ => do
            let i ← childIndex key.head?
            let (dirty, nn) ← insert fuel (children i) (pre ++ key.take 1) (key.drop 1) value
            if dirty then pure (true, .fullNode (Function.update children i nn) (newFlag cachegen))
            else pure (false, n)
        | .nil => .ok (true, .shortNode key value (newFlag cachegen))
        | .hashNode h => do
            -- load the node and insert into it, leaving it in the trie
            let rn ← resolveHash decodeMsg db cachegen h pre
            let (dirty, nn) ← insert fuel rn pre key value
            if dirty then pure (true, nn) else pure (false, rn)
        | .valueNode _ => .error (.panicked .invalidNode)

/-- The end of `delete` on a full node whose child changed: the node left with one child
becomes a short node, merged with that child when it is a short node. -/
def reduceFull (children : Fin 17 → Node) (pre : List UInt8) : Except Failure (Bool × Node) :=
  let pos := remainingPos fun i => !(children i).isNil
  if h : 0 ≤ pos ∧ pos < 17 then
    let p : Fin 17 := ⟨pos.toNat, by omega⟩
    if p.val ≠ 16 then do
      -- the remaining child may not be loaded: resolve it just for this check
      let cnode ← resolve decodeMsg db cachegen (children p) pre
      match cnode with
      | .shortNode ckey cval _ => pure (true, .shortNode (p.val.toUInt8 :: ckey) cval (newFlag cachegen))
      | _ => pure (true, .shortNode [p.val.toUInt8] (children p) (newFlag cachegen))
    else pure (true, .shortNode [p.val.toUInt8] (children p) (newFlag cachegen))
  else pure (true, .fullNode children (newFlag cachegen))

/-- `delete`: the dirty bit and the node to put in place of `n`. -/
def delete : Nat → Node → List UInt8 → List UInt8 → Except Failure (Bool × Node)
  | 0, _, _, _ => .error .outOfFuel
  | fuel + 1, n, pre, key =>
      match n with
      | .shortNode nkey nval _ =>
          let matchlen := prefixLen key nkey
          if matchlen < nkey.length then .ok (false, n)
          else if matchlen = key.length then .ok (true, .nil)
          else do
            let (dirty, child) ← delete fuel nval (pre ++ key.take nkey.length) (key.drop nkey.length)
            if !dirty then pure (false, n)
            else
              match child with
              | .shortNode ckey cval _ => pure (true, .shortNode (nkey ++ ckey) cval (newFlag cachegen))
              | _ => pure (true, .shortNode nkey child (newFlag cachegen))
      | .fullNode children _ => do
          let i ← childIndex key.head?
          let (dirty, nn) ← delete fuel (children i) (pre ++ key.take 1) (key.drop 1)
          if !dirty then pure (false, n)
          else reduceFull decodeMsg db cachegen (Function.update children i nn) pre
      | .valueNode _ => .ok (true, .nil)
      | .nil => .ok (false, .nil)
      | .hashNode h => do
          let rn ← resolveHash decodeMsg db cachegen h pre
          let (dirty, nn) ← delete fuel rn pre key
          if dirty then pure (true, nn) else pure (false, rn)

section
attribute [local simp] resolveHash resolve tryGet insert reduceFull delete
end

end Operations

/-- `Trie`: the root node and the cache generation values; the database is passed to
each operation. -/
structure Trie where
  root : Node
  cachegen : UInt16 := 0
  cachelimit : UInt16 := 0

/-- The recursion depth each public operation allows for a key path. -/
def fuelFor (key : List UInt8) : Nat :=
  2 * key.length + 4

/-- `emptyRoot`, the root hash of the empty trie. -/
def emptyRoot : List UInt8 :=
  [0x56, 0xe8, 0x1f, 0x17, 0x1b, 0xcc, 0x55, 0xa6, 0xff, 0x83, 0x45, 0xe6, 0x92, 0xc0, 0xf8, 0x6e,
   0x5b, 0x48, 0xe0, 0x1b, 0x99, 0x6c, 0xad, 0xc0, 0x01, 0x62, 0x2f, 0xb5, 0xe3, 0x63, 0xb4, 0x21]

/-- `types.Hash{}`. -/
def zeroHash : List UInt8 :=
  List.replicate 32 0

section
attribute [local simp] fuelFor emptyRoot zeroHash
end

namespace Trie

variable (decodeMsg : List UInt8 → Except String Node) (db : Database)

/-- `New(root, db)`: an empty trie at the zero hash or `emptyRoot`, else the root node
loaded from the database. -/
def new (root : List UInt8) : Except Failure Trie :=
  if root ≠ zeroHash ∧ root ≠ emptyRoot then do
    let rootnode ← resolveHash decodeMsg db 0 root []
    pure { root := rootnode }
  else pure { root := .nil }

/-- `TryGet(key)`: the value, and the trie with the nodes it loaded kept in place. -/
def tryGet (t : Trie) (key : List UInt8) : Except Failure (Option (List UInt8) × Trie) := do
  let key := keybytesToHex key
  let (value, newroot, didResolve) ←
    Mjoy.Trie.tryGet decodeMsg db t.cachegen (fuelFor key) t.root key 0
  pure (value, if didResolve then { t with root := newroot } else t)

/-- `TryUpdate(key, value)`: an empty value deletes the key. -/
def tryUpdate (t : Trie) (key value : List UInt8) : Except Failure Trie := do
  let k := keybytesToHex key
  if value.length ≠ 0 then
    let (_, n) ← Mjoy.Trie.insert decodeMsg db t.cachegen (fuelFor k) t.root [] k (.valueNode value)
    pure { t with root := n }
  else
    let (_, n) ← Mjoy.Trie.delete decodeMsg db t.cachegen (fuelFor k) t.root [] k
    pure { t with root := n }

/-- `Update(key, value)`: `TryUpdate`, with its error logged and the trie left as it was. -/
def update (t : Trie) (key value : List UInt8) : Trie :=
  match t.tryUpdate decodeMsg db key value with
  | .ok t' => t'
  | .error _ => t

/-- `TryDelete(key)`. -/
def tryDelete (t : Trie) (key : List UInt8) : Except Failure Trie := do
  let k := keybytesToHex key
  let (_, n) ← Mjoy.Trie.delete decodeMsg db t.cachegen (fuelFor k) t.root [] k
  pure { t with root := n }

section
attribute [local simp] new tryGet tryUpdate update tryDelete
end

end Trie

end Mjoy.Trie
