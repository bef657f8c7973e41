import Mjoy.Trie.Trie

/-!
The hasher of `trie/hasher.go` and the two calls built on it, `Hash` and `CommitTo`.

The database writer is modelled by the list of writes it receives, in order: `none` is a
nil writer (`Hash`), `some writes` a writer that has been given `writes` so far.
-/

set_option linter.dupNamespace false

namespace Mjoy.Trie

/-- The `Put` calls a database writer has received, in order. -/
abbrev Writes := List (List UInt8 × List UInt8)

section Hasher

variable (keccak : List UInt8 → List UInt8) (cachegen cachelimit : UInt16)

/-- `store`: a hash or nil node is left alone, a node whose encoding is shorter than a hash
stays in its parent unless `force`, and any other node is replaced by its hash (its cached
one when it has one) and written under it. -/
def store (n : Node) (db : Option Writes) (force : Bool) : Node × Option Writes :=
  match n with
  | .nil => (n, db)
  | .hashNode _ => (n, db)
  | _ =>
      let enc := encodeNode n
      if enc.length < 32 ∧ !force then (n, db)
      else
        let hash := n.cache.1.getD (keccak enc)
        (.hashNode hash, db.map fun writes => writes ++ [(hash, enc)])

/-- The start of `hash`: a node with a cached hash is not walked again when only hashing;
when storing, it is unloaded once it is clean and old enough, and skipped while clean. -/
def hashCached (n : Node) (db : Option Writes) : Option (Node × Node) :=
  match n.cache with
  | (some h, dirty) =>
      if db.isNone then some (.hashNode h, n)
      else if n.canUnload cachegen cachelimit then some (.hashNode h, .hashNode h)
      else if !dirty then some (.hashNode h, n)
      else none
  | (none, _) => none

/-- The end of `hash`: store the collapsed node, and cache the hash in the copy kept in the
trie, which storing also makes clean. -/
def hashFinish (collapsed cached : Node) (db : Option Writes) (force : Bool) :
    Node × Node × Option Writes :=
  let (hashed, written) := store keccak collapsed db force
  let cachedHash := match hashed with
    | .hashNode h => some h
    | _ => none
  let setFlags (flags : NodeFlag) : NodeFlag :=
    { flags with hash := cachedHash, dirty := if db.isSome then false else flags.dirty }
  let cached := match cached with
    | .shortNode key val flags => .shortNode key val (setFlags flags)
    | .fullNode children flags => .fullNode children (setFlags flags)
    | other => other
  (hashed, cached, written)

/-- One turn of `hashChildren`'s loop over the first sixteen children of a full node: a nil
child is written as an empty value, any other is hashed by `hashChild`. -/
def hashChildStep (hashChild : Fin 17 → Option Writes → Except Failure (Node × Node × Option Writes))
    (children : Fin 17 → Node) (acc : (Fin 17 → Node) × (Fin 17 → Node) × Option Writes) (j : Fin 16) :
    Except Failure ((Fin 17 → Node) × (Fin 17 → Node) × Option Writes) := do
  let i := j.castSucc
  let (collapsed, cached, written) := acc
  if (children i).isNil then pure (Function.update collapsed i (.valueNode []), cached, written)
  else
    let (c, k, written) ← hashChild i written
    pure (Function.update collapsed i c, Function.update cached i k, written)

/-- `hash(n, db, force)`: the node to put in the parent (a hash node, or the collapsed node
itself when it is embedded), the copy of `n` to keep in the trie, and the writer. -/
def hash : Node → Option Writes → Bool → Except Failure (Node × Node × Option Writes)
  | .nil, _, _ => .error (.panicked .nilNode)
  | n@(.shortNode key val flags), db, force =>
      match hashCached cachegen cachelimit n db with
      | some (hashed, cached) => pure (hashed, cached, db)
      | none => do
          -- `hashChildren`: the value is hashed unless it is a value node
          let (collapsedVal, cachedVal, written) ← match val with
            | .valueNode _ => pure (val, val, db)
            | _ => hash val db false
          let collapsedVal := if collapsedVal.isNil then .valueNode [] else collapsedVal
          pure (hashFinish keccak (.shortNode (hexToCompact key) collapsedVal flags)
            (.shortNode key cachedVal flags) written force)
  | n@(.fullNode children flags), db, force =>
      match hashCached cachegen cachelimit n db with
      | some (hashed, cached) => pure (hashed, cached, db)
      | none => do
          -- `hashChildren`: the first sixteen children in order, then the value in slot 16
          -- kept as it is
          let (collapsed, cached, written) ← (List.finRange 16).foldlM
            (hashChildStep (fun i written => hash (children i) written false) children) (children, children, db)
          let collapsed :=
            if (children 16).isNil then Function.update collapsed 16 (.valueNode []) else collapsed
          pure (hashFinish keccak (.fullNode collapsed flags) (.fullNode cached flags) written force)
  | n, db, force => pure (hashFinish keccak n n db force)

-- Equation lemmas of the definitions above, made once here rather than by the proofs below
-- that unfold them in parallel.
section
attribute [local simp] store hashCached hashFinish hashChildStep hash
end

end Hasher

namespace Trie

variable (keccak : List UInt8 → List UInt8)

def hashRoot (t : Trie) (db : Option Writes) : Except Failure (Node × Node × Option Writes) :=
  if t.root.isNil then pure (.hashNode emptyRoot, .nil, db)
  else Mjoy.Trie.hash keccak t.cachegen t.cachelimit t.root db true

/-- `Hash()`: the root hash, and the trie with the hashes cached in its nodes. -/
def hash (t : Trie) : Except Failure (List UInt8 × Trie) := do
  let (hashed, cached, _) ← t.hashRoot keccak none
  match hashed with
  | .hashNode h => pure (h, { t with root := cached })
  | _ => .error (.panicked .typeAssertion)

/-- `CommitTo(db)`: the root hash, the trie after the commit, and the writes made. -/
def commitTo (t : Trie) : Except Failure (List UInt8 × Trie × Writes) := do
  let (hashed, cached, written) ← t.hashRoot keccak (some [])
  match hashed with
  | .hashNode h => pure (h, { t with root := cached, cachegen := t.cachegen + 1 }, written.getD [])
  | _ => .error (.panicked .typeAssertion)

section
attribute [local simp] hashRoot hash commitTo
end

end Trie

end Mjoy.Trie
