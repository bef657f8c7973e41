import Mjoy.Trie.Encoding

/-!
The trie with every hash node resolved and no cache flags: what a `Trie` means.
`get`, `insert` and `delete` follow `tryGet`, `insert` and `delete` of `trie.go`
branch by branch; the concrete functions refine them (`Mjoy.Trie.Resolve`).
A result `none` is a panic of the source (an index out of range or an invalid node).
-/

namespace Mjoy.Trie

inductive Tree where
  | nil
  | value (bytes : List UInt8)
  | short (key : List UInt8) (val : Tree)
  | full (children : Fin 17 → Tree)

instance : Inhabited Tree := ⟨.nil⟩

/-- The child slot a nibble selects; `none` when the nibble is out of range. -/
def slot (b : UInt8) : Option (Fin 17) :=
  if h : b.toNat < 17 then some ⟨b.toNat, h⟩ else none

/-- One turn of the loop of `delete` over a full node's children: `pos` is `-1`
until a non-nil child is met, then its index, and `-2` from the second one on. -/
def posStep (present : Fin 17 → Bool) (pos : Int) (i : Fin 17) : Int :=
  if pos = -2 then -2 else if present i then (if pos = -1 then (i : Int) else -2) else pos

def remainingPos (present : Fin 17 → Bool) : Int :=
  (List.finRange 17).foldl (posStep present) (-1)

-- Equation lemmas of the definitions above, made once here rather than by the proofs below
-- that unfold them in parallel.
section
attribute [local simp] slot posStep
end

namespace Tree

def isNil : Tree → Bool
  | nil => true
  | _ => false

/-- `tryGet`, on the part of the key that is left. -/
def get : Tree → List UInt8 → Option (Option (List UInt8))
  | nil, _ => some none
  | value v, _ => some (some v)
  | short key val, rest =>
      if rest.length < key.length ∨ rest.take key.length ≠ key then some none
      else get val (rest.drop key.length)
  | full children, rest =>
      match rest with
      | [] => none
      | b :: tail =>
          match slot b with
          | some i => get (children i) tail
          | none => none

/-- What `insert` returns for a nil node: the value itself once the key is used up,
and otherwise a short node holding the rest of the key. -/
def leaf (key : List UInt8) (value : Tree) : Tree :=
  if key = [] then value else short key value

/-- The full node `insert` builds where a short node's key and the new key part. -/
def branch (oldIndex : Fin 17) (oldChild : Tree) (newIndex : Fin 17) (newChild : Tree) : Tree :=
  full (Function.update (Function.update (fun _ => nil) oldIndex oldChild) newIndex newChild)

/-- `insert`, returning the dirty bit and the new node. -/
def insert : Tree → List UInt8 → Tree → Option (Bool × Tree)
  | value v, [], val =>
      match val with
      | value w => some (v != w, val)
      | _ => none
  | _, [], val => some (true, val)
  | short nkey nval, key@(_ :: _), val =>
      let matchlen := prefixLen key nkey
      if matchlen = nkey.length then
        match insert nval (key.drop matchlen) val with
        | none => none
        | some (false, _) => some (false, short nkey nval)
        | some (true, nn) => some (true, short nkey nn)
      else
        match nkey[matchlen]?.bind slot, key[matchlen]?.bind slot with
        | some oldIndex, some newIndex =>
            let node := branch oldIndex (leaf (nkey.drop (matchlen + 1)) nval)
              newIndex (leaf (key.drop (matchlen + 1)) val)
            if matchlen = 0 then some (true, node) else some (true, short (key.take matchlen) node)
        | _, _ => none
  | full children, b :: rest, val =>
      match slot b with
      | some i =>
          match insert (children i) rest val with
          | none => none
          | some (false, _) => some (false, full children)
          | some (true, nn) => some (true, full (Function.update children i nn))
      | none => none
  | nil, key@(_ :: _), val => some (true, short key val)
  | value _, _ :: _, _ => none

/-- The short node that replaces a full node left with the single child `child`
in slot `pos`; a short child is merged into it. -/
def collapse (pos : Fin 17) (child : Tree) : Tree :=
  match child with
  | short ckey cval => if pos.val ≠ 16 then short (pos.val.toUInt8 :: ckey) cval else short [pos.val.toUInt8] child
  | _ => short [pos.val.toUInt8] child

/-- The end of `delete` on a full node whose child changed. -/
def reduce (children : Fin 17 → Tree) : Tree :=
  let pos := remainingPos fun i => !(children i).isNil
  if h : 0 ≤ pos ∧ pos < 17 then collapse ⟨pos.toNat, by omega⟩ (children ⟨pos.toNat, by omega⟩)
  else full children

/-- `delete`, returning the dirty bit and the new node. -/
def delete : Tree → List UInt8 → Option (Bool × Tree)
  | short nkey nval, key =>
      let matchlen := prefixLen key nkey
      if matchlen < nkey.length then some (false, short nkey nval)
      else if matchlen = key.length then some (true, nil)
      else
        match delete nval (key.drop nkey.length) with
        | none => none
        | some (false, _) => some (false, short nkey nval)
        | some (true, short ckey cval) => some (true, short (nkey ++ ckey) cval)
        | some (true, child) => some (true, short nkey child)
  | full children, key =>
      match key with
      | [] => none
      | b :: rest =>
          match slot b with
          | some i =>
              match delete (children i) rest with
              | none => none
              | some (false, _) => some (false, full children)
              | some (true, nn) => some (true, reduce (Function.update children i nn))
          | none => none
  | value _, _ => some (true, nil)
  | nil, _ => some (false, nil)

section
attribute [local simp] isNil get leaf branch insert collapse reduce delete
end

end Tree

end Mjoy.Trie
