import Mjoy.Trie.Resolve

/-!
The reader side of the node encoding: `NodeIntf.DecodeMsg` and the generated decoders of
`node_gen.go`, with `toNode`, over the msgp reader. `toNode`'s conversions (a compact key
back to hex, an empty value to nil) are left to `Node.fromWire`, which `decodeNode` applies
to what this reader returns.

The reader reads back every node the hasher writes (`codecLaw`), which discharges the
premise `CodecLaw` of the loading lemmas.
-/

namespace Mjoy.Trie

open Msgp

/-- The field names of the generated map encodings: "Children", "Key" and "Val". -/
def childrenField : List UInt8 := [0x43, 0x68, 0x69, 0x6c, 0x64, 0x72, 0x65, 0x6e]

def keyField : List UInt8 := [0x4b, 0x65, 0x79]

def valField : List UInt8 := [0x56, 0x61, 0x6c]

/-- A msgp error, passed on as the text of the error a decoder returns. -/
def liftRead {α : Type} (r : Except ReadError α) : Except String α :=
  r.mapError ReadError.text

-- Equation lemmas of the definitions above, made once here rather than by the proofs below
-- that unfold them in parallel.
section
attribute [local simp] childrenField keyField valField
end

@[simp] theorem liftRead_ok {α : Type} (a : α) : liftRead (.ok a) = .ok a :=
  rfl

section Decoders

/- Each decoder reads a child node with `readChild`: `ReadIntf`, then `toNode`. -/
variable (readChild : List UInt8 → Except String (Node × List UInt8))

/-- The loop over `z.Children` in `FullNode.DecodeMsg`. -/
def readChildren (children : Fin 17 → Node) (buf : List UInt8) :
    Except String ((Fin 17 → Node) × List UInt8) :=
  (List.finRange 17).foldlM (fun acc i => do
    let (child, rest) ← readChild acc.2
    pure (Function.update acc.1 i child, rest)) (children, buf)

/-- The loop of `FullNode.DecodeMsg` over the fields of its map: "Children" is an array that
must have 17 entries, and any other field is skipped. -/
def fullFields : Nat → (Fin 17 → Node) → List UInt8 → Except String ((Fin 17 → Node) × List UInt8)
  | 0, children, buf => .ok (children, buf)
  | n + 1, children, buf => do
      let (field, buf) ← liftRead (readMapKeyPtr buf)
      if field = childrenField then
        let (size, buf) ← liftRead (readArrayHeader buf)
        if size ≠ 17 then .error (ReadError.arrayError 17 size).text
        else
          let (children, buf) ← readChildren readChild children buf
          fullFields n children buf
      else
        let buf ← liftRead (skip buf)
        fullFields n children buf

/-- `FullNode.DecodeMsg`: a node whose map has no "Children" field keeps nil children. -/
def decodeFull (buf : List UInt8) : Except String Node := do
  let (size, buf) ← liftRead (readMapHeader buf)
  let (children, _) ← fullFields readChild size (fun _ => .nil) buf
  pure (.fullNode children {})

/-- The loop of `ShortNode.DecodeMsg` over the fields of its map, in any order; a field
read twice keeps its last value. -/
def shortFields : Nat → List UInt8 → Node → List UInt8 → Except String (List UInt8 × Node × List UInt8)
  | 0, key, val, buf => .ok (key, val, buf)
  | n + 1, key, val, buf => do
      let (field, buf) ← liftRead (readMapKeyPtr buf)
      if field = keyField then
        let (key, buf) ← liftRead (readBytes buf)
        shortFields n key val buf
      else if field = valField then
        let (val, buf) ← readChild buf
        shortFields n key val buf
      else
        let buf ← liftRead (skip buf)
        shortFields n key val buf

/-- `ShortNode.DecodeMsg`: a missing key is empty and a missing value nil. -/
def decodeShort (buf : List UInt8) : Except String Node := do
  let (size, buf) ← liftRead (readMapHeader buf)
  let (key, val, _) ← shortFields readChild size [] .nil buf
  pure (.shortNode key val {})

/-- The switch of `toNode` on the type tag. -/
def decodeTagged (tag body : List UInt8) : Except String Node :=
  if tag = [0x46] then decodeFull readChild body
  else if tag = [0x53] then decodeShort readChild body
  else if tag = [0x48] then (fun read => .hashNode read.1) <$> liftRead (readBytes body)
  else if tag = [0x56] then (fun read => .valueNode read.1) <$> liftRead (readBytes body)
  else .error "s type is unknown"

/-- `toNode` up to its conversions: nil, or the node a byte slice holds after its one-letter
type tag. Whatever follows the node in the slice is ignored, and a body that does not
decode is reported as an unknown type, as in the source. -/
def toNode : Intf → Except String Node
  | .nil => .ok .nil
  | .other _ => .error "can't convert"
  | .bin buf =>
      match readStringZC buf with
      | .error _ => .error "error prefix"
      | .ok (tag, body) =>
          match decodeTagged readChild tag body with
          | .ok node => .ok node
          | .error _ => .error "s type is unknown"

section
attribute [local simp] readChildren fullFields decodeFull shortFields decodeShort decodeTagged toNode
end

end Decoders

/-- `NodeIntf.DecodeMsg`: `ReadIntf`, then `toNode` on what it read, children read the same
way. Every level of nesting takes a byte of the input, so `fuel`, a bound on the depth, runs
out only past the end of the input. -/
def readNode : Nat → List UInt8 → Except String (Node × List UInt8)
  | 0, _ => .error ReadError.eof.text
  | fuel + 1, buf => do
      let (intf, rest) ← liftRead (readIntf buf)
      let node ← toNode (readNode fuel) intf
      pure (node, rest)

/-- The decoder that `decodeNode` runs: `NodeIntf.DecodeMsg` on a reader over the buffer. -/
def NodeIntf.decodeMsg (buf : List UInt8) : Except String Node :=
  Prod.fst <$> readNode buf.length buf

section
attribute [local simp] readNode NodeIntf.decodeMsg
end

/-! ### Reading back what the hasher writes -/

section RoundTrip

/-- What `readNode` does on the encoding of a node, at every depth bound it is given. -/
def ReadsBack (w : Node) : Prop :=
  ∀ fuel rest, (encodeNode w).length ≤ fuel → (encodeNode w).length < 2 ^ 32 →
    readNode fuel (encodeNode w ++ rest) = .ok (w, rest)

theorem encodeNode_bin {w : Node} {body : List UInt8} (encoded : fromNode w = some body) :
    encodeNode w = writeBytes body := by
  simp [encodeNode, encoded, writeIntf]

theorem length_writeBytes (body : List UInt8) : body.length + 2 ≤ (writeBytes body).length := by
  simp only [writeBytes]
  split_ifs <;> simp

/-- One level of `readNode` on a tagged node: the `bin` object around it is read, then
`toNode` reads the node inside with one level of depth less. -/
theorem readNode_bin (fuel : Nat) (body rest : List UInt8) (short : body.length < 2 ^ 32) :
    readNode (fuel + 1) (writeBytes body ++ rest) =
      (fun node => (node, rest)) <$> toNode (readNode fuel) (.bin body) := by
  have read := readIntf_writeIntf (some body) rest (fun b same => by cases same; exact short)
  simp only [writeIntf, Intf.ofOption] at read
  simp only [readNode, read, liftRead_ok, Loop.ok_bind]
  cases toNode (readNode fuel) (.bin body) <;> rfl

/-- A node tagged with a one-letter tag: `toNode` reads the tag and decodes the rest. -/
theorem toNode_tagged {readChild : List UInt8 → Except String (Node × List UInt8)} {letter : UInt8}
    {body : List UInt8} {node : Node} (decoded : decodeTagged readChild [letter] body = .ok node) :
    toNode readChild (.bin ([0xa1, letter] ++ body)) = .ok node := by
  have tag := readStringZC_fixstr 0xa1 [letter] body (by decide) (by simp)
  simp only [List.cons_append, List.nil_append] at tag ⊢
  simp only [toNode, tag, decoded]

/-- Hash and value nodes: the tag, then the bytes as a `bin` object. -/
theorem readsBack_bytes (letter : UInt8) (mk : List UInt8 → Node) (bytes : List UInt8)
    (encoded : fromNode (mk bytes) = some ([0xa1, letter] ++ writeBytes bytes))
    (decoded : ∀ readChild body, decodeTagged readChild [letter] body =
      (fun read => mk read.1) <$> liftRead (readBytes body)) :
    ReadsBack (mk bytes) := by
  intro fuel rest fits short
  rw [encodeNode_bin encoded] at fits short ⊢
  have outer := length_writeBytes ([0xa1, letter] ++ writeBytes bytes)
  have inner := length_writeBytes bytes
  have body : ([0xa1, letter] ++ writeBytes bytes).length = (writeBytes bytes).length + 2 := by
    simp only [List.length_append, List.length_cons, List.length_nil]
    omega
  obtain ⟨fuel, rfl⟩ : ∃ f, fuel = f + 1 := ⟨fuel - 1, by omega⟩
  have read := readBytes_writeBytes bytes [] (by omega)
  rw [List.append_nil] at read
  have tagged : decodeTagged (readNode fuel) [letter] (writeBytes bytes) = .ok (mk bytes) := by
    rw [decoded, read]
    rfl
  rw [readNode_bin fuel _ rest (by omega), toNode_tagged tagged]
  rfl

theorem readsBack_hash (h : List UInt8) : ReadsBack (.hashNode h) :=
  readsBack_bytes 0x48 Node.hashNode h rfl fun _ _ => by simp [decodeTagged]

theorem readsBack_value (v : List UInt8) : ReadsBack (.valueNode v) :=
  readsBack_bytes 0x56 Node.valueNode v rfl fun _ _ => by simp [decodeTagged]

theorem readsBack_nil : ReadsBack .nil := by
  intro fuel rest fits _
  obtain ⟨fuel, rfl⟩ : ∃ f, fuel = f + 1 := ⟨fuel - 1, by simp [encodeNode, fromNode, writeIntf] at fits; omega⟩
  rfl

theorem length_le_flatMap (f : Fin 17 → List UInt8) (i : Fin 17) :
    (f i).length ≤ ((List.finRange 17).flatMap f).length := by
  rw [List.flatMap_def]
  exact (List.infix_of_mem_flatten (List.mem_map_of_mem (List.mem_finRange i))).length_le

/-- Where the loop over the children of a full node stands after the children `done`: the
others are still to read and these are in place. -/
def ChildrenRead (children : Fin 17 → Node) (done : List (Fin 17)) (acc : (Fin 17 → Node) × List UInt8) :
    Prop :=
  acc.2 = ((List.finRange 17).drop done.length).flatMap (fun i => encodeNode (children i)) ∧
    ∀ i ∈ done, acc.1 i = children i

/-- The children of a full node, read one after the other by a reader that reads back each
of them. -/
theorem readChildren_flatMap {readChild : List UInt8 → Except String (Node × List UInt8)}
    {children : Fin 17 → Node}
    (reads : ∀ i rest, readChild (encodeNode (children i) ++ rest) = .ok (children i, rest))
    (start : Fin 17 → Node) :
    readChildren readChild start ((List.finRange 17).flatMap fun i => encodeNode (children i)) =
      .ok (children, []) := by
  unfold readChildren
  have begin : ChildrenRead children [] (start, (List.finRange 17).flatMap fun i => encodeNode (children i)) :=
    ⟨rfl, by simp⟩
  obtain ⟨result, loop, unread, placed⟩ := Loop.foldlM_invariant (fun acc i => do
      let (child, rest) ← readChild acc.2
      pure (Function.update acc.1 i child, rest)) (ChildrenRead children) (List.finRange 17)
    (fun done x later acc whole ⟨unread, placed⟩ => by
      have remaining : (List.finRange 17).drop done.length = x :: later := by
        rw [← whole, List.drop_left]
      have after : (List.finRange 17).drop (done ++ [x]).length = later := by
        rw [← whole]
        simp
      refine ⟨(Function.update acc.1 x (children x), later.flatMap fun i => encodeNode (children i)), ?_, ?_, ?_⟩
      · simp only [unread, remaining, List.flatMap_cons, reads, Loop.ok_bind, Loop.pure_eq_ok]
      · rw [after]
      · intro i member
        dsimp only
        rcases List.mem_append.mp member with old | new
        · by_cases same : i = x
          · rw [same, Function.update_self]
          · rw [Function.update_of_ne same]
            exact placed i old
        · rw [List.mem_singleton.mp new, Function.update_self])
    begin
  have whole : result.1 = children := funext fun i => placed i (List.mem_finRange i)
  have empty : result.2 = [] := by
    rw [unread, List.drop_length, List.flatMap_nil]
  rw [loop, ← whole, ← empty]

theorem fromNode_short (key : List UInt8) (val : Node) (flags : NodeFlag) :
    fromNode (.shortNode key val flags) = some ([0xa1, 0x53] ++
      0x82 :: (0xa3 :: keyField ++ (writeBytes key ++ (0xa3 :: valField ++ encodeNode val)))) := by
  simp [fromNode, encodeNode, keyField, valField]

theorem fromNode_full (children : Fin 17 → Node) (flags : NodeFlag) :
    fromNode (.fullNode children flags) = some ([0xa1, 0x46] ++
      0x81 :: (0xa8 :: childrenField ++
        (0xdc :: 0x00 :: 0x11 :: (List.finRange 17).flatMap fun i => encodeNode (children i)))) := by
  simp [fromNode, encodeNode, childrenField]

theorem readsBack_short {key : List UInt8} {val : Node} (readsVal : ReadsBack val) :
    ReadsBack (.shortNode key val {}) := by
  intro fuel rest fits short
  rw [encodeNode_bin (fromNode_short key val {})] at fits short ⊢
  have outer := length_writeBytes ([0xa1, 0x53] ++
    0x82 :: (0xa3 :: keyField ++ (writeBytes key ++ (0xa3 :: valField ++ encodeNode val))))
  have inner := length_writeBytes key
  have body : ([0xa1, 0x53] ++ 0x82 :: (0xa3 :: keyField ++ (writeBytes key ++
      (0xa3 :: valField ++ encodeNode val)))).length = (writeBytes key).length + (encodeNode val).length + 11 := by
    simp [keyField, valField]
    omega
  obtain ⟨fuel, rfl⟩ : ∃ f, fuel = f + 1 := ⟨fuel - 1, by omega⟩
  have valRead := readsVal fuel [] (by omega) (by omega)
  rw [List.append_nil] at valRead
  have decoded : decodeTagged (readNode fuel) [0x53]
      (0x82 :: (0xa3 :: keyField ++ (writeBytes key ++ (0xa3 :: valField ++ encodeNode val)))) =
      .ok (.shortNode key val {}) := by
    have header := readHeader_fix .map 0x80 0xde 0xdf 0x82
      (0xa3 :: keyField ++ (writeBytes key ++ (0xa3 :: valField ++ encodeNode val))) (by decide)
    have keyName := readMapKeyPtr_fixstr 0xa3 keyField
      (writeBytes key ++ (0xa3 :: valField ++ encodeNode val)) (by decide) (by decide) (by decide)
    have keyRead := readBytes_writeBytes key (0xa3 :: valField ++ encodeNode val) (by omega)
    have valName := readMapKeyPtr_fixstr 0xa3 valField (encodeNode val) (by decide) (by decide) (by decide)
    have differ : valField ≠ keyField := by decide
    simp only [List.cons_append] at header keyName keyRead valName
    simp [decodeTagged, decodeShort, readMapHeader, header, shortFields, keyName, keyRead, valName,
      valRead, differ]
  rw [readNode_bin fuel _ rest (by omega), toNode_tagged decoded]
  rfl

theorem readsBack_full {children : Fin 17 → Node} (readsChild : ∀ i, ReadsBack (children i)) :
    ReadsBack (.fullNode children {}) := by
  intro fuel rest fits short
  rw [encodeNode_bin (fromNode_full children {})] at fits short ⊢
  have outer := length_writeBytes ([0xa1, 0x46] ++ 0x81 :: (0xa8 :: childrenField ++
    (0xdc :: 0x00 :: 0x11 :: (List.finRange 17).flatMap fun i => encodeNode (children i))))
  have body : ([0xa1, 0x46] ++ 0x81 :: (0xa8 :: childrenField ++
      (0xdc :: 0x00 :: 0x11 :: (List.finRange 17).flatMap fun i => encodeNode (children i)))).length =
      ((List.finRange 17).flatMap fun i => encodeNode (children i)).length + 15 := by
    simp [childrenField]
  obtain ⟨fuel, rfl⟩ : ∃ f, fuel = f + 1 := ⟨fuel - 1, by omega⟩
  have childRead : ∀ i rest, readNode fuel (encodeNode (children i) ++ rest) = .ok (children i, rest) := by
    intro i rest
    have within := length_le_flatMap (fun i => encodeNode (children i)) i
    exact readsChild i fuel rest (by omega) (by omega)
  have decoded : decodeTagged (readNode fuel) [0x46] (0x81 :: (0xa8 :: childrenField ++
      (0xdc :: 0x00 :: 0x11 :: (List.finRange 17).flatMap fun i => encodeNode (children i)))) =
      .ok (.fullNode children {}) := by
    have header := readHeader_fix .map 0x80 0xde 0xdf 0x81 (0xa8 :: childrenField ++
      (0xdc :: 0x00 :: 0x11 :: (List.finRange 17).flatMap fun i => encodeNode (children i))) (by decide)
    have name := readMapKeyPtr_fixstr 0xa8 childrenField
      (0xdc :: 0x00 :: 0x11 :: (List.finRange 17).flatMap fun i => encodeNode (children i))
      (by decide) (by decide) (by decide)
    have size := readHeader_16 .array 0x90 0xdc 0xdd 0x00 0x11
      ((List.finRange 17).flatMap fun i => encodeNode (children i)) (by decide)
    simp only [List.cons_append] at header name
    simp [decodeTagged, decodeFull, readMapHeader, header, fullFields, name, readArrayHeader, size,
      readChildren_flatMap childRead]
  rw [readNode_bin fuel _ rest (by omega), toNode_tagged decoded]
  rfl

theorem readsBack {w : Node} (clear : w.Clear) : ReadsBack w := by
  induction clear with
  | full _ readsChild => exact readsBack_full readsChild
  | short _ readsVal => exact readsBack_short readsVal
  | hash h => exact readsBack_hash h
  | value v => exact readsBack_value v
  | nil => exact readsBack_nil

/-- The decoder reads back every node the hasher writes. -/
theorem codecLaw : CodecLaw NodeIntf.decodeMsg := by
  intro w clear short
  have read := readsBack clear (encodeNode w).length [] le_rfl short
  rw [List.append_nil] at read
  simp [NodeIntf.decodeMsg, read]

end RoundTrip

/-! ### What `decodeNode` makes of the bytes the hasher stores -/

namespace Node

/-- `hashChildren` carried down the embedded children of a node: short keys go to the
compact form and nil children to empty values (`ValueNode(nil)`); hash and value
children stay as they are. -/
def collapse : Node → Node
  | fullNode children flags => fullNode (fun i => (children i).collapse) flags
  | shortNode key val flags => shortNode (hexToCompact key) val.collapse flags
  | nil => valueNode []
  | n => n

/-- A node of a trie in canonical form as memory holds it before any flag is set: hex
keys with or without the terminator, no empty value, embedded children of the same kind. -/
inductive Plain : Node → Prop
  | full {children : Fin 17 → Node} : (∀ i, (children i).Plain) → Plain (fullNode children {})
  | short {key : List UInt8} {val : Node} : Nibbles key ∨ Terminated key → val.Plain →
      Plain (shortNode key val {})
  | hash (h : List UInt8) : Plain (hashNode h)
  | value {v : List UInt8} : v ≠ [] → Plain (valueNode v)
  | nil : Plain nil

section
attribute [local simp] collapse
end

theorem Plain.clear_collapse {n : Node} (plain : n.Plain) : n.collapse.Clear := by
  induction plain with
  | full _ ih => exact .full ih
  | short _ _ ih => exact .short ih
  | hash h => exact .hash h
  | value _ => exact .value _
  | nil => exact .value []

theorem Plain.fromWire_collapse {n : Node} (plain : n.Plain) : n.collapse.fromWire = some n := by
  induction plain with
  | @full children _ ih =>
      have present : ∀ i, ((children i).collapse.fromWire).isSome := by
        intro i
        rw [ih i]
        rfl
      simp only [collapse, fromWire, dif_pos present]
      congr 2
      funext i
      simp [ih i]
  | short shape _ ih => simp [collapse, fromWire, compactToHex_hexToCompact shape, ih]
  | hash h => rfl
  | value nonempty => simp [collapse, fromWire, nonempty]
  | nil => simp [collapse, fromWire]

end Node

/-- Decoding the bytes the hasher stores for a node gives back the node, with the hash it
was stored under and the current generation set by `setNodeflag`. -/
theorem decodeNode_collapse {n : Node} (plain : n.Plain) (short : (encodeNode n.collapse).length < 2 ^ 32)
    (hash : List UInt8) (gen : UInt16) :
    decodeNode NodeIntf.decodeMsg hash (encodeNode n.collapse) gen = .ok (n.setNodeflag (some hash) gen) := by
  have read := codecLaw n.collapse plain.clear_collapse short
  simp [decodeNode, encodeNode_ne_nil, read, plain.fromWire_collapse]

theorem decodeNode_collapse_leaf :
    Node.Plain (.shortNode [1, 2, terminator] (.valueNode [7]) {}) ∧
      (encodeNode (Node.shortNode [1, 2, terminator] (.valueNode [7]) {}).collapse).length < 2 ^ 32 ∧
      decodeNode NodeIntf.decodeMsg [9] (encodeNode (Node.shortNode [1, 2, terminator] (.valueNode [7]) {}).collapse) 3 =
        .ok ((Node.shortNode [1, 2, terminator] (.valueNode [7]) {}).setNodeflag (some [9]) 3) := by
  have plain : Node.Plain (.shortNode [1, 2, terminator] (.valueNode [7]) {}) :=
    .short (.inr ⟨[1, 2], by simp [Nibbles], by decide⟩) (.value (by decide))
  have short : (encodeNode (Node.shortNode [1, 2, terminator] (.valueNode [7]) {}).collapse).length < 2 ^ 32 := by
    decide
  exact ⟨plain, short, decodeNode_collapse plain short [9] 3⟩

/-- A short node whose key is empty is read by the msgp decoder, and then `compactToHex`
indexes the first nibble of an empty key: `decodeNode` panics instead of returning an error. -/
theorem decodeNode_empty_key {val : Node} (plain : val.Plain)
    (short : (encodeNode (Node.shortNode [] val.collapse {})).length < 2 ^ 32) (hash : List UInt8) (gen : UInt16) :
    decodeNode NodeIntf.decodeMsg hash (encodeNode (.shortNode [] val.collapse {})) gen = .error .compactKeyPanic := by
  have read := codecLaw (.shortNode [] val.collapse {}) (.short plain.clear_collapse) short
  simp [decodeNode, encodeNode_ne_nil, read, Node.fromWire, compactToHex, keybytesToHex]

theorem decodeNode_empty_key_value :
    Node.Plain (.valueNode [1]) ∧ (encodeNode (Node.shortNode [] (Node.valueNode [1]).collapse {})).length < 2 ^ 32 ∧
      decodeNode NodeIntf.decodeMsg [] (encodeNode (.shortNode [] (Node.valueNode [1]).collapse {})) 0 =
        .error .compactKeyPanic :=
  ⟨.value (by decide), by decide, decodeNode_empty_key (.value (by decide)) (by decide) [] 0⟩

end Mjoy.Trie
