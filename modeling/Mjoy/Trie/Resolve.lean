import Mjoy.Trie.Hasher
import Mjoy.Trie.Update

/-!
What the nodes of a trie stand for. A node `Resolves` to a `Tree` over a database when
its hash nodes are stored there, each in the encoding `hash` writes for its subtree, and
its cached hashes and dirty flags are the ones `hash` and `Commit` keep. `Tree.collapsed`
and `Tree.hashed` say what the hasher computes for a subtree that holds no cached hash.
-/

namespace Mjoy.Trie

open KeyValue

namespace Tree

/-- The node of a trie that holds `T` with nothing cached and nothing left unloaded. -/
def toNode : Tree → Node
  | nil => .nil
  | value v => .valueNode v
  | short key val => .shortNode key val.toNode {}
  | full children => .fullNode (fun i => (children i).toNode) {}

def isValue : Tree → Bool
  | value _ => true
  | _ => false

-- Equation lemmas of the definitions above, made once here rather than by the proofs below
-- that unfold them in parallel.
section
attribute [local simp] toNode isValue
end

section Hashing

variable (keccak : List UInt8 → List UInt8)

/-- `store` without the write: a collapsed node is embedded in its parent when its
encoding is shorter than a hash, unless `force`, and replaced by its hash otherwise. -/
def embed (force : Bool) (collapsed : Node) : Node :=
  if (encodeNode collapsed).length < 32 ∧ !force then collapsed
  else .hashNode (keccak (encodeNode collapsed))

/-- What `hashChildren` makes of a node: short keys in compact form, and every child
but a value embedded or replaced by its hash. -/
def collapsed : Tree → Node
  | nil => .nil
  | value v => .valueNode v
  | short key val =>
      .shortNode (hexToCompact key)
        (match val with
         | value v => .valueNode v
         | nil => .valueNode []
         | _ => embed keccak false (collapsed val)) {}
  | full children =>
      .fullNode (fun i =>
        if i.val < 16 then
          if (children i).isNil then .valueNode [] else embed keccak false (collapsed (children i))
        else if (children i).isNil then .valueNode [] else (children i).toNode) {}

/-- What `hash` puts in the parent's place of a node that stands for `T`. -/
def hashed (force : Bool) : Tree → Node
  | nil => .nil
  | T => embed keccak force (collapsed keccak T)

/-- The root hash of a trie that holds `T`. -/
def rootHash (T : Tree) : List UInt8 :=
  if T.isNil then emptyRoot else keccak (encodeNode (collapsed keccak T))

/-- The database holds the collapsed encoding of `T` under `h`, and that encoding is
shorter than the `2^32` bytes a msgp length field can count. -/
def StoredAt (db : Database) (h : List UInt8) (T : Tree) : Prop :=
  db h = some (encodeNode (collapsed keccak T)) ∧ (encodeNode (collapsed keccak T)).length < 2 ^ 32

/-- A child that its parent refers to by hash is stored under that hash. -/
def ChildStored (db : Database) (child : Tree) : Prop :=
  ∀ h, embed keccak false (collapsed keccak child) = .hashNode h → StoredAt keccak db h child

/-- Every node of `T` that `Commit` writes is in the database. -/
def Stored (db : Database) : Tree → Prop
  | nil => True
  | value _ => True
  | short _ val => Stored db val ∧ (val.isValue = false → val ≠ nil → ChildStored keccak db val)
  | full children => ∀ i : Fin 17, Stored db (children i) ∧
      (i.val < 16 → children i ≠ nil → ChildStored keccak db (children i))

section
attribute [local simp] embed collapsed hashed rootHash Stored
end

end Hashing

end Tree

section Resolution

variable (keccak : List UInt8 → List UInt8)

/-- The flags of a node that stands for `T`, at the root (`force`) or below it: a cached
hash is the one `hash` computes, a clean node with a cached hash is stored with all it
needs, and a clean node without one is embedded in its parent. -/
def FlagsOk (db : Database) (force : Bool) (flags : NodeFlag) (T : Tree) : Prop :=
  (∀ h, flags.hash = some h → T.hashed keccak force = .hashNode h) ∧
  (flags.dirty = false →
    match flags.hash with
    | some h => T.StoredAt keccak db h ∧ T.Stored keccak db
    | none => ∀ h, T.hashed keccak force ≠ .hashNode h)

/-- `Resolves db force n T`: the node `n`, at the root when `force`, stands for `T`. -/
inductive Resolves (db : Database) : Bool → Node → Tree → Prop
  | nil (force : Bool) : Resolves db force .nil .nil
  | value (force : Bool) (v : List UInt8) : Resolves db force (.valueNode v) (.value v)
  | short {force : Bool} {key : List UInt8} {val : Node} {flags : NodeFlag} {T : Tree} :
      Resolves db false val T → FlagsOk keccak db force flags (.short key T) →
      Resolves db force (.shortNode key val flags) (.short key T)
  | full {force : Bool} {children : Fin 17 → Node} {flags : NodeFlag} {T : Fin 17 → Tree} :
      (∀ i, Resolves db false (children i) (T i)) → FlagsOk keccak db force flags (.full T) →
      Resolves db force (.fullNode children flags) (.full T)
  | hash {force : Bool} {h : List UInt8} {T : Tree} :
      T.Compact → T.hashed keccak force = .hashNode h → T.StoredAt keccak db h → T.Stored keccak db →
      Resolves db force (.hashNode h) T

/-! ### More entries in the database keep every node's meaning -/

variable {keccak}

theorem Tree.StoredAt.mono {db db' : Database} (more : Store.Extends db db') {h : List UInt8}
    {T : Tree} (stored : T.StoredAt keccak db h) : T.StoredAt keccak db' h :=
  ⟨more _ _ stored.1, stored.2⟩

theorem Tree.ChildStored.mono {db db' : Database} (more : Store.Extends db db') {child : Tree}
    (stored : child.ChildStored keccak db) : child.ChildStored keccak db' :=
  fun h isHash => (stored h isHash).mono more

theorem Tree.Stored.mono {db db' : Database} (more : Store.Extends db db') :
    ∀ {T : Tree}, T.Stored keccak db → T.Stored keccak db'
  | .nil, _ => trivial
  | .value _, _ => trivial
  | .short _ _, ⟨below, here⟩ =>
      ⟨Tree.Stored.mono more below, fun notValue notNil => (here notValue notNil).mono more⟩
  | .full _, stored => fun i =>
      ⟨Tree.Stored.mono more (stored i).1, fun small present => ((stored i).2 small present).mono more⟩

theorem FlagsOk.mono {db db' : Database} (more : Store.Extends db db') {force : Bool} {flags : NodeFlag}
    {T : Tree} (ok : FlagsOk keccak db force flags T) : FlagsOk keccak db' force flags T := by
  obtain ⟨cached, clean⟩ := ok
  refine ⟨cached, fun isClean => ?_⟩
  have held := clean isClean
  cases hashEq : flags.hash with
  | none =>
      simp only [hashEq] at held ⊢
      exact held
  | some h =>
      simp only [hashEq] at held ⊢
      exact ⟨held.1.mono more, held.2.mono more⟩

theorem Resolves.mono {db db' : Database} (more : Store.Extends db db') {force : Bool} {n : Node}
    {T : Tree} (resolves : Resolves keccak db force n T) : Resolves keccak db' force n T := by
  induction resolves with
  | nil force => exact .nil force
  | value force v => exact .value force v
  | short _ flagsOk ih => exact .short ih (flagsOk.mono more)
  | full _ flagsOk ih => exact .full ih (flagsOk.mono more)
  | hash compact isHash held stored => exact .hash compact isHash (held.mono more) (stored.mono more)

end Resolution


/-! ### Loading a stored node -/

/-- A node as the hasher writes it: no cache flags anywhere in it. -/
inductive Node.Clear : Node → Prop
  | full {children : Fin 17 → Node} : (∀ i, (children i).Clear) → Node.Clear (.fullNode children {})
  | short {key : List UInt8} {val : Node} : val.Clear → Node.Clear (.shortNode key val {})
  | hash (h : List UInt8) : Node.Clear (.hashNode h)
  | value (v : List UInt8) : Node.Clear (.valueNode v)
  | nil : Node.Clear .nil

/-- The msgp reader reads back, before `toNode`'s conversions, what the writer wrote for a
node without flags, as long as the encoding is shorter than `2^32` bytes. -/
def CodecLaw (decodeMsg : List UInt8 → Except String Node) : Prop :=
  ∀ w : Node, w.Clear → (encodeNode w).length < 2 ^ 32 → decodeMsg (encodeNode w) = .ok w

def Node.isBranch : Node → Bool
  | .shortNode _ _ _ => true
  | .fullNode _ _ => true
  | _ => false

/-- What decoding reads back for a node of the minimal shape: a short or full node that
stands for it once `setNodeflag` has given it its flags. -/
def Tree.Loads (keccak : List UInt8 → List UInt8) (db : Database) (T : Tree) (N : Node) : Prop :=
  N.isBranch = true ∧ ∀ (hash : Option (List UInt8)) (gen : UInt16) (force : Bool),
    FlagsOk keccak db force { hash := hash, gen := gen } T → Resolves keccak db force (N.setNodeflag hash gen) T

section
attribute [local simp] Node.isBranch
end

namespace Tree

variable {keccak : List UInt8 → List UInt8}

theorem clear_toNode : ∀ T : Tree, T.toNode.Clear
  | nil => .nil
  | value v => .value v
  | short _ val => .short (clear_toNode val)
  | full children => .full fun i => clear_toNode (children i)

theorem clear_embed {force : Bool} {c : Node} (clear : c.Clear) : (embed keccak force c).Clear := by
  unfold embed
  split
  · exact clear
  · exact .hash _

theorem clear_collapsed : ∀ T : Tree, (T.collapsed keccak).Clear
  | nil => .nil
  | value v => .value v
  | short _ val => by
      have inner := clear_collapsed val
      apply Node.Clear.short
      cases val with
      | value v => exact .value v
      | nil => exact .value []
      | short _ _ => exact clear_embed inner
      | full _ => exact clear_embed inner
  | full children => by
      have inner := fun i => clear_collapsed (children i)
      refine .full fun i => ?_
      split
      · split
        · exact .value []
        · exact clear_embed (inner i)
      · split
        · exact .value []
        · exact clear_toNode (children i)

theorem isBranch_collapsed {T : Tree} (compact : T.Compact) : (T.collapsed keccak).isBranch = true := by
  cases T with
  | short _ _ => rfl
  | full _ => rfl
  | nil => exact compact.elim
  | value _ => exact compact.elim

/-- Below a parent, a node of the minimal shape is embedded as its collapsed node or
replaced by its hash. -/
theorem embed_cases (c : Node) :
    embed keccak false c = c ∨ embed keccak false c = .hashNode (keccak (encodeNode c)) := by
  unfold embed
  split
  · exact Or.inl rfl
  · exact Or.inr rfl

theorem hashed_ne_nil {T : Tree} (notNil : T ≠ nil) (force : Bool) :
    T.hashed keccak force = embed keccak force (T.collapsed keccak) := by
  cases T with
  | nil => exact absurd rfl notNil
  | _ => rfl

/-- A child of a node of the minimal shape, read back from its parent's encoding. -/
theorem fromWire_child {db : Database} {c : Tree} (compact : c.Compact) (stored : c.Stored keccak db)
    (childStored : c.ChildStored keccak db)
    (loads : ∃ N, (c.collapsed keccak).fromWire = some N ∧ c.Loads keccak db N) :
    ∃ Z, (embed keccak false (c.collapsed keccak)).fromWire = some Z ∧
      ∀ gen, Resolves keccak db false (Z.setNodeflag none gen) c := by
  have notNil : c ≠ nil := by
    rintro rfl
    exact compact
  obtain ⟨N, read, branch, resolves⟩ := loads
  rcases @embed_cases keccak (c.collapsed keccak) with embedded | hashedChild
  · -- embedded in the parent: decoded with it, without a hash of its own
    refine ⟨N, by rw [embedded, read], fun gen => resolves none gen false ⟨nofun, fun _ h isHash => ?_⟩⟩
    rw [hashed_ne_nil notNil, embedded] at isHash
    have := @isBranch_collapsed keccak c compact
    rw [isHash] at this
    cases this
  · -- referred to by hash: stored on its own
    refine ⟨.hashNode (keccak (encodeNode (c.collapsed keccak))), by rw [hashedChild]; rfl, fun gen => ?_⟩
    have isHash : c.hashed keccak false = .hashNode (keccak (encodeNode (c.collapsed keccak))) := by
      rw [hashed_ne_nil notNil, hashedChild]
    exact .hash compact isHash (childStored _ hashedChild) stored

/-- The nodes of the minimal shape that `Commit` stores decode back to nodes that stand
for them. -/
theorem loads_collapsed {db : Database} : ∀ {T : Tree}, T.Compact → T.Stored keccak db →
    ∃ N, (T.collapsed keccak).fromWire = some N ∧ T.Loads keccak db N
  | nil, compact, _ => compact.elim
  | value _, compact, _ => compact.elim
  | short key val, compact, stored => by
      obtain ⟨_, ⟨small, valFull, valCompact⟩ | ⟨keyTerm, v, rfl, nonempty⟩⟩ := compact
      · -- a nibble key over a full node
        have keyRead := compactToHex_hexToCompact (Or.inl small)
        obtain ⟨Z, readZ, resolvesZ⟩ := fromWire_child valCompact stored.1
          (stored.2 (by cases val <;> simp_all [isValue, isFull]) (by rintro rfl; exact valCompact))
          (loads_collapsed valCompact stored.1)
        cases val with
        | full children =>
            refine ⟨.shortNode key Z {}, ?_, rfl, fun hash gen force flagsOk => ?_⟩
            · have shape : (short key (full children)).collapsed keccak =
                  .shortNode (hexToCompact key) (embed keccak false ((full children).collapsed keccak)) {} := rfl
              rw [shape]
              simp only [Node.fromWire, keyRead, readZ]
              rfl
            · exact .short (resolvesZ gen) flagsOk
        | _ => simp [isFull] at valFull
      · -- a complete key over its value
        have keyRead := compactToHex_hexToCompact (Or.inr keyTerm)
        refine ⟨.shortNode key (.valueNode v) {}, ?_, rfl, fun hash gen force flagsOk => ?_⟩
        · simp [collapsed, Node.fromWire, keyRead, nonempty]
        · exact .short (.value false v) flagsOk
  | full children, compact, stored => by
      obtain ⟨_, inner, terminal⟩ := compact
      -- each slot is read back on its own: an empty value, a value, an embedded child or a hash
      have childLoads : ∀ i, ∃ Z, (if i.val < 16 then
            (if (children i).isNil then Node.valueNode [] else embed keccak false ((children i).collapsed keccak))
          else if (children i).isNil then Node.valueNode [] else (children i).toNode).fromWire = some Z ∧
          ∀ gen, Resolves keccak db false (Z.setNodeflag none gen) (children i) := by
        intro i
        by_cases small : i.val < 16
        · rcases inner i small with isNil | childCompact
          · refine ⟨.nil, by simp [small, isNil, Node.fromWire], fun _ => ?_⟩
            rw [isNil]
            exact .nil false
          · have notNil : children i ≠ nil := by
              intro isNil
              rw [isNil] at childCompact
              exact childCompact
            obtain ⟨Z, read, resolves⟩ := fromWire_child childCompact (stored i).1
              ((stored i).2 small notNil) (loads_collapsed childCompact (stored i).1)
            have nonNil : (children i).isNil = false := by simpa using notNil
            exact ⟨Z, by simp only [small, if_true, nonNil, Bool.false_eq_true, if_false]; exact read, resolves⟩
        · have last : i = 16 := by ext; simp; omega
          subst last
          rcases terminal with isNil | ⟨v, isValue, nonempty⟩
          · refine ⟨.nil, by simp [isNil, Node.fromWire], fun _ => ?_⟩
            rw [isNil]
            exact .nil false
          · refine ⟨.valueNode v, by simp [isValue, toNode, Node.fromWire, nonempty, isNil], fun _ => ?_⟩
            rw [isValue]
            exact .value false v
      choose Z read resolves using childLoads
      refine ⟨.fullNode Z {}, ?_, rfl, fun hash gen force flagsOk => .full (fun i => resolves i gen) flagsOk⟩
      have present : ∀ i, ((if i.val < 16 then
            (if (children i).isNil then Node.valueNode [] else embed keccak false ((children i).collapsed keccak))
          else if (children i).isNil then Node.valueNode [] else (children i).toNode).fromWire).isSome := by
        intro i
        rw [read i]
        rfl
      simp only [collapsed, Node.fromWire, dif_pos present]
      congr 2
      funext i
      simp [read i]

end Tree


theorem encodeNode_ne_nil (n : Node) : encodeNode n ≠ [] := by
  unfold encodeNode Msgp.writeIntf
  cases fromNode n with
  | none => simp
  | some b => exact Msgp.writeBytes_ne_nil b

theorem isBranch_setNodeflag {N : Node} (branch : N.isBranch = true) (hash : Option (List UInt8))
    (gen : UInt16) : (N.setNodeflag hash gen).isBranch = true := by
  cases N <;> simp_all [Node.isBranch, Node.setNodeflag]

section Loading

variable {keccak : List UInt8 → List UInt8} {decodeMsg : List UInt8 → Except String Node}

/-- `resolveHash` on the hash of a stored node of the minimal shape loads a short or full
node that stands for it, with that hash cached and clean. -/
theorem resolveHash_loads (codec : CodecLaw decodeMsg) {db : Database} {force : Bool} {h : List UInt8}
    {T : Tree} (compact : T.Compact) (isHash : T.hashed keccak force = .hashNode h)
    (storedAt : T.StoredAt keccak db h) (stored : T.Stored keccak db) (cachegen : UInt16)
    (pre : List UInt8) :
    ∃ N, resolveHash decodeMsg db cachegen h pre = .ok N ∧ N.isBranch = true ∧
      Resolves keccak db force N T := by
  obtain ⟨N, read, branch, loads⟩ := Tree.loads_collapsed compact stored
  have decoded : decodeMsg (encodeNode (T.collapsed keccak)) = .ok (T.collapsed keccak) :=
    codec _ (Tree.clear_collapsed T) storedAt.2
  refine ⟨N.setNodeflag (some h) cachegen, ?_, isBranch_setNodeflag branch _ _,
    loads (some h) cachegen force ⟨fun h' same => ?_, fun _ => ⟨storedAt, stored⟩⟩⟩
  · simp [resolveHash, storedAt.1, decodeNode, encodeNode_ne_nil, decoded, read]
  · cases same
    exact isHash

/-- A hash node is loaded by `resolveHash` as a node that stands for the same tree. -/
theorem Resolves.resolveHash {db : Database} {force : Bool} {h : List UInt8} {T : Tree}
    (codec : CodecLaw decodeMsg) (resolves : Resolves keccak db force (.hashNode h) T)
    (cachegen : UInt16) (pre : List UInt8) :
    ∃ N, Mjoy.Trie.resolveHash decodeMsg db cachegen h pre = .ok N ∧ N.isBranch = true ∧
      Resolves keccak db force N T := by
  cases resolves with
  | hash compact isHash storedAt stored => exact resolveHash_loads codec compact isHash storedAt stored cachegen pre

end Loading

end Mjoy.Trie
