import Mjoy.Trie.Commit

/-!
The trie as a map from keys to values. `Tree.Holds T m` says that `T` holds `m k` at the hex
path of every key `k` and nothing at any other path. Each call of the `Trie` API keeps a
trie that stands for a tree of the minimal shape, and changes the map that tree holds as
`TryUpdate`, `TryDelete` and `Commit` say; `New` at a committed root loads what was committed.
-/

set_option linter.dupNamespace false

namespace Mjoy.Trie

open KeyValue

/-- The key-value map a trie holds. -/
abbrev KeyMap := Store (List UInt8) (List UInt8)

namespace Tree

/-- `T` holds the value `m k` under every key `k`, and no value at a path that is not the
hex form of a key. -/
def Holds (T : Tree) (m : KeyMap) : Prop :=
  (∀ k, T.get (keybytesToHex k) = some (m k)) ∧
  ∀ path, Terminated path → (∀ k, keybytesToHex k ≠ path) → T.get path = some none

theorem holds_nil : nil.Holds Store.empty :=
  ⟨fun _ => rfl, fun _ _ _ => rfl⟩

/-- An update at the hex path of `k` changes the map at `k` alone. -/
theorem Holds.updated {T U : Tree} {m : KeyMap} {k : List UInt8} {result : Option (List UInt8)}
    (holds : T.Holds m) (updated : Updated T U (keybytesToHex k) result) :
    U.Holds fun key => if key = k then result else m key := by
  constructor
  · intro key
    rw [updated _ (keybytesToHex_terminated key)]
    by_cases same : key = k
    · simp [same]
    · have differ : keybytesToHex key ≠ keybytesToHex k := fun equal => same (keybytesToHex_injective equal)
      simp only [if_neg differ, if_neg same]
      exact holds.1 key
  · intro path term notKey
    rw [updated path term, if_neg (notKey k).symm]
    exact holds.2 path term notKey

theorem Holds.put {T U : Tree} {m : KeyMap} {k v : List UInt8} (holds : T.Holds m)
    (updated : Updated T U (keybytesToHex k) (some v)) : U.Holds (m.put k v) :=
  holds.updated updated

theorem Holds.erase {T U : Tree} {m : KeyMap} {k : List UInt8} (holds : T.Holds m)
    (updated : Updated T U (keybytesToHex k) none) : U.Holds (m.erase k) :=
  holds.updated updated

theorem Holds.agree {T U : Tree} {m : KeyMap} (holds : T.Holds m) (other : U.Holds m) : Agree T U := by
  intro path term
  by_cases isKey : ∃ k, keybytesToHex k = path
  · obtain ⟨k, rfl⟩ := isKey
    rw [holds.1 k, other.1 k]
  · push Not at isKey
    rw [holds.2 path term isKey, other.2 path term isKey]

/-- A tree of the minimal shape is determined by the map it holds. -/
theorem Holds.unique {T U : Tree} {m : KeyMap} (canonical : T.Canonical) (otherCanonical : U.Canonical)
    (holds : T.Holds m) (other : U.Holds m) : T = U :=
  eq_of_agree canonical otherCanonical (holds.agree other)

/-- A tree of the minimal shape is empty exactly when the map it holds is. -/
theorem Holds.nil_iff {T : Tree} {m : KeyMap} (canonical : T.Canonical) (holds : T.Holds m) :
    T = nil ↔ m = Store.empty := by
  constructor
  · rintro rfl
    funext k
    have := holds.1 k
    simp only [get_nil, Option.some.injEq] at this
    exact this.symm
  · rintro rfl
    rcases canonical with isNil | compact
    · exact isNil
    · -- a node of the minimal shape holds some value, which the empty map has not
      obtain ⟨path, found, term, held⟩ := compact.exists_value
      by_cases isKey : ∃ k, keybytesToHex k = path
      · obtain ⟨k, rfl⟩ := isKey
        rw [holds.1 k] at held
        cases held
      · push Not at isKey
        rw [holds.2 path term isKey] at held
        cases held

end Tree

/-! ### The hash of a trie -/

/-- What the run needs of the hash function: it never gives the zero hash, and gives
`emptyRoot` only for the encoding of the empty string, `0x80`. -/
def HashAvoids (keccak : List UInt8 → List UInt8) : Prop :=
  ∀ e, keccak e ≠ zeroHash ∧ (keccak e = emptyRoot → e = [0x80])

theorem encodeNode_ne_emptyString (n : Node) : encodeNode n ≠ [0x80] := by
  unfold encodeNode Msgp.writeIntf
  cases fromNode n with
  | none => decide
  | some b =>
      obtain ⟨tag, rest, written, notTag⟩ := Msgp.writeBytes_head b
      show Msgp.writeBytes b ≠ [0x80]
      rw [written]
      intro same
      exact notTag (List.cons.inj same).1

section Roots

variable {keccak : List UInt8 → List UInt8}

theorem Tree.rootHash_of_ne_nil {T : Tree} (notNil : T ≠ .nil) :
    T.rootHash keccak = keccak (encodeNode (T.collapsed keccak)) := by
  cases T with
  | nil => exact absurd rfl notNil
  | _ => rfl

/-- At the root a node is always replaced by its hash, which is the trie's root hash. -/
theorem Tree.hashed_root {T : Tree} (notNil : T ≠ .nil) : T.hashed keccak true = .hashNode (T.rootHash keccak) := by
  rw [Tree.hashed_ne_nil notNil, Tree.rootHash_of_ne_nil notNil]
  simp [Tree.embed]

theorem Tree.rootHash_ne {T : Tree} (avoids : HashAvoids keccak) (notNil : T ≠ .nil) :
    T.rootHash keccak ≠ zeroHash ∧ T.rootHash keccak ≠ emptyRoot := by
  rw [Tree.rootHash_of_ne_nil notNil]
  exact ⟨(avoids _).1, fun isEmpty => encodeNode_ne_emptyString _ ((avoids _).2 isEmpty)⟩

/-- The root hash of a tree of the minimal shape is `emptyRoot` exactly when it is empty. -/
theorem Tree.rootHash_eq_emptyRoot {T : Tree} (avoids : HashAvoids keccak) :
    T.rootHash keccak = emptyRoot ↔ T = .nil := by
  constructor
  · intro isEmpty
    by_contra notNil
    exact (Tree.rootHash_ne avoids notNil).2 isEmpty
  · rintro rfl
    rfl

end Roots

/-! ### The calls of the `Trie` API -/

/-- The trie's root stands for `T`, a tree of the minimal shape, over `db`. -/
def Trie.Stands (keccak : List UInt8 → List UInt8) (db : Database) (t : Trie) (T : Tree) : Prop :=
  T.Canonical ∧ Resolves keccak db true t.root T

/-- The root a commit returned stands for `Tc` over `db`: an empty tree at the zero hash or
`emptyRoot`, and otherwise its root hash, under which it is stored with all it needs. -/
def Committed (keccak : List UInt8 → List UInt8) (db : Database) (root : List UInt8) (Tc : Tree) : Prop :=
  Tc.Canonical ∧ (Tc = .nil → root = zeroHash ∨ root = emptyRoot) ∧
    (Tc ≠ .nil → root = Tc.rootHash keccak ∧ Tc.StoredAt keccak db root ∧ Tc.Stored keccak db)

theorem Committed.mono {keccak : List UInt8 → List UInt8} {db db' : Database} (more : Store.Extends db db')
    {root : List UInt8} {Tc : Tree} (committed : Committed keccak db root Tc) : Committed keccak db' root Tc := by
  obtain ⟨canonical, empty, stored⟩ := committed
  refine ⟨canonical, empty, fun notNil => ?_⟩
  obtain ⟨rootEq, storedAt, storedT⟩ := stored notNil
  exact ⟨rootEq, storedAt.mono more, storedT.mono more⟩

section Api

variable {keccak : List UInt8 → List UInt8} {decodeMsg : List UInt8 → Except String Node}
  (codec : CodecLaw decodeMsg) {db : Database}

include codec in
/-- `TryGet` returns the value the map holds, and keeps a trie that stands for the same tree. -/
theorem Trie.tryGet_spec {t : Trie} {T : Tree} {m : KeyMap} (stands : t.Stands keccak db T) (holds : T.Holds m)
    (key : List UInt8) :
    ∃ t', t.tryGet decodeMsg db key = .ok (m key, t') ∧ t'.Stands keccak db T := by
  obtain ⟨n', resolved, run, resolves⟩ := tryGet_refines codec t.cachegen (keybytesToHex key) (fuelFor (keybytesToHex key))
    t.root T 0 true stands.2 stands.1.fits
    (by have := Node.calls_le_two t.root; simp only [fuelFor]; omega) (m key) (by simpa using holds.1 key)
  cases resolved with
  | false => exact ⟨t, by simp [Trie.tryGet, run], stands⟩
  | true => exact ⟨{ t with root := n' }, by simp [Trie.tryGet, run], stands.1, resolves⟩

include codec in
/-- Inserting a non-empty value at the hex path of `key`. -/
theorem Trie.insert_spec {t : Trie} {T : Tree} {m : KeyMap} (stands : t.Stands keccak db T) (holds : T.Holds m)
    (key : List UInt8) {value : List UInt8} (nonempty : value ≠ []) :
    ∃ n U, Mjoy.Trie.insert decodeMsg db t.cachegen (fuelFor (keybytesToHex key)) t.root []
      (keybytesToHex key) (.valueNode value) = .ok n ∧
      Trie.Stands keccak db { t with root := n.2 } U ∧ U.Holds (m.put key value) := by
  obtain ⟨dirty, U, inserted, _, compact, _, updated⟩ :=
    Tree.insert_spec nonempty T (keybytesToHex key) stands.1 (keybytesToHex_terminated key)
  obtain ⟨nn, run, resolves⟩ := insert_refines t.cachegen codec (fuelFor (keybytesToHex key)) t.root T [] (keybytesToHex key) true
    (.valueNode value) (.value value) dirty U stands.2 stands.1.fits (fun f => .value f value)
    (by have := Node.calls_le_two t.root; simp only [fuelFor]; omega) inserted
  exact ⟨(dirty, nn), U, run, ⟨Or.inr compact, resolves⟩, holds.put updated⟩

include codec in
/-- Deleting at the hex path of `key`. -/
theorem Trie.delete_spec {t : Trie} {T : Tree} {m : KeyMap} (stands : t.Stands keccak db T) (holds : T.Holds m)
    (key : List UInt8) :
    ∃ n U, Mjoy.Trie.delete decodeMsg db t.cachegen (fuelFor (keybytesToHex key)) t.root []
      (keybytesToHex key) = .ok n ∧ Trie.Stands keccak db { t with root := n.2 } U ∧ U.Holds (m.erase key) := by
  obtain ⟨dirty, U, deleted, _, canonical, _, updated⟩ :=
    Tree.delete_spec T (keybytesToHex key) stands.1 (keybytesToHex_terminated key)
  obtain ⟨nn, run, resolves, _⟩ := delete_refines t.cachegen codec (fuelFor (keybytesToHex key)) t.root T [] (keybytesToHex key) true dirty U
    stands.2 stands.1.fits (by have := Node.calls_le_two t.root; simp only [fuelFor]; omega) deleted
  exact ⟨(dirty, nn), U, run, ⟨canonical, resolves⟩, holds.erase updated⟩

include codec in
/-- `TryUpdate` with a non-empty value sets the key; with an empty one it deletes it. -/
theorem Trie.tryUpdate_spec {t : Trie} {T : Tree} {m : KeyMap} (stands : t.Stands keccak db T)
    (holds : T.Holds m) (key value : List UInt8) :
    ∃ t' U, t.tryUpdate decodeMsg db key value = .ok t' ∧ t'.Stands keccak db U ∧
      U.Holds (if value = [] then m.erase key else m.put key value) := by
  by_cases empty : value = []
  · obtain ⟨⟨_, nn⟩, U, run, standsU, holdsU⟩ := Trie.delete_spec codec stands holds key
    refine ⟨_, U, ?_, standsU, by simpa [empty] using holdsU⟩
    subst empty
    simp [Trie.tryUpdate, run]
  · obtain ⟨⟨_, nn⟩, U, run, standsU, holdsU⟩ := Trie.insert_spec codec stands holds key empty
    refine ⟨_, U, ?_, standsU, by simpa [empty] using holdsU⟩
    have length : value.length ≠ 0 := by simpa using empty
    simp [Trie.tryUpdate, length, run]

include codec in
/-- `Update` never fails on a trie that stands for a tree: it does what `TryUpdate` does. -/
theorem Trie.update_spec {t : Trie} {T : Tree} {m : KeyMap} (stands : t.Stands keccak db T)
    (holds : T.Holds m) (key value : List UInt8) :
    ∃ U, (t.update decodeMsg db key value).Stands keccak db U ∧
      U.Holds (if value = [] then m.erase key else m.put key value) := by
  obtain ⟨t', U, run, standsU, holdsU⟩ := Trie.tryUpdate_spec codec stands holds key value
  refine ⟨U, ?_, holdsU⟩
  rw [Trie.update, run]
  exact standsU

include codec in
theorem Trie.tryDelete_spec {t : Trie} {T : Tree} {m : KeyMap} (stands : t.Stands keccak db T)
    (holds : T.Holds m) (key : List UInt8) :
    ∃ t' U, t.tryDelete decodeMsg db key = .ok t' ∧ t'.Stands keccak db U ∧ U.Holds (m.erase key) := by
  obtain ⟨⟨_, nn⟩, U, run, standsU, holdsU⟩ := Trie.delete_spec codec stands holds key
  exact ⟨_, U, by simp [Trie.tryDelete, run], standsU, holdsU⟩

end Api

section Hash

variable {keccak : List UInt8 → List UInt8} {db : Database}

/-- `Hash()` returns the root hash of the tree the trie stands for, and keeps a trie that
stands for it. -/
theorem Trie.hash_spec {t : Trie} {T : Tree} (stands : t.Stands keccak db T) :
    ∃ t', t.hash keccak = .ok (T.rootHash keccak, t') ∧ t'.Stands keccak db T := by
  rcases stands.1 with rfl | compact
  · have rootNil := stands.2.nil_inv
    exact ⟨{ t with root := .nil }, by simp [Trie.hash, Trie.hashRoot, rootNil, Node.isNil, Tree.rootHash,
      Tree.isNil], stands.1, .nil true⟩
  · have notNil : T ≠ .nil := by
      rintro rfl
      exact compact
    have rootNil : t.root.isNil = false := by
      rw [stands.2.isNil_eq]
      simpa using notNil
    obtain ⟨hashed, cached, written, run, grows, hashedEq, kept⟩ :=
      hash_refines (Store.Extends.refl db) t.cachegen t.cachelimit stands.2 compact none
    rw [Tree.hashed_root notNil, erase_eq_hashNode] at hashedEq
    have noWrites := grows.none
    subst noWrites
    exact ⟨{ t with root := cached }, by simp [Trie.hash, Trie.hashRoot, rootNil, run, hashedEq], stands.1,
      (kept fun _ member => by simp at member).1⟩

/-- `CommitTo(db)` returns the root hash and the writes it made. Once they are in a database
that keeps every one of them, the trie stands for the same tree there, and the root it
returned is committed. -/
theorem Trie.commitTo_spec {t : Trie} {T : Tree} (stands : t.Stands keccak db T) :
    ∃ t' writes, t.commitTo keccak = .ok (T.rootHash keccak, t', writes) ∧
      (Store.Consistent db writes → (∀ w ∈ writes, w.2.length < 2 ^ 32) →
        t'.Stands keccak (db.putAll writes) T ∧ Committed keccak (db.putAll writes) (T.rootHash keccak) T) := by
  rcases stands.1 with rfl | compact
  · have rootNil := stands.2.nil_inv
    refine ⟨{ t with root := .nil, cachegen := t.cachegen + 1 }, [], ?_, fun _ _ => ⟨⟨stands.1, .nil true⟩,
      stands.1, fun _ => Or.inr rfl, fun notNil => absurd rfl notNil⟩⟩
    simp [Trie.commitTo, Trie.hashRoot, rootNil, Node.isNil, Tree.rootHash, Tree.isNil]
  · have notNil : T ≠ .nil := by
      rintro rfl
      exact compact
    have rootNil : t.root.isNil = false := by
      rw [stands.2.isNil_eq]
      simpa using notNil
    obtain ⟨hashed, cached, written, run, grows, hashedEq, -⟩ :=
      hash_refines (Store.Extends.refl db) t.cachegen t.cachelimit stands.2 compact (some [])
    obtain ⟨writes, rfl, -⟩ := grows.some
    rw [Tree.hashed_root notNil, erase_eq_hashNode] at hashedEq
    subst hashedEq
    refine ⟨{ t with root := cached, cachegen := t.cachegen + 1 }, writes,
      by simp [Trie.commitTo, Trie.hashRoot, rootNil, run], fun consistent short => ?_⟩
    -- the same call, read over the database the writes went to
    obtain ⟨hashed', cached', written', run', -, -, kept⟩ :=
      hash_refines (Store.putAll_extends consistent) t.cachegen t.cachelimit stands.2 compact (some [])
    rw [run] at run'
    simp only [Except.ok.injEq, Prod.mk.injEq] at run'
    obtain ⟨-, rfl, rfl⟩ := run'
    have holds : WritesIn (db.putAll writes) (some writes) := fun w member =>
      ⟨Store.putAll_holds consistent w member, short w member⟩
    obtain ⟨resolves, stored⟩ := kept holds
    obtain ⟨storedT, storedAt⟩ := stored rfl
    exact ⟨⟨stands.1, resolves⟩, stands.1, fun isNil => absurd isNil notNil,
      fun _ => ⟨rfl, storedAt _ (Tree.hashed_root notNil), storedT⟩⟩

end Hash

section Open

variable {keccak : List UInt8 → List UInt8} {decodeMsg : List UInt8 → Except String Node}
  (codec : CodecLaw decodeMsg) {db : Database}

include codec in
/-- `New(root, db)` at a committed root loads a trie that stands for what was committed. -/
theorem Trie.new_spec (avoids : HashAvoids keccak) {root : List UInt8} {Tc : Tree}
    (committed : Committed keccak db root Tc) :
    ∃ t, Trie.new decodeMsg db root = .ok t ∧ t.Stands keccak db Tc := by
  obtain ⟨canonical, empty, stored⟩ := committed
  by_cases isNil : Tc = .nil
  · subst isNil
    refine ⟨{ root := .nil }, ?_, canonical, .nil true⟩
    rcases empty rfl with rfl | rfl <;> simp [Trie.new]
  · obtain ⟨rfl, storedAt, storedTc⟩ := stored isNil
    have compact := canonical.resolve_left isNil
    obtain ⟨N, load, _, resolves⟩ :=
      resolveHash_loads codec compact (Tree.hashed_root isNil) storedAt storedTc 0 []
    obtain ⟨notZero, notEmpty⟩ := Tree.rootHash_ne avoids isNil
    exact ⟨{ root := N }, by simp [Trie.new, notZero, notEmpty, load], canonical, resolves⟩

end Open

end Mjoy.Trie
