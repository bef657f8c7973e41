import Mjoy.Trie.Resolve

/-!
The concrete `tryGet`, `insert` and `delete` of `trie.go` refine `Tree.get`, `Tree.insert`
and `Tree.delete`: on a node that stands for a tree over the database, whenever the tree
operation succeeds the concrete one succeeds with the same result, within the recursion
depth `fuelFor` gives, and leaves a node that stands for the new tree.
-/

namespace Mjoy.Trie

open KeyValue

/-- The calls `tryGet`, `insert` and `delete` spend at a node before they read its key:
a hash node is loaded by a call of its own. -/
def Node.calls : Node → Nat
  | .hashNode _ => 2
  | _ => 1

-- Equation lemmas of the definitions above, made once here rather than by the proofs below
-- that unfold them in parallel.
section
attribute [local simp] Node.calls
end

theorem Node.calls_le_two (n : Node) : n.calls ≤ 2 := by
  cases n <;> simp [Node.calls]

namespace Tree

/-- What stands at a position of a trie of the minimal shape: nothing, a stored value,
or a node of the minimal shape. -/
def Fits (t : Tree) : Prop :=
  t = nil ∨ t.IsValue ∨ t.Compact

theorem Canonical.fits {t : Tree} (canonical : t.Canonical) : t.Fits :=
  canonical.elim Or.inl fun compact => Or.inr (Or.inr compact)

theorem Fits.of_short {key : List UInt8} {val : Tree} (fits : (short key val).Fits) :
    (short key val).Compact := by
  rcases fits with isNil | ⟨_, isValue, _⟩ | compact
  · cases isNil
  · cases isValue
  · exact compact

theorem Fits.of_full {children : Fin 17 → Tree} (fits : (full children).Fits) :
    (full children).Compact := by
  rcases fits with isNil | ⟨_, isValue, _⟩ | compact
  · cases isNil
  · cases isValue
  · exact compact

theorem Compact.short_key {key : List UInt8} {val : Tree} (compact : (short key val).Compact) :
    key ≠ [] :=
  compact.1

theorem Compact.short_val {key : List UInt8} {val : Tree} (compact : (short key val).Compact) :
    val.Fits := by
  rcases compact.2 with ⟨_, _, valCompact⟩ | ⟨_, isValue⟩
  · exact Or.inr (Or.inr valCompact)
  · exact Or.inr (Or.inl isValue)

theorem Compact.full_child {children : Fin 17 → Tree} (compact : (full children).Compact) (i : Fin 17) :
    (children i).Fits := by
  obtain ⟨_, inner, terminal⟩ := compact
  by_cases small : i.val < 16
  · rcases inner i small with isNil | childCompact
    · exact Or.inl isNil
    · exact Or.inr (Or.inr childCompact)
  · have last : i = 16 := by ext; simp; omega
    subst last
    rcases terminal with isNil | isValue
    · exact Or.inl isNil
    · exact Or.inr (Or.inl isValue)

end Tree

section Flags

variable {keccak : List UInt8 → List UInt8} {db : Database}

/-- A node just made holds no hash and is dirty, so nothing is claimed about it. -/
theorem flagsOk_newFlag (cachegen : UInt16) (force : Bool) (T : Tree) :
    FlagsOk keccak db force (newFlag cachegen) T :=
  ⟨nofun, nofun⟩

theorem Resolves.short_new {force : Bool} {key : List UInt8} {val : Node} {T : Tree}
    (below : Resolves keccak db false val T) (cachegen : UInt16) :
    Resolves keccak db force (.shortNode key val (newFlag cachegen)) (.short key T) :=
  .short below (flagsOk_newFlag cachegen force _)

theorem Resolves.full_new {force : Bool} {children : Fin 17 → Node} {T : Fin 17 → Tree}
    (below : ∀ i, Resolves keccak db false (children i) (T i)) (cachegen : UInt16) :
    Resolves keccak db force (.fullNode children (newFlag cachegen)) (.full T) :=
  .full below (flagsOk_newFlag cachegen force _)

theorem Resolves.update {children : Fin 17 → Node} {T : Fin 17 → Tree}
    (below : ∀ i, Resolves keccak db false (children i) (T i)) {i : Fin 17} {nn : Node} {U : Tree}
    (changed : Resolves keccak db false nn U) :
    ∀ j, Resolves keccak db false (Function.update children i nn j) (Function.update T i U j) := by
  intro j
  by_cases same : j = i
  · subst same
    simp only [Function.update_self]
    exact changed
  · simp only [Function.update_of_ne same]
    exact below j

theorem Resolves.value_inv {force : Bool} {n : Node} {w : List UInt8}
    (resolves : Resolves keccak db force n (.value w)) : n = .valueNode w := by
  cases resolves with
  | value => rfl
  | hash compact => exact compact.elim

theorem Resolves.nil_inv {force : Bool} {n : Node} (resolves : Resolves keccak db force n .nil) :
    n = .nil := by
  cases resolves with
  | nil => rfl
  | hash compact => exact compact.elim

end Flags

theorem childIndex_some {b : UInt8} {i : Fin 17} (found : slot b = some i) :
    childIndex (some b) = .ok i := by
  simp [childIndex, found]

theorem drop_eq_cons {key rest : List UInt8} {pos : Nat} {b : UInt8} (split : key.drop pos = b :: rest) :
    key[pos]? = some b ∧ key.drop (pos + 1) = rest := by
  constructor
  · rw [← List.head?_drop, split]
    rfl
  · rw [← List.drop_drop, split]
    rfl

section Lookup

variable {keccak : List UInt8 → List UInt8} {decodeMsg : List UInt8 → Except String Node}
  (codec : CodecLaw decodeMsg) {db : Database} (cachegen : UInt16) (key : List UInt8)

include codec in
/-- `tryGet` refines `Tree.get`. The recursion is on the fuel; each call either reads at
least one nibble or loads a hash node into a short or full node. -/
theorem tryGet_refines : ∀ (fuel : Nat) (n : Node) (T : Tree) (pos : Nat) (force : Bool),
    Resolves keccak db force n T → T.Fits → 2 * (key.length - pos) + n.calls ≤ fuel →
    ∀ value, T.get (key.drop pos) = some value →
    ∃ n' resolved, tryGet decodeMsg db cachegen fuel n key pos = .ok (value, n', resolved) ∧
      Resolves keccak db force n' T
  | 0, n, _, _, _, _, _, bound, _, _ => by
      have := Node.calls_le_two n
      cases n <;> simp [Node.calls] at bound
  | fuel + 1, _, _, pos, force, resolves, fits, bound, value, found => by
      cases resolves with
      | nil =>
          simp only [Tree.get_nil, Option.some.injEq] at found
          subst found
          exact ⟨.nil, false, rfl, .nil force⟩
      | value _ v =>
          simp only [Tree.get_value, Option.some.injEq] at found
          subst found
          exact ⟨.valueNode v, false, rfl, .value force v⟩
      | @short _ nkey val flags Tval below flagsOk =>
          have compact := fits.of_short
          have nonempty := compact.short_key
          by_cases mismatch : key.length - pos < nkey.length ∨ nkey ≠ (key.drop pos).take nkey.length
          · -- the key leaves the short node's key: nothing is stored under it
            have absent : (Tree.short nkey Tval).get (key.drop pos) = some none := by
              simp only [Tree.get, List.length_drop]
              rw [if_pos (mismatch.imp id Ne.symm)]
            rw [absent, Option.some.injEq] at found
            subst found
            exact ⟨_, false, by simp [tryGet, mismatch], .short below flagsOk⟩
          · have matched : ¬((key.drop pos).length < nkey.length ∨ (key.drop pos).take nkey.length ≠ nkey) := by
              simpa [eq_comm] using mismatch
            have inner : Tval.get (key.drop (pos + nkey.length)) = some value := by
              simpa only [Tree.get, if_neg matched, List.drop_drop] using found
            have long : nkey.length ≤ key.length - pos := by omega
            have keyLength : 0 < nkey.length := List.length_pos_iff.mpr nonempty
            obtain ⟨n', resolved, run, resolves'⟩ := tryGet_refines fuel val Tval (pos + nkey.length) false
              below compact.short_val (by have := Node.calls_le_two val; simp only [Node.calls] at bound; omega)
              value inner
            cases resolved with
            | false => exact ⟨_, false, by simp [tryGet, mismatch, run], .short below flagsOk⟩
            | true =>
                exact ⟨.shortNode nkey n' { flags with gen := cachegen }, true, by simp [tryGet, mismatch, run],
                  .short resolves' flagsOk⟩
      | @full _ children flags Tchildren below flagsOk =>
          have compact := fits.of_full
          cases rest : key.drop pos with
          | nil => simp [rest, Tree.get] at found
          | cons b tail =>
              obtain ⟨atPos, tailEq⟩ := drop_eq_cons rest
              cases slotEq : slot b with
              | none => simp [rest, Tree.get, slotEq] at found
              | some i =>
                  have inner : (Tchildren i).get (key.drop (pos + 1)) = some value := by
                    simpa [rest, Tree.get, slotEq, tailEq] using found
                  have long : pos < key.length := by
                    by_contra short
                    simp [List.drop_eq_nil_of_le (Nat.le_of_not_lt short)] at rest
                  obtain ⟨n', resolved, run, resolves'⟩ := tryGet_refines fuel (children i) (Tchildren i)
                    (pos + 1) false (below i) (compact.full_child i)
                    (by have := Node.calls_le_two (children i); simp only [Node.calls] at bound; omega)
                    value inner
                  cases resolved with
                  | false =>
                      exact ⟨_, false, by simp [tryGet, atPos, childIndex_some slotEq, run], .full below flagsOk⟩
                  | true =>
                      refine ⟨.fullNode (Function.update children i n') { flags with gen := cachegen }, true,
                        by simp [tryGet, atPos, childIndex_some slotEq, run], ?_⟩
                      have updated := Resolves.update (i := i) below resolves'
                      rw [Function.update_eq_self] at updated
                      exact .full updated flagsOk
      | hash compact isHash storedAt stored =>
          -- the loaded node is a short or full node, looked up with the next unit of fuel
          obtain ⟨N, load, branch, resolvesN⟩ :=
            resolveHash_loads codec compact isHash storedAt stored cachegen (key.take pos)
          have callsN : N.calls = 1 := by cases N <;> simp_all [Node.isBranch, Node.calls]
          obtain ⟨n', _, run, resolves'⟩ := tryGet_refines fuel N _ pos force resolvesN fits
            (by simp only [Node.calls] at bound; omega) value found
          exact ⟨n', true, by simp [tryGet, load, run], resolves'⟩

end Lookup

namespace Tree

/-- `insert` reports a clean result only when it gives back the node it was called on. -/
theorem insert_clean {T U V : Tree} {key : List UInt8} (clean : T.insert key V = some (false, U)) : U = T := by
  fun_cases Tree.insert T key V <;> simp_all +zetaDelta [Tree.insert]

theorem delete_clean {T U : Tree} {key : List UInt8} (clean : T.delete key = some (false, U)) : U = T := by
  fun_cases Tree.delete T key <;> simp_all +zetaDelta [Tree.delete]
  -- a short node whose key is longer than what is left of the path
  split at clean <;> simp_all

theorem insert_end {T : Tree} (notValue : ∀ v, T ≠ value v) (V : Tree) : T.insert [] V = some (true, V) := by
  cases T <;> simp_all [Tree.insert]

end Tree

theorem childIndex_eq_ok {b : Option UInt8} {i : Fin 17} (found : b.bind slot = some i) :
    childIndex b = .ok i := by
  simp [childIndex, found]

section Insertion

variable {keccak : List UInt8 → List UInt8} {decodeMsg : List UInt8 → Except String Node}
  {db : Database} (cachegen : UInt16)

variable (keccak decodeMsg db) in
/-- `insert` with `fuel` calls refines `Tree.insert` on every node and value that stand
for trees, for keys short enough for the fuel. -/
def InsertRefines (fuel : Nat) : Prop :=
  ∀ (n : Node) (T : Tree) (pre key : List UInt8) (force : Bool) (value : Node) (V : Tree)
    (dirty : Bool) (U : Tree),
    Resolves keccak db force n T → T.Fits → (∀ f, Resolves keccak db f value V) →
    2 * key.length + n.calls ≤ fuel → T.insert key V = some (dirty, U) →
    ∃ nn, insert decodeMsg db cachegen fuel n pre key value = .ok (dirty, nn) ∧
      Resolves keccak db force nn U

variable (decodeMsg) in
/-- Inserting into a nil child, as the split of a short node does for both halves. -/
theorem insert_nil_leaf (fuel : Nat) (pre rest : List UInt8) {value : Node} {V : Tree}
    (resolves : Resolves keccak db false value V) :
    ∃ nn, insert decodeMsg db cachegen (fuel + 1) .nil pre rest value = .ok (true, nn) ∧
      Resolves keccak db false nn (Tree.leaf rest V) := by
  by_cases empty : rest = []
  · subst empty
    exact ⟨value, by simp [insert], by simpa [Tree.leaf] using resolves⟩
  · refine ⟨.shortNode rest value (newFlag cachegen), by simp [insert, empty], ?_⟩
    rw [Tree.leaf, if_neg empty]
    exact resolves.short_new cachegen

/-- Insertion where the key is used up: the value replaces the node, and a value node
is only replaced by a value node. -/
theorem insert_at_end (fuel : Nat) (pre : List UInt8) {n : Node} {T : Tree} {force : Bool}
    (resolves : Resolves keccak db force n T) {value : Node} {V : Tree}
    (valueOk : ∀ f, Resolves keccak db f value V) {dirty : Bool} {U : Tree}
    (inserted : T.insert [] V = some (dirty, U)) :
    ∃ nn, insert decodeMsg db cachegen (fuel + 1) n pre [] value = .ok (dirty, nn) ∧
      Resolves keccak db force nn U := by
  cases resolves with
  | value _ v =>
      cases V with
      | value w =>
          obtain rfl := (valueOk false).value_inv
          simp only [Tree.insert, Option.some.injEq, Prod.mk.injEq] at inserted
          obtain ⟨rfl, rfl⟩ := inserted
          exact ⟨.valueNode w, by simp [insert], .value force w⟩
      | _ => simp [Tree.insert] at inserted
  | nil =>
      simp only [Tree.insert, Option.some.injEq, Prod.mk.injEq] at inserted
      obtain ⟨rfl, rfl⟩ := inserted
      exact ⟨value, by simp [insert], valueOk force⟩
  | short =>
      simp only [Tree.insert, Option.some.injEq, Prod.mk.injEq] at inserted
      obtain ⟨rfl, rfl⟩ := inserted
      exact ⟨value, by simp [insert], valueOk force⟩
  | full =>
      simp only [Tree.insert, Option.some.injEq, Prod.mk.injEq] at inserted
      obtain ⟨rfl, rfl⟩ := inserted
      exact ⟨value, by simp [insert], valueOk force⟩
  | hash compact =>
      have notValue : ∀ v, T ≠ .value v := by
        rintro v rfl
        exact compact
      rw [Tree.insert_end notValue, Option.some.injEq, Prod.mk.injEq] at inserted
      obtain ⟨rfl, rfl⟩ := inserted
      exact ⟨value, by simp [insert], valueOk force⟩

/-- One call of `insert` on a short node, given what the calls below it do. -/
theorem insert_short_step {fuel : Nat} (ih : InsertRefines keccak decodeMsg db cachegen fuel)
    {nkey : List UInt8} {val : Node} {flags : NodeFlag} {Tval : Tree} {force : Bool}
    (below : Resolves keccak db false val Tval) (flagsOk : FlagsOk keccak db force flags (.short nkey Tval))
    (compact : (Tree.short nkey Tval).Compact) (pre : List UInt8) {b : UInt8} {rest : List UInt8}
    {value : Node} {V : Tree} (valueOk : ∀ f, Resolves keccak db f value V)
    (bound : 2 * (b :: rest).length ≤ fuel) {dirty : Bool} {U : Tree}
    (inserted : (Tree.short nkey Tval).insert (b :: rest) V = some (dirty, U)) :
    ∃ nn, insert decodeMsg db cachegen (fuel + 1) (.shortNode nkey val flags) pre (b :: rest) value =
      .ok (dirty, nn) ∧ Resolves keccak db force nn U := by
  have keyLength : 0 < nkey.length := List.length_pos_iff.mpr compact.short_key
  have within := prefixLen_le_left (b :: rest) nkey
  simp only [Tree.insert] at inserted
  by_cases whole : prefixLen (b :: rest) nkey = nkey.length
  · -- the whole key of the short node matches: insert below it
    simp only [whole, if_true] at inserted
    cases inner : Tval.insert ((b :: rest).drop nkey.length) V with
    | none => simp [inner] at inserted
    | some r =>
        obtain ⟨d, nn⟩ := r
        obtain ⟨cnn, run, resolves⟩ := ih val Tval (pre ++ (b :: rest).take nkey.length) _ false value V d nn
          below compact.short_val valueOk
          (by have := Node.calls_le_two val; simp only [List.length_drop]; omega) inner
        cases d with
        | false =>
            simp only [inner, Option.some.injEq, Prod.mk.injEq] at inserted
            obtain ⟨rfl, rfl⟩ := inserted
            exact ⟨_, by simp [insert, whole, run], .short below flagsOk⟩
        | true =>
            simp only [inner, Option.some.injEq, Prod.mk.injEq] at inserted
            obtain ⟨rfl, rfl⟩ := inserted
            exact ⟨_, by simp [insert, whole, run], resolves.short_new cachegen⟩
  · -- branch out where the keys differ, with the old value and the new one as children
    rw [if_neg whole] at inserted
    cases oldSlot : nkey[prefixLen (b :: rest) nkey]?.bind slot with
    | none => simp [oldSlot] at inserted
    | some oldIndex =>
        cases newSlot : (b :: rest)[prefixLen (b :: rest) nkey]?.bind slot with
        | none => simp [oldSlot, newSlot] at inserted
        | some newIndex =>
            simp only [oldSlot, newSlot] at inserted
            obtain ⟨fuel, rfl⟩ : ∃ f, fuel = f + 1 := ⟨fuel - 1, by simp at bound; omega⟩
            obtain ⟨oldChild, oldRun, oldResolves⟩ := insert_nil_leaf decodeMsg cachegen fuel
              (pre ++ nkey.take (prefixLen (b :: rest) nkey + 1)) (nkey.drop (prefixLen (b :: rest) nkey + 1)) below
            obtain ⟨newChild, newRun, newResolves⟩ := insert_nil_leaf decodeMsg cachegen fuel
              (pre ++ (b :: rest).take (prefixLen (b :: rest) nkey + 1))
              ((b :: rest).drop (prefixLen (b :: rest) nkey + 1)) (valueOk false)
            simp only [List.take_succ_cons, List.drop_succ_cons] at newRun
            let branch := Node.fullNode
              (Function.update (Function.update (fun _ => .nil) oldIndex oldChild) newIndex newChild) (newFlag cachegen)
            have branchOk : ∀ f, Resolves keccak db f branch (Tree.branch oldIndex
                (Tree.leaf (nkey.drop (prefixLen (b :: rest) nkey + 1)) Tval) newIndex
                (Tree.leaf ((b :: rest).drop (prefixLen (b :: rest) nkey + 1)) V)) :=
              fun _ => Resolves.full_new (Resolves.update (i := newIndex)
                (Resolves.update (i := oldIndex) (fun _ => .nil false) oldResolves) newResolves) cachegen
            have run : ∀ result, (if prefixLen (b :: rest) nkey = 0 then pure (true, branch)
                else pure (true, .shortNode ((b :: rest).take (prefixLen (b :: rest) nkey)) branch (newFlag cachegen))) =
                  (Except.ok (true, result) : Except Failure (Bool × Node)) →
                insert decodeMsg db cachegen (fuel + 1 + 1) (.shortNode nkey val flags) pre (b :: rest) value =
                  .ok (true, result) := by
              intro result made
              rw [insert]
              simpa [whole, childIndex_eq_ok oldSlot, childIndex_eq_ok newSlot, oldRun, newRun] using made
            by_cases atStart : prefixLen (b :: rest) nkey = 0
            · rw [if_pos atStart, Option.some.injEq, Prod.mk.injEq] at inserted
              obtain ⟨rfl, rfl⟩ := inserted
              exact ⟨branch, run branch (by simp [atStart]), branchOk force⟩
            · rw [if_neg atStart, Option.some.injEq, Prod.mk.injEq] at inserted
              obtain ⟨rfl, rfl⟩ := inserted
              exact ⟨_, run _ (by simp [atStart]), (branchOk false).short_new cachegen⟩

/-- One call of `insert` on a full node, given what the calls below it do. -/
theorem insert_full_step {fuel : Nat} (ih : InsertRefines keccak decodeMsg db cachegen fuel)
    {children : Fin 17 → Node} {flags : NodeFlag} {Tchildren : Fin 17 → Tree} {force : Bool}
    (below : ∀ i, Resolves keccak db false (children i) (Tchildren i))
    (flagsOk : FlagsOk keccak db force flags (.full Tchildren)) (compact : (Tree.full Tchildren).Compact)
    (pre : List UInt8) {b : UInt8} {rest : List UInt8} {value : Node} {V : Tree}
    (valueOk : ∀ f, Resolves keccak db f value V) (bound : 2 * (b :: rest).length ≤ fuel)
    {dirty : Bool} {U : Tree} (inserted : (Tree.full Tchildren).insert (b :: rest) V = some (dirty, U)) :
    ∃ nn, insert decodeMsg db cachegen (fuel + 1) (.fullNode children flags) pre (b :: rest) value =
      .ok (dirty, nn) ∧ Resolves keccak db force nn U := by
  cases slotEq : slot b with
  | none => simp [Tree.insert, slotEq] at inserted
  | some i =>
      cases inner : (Tchildren i).insert rest V with
      | none => simp [Tree.insert, slotEq, inner] at inserted
      | some r =>
          obtain ⟨d, nn⟩ := r
          obtain ⟨cnn, run, resolves⟩ := ih (children i) (Tchildren i) (pre ++ [b]) rest false value V d nn
            (below i) (compact.full_child i) valueOk
            (by have := Node.calls_le_two (children i); simp only [List.length_cons] at bound; omega) inner
          cases d with
          | false =>
              simp only [Tree.insert, slotEq, inner, Option.some.injEq, Prod.mk.injEq] at inserted
              obtain ⟨rfl, rfl⟩ := inserted
              exact ⟨_, by simp [insert, childIndex_some slotEq, run], .full below flagsOk⟩
          | true =>
              simp only [Tree.insert, slotEq, inner, Option.some.injEq, Prod.mk.injEq] at inserted
              obtain ⟨rfl, rfl⟩ := inserted
              exact ⟨_, by simp [insert, childIndex_some slotEq, run],
                Resolves.full_new (Resolves.update below resolves) cachegen⟩

/-- `insert` refines `Tree.insert`, by induction on the fuel: a hash node is loaded into a
short or full node and inserted into with the next unit of fuel. -/
theorem insert_refines (codec : CodecLaw decodeMsg) : ∀ fuel, InsertRefines keccak decodeMsg db cachegen fuel
  | 0 => by
      intro n _ _ _ _ _ _ _ _ _ _ _ bound _
      have := Node.calls_le_two n
      cases n <;> simp [Node.calls] at bound
  | fuel + 1 => by
      intro n T pre key force value V dirty U resolves fits valueOk bound inserted
      have ih := insert_refines codec fuel
      cases key with
      | nil => exact insert_at_end cachegen fuel pre resolves valueOk inserted
      | cons b rest =>
          cases resolves with
          | nil =>
              simp only [Tree.insert, Option.some.injEq, Prod.mk.injEq] at inserted
              obtain ⟨rfl, rfl⟩ := inserted
              exact ⟨_, by simp [insert], (valueOk false).short_new cachegen⟩
          | value => simp [Tree.insert] at inserted
          | short below flagsOk =>
              exact insert_short_step cachegen ih below flagsOk fits.of_short pre valueOk
                (by simp only [Node.calls] at bound; omega) inserted
          | full below flagsOk =>
              exact insert_full_step cachegen ih below flagsOk fits.of_full pre valueOk
                (by simp only [Node.calls] at bound; omega) inserted
          | hash compact isHash storedAt stored =>
              obtain ⟨N, load, branch, resolvesN⟩ :=
                resolveHash_loads codec compact isHash storedAt stored cachegen pre
              have callsN : N.calls = 1 := by cases N <;> simp_all [Node.isBranch, Node.calls]
              obtain ⟨nn, run, resolves'⟩ := ih N T pre (b :: rest) force value V dirty U resolvesN fits valueOk
                (by simp only [Node.calls] at bound; omega) inserted
              cases dirty with
              | false =>
                  obtain rfl := Tree.insert_clean inserted
                  exact ⟨N, by simp [insert, load, run], resolvesN⟩
              | true => exact ⟨nn, by simp [insert, load, run], resolves'⟩

end Insertion

section Deletion

variable {keccak : List UInt8 → List UInt8} {decodeMsg : List UInt8 → Except String Node}
  {db : Database} (cachegen : UInt16)

theorem Resolves.isNil_eq {force : Bool} {n : Node} {T : Tree} (resolves : Resolves keccak db force n T) :
    n.isNil = T.isNil := by
  cases resolves with
  | nil => rfl
  | value => rfl
  | short => rfl
  | full => rfl
  | hash compact =>
      cases T with
      | nil => exact compact.elim
      | _ => rfl

/-- `resolve` loads a hash node and leaves any other node as it is. -/
theorem Resolves.resolve (codec : CodecLaw decodeMsg) {force : Bool} {n : Node} {T : Tree}
    (resolves : Resolves keccak db force n T) (pre : List UInt8) :
    ∃ N, Mjoy.Trie.resolve decodeMsg db cachegen n pre = .ok N ∧ Resolves keccak db force N T ∧
      ∀ h, N ≠ .hashNode h := by
  cases n with
  | hashNode h =>
      obtain ⟨N, load, branch, resolvesN⟩ := resolves.resolveHash codec cachegen pre
      refine ⟨N, load, resolvesN, ?_⟩
      rintro h rfl
      simp [Node.isBranch] at branch
  | _ => exact ⟨_, rfl, resolves, fun _ => Node.noConfusion⟩

theorem Tree.collapse_last {p : Fin 17} (last : p.val = 16) (child : Tree) :
    Tree.collapse p child = .short [p.val.toUInt8] child := by
  cases child <;> simp [Tree.collapse, last]

/-- The end of `delete` on a full node refines `Tree.reduce`: the child that is left is
loaded, if need be, to see whether it is a short node to merge with. -/
theorem reduceFull_refines (codec : CodecLaw decodeMsg) {children : Fin 17 → Node} {T : Fin 17 → Tree}
    (below : ∀ i, Resolves keccak db false (children i) (T i)) (pre : List UInt8) (force : Bool) :
    ∃ nn, reduceFull decodeMsg db cachegen children pre = .ok (true, nn) ∧
      Resolves keccak db force nn (Tree.reduce T) ∧ ∀ h, nn ≠ .hashNode h := by
  have present : (fun i => !(children i).isNil) = (fun i => !(T i).isNil) := by
    funext i
    rw [(below i).isNil_eq]
  unfold reduceFull Tree.reduce
  simp only [present]
  by_cases inRange : 0 ≤ remainingPos (fun i => !(T i).isNil) ∧ remainingPos (fun i => !(T i).isNil) < 17
  · rw [dif_pos inRange, dif_pos inRange]
    generalize hp : (⟨(remainingPos fun i => !(T i).isNil).toNat, by omega⟩ : Fin 17) = p
    have pVal : (remainingPos fun i => !(T i).isNil).toNat = p.val := by rw [← hp]
    simp only [pVal]
    by_cases last : p.val = 16
    · -- the value slot: kept under a one-nibble short node
      rw [Tree.collapse_last last]
      exact ⟨_, by simp [last], (below p).short_new cachegen, fun _ => Node.noConfusion⟩
    · obtain ⟨N, load, resolvesN, notHash⟩ := (below p).resolve cachegen codec pre
      have childOk := below p
      generalize T p = Tp at childOk resolvesN ⊢
      -- a short child is merged; any other child stays below a one-nibble short node
      have kept : Resolves keccak db force (.shortNode [p.val.toUInt8] (children p) (newFlag cachegen))
          (.short [p.val.toUInt8] Tp) := childOk.short_new cachegen
      cases resolvesN with
      | @short _ ckey cval _ Tc inner _ =>
          refine ⟨.shortNode (p.val.toUInt8 :: ckey) cval (newFlag cachegen), by simp [last, load], ?_, fun _ => Node.noConfusion⟩
          simpa [Tree.collapse, last] using inner.short_new cachegen
      | nil => exact ⟨.shortNode [p.val.toUInt8] (children p) (newFlag cachegen), by simp [last, load],
          by simpa [Tree.collapse] using kept, fun _ => Node.noConfusion⟩
      | value => exact ⟨.shortNode [p.val.toUInt8] (children p) (newFlag cachegen), by simp [last, load],
          by simpa [Tree.collapse] using kept, fun _ => Node.noConfusion⟩
      | full => exact ⟨.shortNode [p.val.toUInt8] (children p) (newFlag cachegen), by simp [last, load],
          by simpa [Tree.collapse] using kept, fun _ => Node.noConfusion⟩
      | hash => exact absurd rfl (notHash _)
  · rw [dif_neg inRange, dif_neg inRange]
    exact ⟨_, rfl, Resolves.full_new below cachegen, fun _ => Node.noConfusion⟩

variable (keccak decodeMsg db) in
/-- `delete` with `fuel` calls refines `Tree.delete`, and never leaves a hash node in
place of the node it was called on. -/
def DeleteRefines (fuel : Nat) : Prop :=
  ∀ (n : Node) (T : Tree) (pre key : List UInt8) (force : Bool) (dirty : Bool) (U : Tree),
    Resolves keccak db force n T → T.Fits → 2 * key.length + n.calls ≤ fuel →
    T.delete key = some (dirty, U) →
    ∃ nn, delete decodeMsg db cachegen fuel n pre key = .ok (dirty, nn) ∧
      Resolves keccak db force nn U ∧ ∀ h, nn ≠ .hashNode h

/-- One call of `delete` on a short node, given what the calls below it do. -/
theorem delete_short_step {fuel : Nat} (ih : DeleteRefines keccak decodeMsg db cachegen fuel)
    {nkey : List UInt8} {val : Node} {flags : NodeFlag} {Tval : Tree} {force : Bool}
    (below : Resolves keccak db false val Tval) (flagsOk : FlagsOk keccak db force flags (.short nkey Tval))
    (compact : (Tree.short nkey Tval).Compact) (pre key : List UInt8) (bound : 2 * key.length ≤ fuel)
    {dirty : Bool} {U : Tree} (deleted : (Tree.short nkey Tval).delete key = some (dirty, U)) :
    ∃ nn, delete decodeMsg db cachegen (fuel + 1) (.shortNode nkey val flags) pre key = .ok (dirty, nn) ∧
      Resolves keccak db force nn U ∧ ∀ h, nn ≠ .hashNode h := by
  simp only [Tree.delete] at deleted
  by_cases differs : prefixLen key nkey < nkey.length
  · rw [if_pos differs, Option.some.injEq, Prod.mk.injEq] at deleted
    obtain ⟨rfl, rfl⟩ := deleted
    exact ⟨_, by simp [delete, differs], .short below flagsOk, fun _ => Node.noConfusion⟩
  · rw [if_neg differs] at deleted
    by_cases whole : prefixLen key nkey = key.length
    · rw [if_pos whole, Option.some.injEq, Prod.mk.injEq] at deleted
      obtain ⟨rfl, rfl⟩ := deleted
      exact ⟨_, by simp [delete, whole, Nat.le_of_not_lt (whole ▸ differs)], .nil force, fun _ => Node.noConfusion⟩
    · rw [if_neg whole] at deleted
      have within := prefixLen_le_left key nkey
      have keyLength : 0 < nkey.length := List.length_pos_iff.mpr compact.short_key
      cases inner : Tval.delete (key.drop nkey.length) with
      | none => simp [inner] at deleted
      | some r =>
          obtain ⟨d, child⟩ := r
          obtain ⟨cnn, run, resolves, notHash⟩ := ih val Tval (pre ++ key.take nkey.length) (key.drop nkey.length)
            false d child below compact.short_val
            (by have := Node.calls_le_two val; simp only [List.length_drop]; omega) inner
          cases d with
          | false =>
              simp only [inner, Option.some.injEq, Prod.mk.injEq] at deleted
              obtain ⟨rfl, rfl⟩ := deleted
              exact ⟨_, by simp [delete, differs, whole, run], .short below flagsOk, fun _ => Node.noConfusion⟩
          | true =>
              -- a short child that is left is merged into this node
              have childOk := resolves
              cases resolves with
              | short inner' _ =>
                  simp only [inner, Option.some.injEq, Prod.mk.injEq] at deleted
                  obtain ⟨rfl, rfl⟩ := deleted
                  exact ⟨_, by simp [delete, differs, whole, run], inner'.short_new cachegen, fun _ => Node.noConfusion⟩
              | nil =>
                  simp only [inner, Option.some.injEq, Prod.mk.injEq] at deleted
                  obtain ⟨rfl, rfl⟩ := deleted
                  exact ⟨_, by simp [delete, differs, whole, run], childOk.short_new cachegen, fun _ => Node.noConfusion⟩
              | value =>
                  simp only [inner, Option.some.injEq, Prod.mk.injEq] at deleted
                  obtain ⟨rfl, rfl⟩ := deleted
                  exact ⟨_, by simp [delete, differs, whole, run], childOk.short_new cachegen, fun _ => Node.noConfusion⟩
              | full =>
                  simp only [inner, Option.some.injEq, Prod.mk.injEq] at deleted
                  obtain ⟨rfl, rfl⟩ := deleted
                  exact ⟨_, by simp [delete, differs, whole, run], childOk.short_new cachegen, fun _ => Node.noConfusion⟩
              | hash => exact absurd rfl (notHash _)

/-- One call of `delete` on a full node, given what the calls below it do. -/
theorem delete_full_step (codec : CodecLaw decodeMsg) {fuel : Nat}
    (ih : DeleteRefines keccak decodeMsg db cachegen fuel)
    {children : Fin 17 → Node} {flags : NodeFlag} {Tchildren : Fin 17 → Tree} {force : Bool}
    (below : ∀ i, Resolves keccak db false (children i) (Tchildren i))
    (flagsOk : FlagsOk keccak db force flags (.full Tchildren)) (compact : (Tree.full Tchildren).Compact)
    (pre key : List UInt8) (bound : 2 * key.length ≤ fuel) {dirty : Bool} {U : Tree}
    (deleted : (Tree.full Tchildren).delete key = some (dirty, U)) :
    ∃ nn, delete decodeMsg db cachegen (fuel + 1) (.fullNode children flags) pre key = .ok (dirty, nn) ∧
      Resolves keccak db force nn U ∧ ∀ h, nn ≠ .hashNode h := by
  cases key with
  | nil => simp [Tree.delete] at deleted
  | cons b rest =>
      cases slotEq : slot b with
      | none => simp [Tree.delete, slotEq] at deleted
      | some i =>
          cases inner : (Tchildren i).delete rest with
          | none => simp [Tree.delete, slotEq, inner] at deleted
          | some r =>
              obtain ⟨d, nn⟩ := r
              obtain ⟨cnn, run, resolves, _⟩ := ih (children i) (Tchildren i) (pre ++ [b]) rest false d nn
                (below i) (compact.full_child i)
                (by have := Node.calls_le_two (children i); simp only [List.length_cons] at bound; omega) inner
              cases d with
              | false =>
                  simp only [Tree.delete, slotEq, inner, Option.some.injEq, Prod.mk.injEq] at deleted
                  obtain ⟨rfl, rfl⟩ := deleted
                  exact ⟨_, by simp [delete, childIndex_some slotEq, run], .full below flagsOk, fun _ => Node.noConfusion⟩
              | true =>
                  simp only [Tree.delete, slotEq, inner, Option.some.injEq, Prod.mk.injEq] at deleted
                  obtain ⟨rfl, rfl⟩ := deleted
                  obtain ⟨reduced, reduce, resolves', notHash⟩ :=
                    reduceFull_refines cachegen codec (Resolves.update below resolves) pre force
                  exact ⟨reduced, by simp [delete, childIndex_some slotEq, run, reduce], resolves', notHash⟩

/-- `delete` refines `Tree.delete`, by induction on the fuel. -/
theorem delete_refines (codec : CodecLaw decodeMsg) : ∀ fuel, DeleteRefines keccak decodeMsg db cachegen fuel
  | 0 => by
      intro n _ _ _ _ _ _ _ _ bound _
      have := Node.calls_le_two n
      cases n <;> simp [Node.calls] at bound
  | fuel + 1 => by
      intro n T pre key force dirty U resolves fits bound deleted
      have ih := delete_refines codec fuel
      cases resolves with
      | nil =>
          simp only [Tree.delete, Option.some.injEq, Prod.mk.injEq] at deleted
          obtain ⟨rfl, rfl⟩ := deleted
          exact ⟨_, by simp [delete], .nil force, fun _ => Node.noConfusion⟩
      | value =>
          simp only [Tree.delete, Option.some.injEq, Prod.mk.injEq] at deleted
          obtain ⟨rfl, rfl⟩ := deleted
          exact ⟨_, by simp [delete], .nil force, fun _ => Node.noConfusion⟩
      | short below flagsOk =>
          exact delete_short_step cachegen ih below flagsOk fits.of_short pre key
            (by simp only [Node.calls] at bound; omega) deleted
      | full below flagsOk =>
          exact delete_full_step cachegen codec ih below flagsOk fits.of_full pre key
            (by simp only [Node.calls] at bound; omega) deleted
      | hash compact isHash storedAt stored =>
          obtain ⟨N, load, branch, resolvesN⟩ :=
            resolveHash_loads codec compact isHash storedAt stored cachegen pre
          have callsN : N.calls = 1 := by cases N <;> simp_all [Node.isBranch, Node.calls]
          obtain ⟨nn, run, resolves', notHash⟩ := ih N T pre key force dirty U resolvesN fits
            (by simp only [Node.calls] at bound; omega) deleted
          cases dirty with
          | false =>
              obtain rfl := Tree.delete_clean deleted
              refine ⟨N, by simp [delete, load, run], resolvesN, ?_⟩
              rintro h rfl
              simp [Node.isBranch] at branch
          | true => exact ⟨nn, by simp [delete, load, run], resolves', notHash⟩

end Deletion

end Mjoy.Trie
