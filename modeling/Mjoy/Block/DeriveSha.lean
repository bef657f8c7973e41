import Mjoy.Trie.Codec
import Mjoy.Trie.Map

/-!
`DeriveSha` (`core/blockchain/block/block.go`): the root of a trie that maps the index of
each element of a list to the element's msgp encoding. `NewBlock` puts it in the header as
`TxHash` and `ReceiptHash`, and `ValidateBody` compares a body's against the header's.

The index is written by `binary.Write(keyBytesBuf, binary.BigEndian, i)` with `i` of type
`int`. `int` has no fixed size, so `binary.Write` writes nothing and returns an error, which
`DeriveSha` drops. Every element then goes to the empty key and the root commits to the last
element alone.
-/

namespace Mjoy.Block

open Mjoy.Trie KeyValue

/-- `binary.Write(keyBytesBuf, binary.BigEndian, i)` for an `int`: nothing is written. -/
def writeIndex (_ : Nat) : List UInt8 :=
  []

/-- The trie `DeriveSha` fills for a list given by its encodings `GetMsgp(i)`: a new trie with
no database, updated once for each index in turn. -/
def deriveTrie (list : List (List UInt8)) : Trie :=
  list.zipIdx.foldl (fun t entry => t.update NodeIntf.decodeMsg Store.empty (writeIndex entry.2) entry.1)
    { root := .nil }

def deriveSha (keccak : List UInt8 → List UInt8) (list : List (List UInt8)) : Except Failure (List UInt8) :=
  Prod.fst <$> (deriveTrie list).hash keccak

/-- The map an `Update` of `key` to `value` leaves: an empty value deletes the key. -/
def updated (m : KeyMap) (key value : List UInt8) : KeyMap :=
  if value = [] then m.erase key else m.put key value

/-- What the trie of `DeriveSha` holds: the last element under the empty key, when the list
has one and it is not empty, and nothing anywhere else. -/
def heldBy (list : List (List UInt8)) : KeyMap :=
  match list.getLast? with
  | some last => updated Store.empty [] last
  | none => Store.empty

-- Equation lemmas of the definitions above, made once here rather than by the proofs below
-- that unfold them in parallel.
section
attribute [local simp] deriveSha updated heldBy
end

section Fill

variable (keccak : List UInt8 → List UInt8)

theorem fold_update_stands (entries : List (List UInt8 × Nat)) :
    ∀ (t : Trie) (T : Tree) (m : KeyMap), t.Stands keccak Store.empty T → T.Holds m →
      ∃ U, (entries.foldl (fun t entry => t.update NodeIntf.decodeMsg Store.empty (writeIndex entry.2) entry.1) t).Stands
          keccak Store.empty U ∧ U.Holds (entries.foldl (fun m entry => updated m (writeIndex entry.2) entry.1) m) := by
  induction entries with
  | nil =>
      intro t T m stands holds
      exact ⟨T, stands, holds⟩
  | cons entry rest ih =>
      intro t T m stands holds
      obtain ⟨U, standsU, holdsU⟩ := Trie.update_spec codecLaw stands holds (writeIndex entry.2) entry.1
      exact ih _ U _ standsU holdsU

/-- Updating one key in turn leaves that key at the last value and every other key as it was. -/
theorem fold_updated_other (values : List (List UInt8)) (m : KeyMap) {k : List UInt8} (other : k ≠ []) :
    (values.foldl (fun m v => updated m [] v) m) k = m k := by
  induction values generalizing m with
  | nil => rfl
  | cons v rest ih =>
      rw [List.foldl_cons, ih]
      unfold updated
      split
      · exact Store.erase_other m other
      · exact Store.put_other m _ other

theorem fold_updated_last (front : List (List UInt8)) (last : List UInt8) (m : KeyMap) :
    ((front ++ [last]).foldl (fun m v => updated m [] v) m) [] = updated Store.empty [] last [] := by
  rw [List.foldl_append, List.foldl_cons, List.foldl_nil]
  unfold updated
  split <;> simp

theorem fold_updated_eq_heldBy (list : List (List UInt8)) :
    list.foldl (fun m v => updated m [] v) Store.empty = heldBy list := by
  funext k
  rcases List.eq_nil_or_concat list with rfl | ⟨front, last, rfl⟩
  · rfl
  · rw [List.concat_eq_append]
    by_cases atEmpty : k = []
    · subst atEmpty
      rw [fold_updated_last]
      simp [heldBy]
    · rw [fold_updated_other _ _ atEmpty]
      simp only [heldBy, List.getLast?_append, List.getLast?_singleton, Option.some_or, updated]
      split
      · exact (Store.erase_other _ atEmpty).symm
      · exact (Store.put_other _ _ atEmpty).symm

/-- The trie `DeriveSha` hashes stands for the tree of the one-entry map `heldBy`. -/
theorem deriveTrie_holds (list : List (List UInt8)) :
    ∃ T, (deriveTrie list).Stands keccak Store.empty T ∧ T.Holds (heldBy list) := by
  have empty : Trie.Stands keccak Store.empty { root := .nil } .nil := ⟨Or.inl rfl, .nil true⟩
  obtain ⟨T, stands, holds⟩ := fold_update_stands keccak list.zipIdx _ _ _ empty Mjoy.Trie.Tree.holds_nil
  refine ⟨T, stands, ?_⟩
  have keys : list.zipIdx.foldl (fun m entry => updated m (writeIndex entry.2) entry.1) Store.empty =
      list.foldl (fun m v => updated m [] v) Store.empty := by
    conv_rhs => rw [← List.zipIdx_map_fst 0 list, List.foldl_map]
    rfl
  rwa [keys, fold_updated_eq_heldBy] at holds

/-- `DeriveSha` of a list is `DeriveSha` of its last element alone: lists that differ before
their last element get the same root. -/
theorem deriveSha_eq_last (front : List (List UInt8)) (last : List UInt8) :
    deriveSha keccak (front ++ [last]) = deriveSha keccak [last] := by
  obtain ⟨T, stands, holds⟩ := deriveTrie_holds keccak (front ++ [last])
  obtain ⟨U, standsU, holdsU⟩ := deriveTrie_holds keccak [last]
  have sameMap : heldBy (front ++ [last]) = heldBy [last] := by
    simp [heldBy]
  rw [sameMap] at holds
  have sameTree : T = U := Tree.Holds.unique stands.1 standsU.1 holds holdsU
  subst sameTree
  obtain ⟨t', run, _⟩ := Trie.hash_spec stands
  obtain ⟨u', run', _⟩ := Trie.hash_spec standsU
  simp [deriveSha, run, run']

end Fill

end Mjoy.Block
