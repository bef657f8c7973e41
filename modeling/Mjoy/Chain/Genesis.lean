import Mjoy.State.Commit

/-!
The genesis state (`core/genesis/genesis.go`). `ToBlock` builds the state of the allocation
and puts `IntermediateRoot()` in the header; `Commit` writes the same state with
`CommitTo(db, false)`. `IntermediateRoot` finalises with empty accounts deleted, and leaves
them in the dirty set, so `CommitTo` with the flag off writes them back: for an allocation
with an empty account the committed trie is not the one the header commits to.

The header's other fields and the block and receipt writes of `Commit` are left out.
-/

namespace Mjoy.Chain

open KeyValue Mjoy.State

/-- `GenesisAccount`. -/
structure GenesisAccount where
  code : Option (List UInt8)
  storage : Table Hash Hash
  balance : Int
  nonce : UInt64

section Genesis

variable (keccak : List UInt8 → List UInt8)

/-- The loop of `ToBlock` over one allocated account. -/
def allocate (statedb : StateDB) (entry : Address × GenesisAccount) : StateDB :=
  let (addr, account) := entry
  let statedb := statedb.addBalance addr account.balance
  let statedb := statedb.setCode keccak addr account.code
  let statedb := statedb.setNonce addr account.nonce
  account.storage.foldl (fun statedb slot => statedb.setState addr slot.1 slot.2) statedb

/-- `ToBlock()`: the state of the allocation on a new memory database, and the root
`IntermediateRoot` gives for the header, as the account map it stands for. -/
def toBlock (alloc : Table Address GenesisAccount) : Except String (Store Address Account × StateDB) :=
  (alloc.foldl (allocate keccak) (StateDB.new noCode Store.empty)).intermediateRoot

/-- `Commit(db)`: the header's root and the account map `CommitTo(db, false)` writes. -/
def commit (alloc : Table Address GenesisAccount) : Except String (Store Address Account × Store Address Account) := do
  let (root, statedb) ← toBlock keccak alloc
  pure (root, (statedb.commitTo false).1)

-- Equation lemmas of the definitions above, made once here rather than by the proofs below
-- that unfold them in parallel.
section
attribute [local simp] allocate toBlock commit
end

end Genesis

/-- The genesis state depends on the hash function only through the hashes of the codes it
allocates. -/
theorem allocate_congr {keccak keccak' : List UInt8 → List UInt8} (statedb : StateDB)
    (entry : Address × GenesisAccount) (same : keccak (entry.2.code.getD []) = keccak' (entry.2.code.getD [])) :
    allocate keccak statedb entry = allocate keccak' statedb entry := by
  simp only [allocate, StateDB.setCode, same]

theorem toBlock_congr {keccak keccak' : List UInt8 → List UInt8} (alloc : Table Address GenesisAccount)
    (same : ∀ entry ∈ alloc, keccak (entry.2.code.getD []) = keccak' (entry.2.code.getD [])) :
    toBlock keccak alloc = toBlock keccak' alloc := by
  have fold : ∀ (entries : List (Address × GenesisAccount)) (statedb : StateDB), (∀ entry ∈ entries,
      keccak (entry.2.code.getD []) = keccak' (entry.2.code.getD [])) →
      entries.foldl (allocate keccak) statedb = entries.foldl (allocate keccak') statedb := by
    intro entries
    induction entries with
    | nil => intro _ _; rfl
    | cons entry rest ih =>
        intro statedb sameAll
        rw [List.foldl_cons, List.foldl_cons, allocate_congr statedb entry (sameAll entry (by simp))]
        exact ih _ fun e member => sameAll e (by simp [member])
  unfold toBlock
  rw [fold alloc _ same]

/-- An account allocated with balance zero, nonce zero, no code and no storage. -/
def emptyAllocation : Table Address GenesisAccount :=
  [(alice, { code := none, storage := Table.empty, balance := 0, nonce := 0 })]

section
attribute [local simp] emptyAllocation
end

/-- For an allocation holding an empty account, the header's root stands for a trie without
it, and `Commit` writes a trie with it. -/
theorem commit_root_differs (keccak : List UInt8 → List UInt8) (emptyCode : keccak [] = emptyCodeHash) :
    ∃ root written, commit keccak emptyAllocation = .ok (root, written) ∧ root alice = none ∧
      written alice ≠ none := by
  have same : toBlock keccak emptyAllocation = toBlock (fun _ => emptyCodeHash) emptyAllocation :=
    toBlock_congr emptyAllocation (by simp [emptyAllocation, emptyCode])
  refine ⟨_, _, by simp only [commit, same]; rfl, by decide, by decide⟩

theorem commit_root_differs_keccak :
    (fun _ : List UInt8 => emptyCodeHash) [] = emptyCodeHash ∧
      ∃ root written, commit (fun _ => emptyCodeHash) emptyAllocation = .ok (root, written) ∧
        root alice = none ∧ written alice ≠ none :=
  ⟨rfl, commit_root_differs (fun _ => emptyCodeHash) rfl⟩

end Mjoy.Chain
