import Mjoy.State.StateDB

/-!
Writing the live objects back to the account trie (`core/state/statedb.go`): `Finalise`
and `IntermediateRoot` between transactions, `CommitTo` at the end of a block, and
`DeleteSuicides`. Only the objects in the dirty set are written, so a change whose object is
not in it never reaches the trie.

The root a commit returns stands for the account map the trie holds (`Mjoy.Trie.Map`), and
the model returns that map; re-opening the state at the root is `StateDB.new` on it.
-/

namespace Mjoy.State

open KeyValue

namespace StateDB

/-- `deleteStateObject`: the object is flagged deleted and its account removed from the trie. -/
def deleteStateObject (s : StateDB) (obj : StateObject) : StateDB :=
  { s.setStateObject { obj with deleted := true } with trie := s.trie.erase obj.address }

/-- `updateStateObject`: the object's account is written to the trie. -/
def updateStateObject (s : StateDB) (obj : StateObject) : StateDB :=
  { s with trie := s.trie.put obj.address obj.data }

/-- `Finalise(deleteEmptyObjects)`: every dirty object is deleted when it is suicided, or
empty and `deleteEmptyObjects` holds, and written back otherwise. The dirty set is kept. -/
def finalise (s : StateDB) (deleteEmptyObjects : Bool) : Except String StateDB := do
  let s ← s.stateObjectsDirty.keys.foldlM (fun s addr =>
    match s.stateObjects.get addr with
    | none => .error nilDereference
    | some obj =>
        if obj.suicided || (deleteEmptyObjects && obj.empty) then .ok (s.deleteStateObject obj)
        else
          let obj := obj.updateRoot
          .ok ((s.setStateObject obj).updateStateObject obj)) s
  pure s.clearJournalAndRefund

/-- `IntermediateRoot()`: `Finalise(true)`, then the trie's root, which stands for its map. -/
def intermediateRoot (s : StateDB) : Except String (Store Address Account × StateDB) := do
  let s ← s.finalise true
  pure (s.trie, s)

/-- One object of the loop of `CommitTo`: the code writes so far and the state. -/
def commitObject (deleteEmptyObjects : Bool) (acc : List (Hash × List UInt8) × StateDB)
    (entry : Address × StateObject) : List (Hash × List UInt8) × StateDB :=
  let (writes, s) := acc
  let (addr, obj) := entry
  let isDirty := (s.stateObjectsDirty.get addr).isSome
  let (writes, s) :=
    if obj.suicided || (isDirty && deleteEmptyObjects && obj.empty) then (writes, s.deleteStateObject obj)
    else if isDirty then
      -- the contract code is written when it was set and is loaded
      let (writes, obj) := match obj.code with
        | some code => if obj.dirtyCode then (writes ++ [(obj.data.codeHash, code)], { obj with dirtyCode := false })
                       else (writes, obj)
        | none => (writes, obj)
      let obj := obj.updateRoot
      (writes, (s.setStateObject obj).updateStateObject obj)
    else (writes, s)
  (writes, { s with stateObjectsDirty := s.stateObjectsDirty.remove addr })

/-- `CommitTo(dbw, deleteEmptyObjects)`: every live object is visited, a suicided one (or a
dirty empty one, with the flag) deleted, a dirty one written, and the dirty set emptied. The
result is the account map the committed root stands for, the code written, and the state. -/
def commitTo (s : StateDB) (deleteEmptyObjects : Bool) :
    Store Address Account × List (Hash × List UInt8) × StateDB :=
  let (writes, s) := s.stateObjects.foldl (commitObject deleteEmptyObjects) ([], s)
  (s.trie, writes, s.clearJournalAndRefund)

/-- `DeleteSuicides()`: suicided dirty objects are flagged deleted, with their accounts left in
the trie, and the dirty set is emptied. -/
def deleteSuicides (s : StateDB) : Except String StateDB :=
  let s := s.clearJournalAndRefund
  s.stateObjectsDirty.keys.foldlM (fun s addr =>
    match s.stateObjects.get addr with
    | none => .error nilDereference
    | some obj =>
        let s := if obj.suicided then s.setStateObject { obj with deleted := true } else s
        .ok { s with stateObjectsDirty := s.stateObjectsDirty.remove addr }) s

-- Equation lemmas of the definitions above, made once here rather than by the proofs below
-- that unfold them in parallel.
section
attribute [local simp] commitTo
end

end StateDB

/-! ### Runs at the inputs where the code loses a change -/

/-- A database without contract code. -/
def noCode : Database :=
  { contractCode := fun _ => none, contractCodeSize := fun _ => 0 }

/-- An address of the runs below. -/
def alice : Address := List.replicate 19 0 ++ [0x0a]

/-- A trie holding one empty account, as `Genesis.Commit` writes for an allocation of
balance zero. -/
def emptyAccountTrie : Store Address Account :=
  Store.empty.put alice Account.new

/-- `AddBalance(a, 0)` of an empty account just loaded touches it: the touch runs the dirty
callback, and reverting it takes the address out of the dirty set without setting the
callback again. A later `AddBalance(a, 5)` then leaves the object out of the dirty set, and
`CommitTo(db, true)` does not write it: the state re-opened at the committed root has the
old balance. -/
theorem commitTo_loses_balance_after_touch_revert :
    ∃ reverted, ((StateDB.new noCode emptyAccountTrie).snapshot.2.addBalance alice 0).revertToSnapshot
        (StateDB.new noCode emptyAccountTrie).snapshot.1 = .ok reverted ∧
      ((reverted.addBalance alice 5).getBalance alice).1 = 5 ∧
      ((StateDB.new noCode ((reverted.addBalance alice 5).commitTo true).1).getBalance alice).1 = 0 :=
  ⟨_, rfl, by decide, by decide⟩

/-- After `Suicide(a)` and `DeleteSuicides()`, the object of `a` is flagged deleted while its
account stays in the trie. A new object created after a snapshot is undone by removing the
live entry, and `a` is then loaded again from the trie: `Exist(a)` was false when the
snapshot was taken and is true after reverting to it. -/
theorem revertToSnapshot_revives_deleted :
    ∃ cleared reverted,
      ((StateDB.new noCode emptyAccountTrie).suicide alice).2.deleteSuicides = .ok cleared ∧
      (cleared.snapshot.2.exist alice).1 = false ∧
      (cleared.snapshot.2.addBalance alice 1).revertToSnapshot cleared.snapshot.1 = .ok reverted ∧
      (reverted.exist alice).1 = true :=
  ⟨_, _, rfl, by decide, rfl, by decide⟩

end Mjoy.State
