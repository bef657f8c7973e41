import Mjoy.Lib.Loop
import Mjoy.State.Commit
import Mjoy.State.Frame

/-!
`StateDB.Copy` (`core/state/statedb.go`) and `stateObject.deepCopy`
(`core/state/state_object.go`). The copy keeps the objects of the dirty set only; every other
address is loaded again from the account trie. So the copy shows what the state shows exactly
at the addresses whose live object is dirty or agrees with the trie (`copy_account`).

An object whose callback has run is not marked dirty by its later setters, and `CommitTo`
empties the dirty set: a change made after a commit stays out of the dirty set and out of the
copy.
-/

namespace Mjoy.State

open KeyValue

/-- `deepCopy(db, onDirty)`: the account by value, with the callback of the copy, and the dirty
storage as both the dirty and the cached storage; `touched` is not copied. -/
def StateObject.deepCopy (o : StateObject) : StateObject :=
  { newObject o.address o.data true with
    code := o.code, dirtyStorage := o.dirtyStorage, cachedStorage := o.dirtyStorage,
    suicided := o.suicided, dirtyCode := o.dirtyCode, deleted := o.deleted }

@[simp] theorem StateObject.deleted_deepCopy (o : StateObject) : o.deepCopy.deleted = o.deleted := rfl

@[simp] theorem StateObject.data_deepCopy (o : StateObject) : o.deepCopy.data = o.data := rfl

namespace StateDB

/-- One turn of the loop of `Copy` over the dirty set: the copy of the address's object. A
dirty address without a live object is a nil dereference. -/
def copyObject (s : StateDB) (objects : Table Address StateObject) (addr : Address) :
    Except String (Table Address StateObject) :=
  match s.stateObjects.get addr with
  | some obj => .ok (objects.set addr obj.deepCopy)
  | none => .error nilDereference

/-- `Copy()`: the objects of the dirty set are copied, the account trie, the refund, the logs and
the preimages are kept, and the journal, the revisions and the transaction context start empty. -/
def copy (s : StateDB) : Except String StateDB := do
  let copied ← s.stateObjectsDirty.keys.foldlM s.copyObject Table.empty
  pure { db := s.db, trie := s.trie, stateObjects := copied, stateObjectsDirty := s.stateObjectsDirty,
         refund := s.refund, thash := [], bhash := [], txIndex := 0, logs := s.logs,
         logSize := s.logSize, preimages := s.preimages, journal := [], validRevisions := [],
         nextRevisionId := 0 }

/-- Every dirty address has a live object, as the setters that mark it leave it. -/
def DirtyFiled (s : StateDB) : Prop :=
  ∀ a, a ∈ s.stateObjectsDirty.keys → (s.stateObjects.get a).isSome

-- Equation lemmas of the definitions above, made once here rather than by the proofs below
-- that unfold them in parallel.
section
attribute [local simp] copyObject copy
end

/-- The loop of `Copy` succeeds and files the copy of each dirty object, and nothing else. -/
theorem copy_objects {s : StateDB} (filed : s.DirtyFiled) :
    ∃ copied, s.stateObjectsDirty.keys.foldlM s.copyObject Table.empty = .ok copied ∧
      ∀ a, copied.get a = if a ∈ s.stateObjectsDirty.keys then (s.stateObjects.get a).map StateObject.deepCopy else none := by
  have start : ∀ a, (Table.empty : Table Address StateObject).get a =
      if a ∈ ([] : List Address) then (s.stateObjects.get a).map StateObject.deepCopy else none := by
    simp
  -- the invariant: the copies of the addresses done so far
  obtain ⟨copied, run, holds⟩ := Loop.foldlM_invariant s.copyObject
    (fun done (objects : Table Address StateObject) => ∀ a, objects.get a =
      if a ∈ done then (s.stateObjects.get a).map StateObject.deepCopy else none)
    s.stateObjectsDirty.keys
    (by
      intro done x rest objects whole holds
      have present : x ∈ s.stateObjectsDirty.keys := by simp [← whole]
      obtain ⟨obj, found⟩ := Option.isSome_iff_exists.mp (filed x present)
      refine ⟨objects.set x obj.deepCopy, by simp [copyObject, found], fun a => ?_⟩
      by_cases same : a = x
      · subst same
        simp [found]
      · simp [same, holds a])
    start
  exact ⟨copied, run, holds⟩

/-- What the copy shows: the dirty addresses show what they showed, and every other address
shows the account the trie holds. -/
theorem copy_account {s : StateDB} (filed : s.DirtyFiled) :
    ∃ c, s.copy = .ok c ∧ ∀ a, c.account a =
      if a ∈ s.stateObjectsDirty.keys then s.account a else s.trie a := by
  obtain ⟨copied, run, holds⟩ := copy_objects filed
  simp only [copy, run, Loop.ok_bind, Loop.pure_eq_ok, Except.ok.injEq, exists_eq_left']
  intro a
  by_cases dirty : a ∈ s.stateObjectsDirty.keys
  · -- the copy of the live object keeps its account and its deletion
    obtain ⟨obj, found⟩ := Option.isSome_iff_exists.mp (filed a dirty)
    simp only [account, getStateObject, holds a, dirty, if_true, found, Option.map_some,
      StateObject.deleted_deepCopy]
    by_cases dead : obj.deleted = true <;> simp [dead]
  · -- no live object in the copy: the account is loaded from the trie
    simp only [account, getStateObject, holds a, dirty, if_false]
    cases s.trie a <;> rfl

/-- An address outside the dirty set whose shown account differs from the trie's shows the
trie's account in the copy: the copy is not faithful there. -/
theorem copy_reloads_clean_account {s : StateDB} (filed : s.DirtyFiled) {a : Address}
    (clean : a ∉ s.stateObjectsDirty.keys) (stale : s.account a ≠ s.trie a) :
    ∃ c, s.copy = .ok c ∧ c.account a = s.trie a ∧ c.account a ≠ s.account a := by
  obtain ⟨c, copied, shows⟩ := copy_account filed
  have reloaded : c.account a = s.trie a := by rw [shows a, if_neg clean]
  exact ⟨c, copied, reloaded, by rw [reloaded]; exact stale.symm⟩

end StateDB

/-- `AddBalance(alice, 5)` on the state opened on `emptyAccountTrie`, `CommitTo(db, true)`, then
`AddBalance(alice, 3)`. Alice's object ran its callback at the first change, and the commit
emptied the dirty set, so the second change leaves the dirty set empty. -/
def committedThenCredited : StateDB :=
  (((StateDB.new noCode emptyAccountTrie).addBalance alice 5).commitTo true).2.2.addBalance alice 3

open StateDB in
/-- After the run, the state shows a balance of 8 for alice and its copy the committed 5. -/
theorem copy_reloads_clean_account_after_commit :
    ∃ c, committedThenCredited.copy = .ok c ∧ (c.getBalance alice).1 = 5 ∧
      (committedThenCredited.getBalance alice).1 = 8 := by
  have nothingDirty : committedThenCredited.stateObjectsDirty.keys = [] := by decide
  have filed : committedThenCredited.DirtyFiled := by
    intro a dirty
    simp [nothingDirty] at dirty
  have stale : committedThenCredited.account alice ≠ committedThenCredited.trie alice := by
    intro same
    have shown : (committedThenCredited.account alice).map Account.balance = some 8 := by decide
    have stored : (committedThenCredited.trie alice).map Account.balance = some 5 := by decide
    rw [same, stored] at shown
    simp at shown
  obtain ⟨c, copied, reloaded, -⟩ := copy_reloads_clean_account filed (by simp [nothingDirty]) stale
  refine ⟨c, copied, ?_, by decide⟩
  rw [getBalance_fst, shown, reloaded]
  decide

end Mjoy.State
