import Mjoy.Trie.SyncOrder

/-!
Runs of the scheduler as its caller drives it, state sync being the caller in this repository:
it asks for missing hashes, hands in their data one result at a time, commits the membatch to the
database the scheduler reads, and may add sub-tries and raw entries of its own. Over every such
run the bookkeeping of `Counted` holds, every processed request waits for its children, and every
entry `Process` puts into the membatch comes after the children it waited for.
-/

namespace Mjoy.Trie

namespace TrieSync

/-- `Commit(dbw)` into the database the scheduler reads, as state sync calls it. -/
def flush (s : TrieSync) : TrieSync :=
  let committed := s.commitBatch s.database
  { committed.2.2 with database := committed.1 }

end TrieSync

/-- One call of the caller. A result is never for the zero hash, which Keccak gives to no known
data and which the caller checks each result against; a sub-trie or raw entry the caller adds
goes under a processed request or under no parent. -/
inductive SyncStep (env : SyncEnv) : TrieSync → TrieSync → Prop
  | missing (s : TrieSync) (max : Nat) : SyncStep env s (s.missing max).1
  | process {s s' : TrieSync} {item : SyncResult} {b : Bool} :
      item.hash ≠ zeroHash → s.processItem env item = (s', .ok b) → SyncStep env s s'
  | commit (s : TrieSync) : SyncStep env s s.flush
  | addSubTrie {s s' : TrieSync} {root parent : List UInt8} {depth : Int} {callback : Bool} :
      (parent ≠ zeroHash → ∃ r, s.requests.get parent = some r ∧ r.data.isSome) →
      s.addSubTrie env root depth parent callback = .ok s' → SyncStep env s s'
  | addRawEntry {s s' : TrieSync} {hash parent : List UInt8} {depth : Int} :
      (parent ≠ zeroHash → ∃ r, s.requests.get parent = some r ∧ r.data.isSome) →
      s.addRawEntry env hash depth parent = .ok s' → SyncStep env s s'
  | write (s : TrieSync) (key value : List UInt8) : SyncStep env s { s with database := s.database.put key value }

/-- The states a run from `NewTrieSync` reaches. -/
inductive SyncReachable (env : SyncEnv) : TrieSync → Prop
  | start (root : List UInt8) (database : Database) (callback : Bool) :
      SyncReachable env (newTrieSync env root database callback)
  | step {s s' : TrieSync} : SyncReachable env s → SyncStep env s s' → SyncReachable env s'

/-- The invariants of the scheduler. -/
structure SyncSound (env : SyncEnv) (s : TrieSync) : Prop where
  counted : Counted s.requests []
  waits : Waits env s
  membatch : Membatch s

section Run

variable {env : SyncEnv}

theorem SyncSound.of_grows {s s' : TrieSync} (sound : SyncSound env s) (grown : TrieSync.Grows s s')
    (counted : Counted s'.requests []) : SyncSound env s' :=
  ⟨counted, WaitsBut.of_grows sound.waits grown, sound.membatch.of_grows grown⟩

theorem syncSound_newTrieSync (root : List UInt8) (database : Database) (callback : Bool) :
    SyncSound env (newTrieSync env root database callback) := by
  have empty : SyncSound env ⟨database, [], [], [], Prque.empty⟩ := by
    refine ⟨⟨by simp [Table.keys], ?_, ?_, ?_, ?_⟩, ?_, ⟨rfl, List.nodup_nil, ?_⟩⟩ <;>
      simp [Table.get, parentRefs, Waits, WaitsBut]
  unfold newTrieSync
  dsimp only
  split
  · rename_i s added
    exact empty.of_grows (TrieSync.grows_addSubTrie added)
      (empty.counted.addSubTrie (fun nonzero => absurd rfl nonzero) added)
  · exact empty

/-- `Commit` into the database the scheduler reads: what was in the membatch is in the database,
and every other key keeps its value. -/
theorem flush_database_of_mem {s : TrieSync} {k : List UInt8} (ordered : k ∈ s.order) :
    s.flush.database k = some ((s.batch.get k).getD []) := by
  have written := KeyValue.Store.foldl_put_apply (fun key => (s.batch.get key).getD []) s.order s.database k
  rw [if_pos ordered] at written
  exact written

theorem flush_database_of_not_mem {s : TrieSync} {k : List UInt8} (unordered : k ∉ s.order) :
    s.flush.database k = s.database k := by
  have written := KeyValue.Store.foldl_put_apply (fun key => (s.batch.get key).getD []) s.order s.database k
  rw [if_neg unordered] at written
  exact written

theorem syncSound_flush {s : TrieSync} (sound : SyncSound env s) : SyncSound env s.flush := by
  have kept : ∀ k, (s.database k).isSome → (s.flush.database k).isSome := by
    intro k stored
    by_cases ordered : k ∈ s.order
    · rw [flush_database_of_mem ordered]
      rfl
    · rw [flush_database_of_not_mem ordered]
      exact stored
  refine ⟨sound.counted, ?_, ⟨rfl, List.nodup_nil, fun _ _ => rfl⟩⟩
  refine WaitsBut.mono sound.waits (TrieSync.OnlyProcessed.refl _) ?_ kept
  intro p k ready
  rcases ready with (inBatch | inDatabase) | awaits
  · -- the membatch went into the database
    refine .inl (.inr ?_)
    rw [flush_database_of_mem ((sound.membatch.contains_iff k).mp inBatch)]
    rfl
  · exact .inl (.inr (kept k inDatabase))
  · exact .inr awaits

/-- Every step keeps the invariants. -/
theorem SyncSound.step {s s' : TrieSync} (sound : SyncSound env s) (step : SyncStep env s s') : SyncSound env s' := by
  cases step with
  | missing max =>
      exact ⟨sound.counted, sound.waits, ⟨sound.membatch.keys, sound.membatch.nodup, sound.membatch.apart⟩⟩
  | process nonzero processed =>
      have commits := processItem_commits sound.counted sound.waits sound.membatch nonzero processed
      exact ⟨sound.counted.processItem processed, commits.waits, commits.membatch⟩
  | commit => exact syncSound_flush sound
  | addSubTrie parentOk added =>
      exact sound.of_grows (TrieSync.grows_addSubTrie added) (sound.counted.addSubTrie parentOk added)
  | addRawEntry parentOk added =>
      exact sound.of_grows (TrieSync.grows_addRawEntry added) (sound.counted.addRawEntry parentOk added)
  | write key value =>
      refine ⟨sound.counted, ?_, ⟨sound.membatch.keys, sound.membatch.nodup, sound.membatch.apart⟩⟩
      refine WaitsBut.mono sound.waits (TrieSync.OnlyProcessed.refl _) ?_ ?_
      · intro p k ready
        rcases ready with (inBatch | inDatabase) | awaits
        · exact .inl (.inl inBatch)
        · refine .inl (.inr ?_)
          by_cases same : k = key
          · simp [same, KeyValue.Store.put]
          · simpa [KeyValue.Store.put, same] using inDatabase
        · exact .inr awaits
      · intro k stored
        by_cases same : k = key
        · simp [same, KeyValue.Store.put]
        · simpa [KeyValue.Store.put, same] using stored

theorem SyncReachable.sound {s : TrieSync} (reach : SyncReachable env s) : SyncSound env s := by
  induction reach with
  | start root database callback => exact syncSound_newTrieSync root database callback
  | step _ step ih => exact ih.step step

end Run

/-! ### Over every run -/

section Theorems

variable {env : SyncEnv}

/-- A scheduler whose decoder reads nothing and whose leaves attach nothing. -/
def quietEnv : SyncEnv :=
  ⟨fun _ => .error "", fun _ => [], fun _ => .ok []⟩

end Theorems

end Mjoy.Trie
