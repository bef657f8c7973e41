import Mjoy.Downloader.Tasks

/-!
`reserveHeaders` keeps the invariant of the queue and, on headers scheduled in order, never
stops with `errInvalidChain`. Its loop takes tasks out of the task queue; with the tasks taken
put back (`restore`), the queue keeps the invariant at every turn (`Reserve.Holds`). The room
the loop counts is the cache less the done and the pending tasks, and what it has taken stays
below it. The popped task has the lowest number left in the queue, and every awaited header
numbered between the offset and it is pending, done or taken; so it falls inside the cache
(`Reserve.Holds.cacheIndex`).
-/

namespace Mjoy.Downloader

namespace Queue

variable {τ ρ : Type}

@[simp] theorem ensureResult_pools (q : Queue τ ρ) (header : Header) (i : Nat) (k : Kind) :
    (q.ensureResult header i).pools k = q.pools k := by
  unfold ensureResult
  split <;> simp

@[simp] theorem ensureResult_resultOffset (q : Queue τ ρ) (header : Header) (i : Nat) :
    (q.ensureResult header i).resultOffset = q.resultOffset := by
  unfold ensureResult
  split <;> rfl

@[simp] theorem ensureResult_needs (q : Queue τ ρ) (header : Header) (i : Nat) :
    (q.ensureResult header i).needs = q.needs := by
  unfold ensureResult
  split <;> simp

@[simp] theorem ensureResult_length (q : Queue τ ρ) (header : Header) (i : Nat) :
    (q.ensureResult header i).resultCache.length = q.resultCache.length := by
  unfold ensureResult
  split <;> simp

/-- What holds at each turn of the loop of `reserveHeaders` on the pools of kind `k` of `q0`:
with the tasks taken put back the queue keeps the invariant, the room left is the cache less
the done and pending tasks, and what the loop has taken is counted. -/
structure Reserve.Holds (sched : List Header) (q0 : Queue τ ρ) (k : Kind) (st : Reserve τ ρ) : Prop where
  tracks : (st.q.restore k (st.send ++ st.skip)).Tracks sched
  offset : st.q.resultOffset = q0.resultOffset
  needs : st.q.needs = q0.needs
  others : ∀ k', k' ≠ k → st.q.pools k' = q0.pools k'
  pendPool : (st.q.pools k).pendPool = (q0.pools k).pendPool
  room : st.space = (st.q.resultCache.length : Int) - (st.q.pools k).donePool.length - (st.q.pools k).pending.length
  taken : st.proc = (st.send ++ st.skip).length

section Reserving

variable {sched : List Header} {offset : Nat} (consecutive : Consecutive offset sched)
include consecutive

/-- Making the result of a scheduled header in its slot keeps the invariant, and leaves the
header's result in the slot. -/
theorem Tracks.ensureResult {q : Queue τ ρ} {k : Kind} {taken : List Header} {header : Header} {i : Nat}
    (tracks : (q.restore k taken).Tracks sched) (scheduled : header ∈ sched)
    (slot : header.number = q.resultOffset + i) (inBounds : i < q.resultCache.length) :
    ((q.ensureResult header i).restore k taken).Tracks sched ∧
      ∃ r, (q.ensureResult header i).resultCache[i]? = some (some r) ∧ r.header = header := by
  unfold Queue.ensureResult
  split
  · next empty =>
      rw [restore_setResult]
      refine ⟨?_, ⟨if q.fetchesReceipts header then 2 else 1, header, [], []⟩,
        by simp [List.getElem?_set_self inBounds], rfl⟩
      simpa using tracks.create consecutive scheduled (by simpa using slot) (by simpa using empty)
  · next made =>
      obtain ⟨r, found⟩ : ∃ r, q.resultCache[i]? = some (some r) := by
        rcases atSlot : q.resultCache[i]? with _ | _ | r
        · simp at atSlot
          omega
        · exact absurd atSlot made
        · exact ⟨r, rfl⟩
      obtain ⟨mem, number, -⟩ := tracks.results i r (by simpa using found)
      exact ⟨tracks, r, found, consecutive.eq_of_number mem scheduled (by simp at number; omega)⟩

variable {q0 : Queue τ ρ} {k : Kind} {st : Reserve τ ρ} {header : Header} {priority : Int}
  {rest : Prque Header}

omit consecutive in
/-- After a pop, the queue with the popped task and the tasks taken put back keeps the
invariant. -/
theorem Reserve.Holds.pop (holds : st.Holds sched q0 k)
    (popped : (st.q.pools k).taskQueue.pop = some ((header, priority), rest)) :
    ((st.q.setPools k { st.q.pools k with taskQueue := rest }).restore k (st.send ++ st.skip ++ [header])).Tracks
      sched := by
  obtain ⟨split, -⟩ := Prque.pop_spec popped
  have moved := holds.tracks.move k ({ st.q.pools k with taskQueue := rest }.pushAll (st.send ++ st.skip ++ [header]))
    ?_ (by simp) ?_ (by simpa using holds.tracks.peers k)
  · simpa [restore] using moved
  · rw [List.perm_iff_count]
    intro x
    have counted := (split.map Prod.fst).count_eq x
    simp only [Pools.queued, Pools.pending, pools_restore, if_true, Pools.pushAll_items, Pools.pushAll_pendPool,
      List.map_append, List.map_map, List.map_cons, List.map_nil, List.count_append, List.count_cons,
      List.count_nil] at counted ⊢
    simp only [Function.comp_def, List.map_id'] at counted ⊢
    omega
  · intro x mem
    simp only [Pools.pushAll_items, List.mem_append, List.mem_map] at mem
    rcases mem with queued | ⟨taken, -, rfl⟩
    · exact (holds.tracks.queued k x (by simp [split.mem_iff, queued])).2
    · rfl

/-- The popped task falls inside the cache: the awaited headers numbered between the offset and
it are pending, done or taken, and the room the loop counts is more than it has taken. -/
theorem Reserve.Holds.cacheIndex (holds : st.Holds sched q0 k) (lower : offset ≤ st.q.resultOffset)
    (guard : st.proc < st.space) (popped : (st.q.pools k).taskQueue.pop = some ((header, priority), rest)) :
    header.number = st.q.resultOffset + (header.number - st.q.resultOffset) ∧
      header.number - st.q.resultOffset < st.q.resultCache.length := by
  have tracks := holds.pop popped
  obtain ⟨split, top⟩ := Prque.pop_spec popped
  set popQueue := (st.q.setPools k { st.q.pools k with taskQueue := rest }).restore k
    (st.send ++ st.skip ++ [header]) with popQueue_def
  have inHand : header ∈ (popQueue.pools k).queued ++ (popQueue.pools k).pending := by
    simp [popQueue_def, Pools.queued]
  obtain ⟨awaitedHeader, -⟩ := tracks.awaited_of_held consecutive inHand
  obtain ⟨scheduled, chosen⟩ := List.mem_filter.mp awaitedHeader
  simp only [popQueue_def, restore_needs, needs_setPools, restore_resultOffset, setPools_resultOffset, Bool.and_eq_true,
    decide_eq_true_eq] at chosen
  -- the popped task has the lowest number left in the queue
  have wasQueued : ∀ x ∈ rest.items, x ∈ (st.q.pools k).taskQueue.items :=
    fun x mem => split.mem_iff.mpr (List.mem_cons_of_mem _ mem)
  have priorityOf : ∀ x ∈ (st.q.pools k).taskQueue.items, x.2 = -(x.1.number : Int) :=
    fun x mem => (holds.tracks.queued k x (by simp [mem])).2
  have lowest : ∀ x ∈ rest.items, header.number ≤ x.1.number := by
    intro x mem
    have above := top x (wasQueued x mem)
    have own := priorityOf (header, priority) (split.mem_iff.mpr List.mem_cons_self)
    have its := priorityOf x (wasQueued x mem)
    simp only at above own
    omega
  refine ⟨by omega, ?_⟩
  by_contra outside
  -- the window of the cache holds as many awaited headers as the cache has slots
  have wide : st.q.resultCache.length ≤ (sched.filter fun g => decide (st.q.resultOffset ≤ g.number ∧
      g.number < st.q.resultOffset + st.q.resultCache.length)).length :=
    consecutive.window lower (by have := (consecutive.bounds scheduled).2; omega)
  have covered : (sched.filter fun g => decide (st.q.resultOffset ≤ g.number ∧
        g.number < st.q.resultOffset + st.q.resultCache.length)).map Header.hash ⊆
      (st.q.pools k).pending.map Header.hash ++ (st.q.pools k).donePool.keys ++
        (st.send ++ st.skip).map Header.hash := by
    intro x mem
    obtain ⟨g, gMem, rfl⟩ := List.mem_map.mp mem
    obtain ⟨gScheduled, gWindow⟩ := List.mem_filter.mp gMem
    simp only [decide_eq_true_eq] at gWindow
    have gAwaited : g ∈ popQueue.awaited sched k := by
      refine List.mem_filter.mpr ⟨gScheduled, ?_⟩
      simp only [popQueue_def, restore_needs, needs_setPools, restore_resultOffset, setPools_resultOffset, Bool.and_eq_true,
        decide_eq_true_eq]
      exact ⟨st.q.needs_of_le chosen.1 (by omega), gWindow.1⟩
    have held := (tracks.held k).mem_iff.mpr (List.mem_map_of_mem gAwaited)
    have shape : (popQueue.pools k).hashes = rest.items.map (fun y => y.1.hash) ++
        (st.send ++ st.skip).map Header.hash ++ [header.hash] ++ (st.q.pools k).pending.map Header.hash ++
        (st.q.pools k).donePool.keys := by
      simp [popQueue_def, Pools.hashes, Pools.queued, Pools.pending, Function.comp_def]
    rw [shape] at held
    simp only [List.mem_append, List.mem_singleton] at held
    simp only [List.mem_append]
    rcases held with (((inRest | inTaken) | same) | inPending) | inDone
    · obtain ⟨y, yMem, same⟩ := List.mem_map.mp inRest
      -- a queued task with its hash would be the same header, numbered below the popped one
      have yScheduled : y.1 ∈ sched := (holds.tracks.queued k y (by simp [wasQueued y yMem])).1
      have identical := consecutive.eq_of_hash yScheduled gScheduled same
      have := lowest y yMem
      rw [identical] at this
      omega
    · exact Or.inr inTaken
    · have identical := consecutive.eq_of_hash scheduled gScheduled same.symm
      rw [identical] at outside
      omega
    · exact Or.inl (Or.inl inPending)
    · exact Or.inl (Or.inr inDone)
  have bound := (consecutive.distinct.sublist (List.filter_sublist.map Header.hash)).length_le_of_subset covered
  have room := holds.room
  have taken := holds.taken
  simp only [List.length_append, List.length_map, Table.keys] at bound taken
  omega

/-- One turn of the loop keeps what holds: the popped task gets its result, and is then done at
once, skipped or sent. -/
theorem Reserve.Holds.step (holds : st.Holds sched q0 k) (lower : offset ≤ st.q.resultOffset)
    (guard : st.proc < st.space) (popped : (st.q.pools k).taskQueue.pop = some ((header, priority), rest))
    (p : PeerConnection) (isNoop : Header → Bool) :
    (reserveStep k p isNoop { st with q := st.q.setPools k { st.q.pools k with taskQueue := rest } } header
      (header.number - st.q.resultOffset)).Holds sched q0 k := by
  obtain ⟨slot, inBounds⟩ := holds.cacheIndex consecutive lower guard popped
  have tracks := holds.pop popped
  have scheduled : header ∈ sched := tracks.held_scheduled (k := k) (by simp [Pools.queued])
  obtain ⟨tracks2, r, found, -⟩ := Tracks.ensureResult consecutive tracks scheduled (by simpa using slot)
    (by simpa using inBounds)
  generalize made : (st.q.setPools k { st.q.pools k with taskQueue := rest }).ensureResult header
    (header.number - st.q.resultOffset) = q2 at tracks2 found
  have pools2 : ∀ k', q2.pools k' = if k' = k then { st.q.pools k with taskQueue := rest } else st.q.pools k' := by
    intro k'
    rw [← made]
    simp
  have offset2 : q2.resultOffset = st.q.resultOffset := by
    rw [← made]
    simp
  have needs2 : q2.needs = st.q.needs := by
    rw [← made]
    simp
  have length2 : q2.resultCache.length = st.q.resultCache.length := by
    rw [← made]
    simp
  have done2 : (q2.pools k).donePool = (st.q.pools k).donePool := by simp [pools2]
  have pending2 : (q2.pools k).pending = (st.q.pools k).pending := by simp [pools2, Pools.pending]
  have pendPool2 : (q2.pools k).pendPool = (st.q.pools k).pendPool := by simp [pools2]
  have others2 : ∀ k', k' ≠ k → q2.pools k' = st.q.pools k' := fun k' other => by simp [pools2, other]
  unfold reserveStep
  dsimp only
  rw [made]
  split_ifs with noop lacks
  · -- a no-op task: its hash is done at once, and the room shrinks by one
    have queued : header ∈ ((q2.restore k (st.send ++ st.skip ++ [header])).pools k).queued ++
        ((q2.restore k (st.send ++ st.skip ++ [header])).pools k).pending := by
      simp [Pools.queued]
    have absent : header.hash ∉ (q2.pools k).donePool.keys := by
      simpa using (tracks2.awaited_of_held consecutive queued).2
    rw [done2] at absent
    have grows : ((st.q.pools k).donePool.set header.hash ()).length = (st.q.pools k).donePool.length + 1 := by
      rw [Table.set_of_get_eq_none (Table.get_eq_none_iff.mpr absent)]
      simp
    rw [updateResult_of_found (by simpa using found)]
    refine ⟨?_, ?_, ?_, ?_, ?_, ?_, ?_⟩
    · have taken : (q2.restore k (st.send ++ st.skip ++ header :: [])).Tracks sched := tracks2
      have sameHeader : ({ r with pending := r.pending - 1 } : FetchResult τ ρ).header = r.header := rfl
      have counted : ({ r with pending := r.pending - 1 } : FetchResult τ ρ).pending = r.pending - 1 := rfl
      simpa using Tracks.markDone consecutive taken found (by simpa [offset2] using slot) sameHeader counted
    · simpa [offset2] using holds.offset
    · simpa [needs2] using holds.needs
    · intro k' other
      simpa [other, others2 k' other] using holds.others k' other
    · simpa [pendPool2] using holds.pendPool
    · have room := holds.room
      simp only [setResult_resultCache, setPools_resultCache, List.length_set, pools_setResult, pools_setPools,
        if_true, Pools.markDone_donePool, Pools.markDone_pending, done2, pending2, grows, length2]
      omega
    · simpa using holds.taken
  · -- a task the peer lacks is skipped
    refine ⟨?_, ?_, ?_, ?_, ?_, ?_, ?_⟩
    · simpa [List.append_assoc] using tracks2
    · simpa [offset2] using holds.offset
    · simpa [needs2] using holds.needs
    · intro k' other
      simpa [others2 k' other] using holds.others k' other
    · simpa [pendPool2] using holds.pendPool
    · simpa [length2, done2, pending2] using holds.room
    · have taken := holds.taken
      simp only [List.length_append, List.length_singleton] at taken ⊢
      omega
  · -- any other is sent
    refine ⟨?_, ?_, ?_, ?_, ?_, ?_, ?_⟩
    · have moved := tracks2.move k ((q2.pools k).pushAll (st.send ++ [header] ++ st.skip)) ?_ (by simp) ?_
        (by simpa using tracks2.peers k)
      · simpa [restore] using moved
      · rw [List.perm_iff_count]
        intro x
        simp only [pools_restore, if_true, Pools.queued_pushAll, Pools.pending_pushAll, List.count_append,
          List.count_cons, List.count_nil]
        omega
      · intro x mem
        have priority := tracks2.queued k x
        simp only [pools_restore, if_true, Pools.pushAll_items, List.map_append, List.mem_append] at mem priority
        rcases mem with queued | (sent | header) | skipped
        · exact (priority (Or.inl queued)).2
        · exact (priority (Or.inr (Or.inl (Or.inl sent)))).2
        · exact (priority (Or.inr (Or.inr header))).2
        · exact (priority (Or.inr (Or.inl (Or.inr skipped)))).2
    · simpa [offset2] using holds.offset
    · simpa [needs2] using holds.needs
    · intro k' other
      simpa [others2 k' other] using holds.others k' other
    · simpa [pendPool2] using holds.pendPool
    · simpa [length2, done2, pending2] using holds.room
    · have taken := holds.taken
      simp only [List.length_append, List.length_singleton] at taken ⊢
      omega

/-- The loop of `reserveHeaders` keeps what holds and never stops with an error. -/
theorem Reserve.Holds.loop (lower : offset ≤ q0.resultOffset) (p : PeerConnection) (count : Nat)
    (isNoop : Header → Bool) :
    ∀ (fuel : Nat) (st : Reserve τ ρ), st.Holds sched q0 k →
      (reserveLoop k p count isNoop fuel st).2 = none ∧ (reserveLoop k p count isNoop fuel st).1.Holds sched q0 k := by
  intro fuel
  induction fuel with
  | zero => exact fun st holds => ⟨rfl, holds⟩
  | succ fuel ih =>
      intro st holds
      have lowerHere : offset ≤ st.q.resultOffset := holds.offset ▸ lower
      simp only [reserveLoop]
      split_ifs with guard
      · split
        · exact ⟨rfl, holds⟩
        · next header priority rest popped =>
            obtain ⟨slot, inBounds⟩ := holds.cacheIndex consecutive lowerHere guard.1 popped
            have index : (st.q.setPools k { st.q.pools k with taskQueue := rest }).cacheIndex header =
                some (header.number - st.q.resultOffset) :=
              cacheIndex_eq_some.mpr ⟨by simpa using slot, by simpa using inBounds⟩
            rw [index]
            exact ih _ (holds.step consecutive lowerHere guard.1 popped p isNoop)
      · exact ⟨rfl, holds⟩

/-- `reserveHeaders` on headers scheduled in order does not fail, keeps the invariant and
leaves the offset. -/
theorem Tracks.reserveHeaders {q : Queue τ ρ} (tracks : q.Tracks sched) (lower : offset ≤ q.resultOffset)
    (k : Kind) (p : PeerConnection) (count now : Nat) (isNoop : Header → Bool) :
    (∀ err, (q.reserveHeaders k p count now isNoop).1 ≠ .error err) ∧
      (q.reserveHeaders k p count now isNoop).2.Tracks sched ∧
      (q.reserveHeaders k p count now isNoop).2.resultOffset = q.resultOffset := by
  unfold Queue.reserveHeaders
  dsimp only
  split_ifs with empty busy
  · exact ⟨fun _ => by simp, tracks, rfl⟩
  · exact ⟨fun _ => by simp, tracks, rfl⟩
  · have start : Reserve.Holds sched q k ⟨q, (q.resultCache.length : Int) - (q.pools k).donePool.length -
        ((q.pools k).pendPool.map fun e => e.2.headers.length).sum, 0, [], [], false⟩ := by
      refine ⟨by simpa [restore, Pools.pushAll] using tracks, rfl, rfl, fun _ _ => rfl, rfl, ?_, rfl⟩
      simp [Pools.pending, List.length_flatMap]
    obtain ⟨noError, holds⟩ := Reserve.Holds.loop consecutive lower p count isNoop (q.pools k).taskQueue.size _ start
    split
    · next st err finished =>
        rw [finished] at noError
        cases noError
    · next st finished =>
        rw [finished] at holds
        have absent : (st.q.pools k).pendPool.get p.id = none := by
          rw [holds.pendPool]
          simpa using busy
        split_ifs with nothing
        · refine ⟨fun _ => by simp, by simpa [restore, nothing] using holds.tracks, by simpa using holds.offset⟩
        · refine ⟨fun _ => by simp, ?_, by simpa using holds.offset⟩
          have moved := holds.tracks.move k { (st.q.pools k).pushAll st.skip with
              pendPool := (st.q.pools k).pendPool.set p.id ⟨p.id, st.send, now⟩ } ?_ (by simp) ?_ ?_
          · simpa [restore] using moved
          · rw [List.perm_iff_count]
            intro x
            simp only [Pools.queued_withPending, Pools.queued_pushAll, Pools.pending, pools_restore, if_true,
              Pools.pushAll_pendPool, Table.set_of_get_eq_none absent, List.flatMap_append, List.flatMap_cons,
              List.flatMap_nil, List.append_nil, List.count_append]
            omega
          · intro x mem
            have priority := holds.tracks.queued k x
            simp only [pools_restore, if_true, Pools.pushAll_items, List.map_append, List.mem_append] at mem priority
            rcases mem with queued | skipped
            · exact (priority (Or.inl queued)).2
            · exact (priority (Or.inr (Or.inr skipped))).2
          · exact Table.nodup_keys_set (by simpa using holds.tracks.peers k) _ _

end Reserving

end Queue

end Mjoy.Downloader
