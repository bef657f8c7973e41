import Mjoy.Downloader.Queue

/-!
What the download queue holds, and the invariant that ties it to the headers scheduled. For
each kind of fetch, every scheduled header that needs it and has not left the cache is held
once by the pools of that kind: in the task queue, in a pending request or in the done pool
(`Tracks.held`). A result in the cache sits at its block number minus the offset and counts
the kinds its block still misses (`Tracks.results`).

The scheduled headers are numbered one after another with distinct hashes (`Consecutive`),
which is what a `Schedule` from the next number after the last inserted gives. The operations
that only move tasks between the queue and the pending requests (`Revoke`, `expire`) keep the
invariant through `Tracks.move`.
-/

namespace Mjoy.Downloader

variable {τ ρ : Type}

/-- The headers in the task queue. -/
def Pools.queued (pools : Pools) : List Header := pools.taskQueue.items.map Prod.fst

/-- The headers of the pending requests. -/
def Pools.pending (pools : Pools) : List Header := pools.pendPool.flatMap (·.2.headers)

/-- The hashes the pools hold, with repetition: the task queue's, the pending requests', and
the done pool's. -/
def Pools.hashes (pools : Pools) : List Hash :=
  (pools.queued ++ pools.pending).map Header.hash ++ pools.donePool.keys

-- Equation lemmas of the definitions above, made once here rather than by the proofs below
-- that unfold them in parallel.
section
attribute [local simp] Pools.queued Pools.pending Pools.hashes
end

@[simp] theorem Pools.queued_pushAll (pools : Pools) (headers : List Header) :
    (pools.pushAll headers).queued = pools.queued ++ headers := by
  simp [queued, Function.comp_def]

@[simp] theorem Pools.pending_pushAll (pools : Pools) (headers : List Header) :
    (pools.pushAll headers).pending = pools.pending := by
  simp [pending]

@[simp] theorem Pools.queued_withPending (pools : Pools) (pend : Table PeerId FetchRequest) :
    ({ pools with pendPool := pend } : Pools).queued = pools.queued := rfl

@[simp] theorem Pools.markDone_queued (pools : Pools) (hash : Hash) : (pools.markDone hash).queued = pools.queued :=
  rfl

@[simp] theorem Pools.markDone_pending (pools : Pools) (hash : Hash) : (pools.markDone hash).pending = pools.pending :=
  rfl

@[simp] theorem Pools.markDone_pendPool (pools : Pools) (hash : Hash) :
    (pools.markDone hash).pendPool = pools.pendPool :=
  rfl

@[simp] theorem Pools.markDone_items (pools : Pools) (hash : Hash) :
    (pools.markDone hash).taskQueue.items = pools.taskQueue.items :=
  rfl

@[simp] theorem Pools.markDone_donePool (pools : Pools) (hash : Hash) :
    (pools.markDone hash).donePool = pools.donePool.set hash () :=
  rfl

/-- Headers moved between the task queue and the pending requests keep the hashes held. -/
theorem Pools.hashes_perm {pools pools' : Pools}
    (moved : (pools'.queued ++ pools'.pending).Perm (pools.queued ++ pools.pending))
    (done : pools'.donePool = pools.donePool) : pools'.hashes.Perm pools.hashes := by
  unfold hashes
  rw [done]
  exact (moved.map _).append_right _

/-- A pending request taken out of its table leaves the headers of the others. -/
theorem pending_perm_remove {pend : Table PeerId FetchRequest} (peers : pend.keys.Nodup) {id : PeerId}
    {request : FetchRequest} (found : pend.get id = some request) :
    (pend.flatMap (·.2.headers)).Perm (request.headers ++ (pend.remove id).flatMap (·.2.headers)) := by
  simpa using (Table.perm_cons_remove peers found).flatMap_right (·.2.headers)

/-! ### Scheduled headers -/

/-- Headers numbered one after another from `offset`, with distinct hashes. -/
structure Consecutive (offset : Nat) (sched : List Header) : Prop where
  numbers : sched.map Header.number = List.range' offset sched.length
  distinct : (sched.map Header.hash).Nodup

namespace Consecutive

variable {offset : Nat} {sched : List Header}

theorem number_getElem (c : Consecutive offset sched) {i : Nat} (lt : i < sched.length) :
    sched[i].number = offset + i := by
  have atIndex := congrArg (·[i]?) c.numbers
  simpa [List.getElem?_range' lt, lt] using atIndex

theorem bounds (c : Consecutive offset sched) {header : Header} (mem : header ∈ sched) :
    offset ≤ header.number ∧ header.number < offset + sched.length := by
  have listed : header.number ∈ List.range' offset sched.length :=
    c.numbers ▸ List.mem_map_of_mem mem
  obtain ⟨i, lt, atIndex⟩ := List.mem_range'.mp listed
  omega

theorem eq_of_number (c : Consecutive offset sched) {header other : Header} (mem : header ∈ sched)
    (otherMem : other ∈ sched) (same : header.number = other.number) : header = other := by
  have nodup : (sched.map Header.number).Nodup := c.numbers ▸ List.nodup_range'
  exact List.inj_on_of_nodup_map nodup mem otherMem same

theorem eq_of_hash (c : Consecutive offset sched) {header other : Header} (mem : header ∈ sched)
    (otherMem : other ∈ sched) (same : header.hash = other.hash) : header = other :=
  List.inj_on_of_nodup_map c.distinct mem otherMem same

/-- The first `n` scheduled headers are those numbered below `offset + n`. -/
theorem mem_take_iff (c : Consecutive offset sched) {header : Header} (mem : header ∈ sched) {n : Nat} :
    header ∈ sched.take n ↔ header.number < offset + n := by
  obtain ⟨i, lt, rfl⟩ := List.getElem_of_mem mem
  rw [c.number_getElem lt, List.mem_take_iff_getElem]
  constructor
  · rintro ⟨j, bound, same⟩
    have numbers := congrArg Header.number same
    rw [c.number_getElem (by omega), c.number_getElem lt] at numbers
    omega
  · intro below
    exact ⟨i, by omega, rfl⟩

/-- The first `n` scheduled headers are numbered from `offset` too. -/
theorem numbers_take (c : Consecutive offset sched) (n : Nat) :
    (sched.take n).map Header.number = List.range' offset (min n sched.length) := by
  apply List.ext_getElem (by simp)
  intro j lt _
  have inSched : j < sched.length := by simp at lt; omega
  rw [List.getElem_map, List.getElem_take, c.number_getElem inSched, List.getElem_range']
  omega

/-- Every number of the range is scheduled. -/
theorem exists_number (c : Consecutive offset sched) {n : Nat} (lower : offset ≤ n)
    (upper : n < offset + sched.length) : ∃ header ∈ sched, header.number = n := by
  have lt : n - offset < sched.length := by omega
  refine ⟨sched[n - offset], List.getElem_mem lt, ?_⟩
  rw [c.number_getElem lt]
  omega

/-- A window of `width` numbers inside the schedule holds `width` scheduled headers. -/
theorem window (c : Consecutive offset sched) {start width : Nat} (lower : offset ≤ start)
    (upper : start + width ≤ offset + sched.length) :
    width ≤ (sched.filter fun header => decide (start ≤ header.number ∧ header.number < start + width)).length := by
  have covered : List.range' start width ⊆
      (sched.filter fun header => decide (start ≤ header.number ∧ header.number < start + width)).map
        Header.number := by
    intro n mem
    obtain ⟨i, lt, rfl⟩ := List.mem_range'.mp mem
    obtain ⟨header, scheduled, numbered⟩ := c.exists_number (n := start + 1 * i) (by omega) (by omega)
    exact List.mem_map.mpr ⟨header, List.mem_filter.mpr ⟨scheduled, by simp [numbered]; omega⟩, numbered⟩
  simpa using (List.nodup_range' (s := start) (n := width)).length_le_of_subset covered

/-- A header with the next number and a new hash extends the schedule. -/
theorem append (c : Consecutive offset sched) {header : Header}
    (number : header.number = offset + sched.length) (fresh : header.hash ∉ sched.map Header.hash) :
    Consecutive offset (sched ++ [header]) where
  numbers := by simp [c.numbers, number, List.range'_concat]
  distinct := by
    rw [List.map_append, List.nodup_append]
    refine ⟨c.distinct, by simp, ?_⟩
    intro a mem b same
    simp only [List.map_cons, List.map_nil, List.mem_singleton] at same
    subst same
    exact fun eq => fresh (eq ▸ mem)

end Consecutive

/-- Headers with the same hash are the same header. -/
def HashesIdentify (headers : List Header) : Prop :=
  ∀ header ∈ headers, ∀ other ∈ headers, header.hash = other.hash → header = other

theorem HashesIdentify.mono {headers fewer : List Header} (identify : HashesIdentify headers)
    (sub : fewer ⊆ headers) : HashesIdentify fewer :=
  fun header mem other otherMem => identify header (sub mem) other (sub otherMem)

instance : DecidablePred HashesIdentify := fun headers =>
  inferInstanceAs (Decidable (∀ header ∈ headers, ∀ other ∈ headers, header.hash = other.hash → header = other))

/-! ### The invariant -/

namespace Queue

/-- Whether a header needs a fetch of kind `k`: every header its body, and its receipts in the
fast phase of a fast sync. -/
def needs (q : Queue τ ρ) : Kind → Header → Bool
  | .bodies, _ => true
  | .receipts, header => q.fetchesReceipts header

section
attribute [local simp] needs
end

/-- A header numbered no higher than one that needs a kind needs it too. -/
theorem needs_of_le (q : Queue τ ρ) {k : Kind} {header other : Header} (needed : q.needs k header = true)
    (le : other.number ≤ header.number) : q.needs k other = true := by
  cases k with
  | bodies => rfl
  | receipts =>
      simp only [needs, fetchesReceipts, decide_eq_true_eq] at needed ⊢
      exact ⟨needed.1, Nat.le_trans le needed.2⟩

/-- The kinds of fetch a header needs and has not got. -/
def missing (q : Queue τ ρ) (header : Header) : List Kind :=
  [Kind.bodies, .receipts].filter fun k => q.needs k header && !(q.pools k).donePool.contains header.hash

/-- The scheduled headers awaited for kind `k`: those that need it and have not left the cache. -/
def awaited (q : Queue τ ρ) (sched : List Header) (k : Kind) : List Header :=
  sched.filter fun header => q.needs k header && decide (q.resultOffset ≤ header.number)

section
attribute [local simp] missing awaited
end

@[simp] theorem needs_setPools (q : Queue τ ρ) (k : Kind) (pools : Pools) :
    (q.setPools k pools).needs = q.needs := by
  funext k' header
  cases k' <;> simp [needs, fetchesReceipts]

@[simp] theorem awaited_setPools (q : Queue τ ρ) (k : Kind) (pools : Pools) :
    (q.setPools k pools).awaited = q.awaited := by
  funext sched k'
  simp [awaited]

/-- Changing pools whose done pool stays the same changes no result's missing kinds. -/
theorem missing_setPools {q : Queue τ ρ} {k : Kind} {pools : Pools} (done : pools.donePool = (q.pools k).donePool) :
    (q.setPools k pools).missing = q.missing := by
  funext header
  unfold missing
  congr 1
  funext k'
  by_cases same : k' = k
  · subst same
    simp [done]
  · simp [same]

/-- The queue's pools and cache account for the scheduled headers `sched`. -/
structure Tracks (sched : List Header) (q : Queue τ ρ) : Prop where
  /-- Each awaited header is held once, and nothing else is held. -/
  held : ∀ k, (q.pools k).hashes.Perm ((q.awaited sched k).map Header.hash)
  /-- Queued tasks are scheduled headers, with their numbers as priorities. -/
  queued : ∀ k, ∀ x ∈ (q.pools k).taskQueue.items, x.1 ∈ sched ∧ x.2 = -(x.1.number : Int)
  pending : ∀ k, ∀ header ∈ (q.pools k).pending, header ∈ sched
  peers : ∀ k, ((q.pools k).pendPool.keys).Nodup
  /-- A result holds the scheduled header of its slot, and counts the kinds it misses. -/
  results : ∀ (i : Nat) (r : FetchResult τ ρ), q.resultCache[i]? = some (some r) →
    r.header ∈ sched ∧ r.header.number = q.resultOffset + i ∧ r.pending = ((q.missing r.header).length : Int)
  /-- A hash is done only when its result is in the cache. -/
  done : ∀ k x, x ∈ (q.pools k).donePool.keys →
    ∃ (i : Nat) (r : FetchResult τ ρ), q.resultCache[i]? = some (some r) ∧ r.header.hash = x

variable {sched : List Header} {q : Queue τ ρ}

/-- A header the task queue or a pending request holds is scheduled. -/
theorem Tracks.held_scheduled (tracks : q.Tracks sched) {k : Kind} {header : Header}
    (mem : header ∈ (q.pools k).queued ++ (q.pools k).pending) : header ∈ sched := by
  rcases List.mem_append.mp mem with queued | pending
  · obtain ⟨x, xMem, rfl⟩ := List.mem_map.mp queued
    exact (tracks.queued k x xMem).1
  · exact tracks.pending k header pending

/-- Pools of one kind whose tasks moved between the task queue and the pending requests, with
the same done pool, keep the invariant. -/
theorem Tracks.move (tracks : q.Tracks sched) (k : Kind) (pools : Pools)
    (moved : (pools.queued ++ pools.pending).Perm ((q.pools k).queued ++ (q.pools k).pending))
    (done : pools.donePool = (q.pools k).donePool)
    (priorities : ∀ x ∈ pools.taskQueue.items, x.2 = -(x.1.number : Int))
    (peers : pools.pendPool.keys.Nodup) : (q.setPools k pools).Tracks sched := by
  -- a header the new pools hold was queued or pending before
  have before : ∀ header ∈ pools.queued ++ pools.pending, header ∈ sched :=
    fun header mem => tracks.held_scheduled (moved.mem_iff.mp mem)
  refine ⟨?_, ?_, ?_, ?_, ?_, ?_⟩
  · intro k'
    by_cases same : k' = k
    · subst same
      simpa using (Pools.hashes_perm moved done).trans (tracks.held k')
    · simpa [same] using tracks.held k'
  · intro k' x mem
    by_cases same : k' = k
    · subst same
      simp only [pools_setPools, if_true] at mem
      exact ⟨before x.1 (List.mem_append_left _ (List.mem_map_of_mem mem)), priorities x mem⟩
    · simpa [same] using tracks.queued k' x (by simpa [same] using mem)
  · intro k' header mem
    by_cases same : k' = k
    · subst same
      simp only [pools_setPools, if_true] at mem
      exact before header (List.mem_append_right _ mem)
    · exact tracks.pending k' header (by simpa [same] using mem)
  · intro k'
    by_cases same : k' = k
    · subst same
      simpa using peers
    · simpa [same] using tracks.peers k'
  · intro i r found
    simpa [missing_setPools done] using tracks.results i r (by simpa using found)
  · intro k' x mem
    by_cases same : k' = k
    · subst same
      simpa using tracks.done k' x (by simpa [done] using mem)
    · simpa using tracks.done k' x (by simpa [same] using mem)

/-- `revokeKind` puts a peer's request back into the task queue. -/
theorem Tracks.revokeKind (tracks : q.Tracks sched) (k : Kind) (id : PeerId) :
    (q.revokeKind k id).Tracks sched := by
  unfold Queue.revokeKind
  split
  · next request found =>
      have peers := tracks.peers k
      apply tracks.move
      · have split := pending_perm_remove peers found
        simp only [Pools.queued_withPending, Pools.queued_pushAll,
          Pools.pushAll_pendPool, Pools.pending, List.append_assoc]
        exact (split.append_left _).symm
      · simp
      · intro x mem
        simp only [Pools.pushAll_items, List.mem_append, List.mem_map] at mem
        rcases mem with queued | ⟨header, -, rfl⟩
        · exact (tracks.queued k x queued).2
        · rfl
      · exact Table.nodup_keys_remove (by simpa using peers) id
  · exact tracks

theorem Tracks.revoke (tracks : q.Tracks sched) (id : PeerId) : (q.revoke id).Tracks sched :=
  (tracks.revokeKind .bodies id).revokeKind .receipts id

theorem Pools.foldl_pushAll (pools : Pools) (requests : List (PeerId × FetchRequest)) :
    requests.foldl (fun pools e => pools.pushAll e.2.headers) pools =
      pools.pushAll (requests.flatMap (·.2.headers)) := by
  induction requests generalizing pools with
  | nil => rfl
  | cons e rest ih => rw [List.foldl_cons, ih, List.flatMap_cons, Pools.pushAll_append]

/-- What `expire` leaves: the expired requests' headers queued again, and the others
pending. -/
theorem expire_snd (q : Queue τ ρ) (k : Kind) (timeout now : Nat) (peers : ((q.pools k).pendPool.keys).Nodup) :
    (q.expire k timeout now).2 =
      q.setPools k { (q.pools k).pushAll
          (((q.pools k).pendPool.filter fun e => now - e.2.time > timeout).flatMap (·.2.headers)) with
        pendPool := (q.pools k).pendPool.filter fun e => !decide (now - e.2.time > timeout) } := by
  simp only [expire, Pools.foldl_pushAll, Pools.pushAll_pendPool]
  congr 2
  rw [List.foldl_map, ← List.foldl_map (f := Prod.fst) (g := Table.remove), Table.foldl_remove]
  exact Table.filter_keys_filter peers _

/-- `expire` puts the expired requests back into the task queue. -/
theorem Tracks.expire (tracks : q.Tracks sched) (k : Kind) (timeout now : Nat) :
    (q.expire k timeout now).2.Tracks sched := by
  have peers := tracks.peers k
  rw [expire_snd q k timeout now peers]
  apply tracks.move
  · simp only [Pools.queued_withPending, Pools.queued_pushAll, Pools.pending,
      List.append_assoc]
    refine List.Perm.append_left _ ?_
    rw [← List.flatMap_append]
    exact (List.filter_append_perm _ _).flatMap_right _
  · simp
  · intro x mem
    simp only [Pools.pushAll_items, List.mem_append, List.mem_map] at mem
    rcases mem with queued | ⟨header, -, rfl⟩
    · exact (tracks.queued k x queued).2
    · rfl
  · simpa [Table.keys, List.filter_map] using peers.sublist (List.filter_sublist.map Prod.fst)

/-! ### Tasks taken out -/

/-- The queue with the headers `taken` put back into the task queue of kind `k`. -/
def restore (q : Queue τ ρ) (k : Kind) (taken : List Header) : Queue τ ρ :=
  q.setPools k ((q.pools k).pushAll taken)

section
attribute [local simp] restore
end

@[simp] theorem pools_restore (q : Queue τ ρ) (k k' : Kind) (taken : List Header) :
    (q.restore k taken).pools k' = if k' = k then (q.pools k).pushAll taken else q.pools k' := by
  simp [restore]

@[simp] theorem restore_resultCache (q : Queue τ ρ) (k : Kind) (taken : List Header) :
    (q.restore k taken).resultCache = q.resultCache := by
  simp [restore]

@[simp] theorem restore_resultOffset (q : Queue τ ρ) (k : Kind) (taken : List Header) :
    (q.restore k taken).resultOffset = q.resultOffset := by
  simp [restore]

@[simp] theorem restore_needs (q : Queue τ ρ) (k : Kind) (taken : List Header) :
    (q.restore k taken).needs = q.needs := by
  simp [restore]

@[simp] theorem restore_fetchesReceipts (q : Queue τ ρ) (k : Kind) (taken : List Header) :
    (q.restore k taken).fetchesReceipts = q.fetchesReceipts := by
  simp [restore]

theorem restore_setResult (q : Queue τ ρ) (k : Kind) (taken : List Header) (i : Nat) (r : FetchResult τ ρ) :
    (q.setResult i r).restore k taken = (q.restore k taken).setResult i r := by
  cases k <;> rfl

/-! ### Results -/

@[simp] theorem needs_setResult (q : Queue τ ρ) (i : Nat) (r : FetchResult τ ρ) :
    (q.setResult i r).needs = q.needs := by
  funext k header
  cases k <;> rfl

@[simp] theorem missing_setResult (q : Queue τ ρ) (i : Nat) (r : FetchResult τ ρ) :
    (q.setResult i r).missing = q.missing := by
  funext header
  simp [missing]

@[simp] theorem awaited_setResult (q : Queue τ ρ) (i : Nat) (r : FetchResult τ ρ) :
    (q.setResult i r).awaited = q.awaited := rfl

section Results

variable {offset : Nat} (consecutive : Consecutive offset sched)
include consecutive

theorem awaited_hashes_nodup (q : Queue τ ρ) (k : Kind) : ((q.awaited sched k).map Header.hash).Nodup :=
  consecutive.distinct.sublist (List.filter_sublist.map _)

/-- A header the task queue or a pending request of kind `k` holds is awaited for `k`, and not
done: its hash is held once. -/
theorem Tracks.awaited_of_held (tracks : q.Tracks sched) {k : Kind} {header : Header}
    (mem : header ∈ (q.pools k).queued ++ (q.pools k).pending) :
    header ∈ q.awaited sched k ∧ header.hash ∉ (q.pools k).donePool.keys := by
  have counted := (tracks.held k).count_eq header.hash
  rw [(awaited_hashes_nodup consecutive q k).count] at counted
  have inHeld : 0 < (((q.pools k).queued ++ (q.pools k).pending).map Header.hash).count header.hash :=
    List.count_pos_iff.mpr (List.mem_map_of_mem mem)
  simp only [Pools.hashes, List.count_append] at counted
  have inAwaited : header.hash ∈ (q.awaited sched k).map Header.hash := by
    by_contra absent
    rw [if_neg absent] at counted
    omega
  rw [if_pos inAwaited] at counted
  obtain ⟨other, otherMem, same⟩ := List.mem_map.mp inAwaited
  have identical : other = header :=
    consecutive.eq_of_hash (List.mem_filter.mp otherMem).1 (tracks.held_scheduled mem) same
  refine ⟨identical ▸ otherMem, fun done => ?_⟩
  have := List.count_pos_iff.mpr done
  omega

/-- A hash is done at most once. -/
theorem Tracks.done_nodup (tracks : q.Tracks sched) (k : Kind) : (q.pools k).donePool.keys.Nodup := by
  apply List.nodup_iff_count_le_one.mpr
  intro x
  have counted := (tracks.held k).count_eq x
  have once := List.nodup_iff_count_le_one.mp (awaited_hashes_nodup consecutive q k) x
  simp only [Pools.hashes, List.count_append] at counted
  omega

/-- A result made in an empty slot for the scheduled header of that slot counts every kind the
header needs: none is done, since a done hash has its result in the cache. -/
theorem Tracks.create (tracks : q.Tracks sched) {header : Header} {i : Nat} (scheduled : header ∈ sched)
    (slot : header.number = q.resultOffset + i) (empty : q.resultCache[i]? = some none) :
    (q.setResult i ⟨if q.fetchesReceipts header then 2 else 1, header, [], []⟩).Tracks sched := by
  have fresh : ∀ k, (q.pools k).donePool.contains header.hash = false := by
    intro k
    rw [Bool.eq_false_iff, ne_eq, Table.contains_iff_mem_keys]
    intro done
    obtain ⟨j, r, found, same⟩ := tracks.done k header.hash done
    obtain ⟨mem, number, -⟩ := tracks.results j r found
    have identical : r.header = header := consecutive.eq_of_hash mem scheduled same
    have atSlot : j = i := by
      rw [identical] at number
      omega
    rw [atSlot, empty] at found
    simp at found
  have counted : ((q.missing header).length : Int) = if q.fetchesReceipts header then 2 else 1 := by
    by_cases receipts : q.fetchesReceipts header <;> simp [missing, needs, fresh, receipts]
  have inBounds : i < q.resultCache.length := (List.getElem?_eq_some_iff.mp empty).1
  refine ⟨?_, ?_, ?_, ?_, ?_, ?_⟩
  · simpa using tracks.held
  · simpa using tracks.queued
  · simpa using tracks.pending
  · simpa using tracks.peers
  · intro j r found
    by_cases atSlot : i = j
    · subst atSlot
      simp only [setResult_resultCache, List.getElem?_set_self inBounds, Option.some.injEq] at found
      subst found
      exact ⟨scheduled, slot, by simpa using counted.symm⟩
    · simp only [setResult_resultCache, List.getElem?_set_ne atSlot] at found
      simpa using tracks.results j r found
  · intro k x done
    obtain ⟨j, r, found, same⟩ := tracks.done k x (by simpa using done)
    have atOther : i ≠ j := by
      rintro rfl
      rw [empty] at found
      simp at found
    exact ⟨j, r, by simpa [List.getElem?_set_ne atOther] using found, same⟩

/-- A task of kind `k` taken out of the task queue or a pending request and done: its hash
joins the done pool, and the result in its slot counts one kind fewer. The other pools, the
offset and the sync mode stay. -/
theorem Tracks.finish (tracks : q.Tracks sched) {q' : Queue τ ρ} {k : Kind} {header : Header} {i : Nat}
    {r r' : FetchResult τ ρ}
    (taken : ((q.pools k).queued ++ (q.pools k).pending).Perm
      (header :: ((q'.pools k).queued ++ (q'.pools k).pending)))
    (done : (q'.pools k).donePool = (q.pools k).donePool.set header.hash ())
    (others : ∀ k', k' ≠ k → q'.pools k' = q.pools k')
    (priorities : ∀ x ∈ (q'.pools k).taskQueue.items, x.2 = -(x.1.number : Int))
    (peers : (q'.pools k).pendPool.keys.Nodup)
    (offsetSame : q'.resultOffset = q.resultOffset) (needsSame : q'.needs = q.needs)
    (found : q.resultCache[i]? = some (some r)) (slot : header.number = q.resultOffset + i)
    (cache : q'.resultCache = q.resultCache.set i (some r'))
    (sameHeader : r'.header = r.header) (counted : r'.pending = r.pending - 1) : q'.Tracks sched := by
  obtain ⟨awaitedHeader, notDone⟩ := tracks.awaited_of_held consecutive (taken.mem_iff.mpr List.mem_cons_self)
  have scheduled : header ∈ sched := (List.mem_filter.mp awaitedHeader).1
  have needed : q.needs k header = true := by
    have chosen := (List.mem_filter.mp awaitedHeader).2
    simp only [Bool.and_eq_true, decide_eq_true_eq] at chosen
    exact chosen.1
  obtain ⟨rMem, rNumber, rPending⟩ := tracks.results i r found
  have own : r.header = header := consecutive.eq_of_number rMem scheduled (by omega)
  have inBounds : i < q.resultCache.length := (List.getElem?_eq_some_iff.mp found).1
  have awaitedSame : q'.awaited = q.awaited := by
    funext sched k'
    simp [awaited, offsetSame, needsSame]
  -- the only change to the done pools is the header's hash, new to those of kind `k`
  have contains : ∀ k' x, (q'.pools k').donePool.contains x =
      ((decide (k' = k) && decide (x = header.hash)) || (q.pools k').donePool.contains x) := by
    intro k' x
    by_cases same : k' = k
    · subst same
      simp [done]
    · simp [others k' same, same]
  have notContained : (q.pools k).donePool.contains header.hash = false := by
    simpa [← Table.contains_iff_mem_keys] using notDone
  have missingOther : ∀ g : Header, g.hash ≠ header.hash → q'.missing g = q.missing g := by
    intro g differs
    simp [missing, contains, differs, needsSame]
  have missingHeader : ((q'.missing header).length : Int) = (q.missing header).length - 1 := by
    cases k
    · simp [missing, contains, needsSame, needed, notContained, List.filter_cons]
    · simp [missing, contains, needsSame, needed, notContained, List.filter_cons]
      split <;> simp
  -- a header the new pools hold was held before
  have before : ∀ g ∈ (q'.pools k).queued ++ (q'.pools k).pending, g ∈ sched :=
    fun g mem => tracks.held_scheduled (taken.mem_iff.mpr (List.mem_cons_of_mem _ mem))
  refine ⟨?_, ?_, ?_, ?_, ?_, ?_⟩
  · intro k'
    rw [awaitedSame]
    by_cases same : k' = k
    · subst same
      refine List.Perm.trans ?_ (tracks.held k')
      rw [List.perm_iff_count]
      intro x
      have moved := (taken.map Header.hash).count_eq x
      simp only [Pools.hashes, done, Table.set_of_get_eq_none (Table.get_eq_none_iff.mpr notDone), Table.keys,
        List.map_append, List.map_cons, List.map_nil, List.count_append, List.count_cons, List.count_nil] at moved ⊢
      omega
    · simpa [others k' same] using tracks.held k'
  · intro k' x mem
    by_cases same : k' = k
    · subst same
      exact ⟨before x.1 (List.mem_append_left _ (List.mem_map_of_mem mem)), priorities x mem⟩
    · exact tracks.queued k' x (by simpa [others k' same] using mem)
  · intro k' g mem
    by_cases same : k' = k
    · subst same
      exact before g (List.mem_append_right _ mem)
    · exact tracks.pending k' g (by simpa [others k' same] using mem)
  · intro k'
    by_cases same : k' = k
    · subst same
      exact peers
    · simpa [others k' same] using tracks.peers k'
  · intro j r'' foundNew
    rw [cache] at foundNew
    by_cases atSlot : i = j
    · subst atSlot
      simp only [List.getElem?_set_self inBounds, Option.some.injEq] at foundNew
      subst foundNew
      refine ⟨sameHeader ▸ rMem, by rw [sameHeader, offsetSame]; exact rNumber, ?_⟩
      rw [counted, rPending, sameHeader, own, missingHeader]
    · simp only [List.getElem?_set_ne atSlot] at foundNew
      obtain ⟨mem, number, pending⟩ := tracks.results j r'' foundNew
      have differs : r''.header.hash ≠ header.hash := by
        intro same
        have identical := consecutive.eq_of_hash mem scheduled same
        rw [identical] at number
        omega
      exact ⟨mem, by omega, by rw [missingOther _ differs]; exact pending⟩
  · intro k' x mem
    have held := Table.contains_iff_mem_keys.mpr mem
    rw [contains] at held
    simp only [Bool.or_eq_true, Bool.and_eq_true, decide_eq_true_eq] at held
    rcases held with ⟨-, rfl⟩ | old
    · exact ⟨i, r', by simp [cache, List.getElem?_set_self inBounds], by rw [sameHeader, own]⟩
    · obtain ⟨j, r'', found'', same⟩ := tracks.done k' x (Table.contains_iff_mem_keys.mp old)
      by_cases atSlot : i = j
      · subst atSlot
        rw [found] at found''
        cases found''
        exact ⟨i, r', by simp [cache, List.getElem?_set_self inBounds], by rw [sameHeader]; exact same⟩
      · exact ⟨j, r'', by rw [cache, List.getElem?_set_ne atSlot]; exact found'', same⟩

/-- A task taken out and done: its hash joins the done pool and the result in its slot counts
one kind fewer; the queue with the other tasks taken put back keeps the invariant. -/
theorem Tracks.markDone {k : Kind} {header : Header} {pre post : List Header} {i : Nat} {r r' : FetchResult τ ρ}
    (tracks : (q.restore k (pre ++ header :: post)).Tracks sched) (found : q.resultCache[i]? = some (some r))
    (slot : header.number = q.resultOffset + i) (sameHeader : r'.header = r.header)
    (counted : r'.pending = r.pending - 1) :
    (((q.setPools k ((q.pools k).markDone header.hash)).setResult i r').restore k (pre ++ post)).Tracks sched := by
  have cache : (((q.setPools k ((q.pools k).markDone header.hash)).setResult i r').restore k (pre ++ post)).resultCache =
      (q.restore k (pre ++ header :: post)).resultCache.set i (some r') := by
    simp
  have restored : (q.restore k (pre ++ header :: post)).resultCache[i]? = some (some r) := by simpa using found
  have slotHere : header.number = (q.restore k (pre ++ header :: post)).resultOffset + i := by simpa using slot
  refine tracks.finish consecutive (k := k) ?_ (by simp) (fun k' other => by simp [other]) ?_
    (by simpa using tracks.peers k) (by simp) (by simp) restored slotHere cache sameHeader counted
  · rw [List.perm_iff_count]
    intro x
    simp only [pools_restore, pools_setResult, pools_setPools, if_true, Pools.queued_pushAll, Pools.pending_pushAll,
      Pools.markDone_queued, Pools.markDone_pending, List.count_append, List.count_cons]
    omega
  · intro x mem
    have priority := tracks.queued k x
    simp only [pools_restore, pools_setResult, pools_setPools, if_true, Pools.pushAll_items, Pools.markDone_items,
      List.map_append, List.map_cons, List.mem_append, List.mem_cons] at mem priority
    rcases mem with queued | taken | taken
    · exact (priority (Or.inl queued)).2
    · exact (priority (Or.inr (Or.inl taken))).2
    · exact (priority (Or.inr (Or.inr (Or.inr taken)))).2

end Results

/-! ### Schedule -/

/-- The pools after `queueHeader`: the header is queued in those of each kind it needs. -/
theorem pools_queueHeader (q : Queue τ ρ) (header : Header) (k : Kind) :
    (q.queueHeader header).pools k =
      if q.needs k header then
        { (q.pools k).push header with taskPool := (q.pools k).taskPool.set header.hash header }
      else q.pools k := by
  have same : ∀ blocks : Pools, ({ q with blocks } : Queue τ ρ).fetchesReceipts header = q.fetchesReceipts header :=
    fun _ => rfl
  unfold queueHeader
  simp only [same]
  by_cases receipts : q.fetchesReceipts header <;> cases k <;> simp [receipts, pools, needs]

@[simp] theorem queueHeader_resultCache (q : Queue τ ρ) (header : Header) :
    (q.queueHeader header).resultCache = q.resultCache := by
  unfold queueHeader
  dsimp only
  split <;> rfl

@[simp] theorem queueHeader_resultOffset (q : Queue τ ρ) (header : Header) :
    (q.queueHeader header).resultOffset = q.resultOffset := by
  unfold queueHeader
  dsimp only
  split <;> rfl

@[simp] theorem queueHeader_needs (q : Queue τ ρ) (header : Header) :
    (q.queueHeader header).needs = q.needs := by
  funext k other
  unfold queueHeader
  dsimp only
  cases k <;> split <;> rfl

/-- A queued task adds its hash to those the pools hold. -/
theorem Pools.hashes_push (pools : Pools) (header : Header) (taskPool : Table Hash Header) :
    ({ pools.push header with taskPool } : Pools).hashes.Perm (pools.hashes ++ [header.hash]) := by
  rw [List.perm_iff_count]
  intro x
  simp only [Pools.hashes, Pools.queued, Pools.pending, Pools.push, Prque.push_items, List.map_append,
    List.count_append, List.map_cons, List.map_nil]
  omega

theorem Tracks.headerHead (tracks : q.Tracks sched) (hash : Hash) : ({ q with headerHead := hash }).Tracks sched :=
  ⟨tracks.held, tracks.queued, tracks.pending, tracks.peers, tracks.results, tracks.done⟩

/-- Queuing a header not before the offset adds it to the headers the queue tracks. -/
theorem Tracks.queueHeader (tracks : q.Tracks sched) {header : Header} (later : q.resultOffset ≤ header.number) :
    (q.queueHeader header).Tracks (sched ++ [header]) := by
  have done : ∀ k, ((q.queueHeader header).pools k).donePool = (q.pools k).donePool := by
    intro k
    rw [pools_queueHeader]
    split <;> rfl
  have pendPool : ∀ k, ((q.queueHeader header).pools k).pendPool = (q.pools k).pendPool := by
    intro k
    rw [pools_queueHeader]
    split <;> rfl
  have missing : (q.queueHeader header).missing = q.missing := by
    funext other
    simp [Queue.missing, done]
  have grown : sched ⊆ sched ++ [header] := List.subset_append_left _ _
  refine ⟨?_, ?_, ?_, ?_, ?_, ?_⟩
  · intro k
    -- the header is awaited for exactly the kinds it needs
    have awaited : (q.queueHeader header).awaited (sched ++ [header]) k =
        q.awaited sched k ++ (if q.needs k header then [header] else []) := by
      by_cases needed : q.needs k header <;> simp [Queue.awaited, List.filter_append, needed, later]
    rw [awaited, pools_queueHeader]
    by_cases needed : q.needs k header
    · simp only [needed, if_true, List.map_append, List.map_cons, List.map_nil]
      exact (Pools.hashes_push _ _ _).trans ((tracks.held k).append_right _)
    · simpa [needed] using tracks.held k
  · intro k x mem
    rw [pools_queueHeader] at mem
    split at mem
    · simp only [Pools.push, Prque.push_items, List.mem_append, List.mem_singleton] at mem
      rcases mem with queued | rfl
      · exact ⟨grown (tracks.queued k x queued).1, (tracks.queued k x queued).2⟩
      · simp
    · exact ⟨grown (tracks.queued k x mem).1, (tracks.queued k x mem).2⟩
  · intro k other mem
    simp only [Pools.pending, pendPool] at mem
    exact grown (tracks.pending k other mem)
  · intro k
    simpa [pendPool] using tracks.peers k
  · intro i r found
    obtain ⟨mem, number, pending⟩ := tracks.results i r (by simpa using found)
    exact ⟨grown mem, by simpa using number, by simpa [missing] using pending⟩
  · intro k x mem
    simpa using tracks.done k x (by simpa [done] using mem)

/-- `Schedule`'s loop, started at the number after the scheduled headers, inserts headers that
extend them, and keeps the invariant. -/
theorem Tracks.scheduleLoop {offset : Nat} (headers : List Header) :
    ∀ (q q' : Queue τ ρ) (sched inserts out : List Header), Consecutive offset sched → q.Tracks sched →
      q.resultOffset ≤ offset + sched.length → HashesIdentify (sched ++ headers) →
      q.scheduleLoop headers (offset + sched.length) inserts = (out, q') →
      ∃ added, out = inserts ++ added ∧ added ⊆ headers ∧ Consecutive offset (sched ++ added) ∧
        q'.Tracks (sched ++ added) ∧ q'.resultOffset = q.resultOffset := by
  induction headers with
  | nil =>
      intro q q' sched inserts out _ tracks _ _ loop
      simp only [Queue.scheduleLoop, Prod.mk.injEq] at loop
      obtain ⟨rfl, rfl⟩ := loop
      exact ⟨[], by simp, by simp, by simpa, by simpa, rfl⟩
  | cons header rest ih =>
      intro q q' sched inserts out consecutive tracks upper identify loop
      have identifyRest : HashesIdentify (sched ++ rest) :=
        identify.mono fun other mem => by
          simp only [List.mem_append, List.mem_cons] at mem ⊢
          tauto
      -- a header already queued or already fetched is skipped
      have skipped (loop : q.scheduleLoop rest (offset + sched.length) inserts = (out, q')) :
          ∃ added, out = inserts ++ added ∧ added ⊆ header :: rest ∧ Consecutive offset (sched ++ added) ∧
            q'.Tracks (sched ++ added) ∧ q'.resultOffset = q.resultOffset := by
        obtain ⟨added, appended, within, extended, tracked, offsetSame⟩ :=
          ih q q' sched inserts out consecutive tracks upper identifyRest loop
        exact ⟨added, appended, List.Subset.trans within (List.subset_cons_self header rest), extended, tracked, offsetSame⟩
      simp only [Queue.scheduleLoop] at loop
      split_ifs at loop with number linked inBlocks inReceipts
      · -- a header out of order ends the loop
        obtain ⟨rfl, rfl⟩ := Prod.mk.inj loop
        exact ⟨[], by simp, by simp, by simpa, by simpa, rfl⟩
      · -- so does one that does not link to the head
        obtain ⟨rfl, rfl⟩ := Prod.mk.inj loop
        exact ⟨[], by simp, by simp, by simpa, by simpa, rfl⟩
      · exact skipped loop
      · exact skipped loop
      · have numbered : header.number = offset + sched.length := by simpa using number
        -- a scheduled header with its hash would be the same header, with a smaller number
        have fresh : header.hash ∉ sched.map Header.hash := by
          intro mem
          obtain ⟨other, otherMem, same⟩ := List.mem_map.mp mem
          have sameHeader : other = header := identify other (by simp [otherMem]) header (by simp) same
          have below := (consecutive.bounds otherMem).2
          rw [sameHeader] at below
          omega
        obtain ⟨added, rfl, within, extended, tracked, offsetSame⟩ :=
          ih _ q' (sched ++ [header]) (inserts ++ [header]) out (consecutive.append numbered fresh)
            ((tracks.queueHeader (by omega)).headerHead header.hash) (by simp; omega)
            (by simpa using identify) (by simpa [Nat.add_assoc] using loop)
        exact ⟨header :: added, by simp, List.cons_subset_cons header within, by simpa using extended,
          by simpa using tracked, by simpa using offsetSame⟩

end Queue

end Mjoy.Downloader
