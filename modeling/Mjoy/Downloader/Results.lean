import Mjoy.Downloader.Tasks

/-!
`WaitResults` takes the complete results from the front of the cache. `countProcessableItems`
counts results that are there and complete (`countProcessableItems_spec`); the results taken
are those of the first slots in order, their hashes leave the done pools, and the cache and the
offset move past them. On headers scheduled in order the results returned are the next
scheduled headers, numbered from the offset, and the invariant holds after.
-/

namespace Mjoy.Downloader

theorem map_some_filterMap_id {α : Type} : ∀ {l : List (Option α)}, (∀ x ∈ l, x.isSome) →
    (l.filterMap id).map some = l
  | [], _ => rfl
  | none :: _, all => by simp at all
  | some a :: rest, all => by
      simpa using congrArg (some a :: ·) (map_some_filterMap_id fun x mem => all x (List.mem_cons_of_mem _ mem))

namespace Queue

variable {τ ρ : Type}

/-- The loop of `countProcessableItems` counts, from `i`, results that are there and complete. -/
theorem countFrom_spec (q : Queue τ ρ) : ∀ (l : List (Option (FetchResult τ ρ))) (i : Nat),
    i ≤ q.countFrom i l ∧ q.countFrom i l ≤ i + l.length ∧
      ∀ m, m < q.countFrom i l - i → ∃ r, l[m]? = some (some r) ∧ r.pending ≤ 0 := by
  intro l
  induction l with
  | nil => intro i; simp [countFrom]
  | cons result rest ih =>
      intro i
      cases result with
      | none => simp [countFrom]
      | some r =>
          simp only [countFrom]
          split_ifs with busy pivot
          · simp
          · simp
          · obtain ⟨lower, upper, complete⟩ := ih (i + 1)
            refine ⟨by omega, by simp; omega, ?_⟩
            intro m below
            cases m with
            | zero => exact ⟨r, rfl, by omega⟩
            | succ m => simpa using complete m (by omega)

/-- `countProcessableItems` counts slots at the front of the cache that hold complete results. -/
theorem countProcessableItems_spec (q : Queue τ ρ) :
    q.countProcessableItems ≤ q.resultCache.length ∧
      ∀ m, m < q.countProcessableItems → ∃ r, q.resultCache[m]? = some (some r) ∧ r.pending ≤ 0 := by
  obtain ⟨-, upper, complete⟩ := q.countFrom_spec q.resultCache 0
  exact ⟨by simpa [countProcessableItems] using upper,
    fun m below => complete m (by simpa [countProcessableItems] using below)⟩

/-- The results `WaitResults` returns are those of the first `countProcessableItems` slots. -/
theorem waitResults_map_some (q : Queue τ ρ) :
    q.waitResults.1.map some = q.resultCache.take q.countProcessableItems := by
  obtain ⟨-, complete⟩ := q.countProcessableItems_spec
  apply map_some_filterMap_id
  intro x mem
  obtain ⟨m, below, rfl⟩ := List.getElem_of_mem mem
  simp only [List.length_take] at below
  obtain ⟨r, found, -⟩ := complete m (by omega)
  simp [List.getElem_take, List.getElem?_eq_some_iff.mp found |>.2]

theorem waitResults_getElem? (q : Queue τ ρ) {m : Nat} {r : FetchResult τ ρ}
    (below : m < q.countProcessableItems) (found : q.resultCache[m]? = some (some r)) :
    q.waitResults.1[m]? = some r := by
  have atIndex := congrArg (·[m]?) q.waitResults_map_some
  simp only [List.getElem?_map, List.getElem?_take, below, if_true, found] at atIndex
  simpa using atIndex

theorem waitResults_length (q : Queue τ ρ) : q.waitResults.1.length = q.countProcessableItems := by
  have lengths := congrArg List.length q.waitResults_map_some
  simp only [List.length_map, List.length_take] at lengths
  have := q.countProcessableItems_spec.1
  omega

@[simp] theorem waitResults_resultOffset (q : Queue τ ρ) :
    q.waitResults.2.resultOffset = q.resultOffset + q.countProcessableItems := rfl

@[simp] theorem waitResults_resultCache (q : Queue τ ρ) :
    q.waitResults.2.resultCache = q.resultCache.drop q.countProcessableItems ++
      List.replicate q.countProcessableItems none := rfl

@[simp] theorem waitResults_needs (q : Queue τ ρ) : q.waitResults.2.needs = q.needs := by
  funext k header
  cases k <;> rfl

/-- The done pools forget the hashes of the results returned. -/
theorem pools_waitResults (q : Queue τ ρ) (k : Kind) :
    q.waitResults.2.pools k = { q.pools k with
      donePool := (q.waitResults.1.map (·.header.hash)).foldl Table.remove (q.pools k).donePool } := by
  cases k <;> simp [waitResults, pools, List.foldl_map]

/-- After `WaitResults` the cache has moved past the results taken. -/
theorem waitResults_cache_of_found (q : Queue τ ρ) {j : Nat} {r : FetchResult τ ρ}
    (found : q.waitResults.2.resultCache[j]? = some (some r)) :
    q.resultCache[q.countProcessableItems + j]? = some (some r) := by
  have fits := q.countProcessableItems_spec.1
  rw [waitResults_resultCache] at found
  by_cases inDropped : j < (q.resultCache.drop q.countProcessableItems).length
  · rwa [List.getElem?_append_left inDropped, List.getElem?_drop] at found
  · rw [List.getElem?_append_right (by omega), List.getElem?_replicate] at found
    split at found <;> simp at found

theorem waitResults_cache_of_later (q : Queue τ ρ) {i : Nat} {r : FetchResult τ ρ}
    (found : q.resultCache[i]? = some (some r)) (later : q.countProcessableItems ≤ i) :
    q.waitResults.2.resultCache[i - q.countProcessableItems]? = some (some r) := by
  have inBounds : i < q.resultCache.length := (List.getElem?_eq_some_iff.mp found).1
  rw [waitResults_resultCache, List.getElem?_append_left (by simp; omega), List.getElem?_drop]
  rwa [Nat.add_sub_cancel' later]

/-- The done pools after `WaitResults` hold what they held but the returned hashes. -/
theorem mem_done_waitResults (q : Queue τ ρ) (k : Kind) (x : Hash) :
    x ∈ (q.waitResults.2.pools k).donePool.keys ↔
      x ∈ (q.pools k).donePool.keys ∧ x ∉ q.waitResults.1.map (·.header.hash) := by
  rw [pools_waitResults]
  simp only [Table.foldl_remove, Table.keys, List.mem_map, List.mem_filter, decide_eq_true_eq]
  constructor
  · rintro ⟨e, ⟨mem, kept⟩, rfl⟩
    exact ⟨⟨e, mem, rfl⟩, kept⟩
  · rintro ⟨⟨e, mem, rfl⟩, kept⟩
    exact ⟨e, ⟨mem, kept⟩, rfl⟩

theorem missing_waitResults (q : Queue τ ρ) {header : Header}
    (kept : header.hash ∉ q.waitResults.1.map (·.header.hash)) :
    q.waitResults.2.missing header = q.missing header := by
  unfold missing
  congr 1
  funext k
  have contained : (q.waitResults.2.pools k).donePool.contains header.hash =
      (q.pools k).donePool.contains header.hash := by
    rw [Bool.eq_iff_iff, Table.contains_iff_mem_keys, Table.contains_iff_mem_keys, mem_done_waitResults]
    exact ⟨fun held => held.1, fun held => ⟨held, kept⟩⟩
  rw [contained, waitResults_needs]

/-- A header that misses no kind has every kind it needs done. -/
theorem done_of_missing_eq_nil {q : Queue τ ρ} {header : Header} (none : q.missing header = []) {k : Kind}
    (needed : q.needs k header = true) : (q.pools k).donePool.contains header.hash = true := by
  have excluded := List.filter_eq_nil_iff.mp none k (by cases k <;> simp)
  simpa [needed] using excluded

section Returned

variable {sched : List Header} {offset : Nat} (consecutive : Consecutive offset sched) {q : Queue τ ρ}
  (tracks : q.Tracks sched)
include tracks

omit consecutive in
/-- A slot `WaitResults` takes holds a result that misses nothing. -/
theorem Tracks.taken_complete {m : Nat} (below : m < q.countProcessableItems) :
    ∃ r, q.resultCache[m]? = some (some r) ∧ r.pending = 0 ∧ q.missing r.header = [] := by
  obtain ⟨r, found, finished⟩ := q.countProcessableItems_spec.2 m below
  obtain ⟨-, -, pending⟩ := tracks.results m r found
  have none : (q.missing r.header).length = 0 := by omega
  exact ⟨r, found, by omega, List.length_eq_zero_iff.mp none⟩

include consecutive

/-- The results returned are those of the scheduled headers numbered from the offset up to the
count of processable items. -/
theorem Tracks.mem_returned {header : Header} (scheduled : header ∈ sched) :
    header.hash ∈ q.waitResults.1.map (·.header.hash) ↔
      q.resultOffset ≤ header.number ∧ header.number < q.resultOffset + q.countProcessableItems := by
  constructor
  · intro mem
    obtain ⟨r, rMem, same⟩ := List.mem_map.mp mem
    obtain ⟨m, below, rfl⟩ := List.getElem_of_mem rMem
    rw [waitResults_length] at below
    obtain ⟨r', found, -⟩ := tracks.taken_complete below
    have returned := q.waitResults_getElem? below found
    rw [List.getElem?_eq_getElem (by rw [waitResults_length]; exact below), Option.some.injEq] at returned
    obtain ⟨r'Mem, number, -⟩ := tracks.results m r' found
    rw [returned] at same
    have identical := consecutive.eq_of_hash r'Mem scheduled same
    rw [identical] at number
    omega
  · rintro ⟨lower, upper⟩
    obtain ⟨r, found, -⟩ := tracks.taken_complete (m := header.number - q.resultOffset) (by omega)
    obtain ⟨rMem, number, -⟩ := tracks.results _ r found
    have identical := consecutive.eq_of_number rMem scheduled (by omega)
    have returned := q.waitResults_getElem? (m := header.number - q.resultOffset) (by omega) found
    exact List.mem_map.mpr ⟨r, List.mem_of_getElem? returned, by rw [identical]⟩

/-- A task still queued or pending is not among the results returned: those are done for every
kind they need. -/
theorem Tracks.held_not_returned {k : Kind} {header : Header}
    (held : header ∈ (q.pools k).queued ++ (q.pools k).pending) :
    header.hash ∉ q.waitResults.1.map (·.header.hash) := by
  intro returned
  have scheduled := tracks.held_scheduled held
  obtain ⟨awaitedHeader, notDone⟩ := tracks.awaited_of_held consecutive held
  obtain ⟨lower, upper⟩ := (tracks.mem_returned consecutive scheduled).mp returned
  obtain ⟨r, found, -, none⟩ := tracks.taken_complete (m := header.number - q.resultOffset) (by omega)
  obtain ⟨rMem, number, -⟩ := tracks.results _ r found
  have identical := consecutive.eq_of_number rMem scheduled (by omega)
  have needed : q.needs k header = true := by
    have chosen := (List.mem_filter.mp awaitedHeader).2
    simp only [Bool.and_eq_true] at chosen
    exact chosen.1
  rw [identical] at none
  exact notDone (Table.contains_iff_mem_keys.mp (done_of_missing_eq_nil none needed))

/-- `WaitResults` keeps the invariant: the headers returned leave the awaited ones and the done
pools together, and the cache moves past their results. -/
theorem Tracks.waitResults : q.waitResults.2.Tracks sched := by
  have poolsAfter := pools_waitResults q
  have awaitedAfter : ∀ k g, g ∈ q.waitResults.2.awaited sched k ↔
      g ∈ sched ∧ q.needs k g = true ∧ q.resultOffset + q.countProcessableItems ≤ g.number := by
    intro k g
    simp only [awaited, List.mem_filter, Bool.and_eq_true, decide_eq_true_iff]
    rw [waitResults_needs, waitResults_resultOffset]
  have awaitedBefore : ∀ k g, g ∈ q.awaited sched k ↔ g ∈ sched ∧ q.needs k g = true ∧ q.resultOffset ≤ g.number := by
    intro k g
    simp only [awaited, List.mem_filter, Bool.and_eq_true, decide_eq_true_iff]
  -- a hash not returned is awaited after exactly when it was before
  have awaitedIff : ∀ k (x : Hash), x ∉ q.waitResults.1.map (·.header.hash) →
      (x ∈ (q.waitResults.2.awaited sched k).map Header.hash ↔ x ∈ (q.awaited sched k).map Header.hash) := by
    intro k x kept
    simp only [List.mem_map, awaitedAfter, awaitedBefore]
    constructor
    · rintro ⟨g, ⟨scheduled, needed, later⟩, rfl⟩
      exact ⟨g, ⟨scheduled, needed, by omega⟩, rfl⟩
    · rintro ⟨g, ⟨scheduled, needed, later⟩, rfl⟩
      have notReturned := mt (tracks.mem_returned consecutive scheduled).mpr kept
      exact ⟨g, ⟨scheduled, needed, by omega⟩, rfl⟩
  -- a returned hash is awaited no more
  have awaitedNot : ∀ k (x : Hash), x ∈ q.waitResults.1.map (·.header.hash) →
      x ∉ (q.waitResults.2.awaited sched k).map Header.hash := by
    intro k x returned mem
    obtain ⟨g, gMem, rfl⟩ := List.mem_map.mp mem
    obtain ⟨scheduled, -, later⟩ := (awaitedAfter k g).mp gMem
    have := ((tracks.mem_returned consecutive scheduled).mp returned).2
    omega
  refine ⟨?_, ?_, ?_, ?_, ?_, ?_⟩
  · intro k
    rw [List.perm_iff_count]
    intro x
    have before := (tracks.held k).count_eq x
    have oldKeys := tracks.done_nodup consecutive k
    have newKeys : (q.waitResults.2.pools k).donePool.keys.Nodup := by
      rw [poolsAfter]
      simp only [Table.foldl_remove, Table.keys]
      exact oldKeys.sublist (List.filter_sublist.map _)
    have oldAwaited := awaited_hashes_nodup consecutive q k
    have newAwaited := awaited_hashes_nodup consecutive q.waitResults.2 k
    rw [poolsAfter] at ⊢ newKeys
    simp only [Pools.hashes, Pools.queued, Pools.pending, List.count_append] at before ⊢
    by_cases returned : x ∈ q.waitResults.1.map (·.header.hash)
    · have heldNone : List.count x (((q.pools k).taskQueue.items.map Prod.fst ++
          (q.pools k).pendPool.flatMap (·.2.headers)).map Header.hash) = 0 := by
        apply List.count_eq_zero.mpr
        intro mem
        obtain ⟨y, yMem, rfl⟩ := List.mem_map.mp mem
        exact tracks.held_not_returned consecutive (k := k) (by simpa [Pools.queued, Pools.pending] using yMem)
          returned
      have doneNone : x ∉ (q.waitResults.2.pools k).donePool.keys :=
        fun mem => ((mem_done_waitResults q k x).mp mem).2 returned
      rw [poolsAfter] at doneNone
      rw [heldNone, List.count_eq_zero.mpr doneNone, List.count_eq_zero.mpr (awaitedNot k x returned)]
    · have doneSame : x ∈ (q.waitResults.2.pools k).donePool.keys ↔ x ∈ (q.pools k).donePool.keys := by
        rw [mem_done_waitResults]
        exact ⟨fun held => held.1, fun held => ⟨held, returned⟩⟩
      rw [poolsAfter] at doneSame
      rw [newKeys.count, oldKeys.count, newAwaited.count] at *
      rw [oldAwaited.count] at before
      simp only [doneSame, awaitedIff k x returned]
      omega
  · intro k x mem
    rw [poolsAfter] at mem
    exact tracks.queued k x mem
  · intro k header mem
    rw [poolsAfter] at mem
    exact tracks.pending k header mem
  · intro k
    rw [poolsAfter]
    exact tracks.peers k
  · intro j r found
    have earlier := q.waitResults_cache_of_found found
    obtain ⟨mem, number, pending⟩ := tracks.results _ r earlier
    have kept : r.header.hash ∉ q.waitResults.1.map (·.header.hash) := by
      rw [tracks.mem_returned consecutive mem]
      omega
    exact ⟨mem, by simp; omega, by rw [missing_waitResults q kept]; exact pending⟩
  · intro k x mem
    obtain ⟨wasDone, kept⟩ := (mem_done_waitResults q k x).mp mem
    obtain ⟨i, r, found, same⟩ := tracks.done k x wasDone
    have later : q.countProcessableItems ≤ i := by
      by_contra earlier
      have returned := q.waitResults_getElem? (by omega) found
      exact kept (List.mem_map.mpr ⟨r, List.mem_of_getElem? returned, same⟩)
    exact ⟨_, r, q.waitResults_cache_of_later found later, same⟩

/-- On headers scheduled in order from `offset`, `WaitResults` returns the scheduled headers
from the current offset on, each complete, and the offset stays within the schedule. -/
theorem Tracks.waitResults_returned (lower : offset ≤ q.resultOffset) (upper : q.resultOffset ≤ offset + sched.length) :
    q.waitResults.1.map FetchResult.header = (sched.drop (q.resultOffset - offset)).take q.countProcessableItems ∧
      q.resultOffset + q.countProcessableItems ≤ offset + sched.length ∧
      ∀ r ∈ q.waitResults.1, r.pending = 0 := by
  have fits : q.resultOffset + q.countProcessableItems ≤ offset + sched.length := by
    by_cases nothing : q.countProcessableItems = 0
    · omega
    · -- the last result taken holds a scheduled header
      obtain ⟨r, found, -⟩ := tracks.taken_complete (m := q.countProcessableItems - 1) (by omega)
      obtain ⟨mem, number, -⟩ := tracks.results _ r found
      have := (consecutive.bounds mem).2
      omega
  refine ⟨?_, fits, ?_⟩
  · apply List.ext_getElem?
    intro m
    by_cases below : m < q.countProcessableItems
    · obtain ⟨r, found, -⟩ := tracks.taken_complete below
      obtain ⟨mem, number, -⟩ := tracks.results m r found
      have inSched : q.resultOffset - offset + m < sched.length := by omega
      rw [List.getElem?_map, q.waitResults_getElem? below found, List.getElem?_take, if_pos below,
        List.getElem?_drop, List.getElem?_eq_getElem inSched]
      simp only [Option.map_some, Option.some.injEq]
      exact consecutive.eq_of_number mem (List.getElem_mem inSched) (by rw [consecutive.number_getElem inSched]; omega)
    · rw [List.getElem?_eq_none (by simp [waitResults_length]; omega), List.getElem?_eq_none (by simp; omega)]
  · intro r mem
    obtain ⟨m, below, rfl⟩ := List.getElem_of_mem mem
    rw [waitResults_length] at below
    obtain ⟨r', found, complete, -⟩ := tracks.taken_complete below
    have returned := q.waitResults_getElem? below found
    rw [List.getElem?_eq_getElem (by rw [waitResults_length]; exact below), Option.some.injEq] at returned
    rw [returned]
    exact complete

end Returned

end Queue

end Mjoy.Downloader
