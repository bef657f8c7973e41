import Mjoy.Downloader.Ancestor
import Mjoy.Lib.Slice

/-!
The header skeleton download of the block download scheduler
(`node/services/mjoy/downloader/queue.go`). `ScheduleSkeleton(from, skeleton)` makes one task for
every skeleton header `i`: the batch of `MaxHeaderFetch` headers from block
`from + i*MaxHeaderFetch`, whose last header is the skeleton header. A peer reserves the lowest
index it has not failed; a delivery is accepted whole or not at all, and an accepted batch is
copied into the results. The whole batches at the front of the results that are filled go to the
header processor, when it takes them at once (a send with a default branch).

`ReserveHeaders` reads an index 0 as "nothing reserved": a task at index 0 is popped and dropped.
An expired request goes back to the task queue without being marked as failed for its peer; a
rejected one is marked.
-/

namespace Mjoy.Downloader

/-- A header `fetchRequest`: the peer, the skeleton index `From` of the batch asked for, and the
time of the request. -/
structure HeaderRequest where
  peer : PeerId
  origin : Nat
  time : Nat
deriving DecidableEq, Repr

/-- The fields of `queue` the skeleton download works on. `results` is `none` while
`headerResults` is nil; `contCh` is what waits in `headerContCh`, a channel of one slot as
`ScheduleSkeleton` makes it. -/
structure Skeleton where
  taskPool : Table Nat Header
  taskQueue : Prque Nat
  peerMiss : Table PeerId (Table Nat Unit)
  pendPool : Table PeerId HeaderRequest
  results : Option (List (Option Header))
  proced : Nat
  offset : Nat
  contCh : List Bool

namespace Skeleton

def errNotAccepted : String := "delivery not accepted"

/-- The loop of `ScheduleSkeleton`: skeleton header `i` is the task at
`from + i*MaxHeaderFetch`. -/
def scheduleLoop (origin : Nat) :
    Nat → List Header → Table Nat Header × Prque Nat → Table Nat Header × Prque Nat
  | _, [], tasks => tasks
  | i, header :: rest, (pool, queue) =>
      let index := origin + i * maxHeaderFetch
      scheduleLoop origin (i + 1) rest (pool.set index header, queue.push index (-(index : Int)))

/-- `ScheduleSkeleton(from, skeleton)`; `none` is its panic while an assembly is in progress. The
pending requests are left as they are. -/
def scheduleSkeleton (s : Skeleton) (origin : Nat) (skeleton : List Header) : Option Skeleton :=
  match s.results with
  | some _ => none
  | none =>
      let tasks := scheduleLoop origin 0 skeleton (Table.empty, Prque.empty)
      some { s with
        taskPool := tasks.1, taskQueue := tasks.2, peerMiss := Table.empty,
        results := some (List.replicate (skeleton.length * maxHeaderFetch) none), proced := 0,
        offset := origin, contCh := [] }

/-- `RetrieveHeaders()`: the results and the number of headers processed, and the queue without
them. -/
def retrieveHeaders (s : Skeleton) : (Option (List (Option Header)) × Nat) × Skeleton :=
  ((s.results, s.proced), { s with results := none, proced := 0 })

/-- The loop of `ReserveHeaders`: pop until an index the peer has not failed comes up, setting
the failed ones aside. An index 0 reads as "none found", so the loop goes on without it. -/
def reserveLoop (missed : Table Nat Unit) :
    Nat → Nat × List Nat × Prque Nat → Nat × List Nat × Prque Nat
  | 0, st => st
  | fuel + 1, (send, skip, queue) =>
      if send = 0 then
        match queue.pop with
        | none => (send, skip, queue)
        | some ((origin, _), queue) =>
            if missed.contains origin then reserveLoop missed fuel (send, skip ++ [origin], queue)
            else reserveLoop missed fuel (origin, skip, queue)
      else (send, skip, queue)

/-- `ReserveHeaders(p, count)` at time `now`; `count` is not read. Every turn of the loop pops a
task, so the size of the task queue is enough turns. -/
def reserveHeaders (s : Skeleton) (p : PeerId) (now : Nat) : Option HeaderRequest × Skeleton :=
  if s.pendPool.contains p then (none, s)
  else
    let (send, skip, queue) :=
      reserveLoop ((s.peerMiss.get p).getD Table.empty) s.taskQueue.size (0, [], s.taskQueue)
    let queue := skip.foldl (fun queue origin => queue.push origin (-(origin : Int))) queue
    if send = 0 then (none, { s with taskQueue := queue })
    else
      let request : HeaderRequest := ⟨p, send, now⟩
      (some request, { s with taskQueue := queue, pendPool := s.pendPool.set p request })

/-- `CancelHeaders(request)`: the batch goes back to the task queue unless it is 0, and the
peer's pending request is dropped. A header request has no hashes and no headers to put back. -/
def cancelHeaders (s : Skeleton) (request : HeaderRequest) : Skeleton :=
  let queue :=
    if request.origin > 0 then s.taskQueue.push request.origin (-(request.origin : Int)) else s.taskQueue
  { s with taskQueue := queue, pendPool := s.pendPool.remove request.peer }

/-- `ExpireHeaders(timeout)` at time `now`: every request older than `timeout` goes back to the
task queue, batch 0 apart, and its peer is reported with `max(len(Hashes), len(Headers))`
failures, which is 0 for a header request. -/
def expireHeaders (s : Skeleton) (timeout now : Nat) : Table PeerId Nat × Skeleton :=
  let expired := s.pendPool.filter fun e => now - e.2.time > timeout
  let queue := expired.foldl (fun queue e =>
    if e.2.origin > 0 then queue.push e.2.origin (-(e.2.origin : Int)) else queue) s.taskQueue
  let expiries : Table PeerId Nat := expired.map fun e => (e.1, 0)
  (expiries, { s with
    taskQueue := queue, pendPool := expiries.foldl (fun pend e => pend.remove e.1) s.pendPool })

/-- The loop of `DeliverHeaders` over `headers[1:]`, from the header numbered `want` on: each is
numbered one more than the one before it and names it as its parent. -/
def chainsFrom : Nat → List Header → Bool
  | want, prev :: header :: rest =>
      decide (header.number = want) && decide (prev.hash = header.parentHash) &&
        chainsFrom (want + 1) (header :: rest)
  | _, _ => true

/-- The checks of `DeliverHeaders` on the batch for the request at `origin`, whose skeleton
header hashes to `target`. -/
def acceptsBatch (origin : Nat) (target : Hash) (headers : List Header) : Bool :=
  decide (headers.length = maxHeaderFetch) && decide (headers.head?.map Header.number = some origin) &&
    decide (headers.getLast?.map Header.hash = some target) && chainsFrom (origin + 1) headers

/-- The loop of `DeliverHeaders` that counts the ready headers: whole batches from `proced` on,
while the first slot of the next one is filled. -/
def readyLoop (results : List (Option Header)) (proced : Nat) : Nat → Nat → Nat
  | 0, ready => ready
  | fuel + 1, ready =>
      match results[proced + ready]? with
      | some (some _) => readyLoop results proced fuel (ready + maxHeaderFetch)
      | _ => ready

/-- The end of an accepted `DeliverHeaders`: the ready headers go to the processor if it takes
them (`accepts`), and the end of the download is signalled once no task is left. `none` where
the call does not return: a slice past the results, or a send to a full `headerContCh`. -/
def deliverReady (s : Skeleton) (accepts : Bool) :
    Option (Option (List (Option Header)) × Skeleton) := do
  let results := s.results.getD []
  let ready := readyLoop results s.proced results.length 0
  let (sent, s) ← if ready > 0 then
      if results.length < s.proced + ready then none
      else
        let process := (results.drop s.proced).take ready
        pure (if accepts then (some process, { s with proced := s.proced + ready }) else (none, s))
    else pure (none, s)
  if s.taskPool = [] then
    if s.contCh = [] then pure (sent, { s with contCh := [false] }) else none
  else pure (sent, s)

/-- `DeliverHeaders(id, headers, headerProcCh)`: the number accepted and the error, what was sent
to the header processor, and the queue after the call; `accepts` is whether the processor takes
the ready headers at once. `none` where the call does not return: a panic (no skeleton header at
the request's index, `request.From - q.headerOffset` wrapping or past the results, a slice past
them) or a send to a full `headerContCh`. -/
def deliverHeaders (s : Skeleton) (id : PeerId) (headers : List Header) (accepts : Bool) :
    Option ((Nat × Option String) × Option (List (Option Header)) × Skeleton) :=
  match s.pendPool.get id with
  | none => some ((0, some errNoFetchesPending), none, s)
  | some request =>
      let s := { s with pendPool := s.pendPool.remove id }
      match s.taskPool.get request.origin with
      | none => none
      | some target =>
          if acceptsBatch request.origin target.hash headers then
            let start := request.origin - s.offset
            if request.origin < s.offset ∨ (s.results.getD []).length < start then none
            else
              let s := { s with
                results := s.results.map fun results => Slice.copyFrom results start (headers.map some),
                taskPool := s.taskPool.remove request.origin }
              (deliverReady s accepts).map fun (sent, s) => ((headers.length, none), sent, s)
          else
            let miss := (s.peerMiss.get id).getD Table.empty
            some ((0, some errNotAccepted), none,
              { s with
                peerMiss := s.peerMiss.set id (miss.set request.origin ()),
                taskQueue := s.taskQueue.push request.origin (-(request.origin : Int)) })

-- Equation lemmas of the definitions above, made once here rather than by the proofs below
-- that unfold them in parallel.
section
attribute [local simp] scheduleLoop scheduleSkeleton reserveLoop reserveHeaders readyLoop deliverReady deliverHeaders
end

end Skeleton

/-- One call on the skeleton download, with what it sent to the header processor. A pending
request is cancelled by the caller that made it. -/
inductive SkeletonStep : Skeleton → List (List (Option Header)) → Skeleton → Prop
  | reserve (s : Skeleton) (p : PeerId) (now : Nat) : SkeletonStep s [] (s.reserveHeaders p now).2
  | deliver {s s' : Skeleton} {id : PeerId} {headers : List Header} {accepts : Bool}
      {result : Nat × Option String} {sent : Option (List (Option Header))} :
      s.deliverHeaders id headers accepts = some (result, sent, s') → SkeletonStep s sent.toList s'
  | cancel {s : Skeleton} {p : PeerId} {request : HeaderRequest} :
      s.pendPool.get p = some request → SkeletonStep s [] (s.cancelHeaders request)
  | expire (s : Skeleton) (timeout now : Nat) : SkeletonStep s [] (s.expireHeaders timeout now).2

/-- The calls from `s` on, one after the other, with the batches they sent to the processor. -/
inductive SkeletonRun (s : Skeleton) : List (List (Option Header)) → Skeleton → Prop
  | refl : SkeletonRun s [] s
  | step {sent more : List (List (Option Header))} {s₁ s₂ : Skeleton} :
      SkeletonRun s sent s₁ → SkeletonStep s₁ more s₂ → SkeletonRun s (sent ++ more) s₂

/-! ### Failed batches -/

namespace Skeleton

theorem deliverReady_frame {s s' : Skeleton} {accepts : Bool} {sent : Option (List (Option Header))}
    (ready : s.deliverReady accepts = some (sent, s')) :
    ∃ proced contCh, s' = { s with proced := proced, contCh := contCh } := by
  unfold deliverReady at ready
  simp only [Option.pure_def, Option.bind_eq_bind] at ready
  -- the ready headers are sent or kept, then the end of the download may be signalled
  split at ready
  · split at ready
    · simp at ready
    · split at ready
      · simp only [Option.bind_some] at ready
        split at ready
        · split at ready
          · cases ready
            exact ⟨_, _, rfl⟩
          · cases ready
        · cases ready
          exact ⟨_, _, rfl⟩
      · simp only [Option.bind_some] at ready
        split at ready
        · split at ready
          · cases ready
            exact ⟨_, _, rfl⟩
          · cases ready
        · cases ready
          exact ⟨_, _, rfl⟩
  · simp only [Option.bind_some] at ready
    split at ready
    · split at ready
      · cases ready
        exact ⟨_, _, rfl⟩
      · cases ready
    · cases ready
      exact ⟨_, _, rfl⟩

/-- The batches peer `p` is known to have failed: `headerPeerMiss[p]` holds `k`. -/
def Missed (s : Skeleton) (p : PeerId) (k : Nat) : Prop :=
  ((s.peerMiss.get p).getD Table.empty).contains k = true

section
attribute [local simp] Missed
end

/-- The loop of `ReserveHeaders` ends with nothing found or with an index the peer has not
failed. -/
theorem reserveLoop_send (missed : Table Nat Unit) :
    ∀ (fuel : Nat) (st : Nat × List Nat × Prque Nat), (st.1 = 0 ∨ missed.contains st.1 = false) →
      (reserveLoop missed fuel st).1 = 0 ∨ missed.contains (reserveLoop missed fuel st).1 = false
  | 0, _, found => found
  | fuel + 1, (send, skip, queue), found => by
      unfold reserveLoop
      split
      · next zero =>
          split
          · exact found
          · next origin _ rest _ =>
              split
              · exact reserveLoop_send missed fuel _ (.inl zero)
              · next fresh => exact reserveLoop_send missed fuel _ (.inr (by simpa using fresh))
      · exact found

/-- `ReserveHeaders` never hands a peer a batch it has failed. -/
theorem reserveHeaders_not_missed (s : Skeleton) (p : PeerId) (now : Nat) {request : HeaderRequest}
    (reserved : (s.reserveHeaders p now).1 = some request) : ¬ s.Missed p request.origin := by
  unfold reserveHeaders at reserved
  split at reserved
  · cases reserved
  · generalize looped : reserveLoop _ _ _ = found at reserved
    obtain ⟨send, skip, queue⟩ := found
    have fresh := reserveLoop_send ((s.peerMiss.get p).getD Table.empty) s.taskQueue.size
      (0, [], s.taskQueue) (.inl rfl)
    rw [looped] at fresh
    dsimp only at reserved fresh
    split at reserved
    · cases reserved
    · next nonzero =>
        cases reserved
        intro missed
        rcases fresh with zero | fresh
        · exact nonzero zero
        · rw [Missed, fresh] at missed
          cases missed

theorem reserveHeaders_peerMiss (s : Skeleton) (p : PeerId) (now : Nat) :
    (s.reserveHeaders p now).2.peerMiss = s.peerMiss := by
  unfold reserveHeaders
  split
  · rfl
  · dsimp only
    split <;> rfl

/-- A delivery only adds to the failed batches: a rejected one is marked for its peer. -/
theorem deliverHeaders_missed {s s' : Skeleton} {id : PeerId} {headers : List Header} {accepts : Bool}
    {result : Nat × Option String} {sent : Option (List (Option Header))}
    (delivered : s.deliverHeaders id headers accepts = some (result, sent, s')) {p : PeerId} {k : Nat}
    (missed : s.Missed p k) : s'.Missed p k := by
  unfold deliverHeaders at delivered
  split at delivered
  · cases delivered
    exact missed
  · dsimp only at delivered
    split at delivered
    · cases delivered
    · split at delivered
      · split at delivered
        · cases delivered
        · obtain ⟨⟨sent', s₁⟩, ready, same⟩ := Option.map_eq_some_iff.mp delivered
          cases same
          obtain ⟨proced, contCh, rfl⟩ := deliverReady_frame ready
          exact missed
      · cases delivered
        by_cases atPeer : p = id
        · subst atPeer
          simp only [Missed, Table.get_set, ↓reduceIte, Option.getD_some, Table.contains_set,
            Bool.or_eq_true, decide_eq_true_eq]
          exact .inr missed
        · simpa [Missed, atPeer] using missed

/-- A rejected delivery marks the batch as failed for the peer that sent it. -/
theorem deliverHeaders_rejected_missed {s s' : Skeleton} {id : PeerId} {headers : List Header}
    {accepts : Bool} {sent : Option (List (Option Header))} {request : HeaderRequest}
    (pending : s.pendPool.get id = some request)
    (rejected : s.deliverHeaders id headers accepts = some ((0, some errNotAccepted), sent, s')) :
    s'.Missed id request.origin := by
  unfold deliverHeaders at rejected
  rw [pending] at rejected
  dsimp only at rejected
  split at rejected
  · cases rejected
  · split at rejected
    · split at rejected
      · cases rejected
      · -- an accepted batch returns no error
        obtain ⟨_, -, same⟩ := Option.map_eq_some_iff.mp rejected
        simp at same
    · cases rejected
      simp [Missed]

end Skeleton

/-- No call takes a batch off a peer's failed list. -/
theorem SkeletonStep.missed {s s' : Skeleton} {sent : List (List (Option Header))}
    (step : SkeletonStep s sent s') {p : PeerId} {k : Nat} (missed : s.Missed p k) : s'.Missed p k := by
  cases step with
  | reserve q now =>
      unfold Skeleton.Missed
      rw [Skeleton.reserveHeaders_peerMiss]
      exact missed
  | deliver delivered => exact Skeleton.deliverHeaders_missed delivered missed
  | cancel => exact missed
  | expire => exact missed

theorem SkeletonRun.missed {s s' : Skeleton} {sent : List (List (Option Header))}
    (run : SkeletonRun s sent s') {p : PeerId} {k : Nat} (missed : s.Missed p k) : s'.Missed p k := by
  induction run with
  | refl => exact missed
  | step _ step ih => exact step.missed ih

/-- Once a peer's delivery for a batch is rejected, no later `ReserveHeaders` of that peer hands it
that batch again, whatever calls come between. -/
theorem rejected_batch_never_regiven {s₁ s₂ s₃ : Skeleton} {p : PeerId} {request : HeaderRequest}
    {headers : List Header} {accepts : Bool} {sent : Option (List (Option Header))}
    {more : List (List (Option Header))}
    (pending : s₁.pendPool.get p = some request)
    (rejected : s₁.deliverHeaders p headers accepts = some ((0, some Skeleton.errNotAccepted), sent, s₂))
    (later : SkeletonRun s₂ more s₃) (now : Nat) :
    ∀ request', (s₃.reserveHeaders p now).1 = some request' → request'.origin ≠ request.origin := by
  intro request' reserved same
  have marked := later.missed (Skeleton.deliverHeaders_rejected_missed pending rejected)
  exact Skeleton.reserveHeaders_not_missed s₃ p now reserved (same ▸ marked)

/-- A skeleton header, a peer pending for batch 1 of it, and the empty reply the peer sends. -/
theorem rejected_batch_never_regiven_empty :
    let header : Header := ⟨[], [], 0, [], []⟩
    let s₂ : Skeleton := ⟨[(1, header)], ⟨[(1, -1)]⟩, [("a", [(1, ())])], [], some [], 0, 1, []⟩
    ∀ request', (s₂.reserveHeaders "a" 0).1 = some request' → request'.origin ≠ 1 :=
  let header : Header := ⟨[], [], 0, [], []⟩
  let s₁ : Skeleton := ⟨[(1, header)], ⟨[]⟩, [], [("a", ⟨"a", 1, 0⟩)], some [], 0, 1, []⟩
  let pending : s₁.pendPool.get "a" = some ⟨"a", 1, 0⟩ := rfl
  let rejected : s₁.deliverHeaders "a" [] false =
      some ((0, some Skeleton.errNotAccepted), none,
        ⟨[(1, header)], ⟨[(1, -1)]⟩, [("a", [(1, ())])], [], some [], 0, 1, []⟩) := rfl
  rejected_batch_never_regiven pending rejected .refl 0

/-! ### A skeleton from block 0 -/

namespace Skeleton

/-- What `ReserveHeaders` leaves: the task queue reordered, and at most one new request, for an
index other than 0. -/
theorem reserveHeaders_cases (s : Skeleton) (p : PeerId) (now : Nat) :
    ∃ queue, (s.reserveHeaders p now).2 = { s with taskQueue := queue } ∨
      ∃ send, send ≠ 0 ∧ (s.reserveHeaders p now).2 =
        { s with taskQueue := queue, pendPool := s.pendPool.set p ⟨p, send, now⟩ } := by
  unfold reserveHeaders
  split
  · exact ⟨s.taskQueue, .inl rfl⟩
  · dsimp only
    split
    · exact ⟨_, .inl rfl⟩
    · next nonzero => exact ⟨_, .inr ⟨_, nonzero, rfl⟩⟩

/-- When no batch is ready, `deliverReady` sends nothing and leaves `proced`. -/
theorem deliverReady_idle {s s' : Skeleton} {accepts : Bool} {sent : Option (List (Option Header))}
    (idle : readyLoop (s.results.getD []) s.proced (s.results.getD []).length 0 = 0)
    (ready : s.deliverReady accepts = some (sent, s')) : sent = none ∧ s'.proced = s.proced := by
  unfold deliverReady at ready
  simp only [idle, gt_iff_lt, Nat.lt_irrefl, if_false, Option.pure_def, Option.bind_eq_bind,
    Option.bind_some] at ready
  split at ready
  · split at ready
    · cases ready
      exact ⟨rfl, rfl⟩
    · cases ready
  · cases ready
    exact ⟨rfl, rfl⟩

/-- The ready loop stops at once where the slot at `proced` is not filled. -/
theorem readyLoop_of_unfilled {results : List (Option Header)} {proced : Nat}
    (unfilled : ∀ h, results[proced]? ≠ some (some h)) (fuel : Nat) : readyLoop results proced fuel 0 = 0 := by
  cases fuel with
  | zero => rfl
  | succ fuel =>
      unfold readyLoop
      split
      · next h found => exact absurd found (unfilled h)
      · rfl

end Skeleton

/-- A download from block 0 as it stands: no request is pending for index 0, slot 0 of the results
is not filled, and nothing was processed. -/
structure Skeleton.FromZero (s : Skeleton) : Prop where
  offset : s.offset = 0
  pending : ∀ e ∈ s.pendPool, e.2.origin ≠ 0
  unfilled : ∀ h, (s.results.getD [])[0]? ≠ some (some h)
  proced : s.proced = 0

theorem mem_foldl_remove {κ ν : Type} [DecidableEq κ] {e : κ × ν} :
    ∀ (l : List (κ × Nat)) (t : Table κ ν), e ∈ l.foldl (fun pend x => pend.remove x.1) t → e ∈ t
  | [], _, mem => mem
  | _ :: rest, _, mem => (List.mem_filter.mp (mem_foldl_remove rest _ mem)).1

theorem SkeletonStep.fromZero {s s' : Skeleton} {sent : List (List (Option Header))}
    (step : SkeletonStep s sent s') (zero : s.FromZero) : sent = [] ∧ s'.FromZero := by
  cases step with
  | reserve p now =>
      obtain ⟨queue, same | ⟨send, nonzero, added⟩⟩ := Skeleton.reserveHeaders_cases s p now
      · rw [same]
        exact ⟨rfl, zero.offset, zero.pending, zero.unfilled, zero.proced⟩
      · rw [added]
        refine ⟨rfl, zero.offset, ?_, zero.unfilled, zero.proced⟩
        intro e mem
        simp only [Table.set, List.concat_eq_append, List.mem_append, List.mem_filter,
          List.mem_singleton] at mem
        rcases mem with ⟨kept, -⟩ | rfl
        · exact zero.pending e kept
        · exact nonzero
  | cancel found =>
      refine ⟨rfl, zero.offset, ?_, zero.unfilled, zero.proced⟩
      intro e mem
      exact zero.pending e (List.mem_filter.mp mem).1
  | expire timeout now =>
      refine ⟨rfl, zero.offset, ?_, zero.unfilled, zero.proced⟩
      intro e mem
      exact zero.pending e (mem_foldl_remove _ _ mem)
  | @deliver _ id headers accepts result sent delivered =>
      unfold Skeleton.deliverHeaders at delivered
      split at delivered
      · cases delivered
        exact ⟨rfl, zero⟩
      · next request found =>
          have nonzero : request.origin ≠ 0 := zero.pending _ (Table.mem_of_get found)
          dsimp only at delivered
          split at delivered
          · cases delivered
          · split at delivered
            · split at delivered
              · cases delivered
              · next inside =>
                  obtain ⟨⟨sent₁, s₁⟩, ready, same⟩ := Option.map_eq_some_iff.mp delivered
                  cases same
                  -- the batch is copied from its own index on, past slot 0
                  have kept : ∀ h, ((s.results.map fun results =>
                      Slice.copyFrom results (request.origin - s.offset) (headers.map some)).getD [])[0]? ≠
                      some (some h) := by
                    intro h
                    cases stored : s.results with
                    | none => simp
                    | some results =>
                        have start : request.origin - s.offset ≤ results.length := by
                          simp only [stored, Option.getD_some] at inside
                          omega
                        have unfilled := zero.unfilled h
                        rw [stored] at unfilled
                        simp only [Option.map_some, Option.getD_some] at unfilled ⊢
                        rw [Slice.getElem?_copyFrom _ start, if_neg (by rw [zero.offset]; omega)]
                        exact unfilled
                  have idle : Skeleton.readyLoop ((s.results.map fun results =>
                      Slice.copyFrom results (request.origin - s.offset) (headers.map some)).getD []) s.proced
                      ((s.results.map fun results =>
                      Slice.copyFrom results (request.origin - s.offset) (headers.map some)).getD []).length 0 = 0 :=
                    Skeleton.readyLoop_of_unfilled (by rw [zero.proced]; exact kept) _
                  obtain ⟨nothing, stays⟩ := Skeleton.deliverReady_idle idle ready
                  obtain ⟨proced, contCh, rfl⟩ := Skeleton.deliverReady_frame ready
                  subst nothing
                  refine ⟨rfl, zero.offset, ?_, kept, stays.trans zero.proced⟩
                  intro e mem
                  exact zero.pending e (List.mem_filter.mp mem).1
            · cases delivered
              refine ⟨rfl, zero.offset, ?_, zero.unfilled, zero.proced⟩
              intro e mem
              exact zero.pending e (List.mem_filter.mp mem).1

theorem SkeletonRun.fromZero {s s' : Skeleton} {sent : List (List (Option Header))}
    (run : SkeletonRun s sent s') (zero : s.FromZero) : sent = [] ∧ s'.FromZero := by
  induction run with
  | refl => exact ⟨rfl, zero⟩
  | step _ step ih =>
      obtain ⟨nothing, zero₁⟩ := ih
      obtain ⟨nothingMore, zero₂⟩ := step.fromZero zero₁
      rw [nothing, nothingMore]
      exact ⟨rfl, zero₂⟩

/-- `ScheduleSkeleton(0, skeleton)` with no request pending starts a download from block 0. -/
theorem Skeleton.scheduleSkeleton_fromZero {s s₀ : Skeleton} {skeleton : List Header}
    (idle : s.pendPool = []) (scheduled : s.scheduleSkeleton 0 skeleton = some s₀) : s₀.FromZero := by
  unfold Skeleton.scheduleSkeleton at scheduled
  split at scheduled
  · cases scheduled
  · cases scheduled
    refine ⟨rfl, by simp [idle], ?_, rfl⟩
    intro h
    simp [List.getElem?_replicate]

end Mjoy.Downloader
