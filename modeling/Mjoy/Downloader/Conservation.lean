import Mjoy.Downloader.Reserve
import Mjoy.Downloader.Deliver
import Mjoy.Downloader.Results

/-!
Runs of the download queue, and what it conserves. A run is any sequence of `Schedule`,
reservations, deliveries, expiries, revocations and `WaitResults`; next to the queue it keeps
the peers' lacking sets, the headers `Schedule` inserted and the results `WaitResults`
returned.

Every header scheduled and not yet returned is held, for each kind of fetch it needs, exactly
once: in the task queue, in one pending request, or in the done pool (`Pools.hashes`). That
holds when the headers are scheduled in order from the offset the queue was prepared with.
A `Schedule` that starts elsewhere can queue a header outside the result cache, and
`reserveHeaders` then pops it and stops with `errInvalidChain` before the tasks it skipped are
put back, so they are held nowhere.
-/

namespace Mjoy.Downloader

open Queue

variable {τ ρ : Type}

/-- The queue in a run: the peers' lacking sets, and the headers scheduled and the results
returned so far. -/
structure Sync (τ ρ : Type) where
  queue : Queue τ ρ
  lacking : Table PeerId (Table Hash Unit)
  scheduled : List Header
  returned : List (FetchResult τ ρ)

/-- The operations of a run. -/
inductive QueueOp (τ ρ : Type) where
  | schedule (headers : List Header) (next : Nat)
  | reserveBodies (peer : PeerId) (count now : Nat)
  | reserveReceipts (peer : PeerId) (count now : Nat)
  | deliverBodies (peer : PeerId) (txLists : List (List τ))
  | deliverReceipts (peer : PeerId) (receiptLists : List (List ρ))
  | expireBodies (timeout now : Nat)
  | expireReceipts (timeout now : Nat)
  | revoke (peer : PeerId)
  | waitResults

namespace QueueOp

/-- The headers an operation hands to `Schedule`. -/
def headers : QueueOp τ ρ → List Header
  | .schedule headers _ => headers
  | _ => []

/-- Whether an operation that is a `Schedule` starts at block `n`. -/
def startsAt : QueueOp τ ρ → Nat → Bool
  | .schedule _ next, n => next == n
  | _, _ => true

-- Equation lemmas of the definitions above, made once here rather than by the proofs below
-- that unfold them in parallel.
section
attribute [local simp] headers startsAt
end

end QueueOp

namespace Sync

/-- A new queue prepared for a sync from block `offset`. -/
def init (offset : Nat) (mode : SyncMode) (pivot : Nat) : Sync τ ρ :=
  { queue := Queue.new.prepare offset mode pivot, lacking := Table.empty, scheduled := [], returned := [] }

def peer (s : Sync τ ρ) (id : PeerId) : PeerConnection := ⟨id, (s.lacking.get id).getD Table.empty⟩

/-- The peer marks the hashes of an empty delivery as lacking. -/
def markLacking (s : Sync τ ρ) (id : PeerId) (hashes : List Hash) : Sync τ ρ :=
  { s with lacking := s.lacking.set id (hashes.foldl PeerConnection.markLacking (s.peer id)).lacking }

section
attribute [local simp] init peer
end

section Step

variable (deriveSha : List τ → Hash) (deriveReceipts : List ρ → Hash)

def step (s : Sync τ ρ) : QueueOp τ ρ → Sync τ ρ
  | .schedule headers next =>
      let (inserts, q) := s.queue.schedule headers next
      { s with queue := q, scheduled := s.scheduled ++ inserts }
  | .reserveBodies id count now => { s with queue := (s.queue.reserveBodies deriveSha (s.peer id) count now).2 }
  | .reserveReceipts id count now =>
      { s with queue := (s.queue.reserveReceipts deriveSha (s.peer id) count now).2 }
  | .deliverBodies id txLists =>
      let (_, q, hashes) := s.queue.deliverBodies deriveSha id txLists
      { s with queue := q }.markLacking id hashes
  | .deliverReceipts id receiptLists =>
      let (_, q, hashes) := s.queue.deliverReceipts deriveReceipts id receiptLists
      { s with queue := q }.markLacking id hashes
  | .expireBodies timeout now => { s with queue := (s.queue.expireBodies timeout now).2 }
  | .expireReceipts timeout now => { s with queue := (s.queue.expireReceipts timeout now).2 }
  | .revoke id => { s with queue := s.queue.revoke id }
  | .waitResults =>
      let (results, q) := s.queue.waitResults
      { s with queue := q, returned := s.returned ++ results }

def run (s : Sync τ ρ) (ops : List (QueueOp τ ρ)) : Sync τ ρ := ops.foldl (step deriveSha deriveReceipts) s

/-- Whether every `Schedule` of the run starts at the block after the headers scheduled before
it, counted from `offset`. -/
def inOrder (offset : Nat) : Sync τ ρ → List (QueueOp τ ρ) → Bool
  | _, [] => true
  | s, op :: ops => op.startsAt (offset + s.scheduled.length) && (s.step deriveSha deriveReceipts op).inOrder offset ops

section
attribute [local simp] step run inOrder
end

end Step

end Sync

/-! ### A header scheduled behind the offset -/

/-- Transactions as numbers, with a root that is their count. -/
def countRoot (txs : List Nat) : Hash := [txs.length.toUInt8]

/-- Block 0, with one transaction. -/
def block0 : Header := ⟨[0x10], zeroHash, 0, [1], [0]⟩

/-- Block 0 scheduled, its body fetched and delivered, and the result returned. -/
def fetchBlock0 : List (QueueOp Nat Nat) :=
  [.schedule [block0] 0, .reserveBodies "p" 1 0, .deliverBodies "p" [[7]], .waitResults]

/-- A header numbered 0 again, on top of `block0`. -/
def behind : Header := ⟨[0x11], [0x10], 0, [1], [0]⟩

namespace Sync

/-- What holds along a run from `init offset` whose headers are scheduled in order: the
scheduled headers are numbered one after another from `offset`, the results returned are the
scheduled headers below the queue's offset, each complete, and the queue tracks the others. -/
structure Valid (offset : Nat) (s : Sync τ ρ) : Prop where
  consecutive : Consecutive offset s.scheduled
  lower : offset ≤ s.queue.resultOffset
  upper : s.queue.resultOffset ≤ offset + s.scheduled.length
  returned : s.returned.map FetchResult.header = s.scheduled.take (s.queue.resultOffset - offset)
  complete : ∀ r ∈ s.returned, r.pending = 0
  tracks : s.queue.Tracks s.scheduled

variable {offset : Nat} {s : Sync τ ρ}

theorem Valid.init (offset : Nat) (mode : SyncMode) (pivot : Nat) :
    (init offset mode pivot : Sync τ ρ).Valid offset where
  consecutive := ⟨by simp [Sync.init], by simp [Sync.init]⟩
  lower := Nat.le_max_right _ _
  upper := by simp [Sync.init, Queue.prepare, Queue.new]
  returned := by simp [Sync.init]
  complete := by simp [Sync.init]
  tracks := by
    -- a new queue holds no task, no request and no result
    have empty : ∀ k, (Queue.new.prepare offset mode pivot : Queue τ ρ).pools k = Pools.empty := by
      intro k
      cases k <;> rfl
    have cache : (Queue.new.prepare offset mode pivot : Queue τ ρ).resultCache = List.replicate blockCacheLimit none :=
      rfl
    refine ⟨fun k => ?_, fun k => ?_, fun k => ?_, fun k => ?_, fun i r => ?_, fun k x => ?_⟩ <;>
      simp [Sync.init, empty, cache, Pools.empty, Pools.hashes, Pools.queued, Pools.pending, awaited, Table.empty,
        Table.keys, Prque.empty, List.getElem?_replicate]

/-- An operation that changes only the queue, keeping `Tracks` and the offset, keeps the
invariant. -/
theorem Valid.withQueue (valid : s.Valid offset) {q : Queue τ ρ} (tracks : q.Tracks s.scheduled)
    (offsetSame : q.resultOffset = s.queue.resultOffset) : ({ s with queue := q } : Sync τ ρ).Valid offset where
  consecutive := valid.consecutive
  lower := offsetSame ▸ valid.lower
  upper := offsetSame ▸ valid.upper
  returned := offsetSame ▸ valid.returned
  complete := valid.complete
  tracks := tracks

theorem Valid.markLacking (valid : s.Valid offset) (id : PeerId) (hashes : List Hash) :
    (s.markLacking id hashes).Valid offset :=
  ⟨valid.consecutive, valid.lower, valid.upper, valid.returned, valid.complete, valid.tracks⟩

/-- `WaitResults` returns the scheduled headers from the offset on, complete, and moves the
offset past them. -/
theorem Valid.waitResults (valid : s.Valid offset) :
    ({ s with queue := s.queue.waitResults.2, returned := s.returned ++ s.queue.waitResults.1 } : Sync τ ρ).Valid
      offset := by
  obtain ⟨taken, fits, complete⟩ :=
    Queue.Tracks.waitResults_returned valid.consecutive valid.tracks valid.lower valid.upper
  have lower := valid.lower
  refine ⟨valid.consecutive, ?_, ?_, ?_, ?_, Queue.Tracks.waitResults valid.consecutive valid.tracks⟩
  · simp only [waitResults_resultOffset]
    omega
  · simpa using fits
  · -- the results taken continue the prefix returned before
    have moved : s.queue.waitResults.2.resultOffset - offset =
        (s.queue.resultOffset - offset) + s.queue.countProcessableItems := by
      simp only [waitResults_resultOffset]
      omega
    rw [List.map_append, valid.returned, taken, moved, List.take_add]
  · intro r mem
    rcases List.mem_append.mp mem with before | now
    · exact valid.complete r before
    · exact complete r now

section Step

variable (deriveSha : List τ → Hash) (deriveReceipts : List ρ → Hash)

/-- `Schedule` from the block after the scheduled headers extends them with headers it was
given, and keeps the invariant. -/
theorem Valid.schedule (valid : s.Valid offset) (headers : List Header)
    (identify : HashesIdentify (s.scheduled ++ headers)) :
    (s.step deriveSha deriveReceipts (.schedule headers (offset + s.scheduled.length))).Valid offset ∧
      ∃ added ⊆ headers,
        (s.step deriveSha deriveReceipts (.schedule headers (offset + s.scheduled.length))).scheduled =
          s.scheduled ++ added := by
  rcases scheduled : s.queue.schedule headers (offset + s.scheduled.length) with ⟨inserts, q⟩
  obtain ⟨added, appended, within, extended, tracked, offsetSame⟩ :=
    Queue.Tracks.scheduleLoop headers s.queue q s.scheduled [] inserts valid.consecutive valid.tracks valid.upper
      identify scheduled
  rw [List.nil_append] at appended
  subst appended
  simp only [step, scheduled]
  have upper := valid.upper
  refine ⟨⟨extended, offsetSame ▸ valid.lower, ?_, ?_, valid.complete, tracked⟩, inserts, within, rfl⟩
  · rw [List.length_append, offsetSame]
    omega
  · rw [offsetSame, List.take_append_of_le_length (by omega)]
    exact valid.returned

/-- One operation keeps the invariant, and extends the schedule with headers it was given. -/
theorem Valid.step (valid : s.Valid offset) (op : QueueOp τ ρ) (identify : HashesIdentify (s.scheduled ++ op.headers))
    (starts : op.startsAt (offset + s.scheduled.length) = true) :
    (s.step deriveSha deriveReceipts op).Valid offset ∧
      ∃ added ⊆ op.headers, (s.step deriveSha deriveReceipts op).scheduled = s.scheduled ++ added := by
  -- every operation but `Schedule` leaves the schedule
  have unchanged : ∃ added ⊆ ([] : List Header), s.scheduled = s.scheduled ++ added :=
    ⟨[], List.nil_subset _, (List.append_nil _).symm⟩
  cases op with
  | schedule headers next =>
      rw [QueueOp.startsAt, beq_iff_eq] at starts
      subst starts
      exact valid.schedule deriveSha deriveReceipts headers identify
  | reserveBodies id count now =>
      obtain ⟨-, tracked, offsetSame⟩ := Queue.Tracks.reserveHeaders valid.consecutive valid.tracks valid.lower
        .bodies (s.peer id) count now _
      exact ⟨valid.withQueue tracked offsetSame, unchanged⟩
  | reserveReceipts id count now =>
      obtain ⟨-, tracked, offsetSame⟩ := Queue.Tracks.reserveHeaders valid.consecutive valid.tracks valid.lower
        .receipts (s.peer id) count now _
      exact ⟨valid.withQueue tracked offsetSame, unchanged⟩
  | deliverBodies id txLists =>
      obtain ⟨tracked, offsetSame⟩ := Queue.Tracks.deliverBodies valid.consecutive valid.tracks deriveSha id txLists
      exact ⟨(valid.withQueue tracked offsetSame).markLacking id _, unchanged⟩
  | deliverReceipts id receiptLists =>
      obtain ⟨tracked, offsetSame⟩ :=
        Queue.Tracks.deliverReceipts valid.consecutive valid.tracks deriveReceipts id receiptLists
      exact ⟨(valid.withQueue tracked offsetSame).markLacking id _, unchanged⟩
  | expireBodies timeout now =>
      exact ⟨valid.withQueue (valid.tracks.expire .bodies timeout now) (expire_resultOffset ..), unchanged⟩
  | expireReceipts timeout now =>
      exact ⟨valid.withQueue (valid.tracks.expire .receipts timeout now) (expire_resultOffset ..), unchanged⟩
  | revoke id => exact ⟨valid.withQueue (valid.tracks.revoke id) (revoke_resultOffset ..), unchanged⟩
  | waitResults => exact ⟨valid.waitResults, unchanged⟩

/-- A run whose `Schedule`s start in order, on headers told apart by their hashes, keeps the
invariant. -/
theorem Valid.run : ∀ (ops : List (QueueOp τ ρ)) {s : Sync τ ρ}, s.Valid offset →
    HashesIdentify (s.scheduled ++ ops.flatMap QueueOp.headers) → s.inOrder deriveSha deriveReceipts offset ops = true →
    (s.run deriveSha deriveReceipts ops).Valid offset
  | [], _, valid, _, _ => valid
  | op :: ops, s, valid, identify, ordered => by
      rw [inOrder, Bool.and_eq_true] at ordered
      have identifyHere : HashesIdentify (s.scheduled ++ op.headers) :=
        identify.mono fun header mem => by
          simp only [List.flatMap_cons, List.mem_append] at mem ⊢
          tauto
      obtain ⟨valid', added, within, grown⟩ := valid.step deriveSha deriveReceipts op identifyHere ordered.1
      -- the headers scheduled now come from this operation
      have identifyRest : HashesIdentify ((s.step deriveSha deriveReceipts op).scheduled ++ ops.flatMap QueueOp.headers) :=
        identify.mono fun header mem => by
          simp only [grown, List.flatMap_cons, List.mem_append] at mem ⊢
          rcases mem with (before | now) | later
          · exact Or.inl before
          · exact Or.inr (Or.inl (within now))
          · exact Or.inr (Or.inr later)
      exact Valid.run ops valid' identifyRest ordered.2

end Step

/-- What the queue conserves along a run from block `offset`. -/
structure Conserves (offset : Nat) (s : Sync τ ρ) : Prop where
  /-- For each kind of fetch, the pools hold the hashes of the scheduled headers not yet
  returned that need it, and nothing else. -/
  held : ∀ k, (s.queue.pools k).hashes.Perm
    ((s.scheduled.filter fun header =>
      s.queue.needs k header && decide (header ∉ s.returned.map FetchResult.header)).map Header.hash)
  /-- Each of them is in exactly one place: the task queue, one pending request or the done
  pool. -/
  once : ∀ k, ∀ header ∈ s.scheduled, header ∉ s.returned.map FetchResult.header → s.queue.needs k header = true →
    (s.queue.pools k).hashes.count header.hash = 1
  nonnegative : ∀ (i : Nat) (r : FetchResult τ ρ), s.queue.resultCache[i]? = some (some r) → 0 ≤ r.pending
  complete : ∀ r ∈ s.returned, r.pending = 0
  /-- The results returned are numbered one after another from `offset`, and the queue's offset
  is the next number. -/
  numbers : s.returned.map (·.header.number) = List.range' offset s.returned.length
  offsetNext : s.queue.resultOffset = offset + s.returned.length
  /-- They are the first scheduled headers, each returned once. -/
  front : s.returned.map FetchResult.header = s.scheduled.take s.returned.length
  distinct : (s.returned.map FetchResult.header).Nodup

/-- The scheduled headers not yet returned are those from the queue's offset on. -/
theorem Valid.not_returned_iff (valid : s.Valid offset) {header : Header} (mem : header ∈ s.scheduled) :
    header ∉ s.returned.map FetchResult.header ↔ s.queue.resultOffset ≤ header.number := by
  rw [valid.returned, valid.consecutive.mem_take_iff mem]
  have lower := valid.lower
  omega

theorem Valid.returned_length (valid : s.Valid offset) : s.returned.length = s.queue.resultOffset - offset := by
  have lengths := congrArg List.length valid.returned
  have upper := valid.upper
  simp only [List.length_map, List.length_take] at lengths
  omega

theorem Valid.conserves (valid : s.Valid offset) : s.Conserves offset := by
  have awaitedHere : ∀ k, s.scheduled.filter (fun header =>
      s.queue.needs k header && decide (header ∉ s.returned.map FetchResult.header)) =
        s.queue.awaited s.scheduled k := by
    intro k
    apply List.filter_congr
    intro header mem
    rw [decide_eq_decide.mpr (valid.not_returned_iff mem)]
  have lower := valid.lower
  have counted := valid.returned_length
  refine ⟨fun k => awaitedHere k ▸ valid.tracks.held k, ?_, ?_, valid.complete, ?_, by omega, ?_, ?_⟩
  · intro k header mem notReturned needed
    rw [(valid.tracks.held k).count_eq]
    apply List.count_eq_one_of_mem (awaited_hashes_nodup valid.consecutive s.queue k)
    refine List.mem_map_of_mem (List.mem_filter.mpr ⟨mem, ?_⟩)
    simpa [needed] using (valid.not_returned_iff mem).mp notReturned
  · intro i r found
    rw [(valid.tracks.results i r found).2.2]
    exact Int.natCast_nonneg _
  · have upper := valid.upper
    have composed : s.returned.map (·.header.number) = (s.returned.map FetchResult.header).map Header.number :=
      (List.map_map ..).symm
    rw [composed, valid.returned, valid.consecutive.numbers_take, counted]
    congr 1
    omega
  · rw [valid.returned, counted]
  · rw [valid.returned]
    exact (List.Nodup.of_map Header.hash valid.consecutive.distinct).sublist (List.take_sublist _ _)

end Sync

end Mjoy.Downloader
