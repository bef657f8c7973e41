import Mathlib
import Mjoy.Lib.Prque
import Mjoy.Lib.Table

/-!
The block download scheduler (`node/services/mjoy/downloader/queue.go`). `Schedule` queues the
headers of a chain for their bodies and, in the fast phase of a fast sync, their receipts.
A peer reserves a batch of tasks of one kind, and delivers it, expires it or is revoked; a
result collects the parts of its block in a cache indexed by block number minus
`resultOffset`, and `WaitResults` takes the complete results from its front.

Bodies and receipts each have a task pool, a task queue, a pending pool and a done pool; the
generic functions of the source (`reserveHeaders`, `deliver`, `expire`, `cancel`) take the kind
whose pools they work on. The task queues are priority queues with priority `-number`, exact
where the source's `float32` priorities are (block numbers below 2^24). Delivered contents are
checked by `DeriveSha`, a parameter. Times are numbers; the metrics and the signals to
`WaitResults` are left out. The header skeleton download (`ScheduleSkeleton`, `ReserveHeaders`,
`DeliverHeaders`) works on header fields that nothing here reads; it is `Mjoy.Downloader.Skeleton`.
-/

namespace Mjoy.Downloader

/-- `types.Hash`. -/
abbrev Hash := List UInt8

abbrev PeerId := String

/-- `types.Hash{}`. -/
def zeroHash : Hash := List.replicate 32 0

/-- The fields of `block.Header` the queue reads; `hash` is `Hash()`. -/
structure Header where
  hash : Hash
  parentHash : Hash
  number : Nat
  txHash : Hash
  receiptHash : Hash
deriving DecidableEq, Repr

inductive SyncMode where
  | fullSync
  | fastSync
  | lightSync
deriving DecidableEq, Repr

/-- Number of headers to verify before and after the pivot to accept it. -/
def fsHeaderForceVerify : Nat := 24

/-- Maximum number of entries allowed on the list of lacking items. -/
def maxLackingHashes : Nat := 4096

/-- Maximum number of blocks to cache before throttling the download. -/
def blockCacheLimit : Nat := 8192

def errInvalidChain : String := "retrieved hash chain is invalid"
def errInvalidBody : String := "retrieved block body is invalid"
def errInvalidReceipt : String := "retrieved receipt is invalid"
def errNoFetchesPending : String := "no fetches pending"
def errStaleDelivery : String := "stale delivery"

/-- The lacking set of a `peerConnection`. -/
structure PeerConnection where
  id : PeerId
  lacking : Table Hash Unit

/-- `Lacks(hash)`. -/
def PeerConnection.lacks (p : PeerConnection) (hash : Hash) : Bool := p.lacking.contains hash

/-- `MarkLacking(hash)`: when the set is full, entries are dropped, the first ones in iteration
order, until there is room. -/
def PeerConnection.markLacking (p : PeerConnection) (hash : Hash) : PeerConnection :=
  let lacking : Table Hash Unit :=
    if p.lacking.length ≥ maxLackingHashes then p.lacking.drop (p.lacking.length + 1 - maxLackingHashes)
    else p.lacking
  { p with lacking := Table.set lacking hash () }

/-- A body or receipt `fetchRequest`: its `From` and `Hashes` are only used by header
requests. -/
structure FetchRequest where
  peer : PeerId
  headers : List Header
  time : Nat

/-- `fetchResult`, with the bodies' transactions and the receipts of types `τ` and `ρ`. -/
structure FetchResult (τ ρ : Type) where
  pending : Int
  header : Header
  transactions : List τ
  receipts : List ρ

/-- The pools of one kind of fetch. -/
structure Pools where
  taskPool : Table Hash Header
  taskQueue : Prque Header
  pendPool : Table PeerId FetchRequest
  donePool : Table Hash Unit

def Pools.empty : Pools :=
  { taskPool := Table.empty, taskQueue := Prque.empty, pendPool := Table.empty, donePool := Table.empty }

/-- A header goes back to, or first into, the task queue, by its number. -/
def Pools.push (pools : Pools) (header : Header) : Pools :=
  { pools with taskQueue := pools.taskQueue.push header (-(header.number : Int)) }

def Pools.pushAll (pools : Pools) (headers : List Header) : Pools :=
  headers.foldl Pools.push pools

-- Equation lemmas of the definitions above, made once here rather than by the proofs below
-- that unfold them in parallel.
section
attribute [local simp] zeroHash Pools.empty Pools.push Pools.pushAll
end

theorem Pools.pushAll_append (pools : Pools) (headers more : List Header) :
    pools.pushAll (headers ++ more) = (pools.pushAll headers).pushAll more :=
  List.foldl_append

@[simp] theorem Pools.pushAll_items (pools : Pools) (headers : List Header) :
    (pools.pushAll headers).taskQueue.items =
      pools.taskQueue.items ++ headers.map fun header => (header, -(header.number : Int)) := by
  induction headers generalizing pools with
  | nil => simp [pushAll]
  | cons header rest ih =>
      show ((pools.push header).pushAll rest).taskQueue.items = _
      simp [ih, Pools.push]

@[simp] theorem Pools.pushAll_pendPool (pools : Pools) (headers : List Header) :
    (pools.pushAll headers).pendPool = pools.pendPool := by
  induction headers generalizing pools with
  | nil => rfl
  | cons header rest ih => exact ih _

@[simp] theorem Pools.pushAll_donePool (pools : Pools) (headers : List Header) :
    (pools.pushAll headers).donePool = pools.donePool := by
  induction headers generalizing pools with
  | nil => rfl
  | cons header rest ih => exact ih _

/-- A task done: its hash joins the done pool and leaves the task pool. -/
def Pools.markDone (pools : Pools) (hash : Hash) : Pools :=
  { pools with donePool := pools.donePool.set hash (), taskPool := pools.taskPool.remove hash }

/-- The two kinds of fetch. -/
inductive Kind where
  | bodies
  | receipts
deriving DecidableEq, Repr

structure Queue (τ ρ : Type) where
  mode : SyncMode
  fastSyncPivot : Nat
  headerHead : Hash
  /-- `blockTaskPool`, `blockTaskQueue`, `blockPendPool`, `blockDonePool`. -/
  blocks : Pools
  /-- `receiptTaskPool`, `receiptTaskQueue`, `receiptPendPool`, `receiptDonePool`. -/
  receipts : Pools
  resultCache : List (Option (FetchResult τ ρ))
  resultOffset : Nat

namespace Queue

variable {τ ρ : Type}

def pools (q : Queue τ ρ) : Kind → Pools
  | .bodies => q.blocks
  | .receipts => q.receipts

def setPools (q : Queue τ ρ) : Kind → Pools → Queue τ ρ
  | .bodies, pools => { q with blocks := pools }
  | .receipts, pools => { q with receipts := pools }

section
attribute [local simp] pools
end

@[simp] theorem pools_setPools (q : Queue τ ρ) (k k' : Kind) (pools : Pools) :
    (q.setPools k pools).pools k' = if k' = k then pools else q.pools k' := by
  cases k <;> cases k' <;> rfl

@[simp] theorem setPools_resultCache (q : Queue τ ρ) (k : Kind) (pools : Pools) :
    (q.setPools k pools).resultCache = q.resultCache := by
  cases k <;> rfl

@[simp] theorem setPools_resultOffset (q : Queue τ ρ) (k : Kind) (pools : Pools) :
    (q.setPools k pools).resultOffset = q.resultOffset := by
  cases k <;> rfl

@[simp] theorem setPools_mode (q : Queue τ ρ) (k : Kind) (pools : Pools) :
    (q.setPools k pools).mode = q.mode := by
  cases k <;> rfl

@[simp] theorem setPools_fastSyncPivot (q : Queue τ ρ) (k : Kind) (pools : Pools) :
    (q.setPools k pools).fastSyncPivot = q.fastSyncPivot := by
  cases k <;> rfl

@[simp] theorem setPools_setPools (q : Queue τ ρ) (k : Kind) (pools pools' : Pools) :
    (q.setPools k pools).setPools k pools' = q.setPools k pools' := by
  cases k <;> rfl

@[simp] theorem setPools_pools (q : Queue τ ρ) (k : Kind) : q.setPools k (q.pools k) = q := by
  cases k <;> rfl

/-- `newQueue()`. -/
def new : Queue τ ρ :=
  { mode := .fullSync, fastSyncPivot := 0, headerHead := zeroHash, blocks := Pools.empty,
    receipts := Pools.empty, resultCache := List.replicate blockCacheLimit none, resultOffset := 0 }

/-- `Prepare(offset, mode, pivot, head)`. -/
def prepare (q : Queue τ ρ) (offset : Nat) (mode : SyncMode) (pivot : Nat) : Queue τ ρ :=
  { q with resultOffset := max q.resultOffset offset, fastSyncPivot := pivot, mode }

/-- Whether a header's receipts are fetched: in the fast phase of a fast sync. -/
def fetchesReceipts (q : Queue τ ρ) (header : Header) : Bool :=
  q.mode = .fastSync ∧ header.number ≤ q.fastSyncPivot

section
attribute [local simp] new prepare fetchesReceipts
end

@[simp] theorem fetchesReceipts_setPools (q : Queue τ ρ) (k : Kind) (pools : Pools) :
    (q.setPools k pools).fetchesReceipts = q.fetchesReceipts := by
  funext header
  simp [fetchesReceipts]

/-- A header is queued for its body and, when its receipts are fetched, for them. -/
def queueHeader (q : Queue τ ρ) (header : Header) : Queue τ ρ :=
  let addTask (pools : Pools) : Pools :=
    { pools.push header with taskPool := pools.taskPool.set header.hash header }
  let q := { q with blocks := addTask q.blocks }
  if q.fetchesReceipts header then { q with receipts := addTask q.receipts } else q

/-- The loop of `Schedule`: a header that breaks the chain's order or ancestry ends it, one
already queued is skipped, and every other is queued and becomes `headerHead`. -/
def scheduleLoop (q : Queue τ ρ) : List Header → Nat → List Header → List Header × Queue τ ρ
  | [], _, inserts => (inserts, q)
  | header :: rest, next, inserts =>
      if header.number ≠ next then (inserts, q)
      else if q.headerHead ≠ zeroHash ∧ q.headerHead ≠ header.parentHash then (inserts, q)
      else if (q.blocks.taskPool.get header.hash).isSome then scheduleLoop q rest next inserts
      else if (q.receipts.taskPool.get header.hash).isSome then scheduleLoop q rest next inserts
      else
        scheduleLoop { q.queueHeader header with headerHead := header.hash } rest (next + 1)
          (inserts ++ [header])

/-- `Schedule(headers, from)`: the headers queued, from block `next` on. -/
def schedule (q : Queue τ ρ) (headers : List Header) (next : Nat) : List Header × Queue τ ρ :=
  q.scheduleLoop headers next []

/-- The cache with a result put in slot `i`. -/
def setResult (q : Queue τ ρ) (i : Nat) (r : FetchResult τ ρ) : Queue τ ρ :=
  { q with resultCache := q.resultCache.set i (some r) }

section
attribute [local simp] queueHeader scheduleLoop schedule
end

@[simp] theorem setResult_resultCache (q : Queue τ ρ) (i : Nat) (r : FetchResult τ ρ) :
    (q.setResult i r).resultCache = q.resultCache.set i (some r) := rfl

@[simp] theorem setResult_resultOffset (q : Queue τ ρ) (i : Nat) (r : FetchResult τ ρ) :
    (q.setResult i r).resultOffset = q.resultOffset := rfl

@[simp] theorem pools_setResult (q : Queue τ ρ) (i : Nat) (r : FetchResult τ ρ) (k : Kind) :
    (q.setResult i r).pools k = q.pools k := by
  cases k <;> rfl

@[simp] theorem fetchesReceipts_setResult (q : Queue τ ρ) (i : Nat) (r : FetchResult τ ρ) :
    (q.setResult i r).fetchesReceipts = q.fetchesReceipts := rfl

theorem setPools_setResult (q : Queue τ ρ) (i : Nat) (r : FetchResult τ ρ) (k : Kind) (pools : Pools) :
    (q.setResult i r).setPools k pools = (q.setPools k pools).setResult i r := by
  cases k <;> rfl

/-- The result at an index of the cache, changed by `f` when there is one. -/
def updateResult (q : Queue τ ρ) (i : Nat) (f : FetchResult τ ρ → FetchResult τ ρ) : Queue τ ρ :=
  match q.resultCache[i]? with
  | some (some r) => q.setResult i (f r)
  | _ => q

/-- The index of a header in the cache, when it has one. -/
def cacheIndex (q : Queue τ ρ) (header : Header) : Option Nat :=
  let index : Int := header.number - q.resultOffset
  if index ≥ q.resultCache.length ∨ index < 0 then none else some index.toNat

section
attribute [local simp] updateResult cacheIndex
end

theorem cacheIndex_eq_some {q : Queue τ ρ} {header : Header} {i : Nat} :
    q.cacheIndex header = some i ↔ header.number = q.resultOffset + i ∧ i < q.resultCache.length := by
  unfold cacheIndex
  dsimp only
  split <;> simp <;> omega

theorem updateResult_of_found {q : Queue τ ρ} {i : Nat} {r : FetchResult τ ρ}
    (found : q.resultCache[i]? = some (some r)) (f : FetchResult τ ρ → FetchResult τ ρ) :
    q.updateResult i f = q.setResult i (f r) := by
  simp [updateResult, found]

/-- The result of a header is made in its slot when there is none: it waits for the body and,
when the receipts are fetched, for them. -/
def ensureResult (q : Queue τ ρ) (header : Header) (i : Nat) : Queue τ ρ :=
  match q.resultCache[i]? with
  | some none =>
      let components := if q.fetchesReceipts header then 2 else 1
      q.setResult i ⟨components, header, [], []⟩
  | _ => q

/-- What the loop of `reserveHeaders` works with. -/
structure Reserve (τ ρ : Type) where
  q : Queue τ ρ
  space : Int
  proc : Int
  send : List Header
  skip : List Header
  progress : Bool

/-- One turn of the loop of `reserveHeaders` on a popped header: its result is made if it has
none, a no-op task is done at once, and any other is sent unless the peer lacks it. -/
def reserveStep (k : Kind) (p : PeerConnection) (isNoop : Header → Bool) (st : Reserve τ ρ)
    (header : Header) (i : Nat) : Reserve τ ρ :=
  let q := st.q.ensureResult header i
  if isNoop header then
    let q := q.setPools k ((q.pools k).markDone header.hash)
    let q := q.updateResult i fun r => { r with pending := r.pending - 1 }
    -- space, proc = space-1, proc-1, before the loop's proc++
    { st with q, space := st.space - 1, progress := true }
  else if p.lacks header.hash then { st with q, skip := st.skip ++ [header], proc := st.proc + 1 }
  else { st with q, send := st.send ++ [header], proc := st.proc + 1 }

/-- The loop of `reserveHeaders`, for at most `fuel` turns: every turn pops one task, so the
size of the task queue is enough. A header outside the cache stops it with `errInvalidChain`,
before the skipped headers are put back. -/
def reserveLoop (k : Kind) (p : PeerConnection) (count : Nat) (isNoop : Header → Bool) :
    Nat → Reserve τ ρ → Reserve τ ρ × Option String
  | 0, st => (st, none)
  | fuel + 1, st =>
      if st.proc < st.space ∧ st.send.length < count then
        match (st.q.pools k).taskQueue.pop with
        | none => (st, none)
        | some ((header, _), taskQueue) =>
            let q := st.q.setPools k { st.q.pools k with taskQueue }
            match q.cacheIndex header with
            | none => ({ st with q }, some errInvalidChain)
            | some i => reserveLoop k p count isNoop fuel (reserveStep k p isNoop { st with q } header i)
      else (st, none)

/-- The result of `reserveHeaders`: the request made, if any, and whether no-op tasks were
done; or an error. -/
abbrev Reserved := Except String (Option FetchRequest × Bool)

/-- `reserveHeaders(p, count, ...)` on the pools of kind `k`, at time `now`. -/
def reserveHeaders (q : Queue τ ρ) (k : Kind) (p : PeerConnection) (count : Nat) (now : Nat)
    (isNoop : Header → Bool) : Reserved × Queue τ ρ :=
  let pools := q.pools k
  if pools.taskQueue.items = [] then (.ok (none, false), q)
  else if (pools.pendPool.get p.id).isSome then (.ok (none, false), q)
  else
    -- an upper limit on the items to fetch: the free room of the cache
    let space : Int := q.resultCache.length - pools.donePool.length -
      (pools.pendPool.map fun e => e.2.headers.length).sum
    match reserveLoop k p count isNoop pools.taskQueue.size ⟨q, space, 0, [], [], false⟩ with
    | (st, some err) => (.error err, st.q)
    | (st, none) =>
        let q := st.q.setPools k ((st.q.pools k).pushAll st.skip)
        if st.send = [] then (.ok (none, st.progress), q)
        else
          let request : FetchRequest := ⟨p.id, st.send, now⟩
          let pools := q.pools k
          (.ok (some request, st.progress), q.setPools k { pools with pendPool := pools.pendPool.set p.id request })

/-- The root of an empty list, `block.EmptyRootHash`, for the `DeriveSha` given. -/
def emptyRootHash {τ : Type} (deriveSha : List τ → Hash) : Hash := deriveSha []

/-- `ReserveBodies(p, count)`: a block whose transaction root is the empty root needs no
fetch. -/
def reserveBodies (q : Queue τ ρ) (deriveSha : List τ → Hash) (p : PeerConnection) (count now : Nat) :
    Reserved × Queue τ ρ :=
  q.reserveHeaders .bodies p count now fun header => header.txHash = emptyRootHash deriveSha

/-- `ReserveReceipts(p, count)`: a block whose receipt root is the empty root needs no fetch. -/
def reserveReceipts (q : Queue τ ρ) (deriveSha : List τ → Hash) (p : PeerConnection) (count now : Nat) :
    Reserved × Queue τ ρ :=
  q.reserveHeaders .receipts p count now fun header => header.receiptHash = emptyRootHash deriveSha

/-- `cancel(request, ...)`: the request's headers go back to the task queue. -/
def cancel (q : Queue τ ρ) (k : Kind) (request : FetchRequest) : Queue τ ρ :=
  let pools := (q.pools k).pushAll request.headers
  q.setPools k { pools with pendPool := pools.pendPool.remove request.peer }

def cancelBodies (q : Queue τ ρ) (request : FetchRequest) : Queue τ ρ := q.cancel .bodies request

def cancelReceipts (q : Queue τ ρ) (request : FetchRequest) : Queue τ ρ := q.cancel .receipts request

/-- A peer's pending request of kind `k`, put back into the task queue. -/
def revokeKind (q : Queue τ ρ) (k : Kind) (peerId : PeerId) : Queue τ ρ :=
  match (q.pools k).pendPool.get peerId with
  | some request =>
      let pools := (q.pools k).pushAll request.headers
      q.setPools k { pools with pendPool := pools.pendPool.remove peerId }
  | none => q

/-- `Revoke(peerId)`. -/
def revoke (q : Queue τ ρ) (peerId : PeerId) : Queue τ ρ :=
  (q.revokeKind .bodies peerId).revokeKind .receipts peerId

section
attribute [local simp] ensureResult reserveStep reserveLoop reserveHeaders revokeKind revoke
end

@[simp] theorem revokeKind_resultOffset (q : Queue τ ρ) (k : Kind) (peerId : PeerId) :
    (q.revokeKind k peerId).resultOffset = q.resultOffset := by
  unfold revokeKind
  split <;> simp

@[simp] theorem revoke_resultOffset (q : Queue τ ρ) (peerId : PeerId) :
    (q.revoke peerId).resultOffset = q.resultOffset := by
  simp [revoke]

/-- `expire(timeout, ...)` at time `now`: every request older than `timeout` goes back to the
task queue and is reported with the number of its headers. -/
def expire (q : Queue τ ρ) (k : Kind) (timeout now : Nat) : Table PeerId Nat × Queue τ ρ :=
  let pools := q.pools k
  let expired := pools.pendPool.filter fun e => now - e.2.time > timeout
  let pools := expired.foldl (fun pools e => pools.pushAll e.2.headers) pools
  let expiries : Table PeerId Nat := expired.map fun e => (e.1, e.2.headers.length)
  let pools := { pools with pendPool := expiries.foldl (fun pend e => pend.remove e.1) pools.pendPool }
  (expiries, q.setPools k pools)

def expireBodies (q : Queue τ ρ) (timeout now : Nat) : Table PeerId Nat × Queue τ ρ :=
  q.expire .bodies timeout now

def expireReceipts (q : Queue τ ρ) (timeout now : Nat) : Table PeerId Nat × Queue τ ρ :=
  q.expire .receipts timeout now

section
attribute [local simp] expire
end

@[simp] theorem expire_resultOffset (q : Queue τ ρ) (k : Kind) (timeout now : Nat) :
    (q.expire k timeout now).2.resultOffset = q.resultOffset := by
  simp [expire]

/-- The loop of `deliver` over the request's headers from position `i` on: each is matched with
the result at its index until the results run out or one fails. It returns the number
accepted, the failure, and the headers not accepted. -/
def deliverLoop (k : Kind) (results : Nat)
    (reconstruct : Header → Nat → FetchResult τ ρ → Except String (FetchResult τ ρ)) :
    Nat → List Header → Queue τ ρ → Queue τ ρ × Nat × Option String × List Header
  | _, [], q => (q, 0, none, [])
  | i, header :: rest, q =>
      if i ≥ results then (q, 0, none, header :: rest)
      else
        match q.cacheIndex header with
        | none => (q, 0, some errInvalidChain, header :: rest)
        | some index =>
            match q.resultCache[index]? with
            | some (some result) =>
                match reconstruct header i result with
                | .error err => (q, 0, some err, header :: rest)
                | .ok result =>
                    let q := q.setPools k ((q.pools k).markDone header.hash)
                    let q := q.setResult index { result with pending := result.pending - 1 }
                    let (q, accepted, failure, left) := deliverLoop k results reconstruct (i + 1) rest q
                    (q, accepted + 1, failure, left)
            | _ => (q, 0, some errInvalidChain, header :: rest)

/-- `deliver(id, ...)` of `results` items: the number accepted and the error, the queue, and
the hashes to mark as lacking at the requesting peer when nothing was delivered. -/
def deliver (q : Queue τ ρ) (k : Kind) (id : PeerId) (results : Nat)
    (reconstruct : Header → Nat → FetchResult τ ρ → Except String (FetchResult τ ρ)) :
    (Nat × Option String) × Queue τ ρ × List Hash :=
  match (q.pools k).pendPool.get id with
  | none => ((0, some errNoFetchesPending), q, [])
  | some request =>
      let pools := q.pools k
      let q := q.setPools k { pools with pendPool := pools.pendPool.remove id }
      let lacking := if results = 0 then request.headers.map Header.hash else []
      let (q, accepted, failure, left) := deliverLoop k results reconstruct 0 request.headers q
      -- every failed or missing fetch goes back to the queue
      let q := q.setPools k ((q.pools k).pushAll left)
      let err := match failure with
        | none => none
        | some failure =>
            if failure = errInvalidChain then some failure
            else if accepted > 0 then some s!"partial failure: {failure}"
            else some errStaleDelivery
      ((accepted, err), q, lacking)

/-- `DeliverBodies(id, txLists)`. -/
def deliverBodies (q : Queue τ ρ) (deriveSha : List τ → Hash) (id : PeerId) (txLists : List (List τ)) :
    (Nat × Option String) × Queue τ ρ × List Hash :=
  q.deliver .bodies id txLists.length fun header index result =>
    let txs := txLists[index]?.getD []
    if deriveSha txs ≠ header.txHash then .error errInvalidBody
    else .ok { result with transactions := txs }

/-- `DeliverReceipts(id, receiptList)`. -/
def deliverReceipts (q : Queue τ ρ) (deriveReceipts : List ρ → Hash) (id : PeerId)
    (receiptList : List (List ρ)) : (Nat × Option String) × Queue τ ρ × List Hash :=
  q.deliver .receipts id receiptList.length fun header index result =>
    let receipts := receiptList[index]?.getD []
    if deriveReceipts receipts ≠ header.receiptHash then .error errInvalidReceipt
    else .ok { result with receipts }

/-- The loop of `countProcessableItems` from index `i`: complete results, stopping before the
pivot block unless the `fsHeaderForceVerify` results after it are there. -/
def countFrom (q : Queue τ ρ) : Nat → List (Option (FetchResult τ ρ)) → Nat
  | i, [] => i
  | i, result :: rest =>
      match result with
      | none => i
      | some result =>
          if result.pending > 0 then i
          else if q.mode = .fastSync ∧ result.header.number = q.fastSyncPivot ∧
              ¬(List.range fsHeaderForceVerify).all fun j =>
                i + j + 1 < q.resultCache.length ∧ (q.resultCache[i + j + 1]?).join.isSome then i
          else q.countFrom (i + 1) rest

/-- `countProcessableItems()`. -/
def countProcessableItems (q : Queue τ ρ) : Nat := q.countFrom 0 q.resultCache

/-- `WaitResults()` once results are processable: they leave the cache, their hashes leave the
done pools, and the offset moves past them. With none, the call waits and changes nothing. -/
def waitResults (q : Queue τ ρ) : List (FetchResult τ ρ) × Queue τ ρ :=
  let nproc := q.countProcessableItems
  let results := (q.resultCache.take nproc).filterMap id
  let forget (pools : Pools) : Pools :=
    { pools with donePool := results.foldl (fun done r => done.remove r.header.hash) pools.donePool }
  (results,
    { q with
      blocks := forget q.blocks,
      receipts := forget q.receipts,
      resultCache := q.resultCache.drop nproc ++ List.replicate nproc none,
      resultOffset := q.resultOffset + nproc })

section
attribute [local simp] deliverLoop deliver countFrom countProcessableItems waitResults
end

end Queue

end Mjoy.Downloader
