import Mjoy.Lib.Prque
import Mjoy.Lib.Table

/-!
The block fetcher (`node/services/mjoy/fetcher/fetcher.go`) as a state machine: its maps and
counters, and one turn of `loop` for each event it selects on.

An announcement moves from `announced` to `fetching` when the fetch timer picks it, gains its
header and waits in `fetched` (still sitting in `fetching`), and moves to `completing` when the
completion timer picks it; `forgetHash` drops it from every map it is in and decrements the
peer's counter once per map. The import queue is a `Prque` with priority `-number`, `queued`
the blocks it holds (or has handed to `insert`) and `queues` their per-peer counts.

Times are milliseconds. Each turn takes the callbacks' answers as a `Chain`; the timers may
fire at any turn, and the handlers make the checks they make in the code. Requests sent to
peers, the meters, hooks, `insert`'s goroutine (which ends in `done`) and `dropPeer` are
outside the fetcher's state and left out.
-/

namespace Mjoy.BlockFetcher

/-- Block hashes; the fetcher only compares them. -/
abbrev Hash := Nat

abbrev PeerId := String

def arriveTimeout : Nat := 500
def gatherSlack : Nat := 100
def fetchTimeout : Nat := 5000
def maxBackDist : Nat := 7
def maxQueueDist : Nat := 32
def hashLimit : Int := 256
def blockLimit : Int := 64

/-- The fields of `block.Header` the fetcher reads; `hash` is `Hash()`. -/
structure Header where
  hash : Hash
  number : Nat
  txHash : Hash
  deriving DecidableEq, Repr

structure Block (τ : Type) where
  header : Header
  transactions : List τ
  receivedAt : Nat
  deriving DecidableEq

/-- `announce`, without the two request callbacks. -/
structure Announce where
  hash : Hash
  number : Nat
  header : Option Header
  time : Nat
  origin : PeerId
  deriving DecidableEq, Repr

structure Inject (τ : Type) where
  origin : PeerId
  block : Block τ
  deriving DecidableEq

/-- The maps and the queue of a `Fetcher`. -/
structure Fetcher (τ : Type) where
  announces : Table PeerId Int
  announced : Table Hash (List Announce)
  fetching : Table Hash Announce
  fetched : Table Hash (List Announce)
  completing : Table Hash Announce
  queue : Prque (Inject τ)
  queues : Table PeerId Int
  queued : Table Hash (Inject τ)

/-- The answers of the callbacks during one turn: `chainHeight()`, and whether `getBlock(hash)`
finds the block. -/
structure Chain where
  height : Nat
  known : Hash → Bool

-- Equation lemmas of the definitions above, made once here rather than by the proofs below
-- that unfold them in parallel.
section
attribute [local simp] blockLimit
end

namespace Fetcher

variable {τ : Type}

/-- `New`. -/
def new : Fetcher τ := ⟨[], [], [], [], [], Prque.empty, [], []⟩

/-- A per-peer counter; an absent key reads as zero. -/
def count (counts : Table PeerId Int) (peer : PeerId) : Int := (counts.get peer).getD 0

/-- `counts[peer]--`, with the key deleted when it reaches zero. -/
def decrement (counts : Table PeerId Int) (peer : PeerId) : Table PeerId Int :=
  let n := count counts peer - 1
  if n = 0 then counts.remove peer else counts.set peer n

/-- One decrement for each announce of the list. -/
def decrementAll (counts : Table PeerId Int) (announces : List Announce) : Table PeerId Int :=
  announces.foldl (fun counts a => decrement counts a.origin) counts

/-- `forgetHash`: drop the announces of `hash` from all four maps, one decrement per map
entry. -/
def forgetHash (f : Fetcher τ) (hash : Hash) : Fetcher τ :=
  let announces := decrementAll f.announces ((f.announced.get hash).getD [])
  let announces := match f.fetching.get hash with
    | some a => decrement announces a.origin
    | none => announces
  let announces := decrementAll announces ((f.fetched.get hash).getD [])
  let announces := match f.completing.get hash with
    | some a => decrement announces a.origin
    | none => announces
  { f with
    announces
    announced := f.announced.remove hash
    fetching := f.fetching.remove hash
    fetched := f.fetched.remove hash
    completing := f.completing.remove hash }

/-- `forgetBlock`. -/
def forgetBlock (f : Fetcher τ) (hash : Hash) : Fetcher τ :=
  match f.queued.get hash with
  | some op => { f with queues := decrement f.queues op.origin, queued := f.queued.remove hash }
  | none => f

/-- The distance check of `Notify` and `enqueue`: more than `maxBackDist` below the chain head
or more than `maxQueueDist` above it. -/
def tooFar (number height : Nat) : Bool :=
  decide ((number : Int) - height < -(maxBackDist : Int) ∨ (number : Int) - height > maxQueueDist)

/-- `enqueue`. -/
def enqueue (f : Fetcher τ) (chain : Chain) (peer : PeerId) (block : Block τ) : Fetcher τ :=
  let hash := block.header.hash
  let n := count f.queues peer + 1
  if n > blockLimit then f.forgetHash hash
  else if tooFar block.header.number chain.height then f.forgetHash hash
  else if f.queued.contains hash then f
  else
    { f with
      queues := f.queues.set peer n
      queued := f.queued.set hash ⟨peer, block⟩
      queue := f.queue.push ⟨peer, block⟩ (-(block.header.number : Int)) }

section
attribute [local simp] new count decrement forgetBlock enqueue
end

/-! ### The top of each turn -/

/-- The clean-up of fetches older than `fetchTimeout`. -/
def expireFetches (f : Fetcher τ) (now : Nat) : Fetcher τ :=
  f.fetching.foldl (fun f e => if now - e.2.time > fetchTimeout then f.forgetHash e.1 else f) f

variable [DecidableEq τ] in
/-- The import loop over the queue, lowest number first: a block too high goes back and ends
the loop, an old or known one is forgotten, and any other goes to `insert`, whose goroutine
ends in a `done` event. Each pass pops a block, so the queue's size is fuel enough. -/
def importQueued (chain : Chain) : Nat → Fetcher τ → Fetcher τ
  | 0, f => f
  | fuel + 1, f =>
      match f.queue.pop with
      | none => f
      | some ((op, _), queue) =>
          let f := { f with queue }
          let number := op.block.header.number
          if number > chain.height + 1 then { f with queue := f.queue.push op (-(number : Int)) }
          else
            let hash := op.block.header.hash
            if number + maxBackDist < chain.height ∨ chain.known hash then
              importQueued chain fuel (f.forgetBlock hash)
            else importQueued chain fuel f

section
attribute [local simp] expireFetches importQueued
end

/-! ### The events -/

/-- A `notify` event. -/
def notify (f : Fetcher τ) (chain : Chain) (a : Announce) : Fetcher τ :=
  let n := count f.announces a.origin + 1
  if n > hashLimit then f
  else if a.number > 0 ∧ tooFar a.number chain.height then f
  else if f.fetching.contains a.hash then f
  else if f.completing.contains a.hash then f
  else
    { f with
      announces := f.announces.set a.origin n
      announced := f.announced.set a.hash ((f.announced.get a.hash).getD [] ++ [a]) }

/-- The fetch timer: every announce list older than `arriveTimeout - gatherSlack` is forgotten
and, unless the block arrived, the announce `pick` chooses moves to `fetching`. -/
def fetchTimer (f : Fetcher τ) (chain : Chain) (now : Nat) (pick : Hash → Nat) : Fetcher τ :=
  f.announced.foldl (fun f e =>
    match e.2 with
    | [] => f
    | first :: _ =>
        if now - first.time > arriveTimeout - gatherSlack then
          let announce := e.2.getD (pick e.1 % e.2.length) first
          let f := f.forgetHash e.1
          if !chain.known e.1 then { f with fetching := f.fetching.set e.1 announce } else f
        else f) f

/-- The completion timer: every fetched header is forgotten and, unless the block arrived, the
announce `pick` chooses moves to `completing`. -/
def completeTimer (f : Fetcher τ) (chain : Chain) (pick : Hash → Nat) : Fetcher τ :=
  f.fetched.foldl (fun f e =>
    match e.2 with
    | [] => f
    | first :: _ =>
        let announce := e.2.getD (pick e.1 % e.2.length) first
        let f := f.forgetHash e.1
        if !chain.known e.1 then { f with completing := f.completing.set e.1 announce } else f) f

/-- The headers of a `headerFilter` task sorted: those the fetcher did not ask for, the announces
that still need their bodies, and the empty blocks complete as they are. -/
structure HeaderSplit (τ : Type) where
  unknown : List Header
  incomplete : List Announce
  complete : List (Block τ)

section
attribute [local simp] notify fetchTimer completeTimer
end

section Filters

variable (deriveSha : List τ → Hash)

/-- One header of a `headerFilter` task. The announce gains the header and the task's time;
`fetching` holds the same announce, so it sees the change. -/
def filterHeader (chain : Chain) (peer : PeerId) (time : Nat) (acc : HeaderSplit τ × Fetcher τ)
    (header : Header) : HeaderSplit τ × Fetcher τ :=
  let (split, f) := acc
  let hash := header.hash
  match f.fetching.get hash with
  | some announce =>
      if announce.origin = peer ∧ f.fetched.get hash = none ∧ f.completing.get hash = none ∧
          (f.queued.get hash).isNone then
        -- a number other than the announced one drops the peer
        if header.number ≠ announce.number then (split, f.forgetHash hash)
        else if !chain.known hash then
          let announce := { announce with header := some header, time }
          let f := { f with fetching := f.fetching.set hash announce }
          if header.txHash = deriveSha [] then
            ({ split with complete := split.complete ++ [⟨header, [], time⟩] },
              { f with completing := f.completing.set hash announce })
          else ({ split with incomplete := split.incomplete ++ [announce] }, f)
        else (split, f.forgetHash hash)
      else ({ split with unknown := split.unknown ++ [header] }, f)
  | none => ({ split with unknown := split.unknown ++ [header] }, f)

/-- A `headerFilter` event: the headers it does not take back go to the caller. -/
def filterHeaders (f : Fetcher τ) (chain : Chain) (peer : PeerId) (headers : List Header)
    (time : Nat) : List Header × Fetcher τ :=
  let (split, f) := headers.foldl (filterHeader deriveSha chain peer time) (⟨[], [], []⟩, f)
  -- schedule the retrieved headers for body completion
  let f := split.incomplete.foldl (fun f announce =>
    let hash := match announce.header with
      | some header => header.hash
      | none => announce.hash
    if f.completing.contains hash then f
    else { f with fetched := f.fetched.set hash ((f.fetched.get hash).getD [] ++ [announce]) }) f
  -- schedule the header-only blocks for import
  let f := split.complete.foldl (fun f block =>
    match f.completing.get block.header.hash with
    | some announce => f.enqueue chain announce.origin block
    | none => f) f
  (split.unknown, f)

/-- One body of a `bodyFilter` task matched against every completing announce of its peer whose
block is not queued. -/
def matchBody (chain : Chain) (peer : PeerId) (time : Nat) (txs : List τ)
    (acc : Bool × List (Block τ) × Fetcher τ) (e : Hash × Announce) :
    Bool × List (Block τ) × Fetcher τ :=
  let (matched, blocks, f) := acc
  match e.2.header with
  | some header =>
      if (f.queued.get e.1).isNone ∧ deriveSha txs = header.txHash ∧ e.2.origin = peer then
        if !chain.known e.1 then (true, blocks ++ [⟨header, txs, time⟩], f)
        else (true, blocks, f.forgetHash e.1)
      else (matched, blocks, f)
  | none => (matched, blocks, f)

/-- A `bodyFilter` event: the bodies no announce matched go to the caller. -/
def filterBodies (f : Fetcher τ) (chain : Chain) (peer : PeerId) (bodies : List (List τ))
    (time : Nat) : List (List τ) × Fetcher τ :=
  let (kept, blocks, f) := bodies.foldl (fun (acc : List (List τ) × List (Block τ) × Fetcher τ) txs =>
    let (kept, blocks, f) := acc
    let (matched, blocks, f) :=
      f.completing.foldl (matchBody deriveSha chain peer time txs) (false, blocks, f)
    if matched then (kept, blocks, f) else (kept ++ [txs], blocks, f)) ([], [], f)
  -- schedule the retrieved blocks for ordered import
  let f := blocks.foldl (fun f block =>
    match f.completing.get block.header.hash with
    | some announce => f.enqueue chain announce.origin block
    | none => f) f
  (kept, f)

section
attribute [local simp] filterHeader filterHeaders matchBody filterBodies
end

end Filters

/-! ### Counters -/

@[simp] theorem count_set (counts : Table PeerId Int) (p q : PeerId) (n : Int) :
    count (counts.set p n) q = if q = p then n else count counts q := by
  by_cases same : q = p <;> simp [count, same]

theorem count_decrement (counts : Table PeerId Int) (p q : PeerId) :
    count (decrement counts p) q = if q = p then count counts p - 1 else count counts q := by
  unfold decrement
  by_cases zero : count counts p - 1 = 0
  · rw [if_pos zero]
    by_cases same : q = p
    · subst same
      have gone : count (counts.remove q) q = 0 := by simp [count]
      rw [gone, if_pos rfl]
      omega
    · simp [count, same]
  · rw [if_neg zero, count_set]

/-! ### The queue half of the accounting -/

@[simp] theorem forgetHash_queues (f : Fetcher τ) (hash : Hash) : (f.forgetHash hash).queues = f.queues := rfl

@[simp] theorem forgetHash_queued (f : Fetcher τ) (hash : Hash) : (f.forgetHash hash).queued = f.queued := rfl

/-- The blocks of `queued` that `peer` delivered. -/
def queuedFrom (f : Fetcher τ) (peer : PeerId) : Nat :=
  (f.queued.filter fun e => e.2.origin = peer).length

/-- `queues[p]` counts the blocks of `p` in `queued`, which holds one entry per hash; so it is
never negative and, by the check of `enqueue`, never above `blockLimit`. -/
structure QueueAccounting (f : Fetcher τ) : Prop where
  nodup : f.queued.keys.Nodup
  exact : ∀ p, count f.queues p = queuedFrom f p
  bounded : ∀ p, count f.queues p ≤ blockLimit

section
attribute [local simp] queuedFrom
end

/-- The accounting reads only `queues` and `queued`. -/
theorem QueueAccounting.of_eq {f g : Fetcher τ} (accounted : QueueAccounting f)
    (queues : g.queues = f.queues) (queued : g.queued = f.queued) : QueueAccounting g := by
  refine ⟨?_, fun p => ?_, fun p => ?_⟩
  · rw [queued]
    exact accounted.nodup
  · rw [queues, queuedFrom, queued]
    exact accounted.exact p
  · rw [queues]
    exact accounted.bounded p

theorem QueueAccounting.forgetHash {f : Fetcher τ} (accounted : QueueAccounting f) (hash : Hash) :
    QueueAccounting (f.forgetHash hash) :=
  accounted.of_eq rfl rfl

theorem QueueAccounting.new : QueueAccounting (new : Fetcher τ) :=
  ⟨List.nodup_nil, fun _ => rfl, fun _ => by simp [count, Table.get, Fetcher.new, blockLimit]⟩

theorem QueueAccounting.enqueue {f : Fetcher τ} (accounted : QueueAccounting f) (chain : Chain)
    (peer : PeerId) (block : Block τ) : QueueAccounting (f.enqueue chain peer block) := by
  unfold Fetcher.enqueue
  dsimp only
  split_ifs with full far held
  · exact accounted.forgetHash _
  · exact accounted.forgetHash _
  · exact accounted
  -- a fresh hash: one more entry from `peer`, and its counter one more, within the limit
  have fresh : block.header.hash ∉ f.queued.keys := fun mem =>
    held (Table.contains_iff_mem_keys.mpr mem)
  have appended : f.queued.set block.header.hash ⟨peer, block⟩ =
      f.queued ++ [(block.header.hash, ⟨peer, block⟩)] :=
    Table.set_of_get_eq_none (Table.get_eq_none_iff.mpr fresh) _
  refine ⟨Table.nodup_keys_set accounted.nodup _ _, fun p => ?_, fun p => ?_⟩
  · simp only [queuedFrom, appended, count_set, List.filter_append, List.length_append]
    by_cases same : p = peer
    · subst same
      simp [accounted.exact, queuedFrom]
    · simp [same, accounted.exact, queuedFrom, Ne.symm same]
  · simp only [count_set]
    split_ifs
    · omega
    · exact accounted.bounded p

theorem QueueAccounting.forgetBlock {f : Fetcher τ} (accounted : QueueAccounting f) (hash : Hash) :
    QueueAccounting (f.forgetBlock hash) := by
  unfold Fetcher.forgetBlock
  cases found : f.queued.get hash with
  | none => exact accounted
  | some op =>
      dsimp only
      -- the entry of `hash` leaves, and its peer's counter goes down by one
      have split := Table.perm_cons_remove accounted.nodup found
      have lengths : ∀ p, queuedFrom f p =
          (if op.origin = p then 1 else 0) + ((f.queued.remove hash).filter fun e => e.2.origin = p).length := by
        intro p
        rw [queuedFrom, (split.filter _).length_eq, List.filter_cons]
        split_ifs with same <;> simp_all [Nat.add_comm]
      refine ⟨Table.nodup_keys_remove accounted.nodup hash, fun p => ?_, fun p => ?_⟩
      · rw [count_decrement]
        by_cases same : p = op.origin
        · subst same
          have counted := lengths op.origin
          rw [if_pos rfl] at counted
          rw [if_pos rfl, accounted.exact, counted, queuedFrom]
          dsimp only
          omega
        · rw [if_neg same, accounted.exact, lengths p, if_neg (Ne.symm same), Nat.zero_add, queuedFrom]
      · simp only [count_decrement]
        split_ifs with same
        · have := accounted.bounded op.origin
          omega
        · exact accounted.bounded p

section Handlers

variable {f : Fetcher τ} (accounted : QueueAccounting f) (chain : Chain)
include accounted

theorem QueueAccounting.expireFetches (now : Nat) : QueueAccounting (f.expireFetches now) := by
  unfold Fetcher.expireFetches
  refine List.foldlRecOn _ _ accounted fun g kept e _ => ?_
  split_ifs
  · exact kept.forgetHash _
  · exact kept

theorem QueueAccounting.notify (a : Announce) : QueueAccounting (f.notify chain a) := by
  unfold Fetcher.notify
  dsimp only
  split_ifs <;> exact accounted.of_eq rfl rfl

/-- The timers move announces between the announce maps and never touch the queue's books. -/
theorem QueueAccounting.fetchTimer (now : Nat) (pick : Hash → Nat) :
    QueueAccounting (f.fetchTimer chain now pick) := by
  unfold Fetcher.fetchTimer
  refine List.foldlRecOn _ _ accounted fun g kept e _ => ?_
  dsimp only
  split
  · exact kept
  · split_ifs <;> exact kept.of_eq rfl rfl

theorem QueueAccounting.completeTimer (pick : Hash → Nat) :
    QueueAccounting (f.completeTimer chain pick) := by
  unfold Fetcher.completeTimer
  refine List.foldlRecOn _ _ accounted fun g kept e _ => ?_
  dsimp only
  split
  · exact kept
  · split_ifs <;> exact kept.of_eq rfl rfl

/-- Header-only blocks found by the filters go through `enqueue`. -/
theorem QueueAccounting.enqueueAll (blocks : List (Block τ)) :
    QueueAccounting (blocks.foldl (fun f block =>
      match f.completing.get block.header.hash with
      | some announce => f.enqueue chain announce.origin block
      | none => f) f) := by
  refine List.foldlRecOn _ _ accounted fun g kept block _ => ?_
  split
  · exact kept.enqueue chain _ block
  · exact kept

theorem QueueAccounting.filterHeaders (deriveSha : List τ → Hash) (peer : PeerId)
    (headers : List Header) (time : Nat) :
    QueueAccounting (f.filterHeaders deriveSha chain peer headers time).2 := by
  -- sorting the headers only forgets hashes and moves announces
  have sorted : QueueAccounting (headers.foldl (filterHeader deriveSha chain peer time)
      (⟨[], [], []⟩, f)).2 := by
    refine List.foldlRecOn (motive := fun acc : HeaderSplit τ × Fetcher τ => QueueAccounting acc.2)
      _ _ accounted fun acc kept header _ => ?_
    unfold filterHeader
    dsimp only
    split
    · split_ifs
      · exact kept.forgetHash _
      · exact kept.of_eq rfl rfl
      · exact kept.of_eq rfl rfl
      · exact kept.forgetHash _
      · exact kept.of_eq rfl rfl
    · exact kept.of_eq rfl rfl
  unfold Fetcher.filterHeaders
  generalize headers.foldl (filterHeader deriveSha chain peer time) (⟨[], [], []⟩, f) = acc at sorted
  obtain ⟨split, g⟩ := acc
  dsimp only at sorted ⊢
  -- scheduling the incomplete headers only writes `fetched`
  have scheduled : QueueAccounting (split.incomplete.foldl (fun f announce =>
      let hash := match announce.header with
        | some header => header.hash
        | none => announce.hash
      if f.completing.contains hash then f
      else { f with fetched := f.fetched.set hash ((f.fetched.get hash).getD [] ++ [announce]) }) g) := by
    refine List.foldlRecOn _ _ sorted fun h kept announce _ => ?_
    dsimp only
    split_ifs
    · exact kept
    · exact kept.of_eq rfl rfl
  exact scheduled.enqueueAll chain split.complete

theorem QueueAccounting.filterBodies (deriveSha : List τ → Hash) (peer : PeerId)
    (bodies : List (List τ)) (time : Nat) :
    QueueAccounting (f.filterBodies deriveSha chain peer bodies time).2 := by
  -- matching the bodies only forgets hashes
  have matched : QueueAccounting (bodies.foldl (fun (acc : List (List τ) × List (Block τ) × Fetcher τ) txs =>
      let (kept, blocks, f) := acc
      let (matched, blocks, f) :=
        f.completing.foldl (matchBody deriveSha chain peer time txs) (false, blocks, f)
      if matched then (kept, blocks, f) else (kept ++ [txs], blocks, f)) ([], [], f)).2.2 := by
    refine List.foldlRecOn
      (motive := fun acc : List (List τ) × List (Block τ) × Fetcher τ => QueueAccounting acc.2.2)
      _ _ accounted fun acc kept txs _ => ?_
    obtain ⟨bodiesKept, blocks, g⟩ := acc
    dsimp only at kept ⊢
    have inner : QueueAccounting (g.completing.foldl (matchBody deriveSha chain peer time txs)
        (false, blocks, g)).2.2 := by
      refine List.foldlRecOn (motive := fun acc : Bool × List (Block τ) × Fetcher τ => QueueAccounting acc.2.2)
        _ _ kept fun acc' kept' e _ => ?_
      unfold matchBody
      dsimp only
      split
      · split_ifs
        · exact kept'
        · exact kept'.forgetHash _
        · exact kept'
      · exact kept'
    generalize g.completing.foldl (matchBody deriveSha chain peer time txs) (false, blocks, g) = acc' at inner
    obtain ⟨found, blocks', g'⟩ := acc'
    dsimp only at inner ⊢
    split_ifs <;> exact inner
  unfold Fetcher.filterBodies
  generalize bodies.foldl _ ([], [], f) = acc at matched
  obtain ⟨bodiesKept, blocks, g⟩ := acc
  dsimp only at matched ⊢
  exact matched.enqueueAll chain blocks

end Handlers

/-! ### Announces of a fresh hash -/

section Idle

variable {f : Fetcher τ} {chain : Chain}

/-- Nothing is fetching or queued: the top of a turn leaves the fetcher as it is. -/
structure Idle (f : Fetcher τ) : Prop where
  fetching : f.fetching = []
  completing : f.completing = []
  queue : f.queue.items = []

theorem Idle.expireFetches_eq (idle : Idle f) (now : Nat) : f.expireFetches now = f := by
  simp [Fetcher.expireFetches, idle.fetching]

/-- An announce with no block number, of a hash nobody fetches, is kept whenever its peer's
counter stays within `hashLimit`. -/
theorem notify_kept (chain : Chain) (idle : Idle f) (a : Announce) (unnumbered : a.number = 0)
    (room : count f.announces a.origin + 1 ≤ hashLimit) :
    f.notify chain a = { f with
      announces := f.announces.set a.origin (count f.announces a.origin + 1)
      announced := f.announced.set a.hash ((f.announced.get a.hash).getD [] ++ [a]) } := by
  have fetching : f.fetching.contains a.hash = false := by
    simp [Table.contains, Table.get, idle.fetching]
  have completing : f.completing.contains a.hash = false := by
    simp [Table.contains, Table.get, idle.completing]
  simp only [Fetcher.notify, unnumbered, fetching, completing]
  rw [if_neg (by omega)]
  simp

end Idle

end Fetcher

/-- The events `loop` selects on. A timer may fire at any turn; `pick` stands for the
`rand.Intn` choice among the announces of a hash. -/
inductive Event (τ : Type) where
  | notify (origin : PeerId) (hash : Hash) (number : Nat) (time : Nat)
  | inject (origin : PeerId) (block : Block τ)
  | done (hash : Hash)
  | fetchTimer (pick : Hash → Nat)
  | completeTimer (pick : Hash → Nat)
  | headerFilter (peer : PeerId) (headers : List Header) (time : Nat)
  | bodyFilter (peer : PeerId) (bodies : List (List τ)) (time : Nat)

namespace Fetcher

variable {τ : Type} [DecidableEq τ] (deriveSha : List τ → Hash)

/-- One turn of `loop` at time `now`: the clean-up and the imports at its top, then the
event. -/
def turn (f : Fetcher τ) (chain : Chain) (now : Nat) : Event τ → Fetcher τ
  | e =>
    let f := f.expireFetches now
    let f := importQueued chain f.queue.size f
    match e with
    | .notify origin hash number time => f.notify chain ⟨hash, number, none, time, origin⟩
    | .inject origin block => f.enqueue chain origin block
    | .done hash => (f.forgetHash hash).forgetBlock hash
    | .fetchTimer pick => f.fetchTimer chain now pick
    | .completeTimer pick => f.completeTimer chain pick
    | .headerFilter peer headers time => (f.filterHeaders deriveSha chain peer headers time).2
    | .bodyFilter peer bodies time => (f.filterBodies deriveSha chain peer bodies time).2

/-- `loop` over a finite sequence of turns, each with the callbacks' answers and its time. -/
def loop (f : Fetcher τ) : List (Chain × Nat × Event τ) → Fetcher τ
  | [] => f
  | (chain, now, e) :: rest => loop ((f.turn deriveSha chain now e)) rest

section
attribute [local simp] turn loop
end

/-! ### The queue's books over a run -/

theorem QueueAccounting.importQueued (chain : Chain) :
    ∀ (fuel : Nat) {f : Fetcher τ}, QueueAccounting f → QueueAccounting (Fetcher.importQueued chain fuel f)
  | 0, _, accounted => accounted
  | fuel + 1, f, accounted => by
      rw [Fetcher.importQueued]
      split
      · exact accounted
      · dsimp only
        split_ifs
        · exact accounted.of_eq rfl rfl
        -- the popped record goes, and with it the sender's count, when it is stale
        · refine QueueAccounting.importQueued chain fuel (QueueAccounting.forgetBlock ?_ _)
          exact accounted.of_eq rfl rfl
        · exact QueueAccounting.importQueued chain fuel (accounted.of_eq rfl rfl)

/-- Every turn keeps the queue's books: the top of the turn, then whichever event. -/
theorem QueueAccounting.turn {f : Fetcher τ} (accounted : QueueAccounting f) (chain : Chain)
    (now : Nat) (e : Event τ) : QueueAccounting (f.turn deriveSha chain now e) := by
  have top := QueueAccounting.importQueued chain (f.expireFetches now).queue.size
    (accounted.expireFetches now)
  cases e with
  | notify origin hash number time => exact top.notify chain _
  | inject origin block => exact top.enqueue chain origin block
  | done hash => exact (top.forgetHash hash).forgetBlock hash
  | fetchTimer pick => exact top.fetchTimer chain now pick
  | completeTimer pick => exact top.completeTimer chain pick
  | headerFilter peer headers time => exact top.filterHeaders chain deriveSha peer headers time
  | bodyFilter peer bodies time => exact top.filterBodies chain deriveSha peer bodies time

theorem QueueAccounting.loop :
    ∀ (events : List (Chain × Nat × Event τ)) {f : Fetcher τ}, QueueAccounting f →
      QueueAccounting (f.loop deriveSha events)
  | [], _, accounted => accounted
  | (chain, now, e) :: rest, _, accounted =>
      QueueAccounting.loop rest (accounted.turn deriveSha chain now e)

/-- The queue half of the fetcher's DOS accounting holds on every run: from `New`, through any
events with any answers of the callbacks, `queues[p]` is the number of blocks of `p` in
`queued`, never negative and never above `blockLimit`. -/
theorem queues_exact (events : List (Chain × Nat × Event τ)) (p : PeerId) :
    let f := (new : Fetcher τ).loop deriveSha events
    count f.queues p = queuedFrom f p ∧ 0 ≤ count f.queues p ∧ count f.queues p ≤ blockLimit := by
  intro f
  have accounted : QueueAccounting f := QueueAccounting.loop deriveSha events QueueAccounting.new
  refine ⟨accounted.exact p, ?_, accounted.bounded p⟩
  rw [accounted.exact p]
  exact Int.natCast_nonneg _

section Notify

variable {f : Fetcher τ} {chain : Chain}

theorem Idle.importQueued_eq (idle : Idle f) (fuel : Nat) : importQueued chain fuel f = f := by
  cases fuel with
  | zero => rfl
  | succ fuel =>
      have empty : f.queue.pop = none := Prque.pop_eq_none.mpr idle.queue
      rw [Fetcher.importQueued, empty]

/-- `k` announces from one peer of fresh hashes with no block number, at an idle fetcher, are all
kept as long as the peer's counter ends within `hashLimit`. Induction on the hashes. -/
theorem loop_notify_fresh (chain : Chain) (now : Nat) (p : PeerId) :
    ∀ (hashes : List Hash) (f : Fetcher τ), Idle f → hashes.Nodup →
      (∀ h ∈ hashes, f.announced.get h = none) →
      count f.announces p + hashes.length ≤ hashLimit →
      let g := f.loop deriveSha (hashes.map fun h => (chain, now, .notify p h 0 now))
      Idle g ∧ count g.announces p = count f.announces p + hashes.length ∧
        ∀ h, g.announced.get h = if h ∈ hashes then some [⟨h, 0, none, now, p⟩] else f.announced.get h
  | [], f, idle, _, _, _ => by simp [Fetcher.loop, idle]
  | h :: rest, f, idle, distinct, fresh, room => by
      -- the first announce is kept, and the fetcher stays idle for the rest
      let a : Announce := ⟨h, 0, none, now, p⟩
      have kept := notify_kept chain idle a rfl
        (show count f.announces p + 1 ≤ hashLimit by simp only [List.length_cons] at room; omega)
      have step : f.turn deriveSha chain now (.notify p h 0 now) = f.notify chain a := by
        simp only [Fetcher.turn, idle.expireFetches_eq, idle.importQueued_eq]
        rfl
      have idle' : Idle (f.notify chain a) := by
        rw [kept]
        exact ⟨idle.fetching, idle.completing, idle.queue⟩
      have announced' : ∀ h', (f.notify chain a).announced.get h' =
          if h' = h then some [a] else f.announced.get h' := by
        intro h'
        rw [kept]
        by_cases same : h' = h
        · subst same
          simp [fresh h' List.mem_cons_self, a]
        · simp [same, a]
      have fresh' : ∀ h' ∈ rest, (f.notify chain a).announced.get h' = none := fun h' mem => by
        have other : h' ≠ h := fun same => (List.nodup_cons.mp distinct).1 (same ▸ mem)
        rw [announced', if_neg other]
        exact fresh h' (List.mem_cons_of_mem _ mem)
      have counted : count (f.notify chain a).announces p = count f.announces p + 1 := by
        rw [kept]
        simp [count, a]
      obtain ⟨idleEnd, countEnd, heldEnd⟩ := loop_notify_fresh chain now p rest (f.notify chain a) idle'
        (List.nodup_cons.mp distinct).2 fresh' (by simp only [List.length_cons] at room; omega)
      simp only [List.map_cons, Fetcher.loop, step]
      refine ⟨idleEnd, by rw [countEnd, counted, List.length_cons]; omega, fun h' => ?_⟩
      rw [heldEnd h', announced']
      by_cases first : h' = h
      · subst first
        simp [(List.nodup_cons.mp distinct).1, a]
      · by_cases later : h' ∈ rest
        · simp [later]
        · simp [first, later]

end Notify

end Fetcher

/-- The turns of one announce of block 42 (number 11) by peer `p` taken through the whole
cycle, with the head at 10 and no block known: the fetch timer moves it to `fetching`, its header
arrives and it waits in `fetched`, the completion timer moves it to `completing`, its body
arrives and the block is queued, imported and `done`. -/
def announceCycle : List (Chain × Nat × Event Nat) :=
  let chain : Chain := ⟨10, fun _ => false⟩
  [(chain, 0, .notify "p" 42 11 0),
    (chain, 500, .fetchTimer fun _ => 0),
    (chain, 600, .headerFilter "p" [⟨42, 11, 1⟩] 600),
    (chain, 700, .completeTimer fun _ => 0),
    (chain, 800, .bodyFilter "p" [[7]] 800),
    (chain, 900, .done 42)]

/-- The fetcher after `announceCycle`, with the length of a body as its `DeriveSha`. -/
def cycled : Fetcher Nat := Fetcher.new.loop List.length announceCycle

/-- Every map is empty again after the cycle, but `forgetHash` has decremented `announces[p]`
once for `announced`, once each for `fetching` and `fetched` and once for `completing`, after a
single increment: it ends at `-3`. From there the peer gets `hashLimit + 3` fresh announces kept. -/
theorem announces_go_negative :
    Fetcher.count cycled.announces "p" = -3 ∧ cycled.announced = [] ∧ cycled.fetching = [] ∧
      cycled.fetched = [] ∧ cycled.completing = [] ∧ cycled.queued = [] ∧
      let g := cycled.loop List.length ((List.range (hashLimit.toNat + 3)).map
        fun h => (⟨10, fun _ => false⟩, 1000, .notify "p" h 0 1000))
      ∀ h < hashLimit.toNat + 3, g.announced.get h = some [⟨h, 0, none, 1000, "p"⟩] := by
  have run : Fetcher.count cycled.announces "p" = -3 ∧ cycled.announced = [] ∧
      cycled.fetching = [] ∧ cycled.fetched = [] ∧ cycled.completing = [] ∧ cycled.queued = [] ∧
      cycled.queue.items = [] := by
    decide +kernel
  obtain ⟨negative, announced, fetching, fetched, completing, queued, queue⟩ := run
  refine ⟨negative, announced, fetching, fetched, completing, queued, ?_⟩
  -- `-3 + (hashLimit + 3)` is within the limit, so every fresh announce is kept
  obtain ⟨-, -, held⟩ := Fetcher.loop_notify_fresh List.length ⟨10, fun _ => false⟩ 1000 "p"
    (List.range (hashLimit.toNat + 3)) cycled ⟨fetching, completing, queue⟩ List.nodup_range
    (fun h _ => by simp [announced, Table.get])
    (by rw [negative, List.length_range]; decide)
  intro g h lt
  rw [held h, if_pos (List.mem_range.mpr lt)]

end Mjoy.BlockFetcher
