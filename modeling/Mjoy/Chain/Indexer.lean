import Mjoy.Chain.HeaderChain

/-!
The chain indexer (`core/chainindexer/chainindexer.go`): background processing of equally
sized sections of the canonical chain. `newHead` counts, under the lock, the sections known to
be complete, and on a reorg drops the stored sections above the reorg point. The update loop
takes the lock, picks the next section and the head of the one before, lets go of the lock
while `processSection` reads the section's headers from the chain database and feeds them to
the backend, and takes the lock again to store the section, unless the head of the section
before has changed meanwhile.

The model cuts the update loop where it lets go of the lock and where it takes it again
(`Indexer.step`): between the two the chain database can change and `newHead` can run. The
counters are `uint64`, as in the source, so `section - 1` wraps at section 0. The backend
records what it is given and never fails. Child indexers, the throttling delay (a reschedule
sets the pending notification) and the log messages are left out.
-/

namespace Mjoy.Chain

open KeyValue
open Mjoy.State (Hash zeroHash)

/-- The backend, as the headers it is given: the section and previous head of the last
`Reset`, the headers `Process`ed since, and what every `Commit` stored for its section. -/
structure Backend where
  sec : UInt64
  prevHead : Hash
  processed : List Header
  commits : Store UInt64 (List Header)

namespace Backend

def reset (b : Backend) (sec : UInt64) (prevHead : Hash) : Backend :=
  { b with sec, prevHead, processed := [] }

def process (b : Backend) (header : Header) : Backend :=
  { b with processed := b.processed ++ [header] }

def commit (b : Backend) : Backend :=
  { b with commits := b.commits.put b.sec b.processed }

-- Equation lemmas of the definitions above, made once here rather than by the proofs below
-- that unfold them in parallel.
section
attribute [local simp] commit
end

end Backend

structure ChainIndexer where
  backend : Backend
  /-- Number of blocks in a single chain segment to process. -/
  sectionSize : UInt64
  /-- Number of confirmations before processing a completed segment. -/
  confirmsReq : UInt64
  /-- Number of sections successfully indexed into the database. -/
  storedSections : UInt64
  /-- Number of sections known to be complete (block wise). -/
  knownSections : UInt64
  /-- Block number of the last completed section cascaded to subindexers. -/
  cascadedHead : UInt64
  /-- The section heads of the index database (`"shead"` and the section number). -/
  sectionHeads : Store UInt64 Hash
  /-- A notification waits in the `update` channel, which holds one. -/
  update : Bool

namespace ChainIndexer

/-- `SectionHead(section)`: the zero hash when the index database has none. -/
def sectionHead (c : ChainIndexer) (sec : UInt64) : Hash := (c.sectionHeads sec).getD zeroHash

def setSectionHead (c : ChainIndexer) (sec : UInt64) (hash : Hash) : ChainIndexer :=
  { c with sectionHeads := c.sectionHeads.put sec hash }

/-- `setValidSections(sections)`: the heads of the sections from `sections` up to the stored
ones are removed. -/
def setValidSections (c : ChainIndexer) (sections : UInt64) : ChainIndexer :=
  { c with
    sectionHeads := fun sec =>
      if sections ≤ sec ∧ sec < c.storedSections then none else c.sectionHeads sec
    storedSections := sections }

/-- `newHead(head, reorg)`. -/
def newHead (c : ChainIndexer) (head : UInt64) (reorg : Bool) : ChainIndexer :=
  if reorg then
    -- revert the known and the stored sections to the reorg point
    let changed := head / c.sectionSize
    let c := if changed < c.knownSections then { c with knownSections := changed } else c
    let c := if changed < c.storedSections then c.setValidSections changed else c
    let head := changed * c.sectionSize
    if head < c.cascadedHead then { c with cascadedHead := head } else c
  else if head ≥ c.confirmsReq then
    let sections := (head + 1 - c.confirmsReq) / c.sectionSize
    if sections > c.knownSections then { c with knownSections := sections, update := true } else c
  else c

/-- `AddKnownSectionHead(section, shead)`. -/
def addKnownSectionHead (c : ChainIndexer) (sec : UInt64) (shead : Hash) : ChainIndexer :=
  if sec < c.storedSections then c
  else (c.setSectionHead sec shead).setValidSections (sec + 1)

/-- The loop of `processSection` over the blocks from `number` on, `left` of them: the
canonical header of each must have the previous one's hash as parent. The backend keeps what
it was given when the loop stops early. -/
def processHeaders (db : ChainDb) : Nat → UInt64 → Hash → Backend → Except String Hash × Backend
  | 0, _, lastHead, backend => (.ok lastHead, backend)
  | left + 1, number, lastHead, backend =>
      match db.getCanonicalHash number.toNat with
      | none => (.error s!"canonical block #{number} unknown", backend)
      | some hash =>
          match db.getHeader hash number.toNat with
          | none => (.error s!"block #{number} not found", backend)
          | some header =>
              if header.parentHash ≠ lastHead then (.error "chain reorged during section processing", backend)
              else processHeaders db left (number + 1) header.hash (backend.process header)

/-- `processSection(section, lastHead)`: the last header's hash, and the backend, reset for the

section
attribute [local simp] sectionHead setSectionHead setValidSections newHead processSection
end

section and committed when every header was processed. -/
def processSection (c : ChainIndexer) (db : ChainDb) (sec : UInt64) (lastHead : Hash) :
    Except String Hash × Backend :=
  let backend := c.backend.reset sec lastHead
  match processHeaders db c.sectionSize.toNat (sec * c.sectionSize) lastHead backend with
  | (.ok lastHead, backend) => (.ok lastHead, backend.commit)
  | (.error err, backend) => (.error err, backend)

/-- When sections remain to be processed, the loop is notified again. -/
def reschedule (c : ChainIndexer) : ChainIndexer :=
  if c.knownSections > c.storedSections then { c with update := true } else c

/-- The update loop takes a notification and the lock: when sections wait to be stored, it
caches the next section and the head of the one before, and lets go of the lock. -/
def updateBegin (c : ChainIndexer) : ChainIndexer × Option (UInt64 × Hash) :=
  let c := { c with update := false }
  if c.knownSections > c.storedSections then
    let sec := c.storedSections
    let oldHead := if sec > 0 then c.sectionHead (sec - 1) else zeroHash
    (c, some (sec, oldHead))
  else (c.reschedule, none)

/-- The update loop takes the lock again with the result of `processSection`: the section is
stored when processing succeeded and no reorg changed the head of the section before. -/
def updateEnd (c : ChainIndexer) (sec : UInt64) (oldHead : Hash) (result : Except String Hash) :
    ChainIndexer :=
  let c := match result with
    | .ok newHead =>
        if oldHead = c.sectionHead (sec - 1) then
          let c := (c.setSectionHead sec newHead).setValidSections (sec + 1)
          { c with cascadedHead := c.storedSections * c.sectionSize - 1 }
        -- processing failed: don't retry until further notification
        else { c with knownSections := c.storedSections }
    | .error _ => { c with knownSections := c.storedSections }
  c.reschedule

/-- `NewChainIndexer` over an index database without sections. -/
def new (sectionSize confirmsReq : UInt64) : ChainIndexer :=
  { backend := { sec := 0, prevHead := zeroHash, processed := [], commits := Store.empty },
    sectionSize, confirmsReq, storedSections := 0, knownSections := 0, cascadedHead := 0,
    sectionHeads := Store.empty, update := false }

section
attribute [local simp] reschedule updateEnd new
end

end ChainIndexer

/-! ### Runs -/

/-- Where the update loop is: waiting for a notification, processing a section with the lock
released, or back from processing with its result and waiting for the lock. -/
inductive UpdateLoop where
  | idle
  | processing (sec : UInt64) (oldHead : Hash)
  | processed (sec : UInt64) (oldHead : Hash) (result : Except String Hash)

/-- The indexer, the chain database it reads and its update loop. -/
structure Indexer where
  chainDb : ChainDb
  indexer : ChainIndexer
  loop : UpdateLoop

/-- The moves of a run: a call under the lock, a write of the chain database, or the update
loop's next move. -/
inductive IndexerOp where
  | newHead (head : UInt64) (reorg : Bool)
  | addKnownSectionHead (sec : UInt64) (shead : Hash)
  | setChain (db : ChainDb)
  | update

namespace Indexer

def step (s : Indexer) : IndexerOp → Indexer
  | .newHead head reorg => { s with indexer := s.indexer.newHead head reorg }
  | .addKnownSectionHead sec shead => { s with indexer := s.indexer.addKnownSectionHead sec shead }
  | .setChain db => { s with chainDb := db }
  | .update =>
      match s.loop with
      | .idle =>
          -- the loop waits for a notification
          if s.indexer.update then
            match s.indexer.updateBegin with
            | (c, some (sec, oldHead)) => { s with indexer := c, loop := .processing sec oldHead }
            | (c, none) => { s with indexer := c }
          else s
      | .processing sec oldHead =>
          let (result, backend) := s.indexer.processSection s.chainDb sec oldHead
          { s with indexer := { s.indexer with backend }, loop := .processed sec oldHead result }
      | .processed sec oldHead result =>
          { s with indexer := s.indexer.updateEnd sec oldHead result, loop := .idle }

def run (s : Indexer) (ops : List IndexerOp) : Indexer := ops.foldl step s

section
attribute [local simp] step run
end

end Indexer

/-! ### A reorg inside the section being processed -/

namespace ChainIndexer

@[simp] theorem reschedule_sectionHeads (c : ChainIndexer) : c.reschedule.sectionHeads = c.sectionHeads := by
  unfold reschedule
  split <;> rfl

@[simp] theorem reschedule_storedSections (c : ChainIndexer) :
    c.reschedule.storedSections = c.storedSections := by
  unfold reschedule
  split <;> rfl

/-- A reorg at or above the stored sections removes no section head. -/
theorem newHead_reorg_keeps (c : ChainIndexer) {h : UInt64} (notBelow : ¬h / c.sectionSize < c.storedSections) :
    (c.newHead h true).sectionHeads = c.sectionHeads ∧
      (c.newHead h true).storedSections = c.storedSections := by
  unfold newHead
  dsimp only
  split_ifs <;> simp_all

/-- The check after processing only looks at the head of the section before. A reorg to a
block inside the section being processed reverts no stored section, so the check passes and
the section is stored with the head that processing reached before the reorg. -/
theorem updateEnd_after_reorg_in_section (c : ChainIndexer) {sec h : UInt64} (newHead : Hash)
    (picked : c.storedSections = sec) (inSection : h / c.sectionSize = sec) :
    ((c.newHead h true).updateEnd sec (c.sectionHead (sec - 1)) (.ok newHead)).sectionHead sec = newHead ∧
      ((c.newHead h true).updateEnd sec (c.sectionHead (sec - 1)) (.ok newHead)).storedSections = sec + 1 := by
  obtain ⟨heads, stored⟩ := c.newHead_reorg_keeps (h := h) (by simp [inSection, picked])
  have unchanged : c.sectionHead (sec - 1) = (c.newHead h true).sectionHead (sec - 1) := by
    simp only [sectionHead, heads]
  simp only [updateEnd, unchanged, if_true]
  constructor
  · simp [sectionHead, setValidSections, setSectionHead, stored, picked]
  · simp [setValidSections]

end ChainIndexer

/-- A chain database holding `headers`, with `canon` as its canonical chain from block 0. -/
def ChainDb.ofHeaders (headers canon : List Header) : ChainDb :=
  { headers := fun key => headers.find? fun h => (h.hash, h.number) == key,
    blocks := Store.empty, canonical := fun n => canon[n]?.map Header.hash,
    headHeaderHash := none, headBlockHash := none, headFastBlockHash := none, txLookup := Store.empty }

/-- Blocks 0 to 3 of a chain. -/
def chainA : List Header :=
  [⟨[0xa0], zeroHash, 0⟩, ⟨[0xa1], [0xa0], 1⟩, ⟨[0xa2], [0xa1], 2⟩, ⟨[0xa3], [0xa2], 3⟩]

/-- A block 3 on top of block 2 of `chainA`. -/
def headerB3 : Header := ⟨[0xb3], [0xa2], 3⟩

/-- With sections of 4 blocks and no confirmations, section 0 of `chainA` is processed; before
the update loop takes the lock again, the chain reorganises to `headerB3` above block 2 and
`newHead(2, true)`, then `newHead(3, false)`, are called. The section is stored with head
`0xa3` and the backend's commit of `chainA`, and the indexer comes to rest, while the
canonical block 3 is `0xb3`. -/
theorem indexer_stores_reorged_section :
    ∃ s, Indexer.run ⟨ChainDb.ofHeaders chainA chainA, ChainIndexer.new 4 0, .idle⟩
        [.newHead 3 false, .update, .update,
          .setChain (ChainDb.ofHeaders (chainA ++ [headerB3]) (chainA.take 3 ++ [headerB3])),
          .newHead 2 true, .newHead 3 false, .update, .update] = s ∧
      s.indexer.storedSections = 1 ∧ s.indexer.sectionHead 0 = [0xa3] ∧
      s.chainDb.getCanonicalHash 3 = some [0xb3] ∧ s.indexer.backend.commits 0 = some chainA ∧
      s.indexer.update = false ∧ s.indexer.knownSections = 1 :=
  ⟨_, rfl, by decide⟩

end Mjoy.Chain
