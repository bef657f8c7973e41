import Mjoy.Chain.BlockChain

/-!
The failures `WriteBlockAndState` (`core/blockchain/blockchain.go`) can meet, and what the
database holds after each. The block, the state and the receipts go into a batch, which reaches
the database at `batch.Write()`, the last write of the call. `reorg` and `insert` write the
canonical index and the head hashes to the database itself, and `reorg` also the lookup entries
of the blocks it inserts. Which writes fail is an oracle over these write points (`WritePoint`).

Without a failure the call is `BlockChain.writeBlockAndState` (`writeBlockAndStateWith_none`). A
failure after `reorg` leaves the head, in memory and in the database, on the new block, while
the batch that would store the block is dropped.
-/

namespace Mjoy.Chain

open KeyValue
open Mjoy.State (Hash)

/-- The writes of `WriteBlockAndState` that may return an error. -/
inductive WritePoint where
  /-- `WriteBlock(batch, block)` -/
  | writeBlock
  /-- `state.CommitTo(batch, true)` -/
  | commitState
  /-- `WriteBlockReceipts(batch, ...)` -/
  | writeReceipts
  /-- `WriteTxLookupEntries(bc.chainDb, newChain[i])` in `reorg`, for the block of this hash -/
  | reorgLookups (block : Hash)
  /-- `WriteTxLookupEntries(batch, block)` -/
  | writeLookups
  /-- `WritePreimages(bc.chainDb, ...)` -/
  | writePreimages
  /-- `batch.Write()` -/
  | batchWrite
  deriving DecidableEq

/-- The error of the first of `points` that fails. -/
def firstFailure (fails : WritePoint → Option String) (points : List WritePoint) : Option String :=
  points.findSome? fails

-- Equation lemmas of the definitions above, made once here rather than by the proofs below
-- that unfold them in parallel.
section
attribute [local simp] firstFailure
end

namespace BlockChain

/-- The insertion loop of `reorg`, on the database itself: each block is inserted, then its
lookup entries are written; a failure there ends the loop with the blocks inserted so far. -/
def insertLoopWith (fails : WritePoint → Option String) :
    BlockChain × List Hash → List Block → Option String × (BlockChain × List Hash)
  | acc, [] => (none, acc)
  | acc, block :: rest =>
      match fails (.reorgLookups block.hash) with
      | some err => (some err, ((acc.1.insert block), acc.2))
      | none => insertLoopWith fails (insertStep acc block) rest

/-- The two walks of `reorg`, which only read: the new chain and the dropped transactions. -/
def reorgWalk (bc : BlockChain) (oldBlock newBlock : Block) :
    Except String (Block × List Block × List Block × List Hash) := do
  let (newBlock, newChain) ← reduceNewChain bc.chainDb newBlock.number newBlock oldBlock.number []
  findCommon bc.chainDb oldBlock.number oldBlock newBlock [] newChain []

/-- `reorg(oldBlock, newBlock)` with the failures of its insertion loop: the error, if any, and
the chain it leaves. An error of the walks leaves the chain as it was. -/
def reorgWith (fails : WritePoint → Option String) (bc : BlockChain) (oldBlock newBlock : Block) :
    Option String × BlockChain :=
  match bc.reorgWalk oldBlock newBlock with
  | .error err => (some err, bc)
  | .ok (_, _, newChain, deletedTxs) =>
      match insertLoopWith fails (bc, []) newChain.reverse with
      | (some err, bc, _) => (some err, bc)
      | (none, bc, addedTxs) =>
          (none, { bc with chainDb := (txDifference deletedTxs addedTxs).foldl ChainDb.deleteTxLookupEntry bc.chainDb })

/-- `WriteBlockAndState(block, receipts, state)` with the failures `fails`: the status or the
error, and the chain the call leaves. The batch holds the block and, for a new head, the lookup
entries of its transactions; an error before `batch.Write()` drops it. -/
def writeBlockAndStateWith (fails : WritePoint → Option String) (bc : BlockChain) (block : Block) :
    Except String WriteStatus × BlockChain :=
  let bcCurrentBlockNumber := bc.currentBlock.number
  let blockNumber := block.number
  match firstFailure fails [.writeBlock, .commitState, .writeReceipts] with
  | some err => (.error err, bc)
  | none =>
      let reorg := blockNumber > bcCurrentBlockNumber
      if reorg then
        let (failed, bc) :=
          if block.parentHash ≠ bc.currentBlock.hash then bc.reorgWith fails bc.currentBlock block
          else (none, bc)
        match failed with
        | some err => (.error err, bc)
        | none =>
            match firstFailure fails [.writeLookups, .writePreimages, .batchWrite] with
            | some err => (.error err, bc)
            | none =>
                let bc := { bc with chainDb := (bc.chainDb.writeBlock block).writeTxLookupEntries block }
                (.ok .canonStatTy, bc.insert block)
      else
        match fails .batchWrite with
        | some err => (.error err, bc)
        | none => (.ok .sideStatTy, { bc with chainDb := bc.chainDb.writeBlock block })

section
attribute [local simp] insertLoopWith reorgWalk reorgWith writeBlockAndStateWith
end

/-! ### Without a failure -/

theorem insertLoopWith_of_inserted {fails : WritePoint → Option String}
    (inserted : ∀ h, fails (.reorgLookups h) = none) :
    ∀ (blocks : List Block) (acc : BlockChain × List Hash),
      insertLoopWith fails acc blocks = (none, blocks.foldl insertStep acc) := by
  intro blocks
  induction blocks with
  | nil => intro acc; rfl
  | cons block rest ih =>
      intro acc
      simp only [insertLoopWith, inserted, List.foldl_cons]
      exact ih (insertStep acc block)

/-- `reorg` is its walks followed by the insertion. -/
theorem reorg_eq_walk (bc : BlockChain) (oldBlock newBlock : Block) :
    bc.reorg oldBlock newBlock =
      bc.reorgWalk oldBlock newBlock >>= fun r => pure (bc.insertChain r.2.2.1 r.2.2.2) := by
  unfold reorg reorgWalk
  cases reduceNewChain bc.chainDb newBlock.number newBlock oldBlock.number [] with
  | error e => rfl
  | ok reduced =>
      obtain ⟨newBlock', newChain⟩ := reduced
      cases findCommon bc.chainDb oldBlock.number oldBlock newBlock' [] newChain [] <;> rfl

theorem reorgWith_of_inserted (fails : WritePoint → Option String)
    (inserted : ∀ h, fails (.reorgLookups h) = none) (bc : BlockChain) (oldBlock newBlock : Block) :
    bc.reorgWith fails oldBlock newBlock =
      match bc.reorg oldBlock newBlock with
      | .ok reorged => (none, reorged)
      | .error err => (some err, bc) := by
  rw [reorg_eq_walk]
  unfold reorgWith
  cases bc.reorgWalk oldBlock newBlock with
  | error e => rfl
  | ok walked =>
      obtain ⟨_, _, newChain, deletedTxs⟩ := walked
      simp only [insertLoopWith_of_inserted inserted, Loop.ok_bind, Loop.pure_eq_ok, insertChain]

/-- Without a failure the call is `writeBlockAndState`; an error of `reorg`'s walks leaves the
chain as it was. -/
theorem writeBlockAndStateWith_none (bc : BlockChain) (block : Block) :
    bc.writeBlockAndStateWith (fun _ => none) block =
      match bc.writeBlockAndState block with
      | .ok (status, written) => (.ok status, written)
      | .error err => (.error err, bc) := by
  have inserted : ∀ h, (fun _ => none : WritePoint → Option String) (.reorgLookups h) = none := fun _ => rfl
  unfold writeBlockAndStateWith writeBlockAndState
  simp only [firstFailure, List.findSome?_cons, List.findSome?_nil]
  by_cases higher : block.number > bc.currentBlock.number
  · by_cases side : block.parentHash ≠ bc.currentBlock.hash
    · -- a new head on another branch: `reorg` first
      simp only [if_pos higher, if_pos side, reorgWith_of_inserted (fun _ => none) inserted]
      cases bc.reorg bc.currentBlock block <;> rfl
    · simp only [if_pos higher, if_neg side]
      rfl
  · simp only [if_neg higher]
    rfl

/-! ### The new chain of `reorg` starts with the new block -/

section NewChain

variable {db : ChainDb}

theorem reduceNewChain_prefix {oldNumber : Nat} :
    ∀ (fuel : Nat) (newBlock : Block) (newChain : List Block) (b : Block) (chain : List Block),
      reduceNewChain db fuel newBlock oldNumber newChain = .ok (b, chain) →
        ∃ rest, chain = newChain ++ rest := by
  intro fuel
  induction fuel with
  | zero =>
      intro newBlock newChain b chain run
      by_cases reached : newBlock.number = oldNumber
      · rw [reduceNewChain_stop reached] at run
        simp only [Except.ok.injEq, Prod.mk.injEq] at run
        exact ⟨[], by simp [run.2]⟩
      · unfold reduceNewChain at run
        simp [reached] at run
  | succ fuel ih =>
      intro newBlock newChain b chain run
      by_cases reached : newBlock.number = oldNumber
      · rw [reduceNewChain_stop reached] at run
        simp only [Except.ok.injEq, Prod.mk.injEq] at run
        exact ⟨[], by simp [run.2]⟩
      · cases found : db.parentBlock newBlock with
        | none =>
            unfold reduceNewChain at run
            simp [reached, found] at run
        | some parent =>
            rw [reduceNewChain_turn reached found] at run
            obtain ⟨rest, whole⟩ := ih parent _ b chain run
            exact ⟨newBlock :: rest, by simp [whole]⟩

/-- A new block above the old one's number is the first block of the new chain. -/
theorem reduceNewChain_head {fuel oldNumber : Nat} {newBlock b : Block} {newChain chain : List Block}
    (above : newBlock.number ≠ oldNumber)
    (run : reduceNewChain db fuel newBlock oldNumber newChain = .ok (b, chain)) :
    ∃ rest, chain = newChain ++ newBlock :: rest := by
  cases fuel with
  | zero =>
      unfold reduceNewChain at run
      simp [above] at run
  | succ fuel =>
      cases found : db.parentBlock newBlock with
      | none =>
          unfold reduceNewChain at run
          simp [above, found] at run
      | some parent =>
          rw [reduceNewChain_turn above found] at run
          obtain ⟨rest, whole⟩ := reduceNewChain_prefix fuel parent _ b chain run
          exact ⟨rest, by simp [whole]⟩

theorem findCommon_prefix :
    ∀ (fuel : Nat) (o q : Block) (oldChain newChain : List Block) (deletedTxs : List Hash)
      (found : Block × List Block × List Block × List Hash),
      findCommon db fuel o q oldChain newChain deletedTxs = .ok found → ∃ rest, found.2.2.1 = newChain ++ rest := by
  intro fuel
  induction fuel with
  | zero =>
      intro o q oldChain newChain deletedTxs found run
      by_cases same : o.hash = q.hash
      · rw [findCommon_same same] at run
        cases run
        exact ⟨[], by simp⟩
      · rw [findCommon] at run
        simp only [same, if_false] at run
        split at run <;> simp_all
  | succ fuel ih =>
      intro o q oldChain newChain deletedTxs found run
      by_cases same : o.hash = q.hash
      · rw [findCommon_same same] at run
        cases run
        exact ⟨[], by simp⟩
      · cases oldParent : db.parentBlock o with
        | none =>
            rw [findCommon] at run
            simp [same, oldParent] at run
        | some o' =>
            cases newParent : db.parentBlock q with
            | none =>
                rw [findCommon] at run
                simp [same, oldParent, newParent] at run
            | some q' =>
                rw [findCommon_turn same oldParent newParent] at run
                obtain ⟨rest, whole⟩ := ih o' q' _ _ _ found run
                exact ⟨q :: rest, by simp [whole]⟩

end NewChain

/-- A `reorg` to a block above the old one inserts a new chain that starts with the block. -/
theorem reorg_inserts_newBlock {bc reorged : BlockChain} {oldBlock newBlock : Block}
    (higher : oldBlock.number < newBlock.number) (run : bc.reorg oldBlock newBlock = .ok reorged) :
    ∃ rest deletedTxs, reorged = bc.insertChain (newBlock :: rest) deletedTxs := by
  rw [reorg_eq_walk, Loop.bind_eq_ok] at run
  obtain ⟨⟨_, _, newChain, deletedTxs⟩, walked, inserted⟩ := run
  unfold reorgWalk at walked
  rw [Loop.bind_eq_ok] at walked
  obtain ⟨⟨newBlock', reduced⟩, reduce, common⟩ := walked
  obtain ⟨rest, starts⟩ := reduceNewChain_head (by omega) reduce
  obtain ⟨more, grown⟩ := findCommon_prefix _ _ _ _ _ _ _ common
  simp only [Loop.pure_eq_ok, Except.ok.injEq] at inserted
  refine ⟨rest ++ more, deletedTxs, ?_⟩
  rw [← inserted]
  simp only at grown
  simp [grown, starts]

/-! ### What a failure after `reorg` leaves -/

@[simp] theorem insert_headBlockHash (bc : BlockChain) (block : Block) :
    (bc.insert block).chainDb.headBlockHash = some block.hash := by
  unfold insert; dsimp only; split <;> rfl

theorem foldl_deleteTxLookupEntry_headBlockHash (db : ChainDb) (hashes : List Hash) :
    (hashes.foldl ChainDb.deleteTxLookupEntry db).headBlockHash = db.headBlockHash := by
  induction hashes generalizing db with
  | nil => rfl
  | cons hash rest ih => rw [List.foldl_cons, ih]; rfl

/-- The block `reorg` inserts last, the first of its new chain, is the head in memory and in
the database, and canonical at its number. -/
theorem insertChain_cons (bc : BlockChain) (block : Block) (rest : List Block) (deletedTxs : List Hash) :
    (bc.insertChain (block :: rest) deletedTxs).chainDb.headBlockHash = some block.hash ∧
      (bc.insertChain (block :: rest) deletedTxs).currentBlock = block ∧
      (bc.insertChain (block :: rest) deletedTxs).chainDb.canonical block.number = some block.hash := by
  have last : (block :: rest).reverse = rest.reverse ++ [block] := List.reverse_cons
  refine ⟨?_, ?_, ?_⟩
  · simp only [insertChain, last, List.foldl_append, List.foldl_cons, List.foldl_nil,
      foldl_deleteTxLookupEntry_headBlockHash]
    simp [insertStep, ChainDb.writeTxLookupEntries]
  · simp [insertChain, last, insertStep]
  · rw [insertChain_canonical, last, List.map_append, List.foldl_append]
    simp [Block.key]

/-- A failure after `reorg` (of the lookup entries put in the batch, of the preimages, or of
`batch.Write()`) returns an error with the new block at the head of the chain and of the
database, and canonical at its number, while the batch that would have stored the block is
dropped: the head names a block the database does not hold. -/
theorem writeBlockAndState_failure_keeps_new_head (fails : WritePoint → Option String)
    {bc reorged : BlockChain} {block : Block} {err : String}
    (higher : bc.currentBlock.number < block.number) (side : block.parentHash ≠ bc.currentBlock.hash)
    (walked : bc.reorg bc.currentBlock block = .ok reorged)
    (batched : firstFailure fails [.writeBlock, .commitState, .writeReceipts] = none)
    (inserted : ∀ h, fails (.reorgLookups h) = none)
    (fault : firstFailure fails [.writeLookups, .writePreimages, .batchWrite] = some err)
    (fresh : bc.chainDb.blocks block.key = none) :
    bc.writeBlockAndStateWith fails block = (.error err, reorged) ∧
      reorged.currentBlock = block ∧ reorged.chainDb.headBlockHash = some block.hash ∧
      reorged.chainDb.canonical block.number = some block.hash ∧ reorged.chainDb.blocks block.key = none := by
  obtain ⟨rest, deletedTxs, shape⟩ := reorg_inserts_newBlock higher walked
  obtain ⟨head, current, canonical⟩ := insertChain_cons bc block rest deletedTxs
  have run : bc.writeBlockAndStateWith fails block = (.error err, reorged) := by
    unfold writeBlockAndStateWith
    simp only [batched, if_pos higher, if_pos side, reorgWith_of_inserted fails inserted, walked, fault]
  rw [shape] at run ⊢
  refine ⟨run, current, head, canonical, ?_⟩
  rw [insertChain_blocks]
  exact fresh

end BlockChain

/-- A second child of the genesis block, beside `childBlock`, and a child of it. -/
def sideBlock : Block :=
  { header := { hash := [2], parentHash := [0], number := 1 }, transactions := [] }

def sideChild : Block :=
  { header := { hash := [3], parentHash := [2], number := 2 }, transactions := [[8]] }

/-- The chain after `childBlock` and then `sideBlock` were written: `childBlock` is the head and
`sideBlock` is stored beside it. -/
def forkedChain : BlockChain :=
  match (BlockChain.genesis genesisBlock).writeBlocks [childBlock, sideBlock] with
  | .ok bc => bc
  | .error _ => BlockChain.genesis genesisBlock

/-- Only `batch.Write()` fails. -/
def batchWriteFails (point : WritePoint) : Option String :=
  if point = .batchWrite then some "batch write failed" else none

section
attribute [local simp] batchWriteFails
end

/-- `sideChild` on `forkedChain` moves the head to the side branch, and `batch.Write()` fails:
the database's head block hash names `sideChild`, which it does not hold. -/
theorem writeBlockAndState_failure_keeps_new_head_batch :
    ∃ reorged, forkedChain.writeBlockAndStateWith batchWriteFails sideChild =
        (.error "batch write failed", reorged) ∧
      reorged.chainDb.headBlockHash = some sideChild.hash ∧ reorged.chainDb.blocks sideChild.key = none := by
  obtain ⟨reorged, walked⟩ : ∃ reorged, forkedChain.reorg forkedChain.currentBlock sideChild = .ok reorged :=
    ⟨_, rfl⟩
  obtain ⟨run, -, head, -, missing⟩ := BlockChain.writeBlockAndState_failure_keeps_new_head batchWriteFails
    (by decide) (by decide) walked rfl (fun h => by simp [batchWriteFails]) rfl (by decide)
  exact ⟨reorged, run, head, missing⟩

end Mjoy.Chain
