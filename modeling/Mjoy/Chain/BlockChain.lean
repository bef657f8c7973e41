import Mjoy.Chain.HeaderChain

/-!
The head of the block chain and its canonical index (`core/blockchain/blockchain.go`).
`WriteBlockAndState` stores a block; one numbered above the head becomes the head, through
`reorg` when its parent is not the head. `reorg` walks the new branch down to the head's
number, then both branches down to the block they share, and inserts the new branch oldest
first, with the lookup entries of its transactions; the entries of the dropped branch's
transactions that the new branch does not hold are deleted.

From the genesis on, over any sequence of blocks whose parents come first, no call fails,
the head is the first highest block written, the index is the head's ancestor map, and a
call that drops a branch leaves a lookup entry for a dropped transaction exactly when a block
that became canonical holds it.

The receipts, the state commit, the preimages, the events and the future-block queue are left
out: no path to the head or the index reads them.
-/

namespace Mjoy.Chain

open KeyValue Ancestry
open Mjoy.State (Hash)

/-- `BlockChain`: the database, the head block, the head fast block and the header chain's
current header. -/
structure BlockChain where
  chainDb : ChainDb
  currentBlock : Block
  currentFastBlock : Block
  currentHeader : Header

namespace ChainDb

/-- `GetBlock(b.ParentHash(), b.NumberU64()-1)`: below number zero the number wraps around
and no block is found. -/
def parentBlock (db : ChainDb) (b : Block) : Option Block :=
  match b.number with
  | 0 => none
  | n + 1 => db.getBlock b.parentHash n

-- Equation lemmas of the definitions above, made once here rather than by the proofs below
-- that unfold them in parallel.
section
attribute [local simp] parentBlock
end

end ChainDb

/-- The key a block is stored under. -/
def Block.key (b : Block) : Hash × Nat := (b.hash, b.number)

/-- `TxDifference(a, b)`: the transactions of `a` whose hash `b` does not hold. -/
def txDifference (a b : List Hash) : List Hash :=
  a.filter fun tx => !b.contains tx

section
attribute [local simp] Block.key txDifference
end

namespace BlockChain

/-- `insert(block)`: the block becomes the head and canonical at its number. When it was not
canonical there, the current header and the head fast block follow it. -/
def insert (bc : BlockChain) (block : Block) : BlockChain :=
  let updateHeads := bc.chainDb.getCanonicalHash block.number ≠ some block.hash
  let bc := { bc with
    chainDb := (bc.chainDb.writeCanonicalHash block.hash block.number).writeHeadBlockHash block.hash,
    currentBlock := block }
  if updateHeads then
    -- `bc.hc.SetCurrentHeader(block.Header())`
    let bc := { bc with chainDb := bc.chainDb.writeHeadHeaderHash block.hash, currentHeader := block.header }
    { bc with chainDb := bc.chainDb.writeHeadFastBlockHash block.hash, currentFastBlock := block }
  else bc

/-- The first loop of `reorg`: the blocks of the new branch from `newBlock` down to the old
block's number. `fuel` bounds the numbers walked. -/
def reduceNewChain (db : ChainDb) : Nat → Block → Nat → List Block → Except String (Block × List Block)
  | fuel, newBlock, oldNumber, newChain =>
      if newBlock.number = oldNumber then .ok (newBlock, newChain)
      else
        match fuel, db.parentBlock newBlock with
        | fuel + 1, some parent => reduceNewChain db fuel parent oldNumber (newChain ++ [newBlock])
        | _, _ => .error "Invalid new chain"

/-- The second loop of `reorg`: both branches down to the block they share, with the blocks
of each and the transactions of the old one. `fuel` bounds the numbers walked. -/
def findCommon (db : ChainDb) :
    Nat → Block → Block → List Block → List Block → List Hash →
      Except String (Block × List Block × List Block × List Hash)
  | fuel, oldBlock, newBlock, oldChain, newChain, deletedTxs =>
      if oldBlock.hash = newBlock.hash then .ok (oldBlock, oldChain, newChain, deletedTxs)
      else
        let oldChain := oldChain ++ [oldBlock]
        let newChain := newChain ++ [newBlock]
        let deletedTxs := deletedTxs ++ oldBlock.transactions
        match fuel, db.parentBlock oldBlock, db.parentBlock newBlock with
        | fuel + 1, some oldParent, some newParent =>
            findCommon db fuel oldParent newParent oldChain newChain deletedTxs
        | _, none, _ => .error "Invalid old chain"
        | _, _, none => .error "Invalid new chain"
        | 0, _, _ => .error "Invalid old chain"

/-- One turn of the insertion loop of `reorg`: the block is inserted, its lookup entries
written and its transactions added. -/
def insertStep (acc : BlockChain × List Hash) (block : Block) : BlockChain × List Hash :=
  let bc := acc.1.insert block
  ({ bc with chainDb := bc.chainDb.writeTxLookupEntries block }, acc.2 ++ block.transactions)

/-- The end of `reorg`: the new chain inserted oldest first, then the lookup entries of the
dropped transactions it does not hold deleted. -/
def insertChain (bc : BlockChain) (newChain : List Block) (deletedTxs : List Hash) : BlockChain :=
  let (bc, addedTxs) := newChain.reverse.foldl insertStep (bc, [])
  let diff := txDifference deletedTxs addedTxs
  { bc with chainDb := diff.foldl ChainDb.deleteTxLookupEntry bc.chainDb }

/-- `reorg(oldBlock, newBlock)`. -/
def reorg (bc : BlockChain) (oldBlock newBlock : Block) : Except String BlockChain := do
  let (newBlock, newChain) ← reduceNewChain bc.chainDb newBlock.number newBlock oldBlock.number []
  let (_, _, newChain, deletedTxs) ←
    findCommon bc.chainDb oldBlock.number oldBlock newBlock [] newChain []
  pure (bc.insertChain newChain deletedTxs)

/-- `WriteBlockAndState(block, receipts, state)`. The batch holds the block and, for a new
head, the lookup entries of its transactions; it is written after `reorg`. -/
def writeBlockAndState (bc : BlockChain) (block : Block) : Except String (WriteStatus × BlockChain) := do
  let bcCurrentBlockNumber := bc.currentBlock.number
  let blockNumber := block.number
  let reorg := blockNumber > bcCurrentBlockNumber
  if reorg then
    let bc ← if block.parentHash ≠ bc.currentBlock.hash then bc.reorg bc.currentBlock block else pure bc
    let bc := { bc with chainDb := (bc.chainDb.writeBlock block).writeTxLookupEntries block }
    pure (.canonStatTy, bc.insert block)
  else
    pure (.sideStatTy, { bc with chainDb := bc.chainDb.writeBlock block })

/-- A sequence of `WriteBlockAndState` calls. -/
def writeBlocks (bc : BlockChain) : List Block → Except String BlockChain
  | [] => .ok bc
  | block :: rest => do
      let (_, bc) ← bc.writeBlockAndState block
      writeBlocks bc rest

/-- The block chain on the genesis database. -/
def genesis (g : Block) : BlockChain :=
  { chainDb := ChainDb.genesis g, currentBlock := g, currentFastBlock := g, currentHeader := g.header }

section
attribute [local simp] insert reduceNewChain findCommon insertStep insertChain reorg writeBlockAndState writeBlocks genesis
end

end BlockChain

/-! ### What each write leaves of the database -/

namespace ChainDb

variable (db : ChainDb)

@[simp] theorem writeBlock_blocks (block : Block) :
    (db.writeBlock block).blocks = db.blocks.put (block.hash, block.number) block := rfl

@[simp] theorem writeBlock_canonical (block : Block) : (db.writeBlock block).canonical = db.canonical := rfl

@[simp] theorem writeBlock_txLookup (block : Block) : (db.writeBlock block).txLookup = db.txLookup := rfl

@[simp] theorem writeTxLookupEntries_blocks (block : Block) :
    (db.writeTxLookupEntries block).blocks = db.blocks := rfl

@[simp] theorem writeTxLookupEntries_canonical (block : Block) :
    (db.writeTxLookupEntries block).canonical = db.canonical := rfl

@[simp] theorem deleteTxLookupEntry_blocks (hash : Hash) : (db.deleteTxLookupEntry hash).blocks = db.blocks := rfl

@[simp] theorem deleteTxLookupEntry_canonical (hash : Hash) :
    (db.deleteTxLookupEntry hash).canonical = db.canonical := rfl

/-- After `WriteTxLookupEntries`, a transaction has an entry when the block holds it or it had
one. -/
theorem writeTxLookupEntries_isSome (block : Block) (tx : Hash) :
    ((db.writeTxLookupEntries block).txLookup tx).isSome ↔
      tx ∈ block.transactions ∨ (db.txLookup tx).isSome := by
  have puts : ∀ (entries : List (Hash × Nat)) (lookup : Store Hash TxLookupEntry),
      ((entries.foldl (fun lookup entry => lookup.put entry.1
        { blockHash := block.hash, blockIndex := block.number, index := entry.2 }) lookup) tx).isSome ↔
        tx ∈ entries.map Prod.fst ∨ (lookup tx).isSome := by
    intro entries
    induction entries with
    | nil => simp
    | cons entry rest ih =>
        intro lookup
        rw [List.foldl_cons, ih]
        by_cases here : tx = entry.1
        · subst here
          simp
        · simp [Store.put_other _ _ here, here]
  rw [writeTxLookupEntries, puts, List.zipIdx_map_fst]

theorem foldl_deleteTxLookupEntry (hashes : List Hash) (tx : Hash) :
    (hashes.foldl deleteTxLookupEntry db).txLookup tx = if tx ∈ hashes then none else db.txLookup tx := by
  induction hashes generalizing db with
  | nil => simp
  | cons hash rest ih =>
      rw [List.foldl_cons, ih]
      by_cases here : tx = hash
      · subst here
        simp [deleteTxLookupEntry]
      · simp [deleteTxLookupEntry, Store.erase_other _ here, here]

theorem foldl_deleteTxLookupEntry_blocks (hashes : List Hash) :
    (hashes.foldl deleteTxLookupEntry db).blocks = db.blocks := by
  induction hashes generalizing db with
  | nil => rfl
  | cons hash rest ih => rw [List.foldl_cons, ih]; rfl

theorem foldl_deleteTxLookupEntry_canonical (hashes : List Hash) :
    (hashes.foldl deleteTxLookupEntry db).canonical = db.canonical := by
  induction hashes generalizing db with
  | nil => rfl
  | cons hash rest ih => rw [List.foldl_cons, ih]; rfl

end ChainDb

namespace BlockChain

variable (bc : BlockChain) (block : Block)

@[simp] theorem insert_blocks : (bc.insert block).chainDb.blocks = bc.chainDb.blocks := by
  unfold insert; dsimp only; split <;> rfl

@[simp] theorem insert_canonical :
    (bc.insert block).chainDb.canonical = bc.chainDb.canonical.put block.number block.hash := by
  unfold insert; dsimp only; split <;> rfl

@[simp] theorem insert_txLookup : (bc.insert block).chainDb.txLookup = bc.chainDb.txLookup := by
  unfold insert; dsimp only; split <;> rfl

@[simp] theorem insert_currentBlock : (bc.insert block).currentBlock = block := by
  unfold insert; dsimp only; split <;> rfl

/-- The insertion loop writes the blocks' hashes at their numbers, their lookup entries, and
adds their transactions; it stores no block. -/
theorem foldl_insertStep (blocks : List Block) (acc : BlockChain × List Hash) :
    (blocks.foldl insertStep acc).1.chainDb.blocks = acc.1.chainDb.blocks ∧
      (blocks.foldl insertStep acc).1.chainDb.canonical =
        (blocks.map Block.key).foldl (fun c p => c.put p.2 p.1) acc.1.chainDb.canonical ∧
      (blocks.foldl insertStep acc).2 = acc.2 ++ blocks.flatMap Block.transactions ∧
      ∀ tx, ((blocks.foldl insertStep acc).1.chainDb.txLookup tx).isSome ↔
        tx ∈ blocks.flatMap Block.transactions ∨ (acc.1.chainDb.txLookup tx).isSome := by
  induction blocks generalizing acc with
  | nil => simp
  | cons b rest ih =>
      obtain ⟨blocks, canonical, added, lookup⟩ := ih (insertStep acc b)
      refine ⟨?_, ?_, ?_, fun tx => ?_⟩
      · rw [List.foldl_cons, blocks]
        simp [insertStep]
      · rw [List.foldl_cons, canonical]
        simp [insertStep, Block.key]
      · rw [List.foldl_cons, added]
        simp [insertStep]
      · rw [List.foldl_cons, lookup, insertStep]
        simp only [ChainDb.writeTxLookupEntries_isSome, insert_txLookup, List.flatMap_cons,
          List.mem_append]
        tauto

end BlockChain

/-! ### The loops of `reorg` -/

namespace BlockChain

section Loops

variable {db : ChainDb} {written : List Block}

/-- In a linked store, the parent of a stored block above number zero is found. -/
theorem parentBlock_stored (stores : Stores Block.hash Block.number db.blocks written)
    (linked : Linked Block.parentHash db.blocks) {b : Block} {k : Nat} (stored : db.blocks (b.hash, k + 1) = some b) :
    ∃ p, db.parentBlock b = some p ∧ db.blocks (p.hash, k) = some p ∧ p.hash = b.parentHash := by
  obtain ⟨p, parentStored⟩ := linked b.hash k b stored
  have number : b.number = k + 1 := stores.number_eq stored
  have hash : p.hash = b.parentHash := ((stores _ _ p).mp parentStored).2.1
  refine ⟨p, ?_, by rw [hash]; exact parentStored, hash⟩
  simp only [ChainDb.parentBlock, number, ChainDb.getBlock]
  exact parentStored

theorem reduceNewChain_stop {fuel oldNumber : Nat} {newBlock : Block} {newChain : List Block}
    (reached : newBlock.number = oldNumber) :
    reduceNewChain db fuel newBlock oldNumber newChain = .ok (newBlock, newChain) := by
  unfold reduceNewChain
  simp [reached]

theorem reduceNewChain_turn {fuel oldNumber : Nat} {newBlock parent : Block} {newChain : List Block}
    (above : newBlock.number ≠ oldNumber) (found : db.parentBlock newBlock = some parent) :
    reduceNewChain db (fuel + 1) newBlock oldNumber newChain =
      reduceNewChain db fuel parent oldNumber (newChain ++ [newBlock]) := by
  conv_lhs => unfold reduceNewChain
  simp [above, found]

theorem findCommon_same {fuel : Nat} {o q : Block} {oldChain newChain : List Block} {deletedTxs : List Hash}
    (same : o.hash = q.hash) :
    findCommon db fuel o q oldChain newChain deletedTxs = .ok (o, oldChain, newChain, deletedTxs) := by
  rw [findCommon]
  simp [same]

theorem findCommon_turn {fuel : Nat} {o q o' q' : Block} {oldChain newChain : List Block} {deletedTxs : List Hash}
    (differ : o.hash ≠ q.hash) (oldParent : db.parentBlock o = some o') (newParent : db.parentBlock q = some q') :
    findCommon db (fuel + 1) o q oldChain newChain deletedTxs =
      findCommon db fuel o' q' (oldChain ++ [o]) (newChain ++ [q]) (deletedTxs ++ o.transactions) := by
  rw [findCommon]
  simp [differ, oldParent, newParent]

/-- What `findCommon` finds from the blocks `o` and `q` at number `k`: the branches meet at
`c`, at the block `common`, and differ above it; `O` and `N` are the blocks of each above `c`. -/
structure Fork (S : Store (Hash × Nat) Block) (o q : Hash) (k c : Nat) (common : Block) (O N : List Block) :
    Prop where
  le : c ≤ k
  oldMeets : ancestor Block.parentHash S o k c = some common.hash
  newMeets : ancestor Block.parentHash S q k c = some common.hash
  differ : ∀ h, c < h → h ≤ k → ancestor Block.parentHash S o k h ≠ ancestor Block.parentHash S q k h
  oldBranch : Covers Block.parentHash S (O.map Block.key) o k c
  newBranch : Covers Block.parentHash S (N.map Block.key) q k c
  oldStored : ∀ b ∈ O, S b.key = some b
  newStored : ∀ b ∈ N, S b.key = some b

theorem Fork.same {S : Store (Hash × Nat) Block} {o : Block} {q : Hash} {k : Nat} (same : o.hash = q) :
    Fork S o.hash q k k o [] [] where
  le := le_refl k
  oldMeets := ancestor_self _ _
  newMeets := by rw [ancestor_self, same]
  differ _ low high := absurd high (by omega)
  oldBranch := Covers.nil _ _
  newBranch := Covers.nil _ _
  oldStored := by simp
  newStored := by simp

/-- Two different blocks one number above a fork of their parents fork there too. -/
theorem Fork.cons {S : Store (Hash × Nat) Block} {o q : Block} {k c : Nat} {common : Block} {O N : List Block}
    (fork : Fork S o.parentHash q.parentHash k c common O N) (storedO : S (o.hash, k + 1) = some o)
    (storedQ : S (q.hash, k + 1) = some q) (numberO : o.number = k + 1) (numberQ : q.number = k + 1)
    (differ : o.hash ≠ q.hash) :
    Fork S o.hash q.hash (k + 1) c common (o :: O) (q :: N) where
  le := by have := fork.le; omega
  oldMeets := by rw [ancestor_parent storedO fork.le]; exact fork.oldMeets
  newMeets := by rw [ancestor_parent storedQ fork.le]; exact fork.newMeets
  differ h low high := by
    by_cases top : h = k + 1
    · subst top
      simpa using differ
    · rw [ancestor_parent storedO (by omega), ancestor_parent storedQ (by omega)]
      exact fork.differ h low (by omega)
  oldBranch := by
    simpa [Block.key, numberO] using fork.oldBranch.cons_top fork.le storedO
  newBranch := by
    simpa [Block.key, numberQ] using fork.newBranch.cons_top fork.le storedQ
  oldStored b mem := by
    rcases List.mem_cons.mp mem with rfl | old
    · simpa [Block.key, numberO] using storedO
    · exact fork.oldStored b old
  newStored b mem := by
    rcases List.mem_cons.mp mem with rfl | new
    · simpa [Block.key, numberQ] using storedQ
    · exact fork.newStored b new

/-- `findCommon` from two stored blocks of the same number, with fuel for every number below
it, finds where their branches fork. -/
theorem findCommon_spec {canon : Store Nat Hash} {head : Block}
    (indexed : Indexed Block.hash Block.parentHash Block.number db.blocks canon head written) :
    ∀ k fuel (o q : Block) oldChain newChain deletedTxs, k ≤ fuel →
      db.blocks (o.hash, k) = some o → db.blocks (q.hash, k) = some q →
      ∃ c common O N, findCommon db fuel o q oldChain newChain deletedTxs =
          .ok (common, oldChain ++ O, newChain ++ N, deletedTxs ++ O.flatMap Block.transactions) ∧
        Fork db.blocks o.hash q.hash k c common O N := by
  intro k
  induction k with
  | zero =>
      intro fuel o q oldChain newChain deletedTxs _ storedO storedQ
      -- at number zero both branches reach the genesis
      have same := indexed.root_hash storedO storedQ
      exact ⟨0, o, [], [], by simp [findCommon_same same], Fork.same same⟩
  | succ k ih =>
      intro fuel o q oldChain newChain deletedTxs enough storedO storedQ
      by_cases same : o.hash = q.hash
      · exact ⟨k + 1, o, [], [], by simp [findCommon_same same], Fork.same same⟩
      · obtain ⟨fuel, rfl⟩ : ∃ f, fuel = f + 1 := ⟨fuel - 1, by omega⟩
        obtain ⟨o', parentO, storedO', hashO⟩ := parentBlock_stored indexed.stores indexed.linked storedO
        obtain ⟨q', parentQ, storedQ', hashQ⟩ := parentBlock_stored indexed.stores indexed.linked storedQ
        obtain ⟨c, common, O, N, run, fork⟩ := ih fuel o' q' (oldChain ++ [o]) (newChain ++ [q])
          (deletedTxs ++ o.transactions) (by omega) storedO' storedQ'
        refine ⟨c, common, o :: O, q :: N, ?_, ?_⟩
        · rw [findCommon_turn same parentO parentQ, run]
          simp
        · rw [hashO, hashQ] at fork
          exact fork.cons storedO storedQ (indexed.stores.number_eq storedO)
            (indexed.stores.number_eq storedQ) same

end Loops

/-! ### The insertion at the end of `reorg` -/

section InsertChain

variable (bc : BlockChain) (newChain : List Block) (deletedTxs : List Hash)

theorem insertChain_blocks : (bc.insertChain newChain deletedTxs).chainDb.blocks = bc.chainDb.blocks := by
  simp only [insertChain, ChainDb.foldl_deleteTxLookupEntry_blocks, (foldl_insertStep newChain.reverse (bc, [])).1]

theorem insertChain_canonical :
    (bc.insertChain newChain deletedTxs).chainDb.canonical =
      (newChain.reverse.map Block.key).foldl (fun c p => c.put p.2 p.1) bc.chainDb.canonical := by
  simp only [insertChain, ChainDb.foldl_deleteTxLookupEntry_canonical,
    (foldl_insertStep newChain.reverse (bc, [])).2.1]

/-- After `reorg`'s insertion, a transaction has a lookup entry when the new chain holds it,
or when it had one and was not dropped. -/
theorem insertChain_isSome (tx : Hash) :
    ((bc.insertChain newChain deletedTxs).chainDb.txLookup tx).isSome ↔
      tx ∈ newChain.flatMap Block.transactions ∨
        (tx ∉ deletedTxs ∧ (bc.chainDb.txLookup tx).isSome) := by
  obtain ⟨_, _, added, lookup⟩ := foldl_insertStep newChain.reverse (bc, [])
  simp only [insertChain, ChainDb.foldl_deleteTxLookupEntry, added, txDifference, List.nil_append,
    List.mem_filter, Bool.not_eq_true', List.contains_eq_mem, decide_eq_false_iff_not]
  split
  · rename_i dropped
    simp only [Option.isSome_none, Bool.false_eq_true, false_iff, not_or, not_and]
    obtain ⟨deleted, notAdded⟩ := dropped
    exact ⟨by simpa using notAdded, fun notDeleted => absurd deleted notDeleted⟩
  · rename_i kept
    rw [lookup]
    simp only [List.mem_flatMap, List.mem_reverse] at kept ⊢
    by_cases inNew : ∃ b ∈ newChain, tx ∈ b.transactions
    · simp [inNew]
    · have notDeleted : tx ∉ deletedTxs := fun deleted => kept ⟨deleted, inNew⟩
      simp [inNew, notDeleted]

end InsertChain

end BlockChain

/-! ### One call of `WriteBlockAndState` -/

/-- What a block chain keeps after the blocks of `written` were written, genesis first: its
blocks, index and head are `Ancestry.Indexed`. -/
def BlockChain.Consistent (written : List Block) (bc : BlockChain) : Prop :=
  Indexed Block.hash Block.parentHash Block.number bc.chainDb.blocks bc.chainDb.canonical bc.currentBlock
    written

/-- The lookup entries after a call: a transaction of a block that was canonical before and is
not after has an entry exactly when a block that became canonical holds it. -/
def LookupsFollow (before after : BlockChain) : Prop :=
  ∀ b, before.chainDb.blocks b.key = some b → before.chainDb.canonical b.number = some b.hash →
    after.chainDb.canonical b.number ≠ some b.hash →
    ∀ tx ∈ b.transactions, (after.chainDb.txLookup tx).isSome ↔
      ∃ b', after.chainDb.blocks b'.key = some b' ∧ after.chainDb.canonical b'.number = some b'.hash ∧
        before.chainDb.canonical b'.number ≠ some b'.hash ∧ tx ∈ b'.transactions

section
attribute [local simp] BlockChain.Consistent
end

/-- A call that keeps every canonical entry drops no block. -/
theorem LookupsFollow.of_kept {before after : BlockChain}
    (kept : ∀ h, before.chainDb.canonical h ≠ none → after.chainDb.canonical h = before.chainDb.canonical h) :
    LookupsFollow before after := by
  intro b _ canonicalBefore changed
  exact absurd (by rw [kept _ (by rw [canonicalBefore]; simp), canonicalBefore]) changed

namespace BlockChain

variable {written : List Block} {bc : BlockChain} {b p : Block}

/-- `reorg` from the head to a block one number above it, whose parent is stored: the new
chain is the block over its parent's branch above the fork. -/
theorem reorg_spec (consistent : bc.Consistent written) (parentMem : p ∈ written)
    (parentHash : p.hash = b.parentHash) (parentNumber : p.number = bc.currentBlock.number)
    (number : b.number = bc.currentBlock.number + 1) :
    ∃ c common O N, bc.reorg bc.currentBlock b = .ok (bc.insertChain (b :: N) (O.flatMap Block.transactions)) ∧
      Fork bc.chainDb.blocks bc.currentBlock.hash p.hash bc.currentBlock.number c common O N := by
  have storedP : bc.chainDb.blocks (p.hash, bc.currentBlock.number) = some p := by
    rw [← parentNumber]
    exact consistent.stores.stored parentMem
  have parentB : bc.chainDb.parentBlock b = some p := by
    simp only [ChainDb.parentBlock, number, ChainDb.getBlock, ← parentHash]
    exact storedP
  obtain ⟨c, common, O, N, run, fork⟩ := findCommon_spec consistent bc.currentBlock.number
    bc.currentBlock.number bc.currentBlock p [] [b] [] (le_refl _) consistent.headStored storedP
  refine ⟨c, common, O, N, ?_, fork⟩
  have reduce : reduceNewChain bc.chainDb b.number b bc.currentBlock.number [] = .ok (p, [b]) := by
    rw [number, reduceNewChain_turn (by omega) parentB, reduceNewChain_stop parentNumber]
    rfl
  simp only [reorg, reduce, Loop.ok_bind, run]
  simp

/-- The new chain of a `reorg`, the block over its parent's branch above the fork, lists the
block's ancestors above the fork once the block is stored. -/
theorem newChain_covers (consistent : bc.Consistent written) {c : Nat} {common : Block} {O N : List Block}
    (fork : Fork bc.chainDb.blocks bc.currentBlock.hash b.parentHash bc.currentBlock.number c common O N)
    (identify : KeysIdentify Block.hash Block.number (written ++ [b]))
    (number : b.number = bc.currentBlock.number + 1) :
    Covers Block.parentHash (bc.chainDb.blocks.put (b.hash, b.number) b) ((b :: N).map Block.key) b.hash
      b.number c := by
  have ext := consistent.stores.extends_put identify
  have storedB : bc.chainDb.blocks.put (b.hash, b.number) b (b.hash, bc.currentBlock.number + 1) = some b := by
    rw [← number]
    exact Store.put_same _ _ _
  have covers := (fork.newBranch.extend ext).cons_top fork.le storedB
  rw [← number] at covers
  simpa [Block.key] using covers

/-- After a `reorg`, the batch and the new head, a transaction of a dropped block has a lookup
entry exactly when a block that became canonical holds it. -/
theorem lookupsFollow_reorg (consistent : bc.Consistent written) {c : Nat} {common : Block} {O N : List Block}
    (fork : Fork bc.chainDb.blocks bc.currentBlock.hash b.parentHash bc.currentBlock.number c common O N)
    (identify : KeysIdentify Block.hash Block.number (written ++ [b]))
    (number : b.number = bc.currentBlock.number + 1) {after : BlockChain}
    (blocks : after.chainDb.blocks = bc.chainDb.blocks.put (b.hash, b.number) b)
    (canonical : ∀ h, after.chainDb.canonical h = if c < h ∧ h ≤ b.number then
      ancestor Block.parentHash (bc.chainDb.blocks.put (b.hash, b.number) b) b.hash b.number h
      else bc.chainDb.canonical h)
    (lookup : ∀ tx, (after.chainDb.txLookup tx).isSome ↔ tx ∈ (b :: N).flatMap Block.transactions ∨
      (tx ∉ O.flatMap Block.transactions ∧ (bc.chainDb.txLookup tx).isSome)) :
    LookupsFollow bc after := by
  have ext := consistent.stores.extends_put identify
  have covers := newChain_covers consistent fork identify number
  -- a block whose canonical entry changed lies above the fork
  have moved : ∀ x : Block, bc.chainDb.canonical x.number ≠ after.chainDb.canonical x.number →
      c < x.number ∧ x.number ≤ b.number := by
    intro x differs
    by_contra outside
    rw [canonical, if_neg outside] at differs
    exact differs rfl
  intro b₀ stored₀ before₀ after₀ tx mem
  -- the dropped block is the old branch's block at its number
  have le_head : b₀.number ≤ bc.currentBlock.number := by
    rw [consistent.canonical] at before₀
    exact le_of_ancestor before₀
  have within := moved b₀ (by rw [before₀]; exact Ne.symm after₀)
  obtain ⟨key, memKey, height⟩ := fork.oldBranch.2 b₀.number within.1 le_head
  obtain ⟨o, memO, rfl⟩ := List.mem_map.mp memKey
  have oldAt := (fork.oldBranch.1 _ memKey).2.2
  simp only [Block.key] at height oldAt
  rw [height, ← consistent.canonical, before₀] at oldAt
  have same : o = b₀ := by
    have storedO := fork.oldStored o memO
    rw [Block.key, ← Option.some.inj oldAt, height] at storedO
    exact Option.some.inj (storedO.symm.trans stored₀)
  have deleted : tx ∈ O.flatMap Block.transactions := List.mem_flatMap.mpr ⟨b₀, same ▸ memO, mem⟩
  rw [lookup]
  constructor
  · rintro (added | ⟨notDeleted, _⟩)
    · obtain ⟨nb, memNb, memTx⟩ := List.mem_flatMap.mp added
      obtain ⟨low, high, newAt⟩ := covers.1 nb.key (List.mem_map_of_mem memNb)
      simp only [Block.key] at low high newAt
      refine ⟨nb, ?_, by rw [canonical, if_pos ⟨low, high⟩, newAt], ?_, memTx⟩
      · rw [blocks]
        rcases List.mem_cons.mp memNb with rfl | old
        · exact Store.put_same _ _ _
        · exact ext _ _ (fork.newStored nb old)
      · rw [consistent.canonical]
        rcases List.mem_cons.mp memNb with rfl | old
        · rw [ancestor_above (by omega)]
          simp
        · obtain ⟨lowN, highN, branchAt⟩ := fork.newBranch.1 nb.key (List.mem_map_of_mem old)
          simp only [Block.key] at lowN highN branchAt
          rw [← branchAt]
          exact fork.differ nb.number lowN highN
    · exact absurd deleted notDeleted
  · rintro ⟨b', stored', after', before', memTx⟩
    left
    have within' := moved b' (by rw [after']; exact before')
    obtain ⟨key, memKey, height⟩ := covers.2 b'.number within'.1 within'.2
    obtain ⟨nb, memNb, rfl⟩ := List.mem_map.mp memKey
    have newAt := (covers.1 _ memKey).2.2
    simp only [Block.key] at height newAt
    rw [canonical, if_pos within', ← height, newAt] at after'
    have same : nb = b' := by
      have storedN : bc.chainDb.blocks.put (b.hash, b.number) b nb.key = some nb := by
        rcases List.mem_cons.mp memNb with rfl | old
        · exact Store.put_same _ _ _
        · exact ext _ _ (fork.newStored nb old)
      rw [Block.key, Option.some.inj after', height, ← blocks] at storedN
      exact Option.some.inj (storedN.symm.trans stored')
    exact List.mem_flatMap.mpr ⟨nb, memNb, same ▸ memTx⟩

/-- One `WriteBlockAndState` call on a block whose parent was written: it does not fail, the
chain stays consistent, and the lookup entries follow the blocks that change places. -/
theorem writeBlockAndState_consistent (consistent : bc.Consistent written)
    (parent : ∃ p ∈ written, p.hash = b.parentHash ∧ p.number + 1 = b.number)
    (identify : KeysIdentify Block.hash Block.number (written ++ [b])) :
    ∃ status bc', bc.writeBlockAndState b = .ok (status, bc') ∧ bc'.Consistent (written ++ [b]) ∧
      LookupsFollow bc bc' := by
  obtain ⟨p, parentMem, parentHash, parentNumber⟩ := parent
  have headLe : p.number ≤ bc.currentBlock.number := consistent.highest.1 p parentMem
  have ext := consistent.stores.extends_put identify
  by_cases higher : bc.currentBlock.number < b.number
  · have number : b.number = bc.currentBlock.number + 1 := by omega
    -- the index is `none` above the head
    have aboveHead : bc.chainDb.canonical b.number = none := by
      rw [consistent.canonical, ancestor_above higher]
    by_cases onHead : b.parentHash = bc.currentBlock.hash
    · -- the block extends the head: no reorg
      refine ⟨.canonStatTy, ({ bc with chainDb := (bc.chainDb.writeBlock b).writeTxLookupEntries b } : BlockChain).insert b,
        by simp [writeBlockAndState, higher, onHead], ?_, ?_⟩
      · unfold Consistent
        simp only [insert_blocks, insert_canonical, insert_currentBlock, ChainDb.writeTxLookupEntries_blocks,
          ChainDb.writeBlock_blocks, ChainDb.writeTxLookupEntries_canonical, ChainDb.writeBlock_canonical]
        refine consistent.advance ⟨p, parentMem, parentHash, by omega⟩ identify higher (c := bc.currentBlock.number)
          ?_ (le_refl _) fun h => ?_
        · rw [consistent.canonical, ancestor_self, ancestor_self, ← onHead]
        · by_cases top : h = b.number
          · subst top
            rw [if_pos ⟨higher, le_refl _⟩, ancestor_self]
            exact Store.put_same _ _ _
          · rw [if_neg (by omega)]
            exact Store.put_other _ _ top
      · refine LookupsFollow.of_kept fun h named => ?_
        simp only [insert_canonical, ChainDb.writeTxLookupEntries_canonical, ChainDb.writeBlock_canonical]
        have other : h ≠ b.number := fun same => named (by rw [same, aboveHead])
        exact Store.put_other _ _ other
    · -- the block's parent is off the head: `reorg`, then the batch and the head
      rw [← parentHash] at onHead
      obtain ⟨c, common, O, N, run, fork⟩ := reorg_spec consistent parentMem parentHash (by omega) number
      rw [parentHash] at fork
      have covers := newChain_covers consistent fork identify number
      have canonicalChain := (covers.reverse).foldl_put bc.chainDb.canonical
      rw [← List.map_reverse] at canonicalChain
      -- the new chain's writes, then the head's own write at its number
      have canonicalAfter : ∀ h, (((b :: N).reverse.map Block.key).foldl (fun c p => c.put p.2 p.1)
          bc.chainDb.canonical).put b.number b.hash h = if c < h ∧ h ≤ b.number then
            ancestor Block.parentHash (bc.chainDb.blocks.put (b.hash, b.number) b) b.hash b.number h
            else bc.chainDb.canonical h := by
        intro h
        by_cases top : h = b.number
        · subst top
          rw [if_pos ⟨by have := fork.le; omega, le_refl _⟩, ancestor_self]
          exact Store.put_same _ _ _
        · exact (Store.put_other _ _ top).trans (canonicalChain h)
      refine ⟨.canonStatTy,
        ({ bc.insertChain (b :: N) (O.flatMap Block.transactions) with
          chainDb := ((bc.insertChain (b :: N) (O.flatMap Block.transactions)).chainDb.writeBlock b).writeTxLookupEntries b }
          : BlockChain).insert b, ?_, ?_, ?_⟩
      · simp [writeBlockAndState, higher, ← parentHash, onHead, run]
      · unfold Consistent
        simp only [insert_blocks, insert_canonical, insert_currentBlock, ChainDb.writeTxLookupEntries_blocks,
          ChainDb.writeBlock_blocks, ChainDb.writeTxLookupEntries_canonical, ChainDb.writeBlock_canonical,
          insertChain_blocks, insertChain_canonical]
        refine consistent.advance ⟨p, parentMem, parentHash, by omega⟩ identify higher ?_ fork.le canonicalAfter
        -- where the branches fork, the index names the block they share
        have storedParent : bc.chainDb.blocks (b.parentHash, bc.currentBlock.number) = some p := by
          rw [← parentHash, show bc.currentBlock.number = p.number by omega]
          exact consistent.stores.stored parentMem
        rw [consistent.canonical, ancestor_extends_eq ext consistent.linked storedParent, fork.oldMeets,
          fork.newMeets]
      · refine lookupsFollow_reorg consistent fork identify number ?_ ?_ fun tx => ?_
        · simp [insertChain_blocks]
        · simpa [insertChain_canonical] using canonicalAfter
        · simp only [insert_txLookup, ChainDb.writeTxLookupEntries_isSome, ChainDb.writeBlock_txLookup,
            insertChain_isSome, List.flatMap_cons, List.mem_append]
          tauto
  · -- a block not above the head is only stored
    refine ⟨.sideStatTy, { bc with chainDb := bc.chainDb.writeBlock b }, by simp [writeBlockAndState, higher],
      consistent.side ⟨p, parentMem, parentHash, parentNumber⟩ identify (by omega), LookupsFollow.of_kept fun _ _ => rfl⟩

/-- A sequence of `WriteBlockAndState` calls on blocks whose parents come first keeps the chain
consistent, and no call fails. -/
theorem writeBlocks_consistent :
    ∀ (blocks written : List Block) (bc : BlockChain), bc.Consistent written → written ≠ [] →
      ParentsFirst Block.hash Block.parentHash Block.number (written ++ blocks) →
      KeysIdentify Block.hash Block.number (written ++ blocks) →
      ∃ bc', bc.writeBlocks blocks = .ok bc' ∧ bc'.Consistent (written ++ blocks) := by
  intro blocks
  induction blocks with
  | nil =>
      intro written bc consistent _ _ _
      exact ⟨bc, rfl, by simpa using consistent⟩
  | cons b rest ih =>
      intro written bc consistent nonempty parents identify
      obtain ⟨status, bc₁, step, consistent₁, _⟩ := writeBlockAndState_consistent consistent
        (parents written b rest rfl nonempty) (identify.sublist (by simp))
      obtain ⟨bc', run, final⟩ := ih (written ++ [b]) bc₁ consistent₁ (by simp)
        (by simpa using parents) (by simpa using identify)
      refine ⟨bc', ?_, by simpa using final⟩
      simp only [writeBlocks, step]
      exact run

theorem writeBlocks_append (bc : BlockChain) (blocks : List Block) (b : Block) :
    bc.writeBlocks (blocks ++ [b]) = bc.writeBlocks blocks >>= fun bc => bc.writeBlocks [b] := by
  induction blocks generalizing bc with
  | nil => simp [writeBlocks]
  | cons x rest ih =>
      simp only [List.cons_append, writeBlocks]
      cases bc.writeBlockAndState x with
      | error e => rfl
      | ok result => exact ih result.2

/-- The genesis database is consistent with the genesis block alone. -/
theorem genesis_consistent (g : Block) (zero : g.number = 0) : (genesis g).Consistent [g] :=
  Indexed.init g zero

end BlockChain

/-- Over any sequence of `WriteBlockAndState` calls from the genesis on blocks whose parents
were written earlier, no call fails; after each call the head is the first block written of the
greatest number, the canonical entry at every number up to the head's is the head's ancestor
there, and the transactions of the blocks that left the canonical chain keep a lookup entry
exactly when a block that joined it holds them. The same holds of `HeaderChain.WriteHeader`
calls for the current header and the index. -/
theorem canonical_chain_consistent (g : Block) (zero : g.number = 0) (blocks : List Block) (b : Block)
    (parents : ParentsFirst Block.hash Block.parentHash Block.number (g :: blocks ++ [b]))
    (identify : KeysIdentify Block.hash Block.number (g :: blocks ++ [b])) (headers : List Header)
    (headerParents : ParentsFirst Header.hash Header.parentHash Header.number (g.header :: headers))
    (headerIdentify : KeysIdentify Header.hash Header.number (g.header :: headers)) :
    (∃ before after, (BlockChain.genesis g).writeBlocks blocks = .ok before ∧
        (BlockChain.genesis g).writeBlocks (blocks ++ [b]) = .ok after ∧
        FirstHighest Block.number (g :: blocks ++ [b]) after.currentBlock ∧
        (∀ h ≤ after.currentBlock.number, after.chainDb.canonical h =
          ancestor Block.parentHash after.chainDb.blocks after.currentBlock.hash after.currentBlock.number h) ∧
        LookupsFollow before after) ∧
      ∃ hc, (HeaderChain.genesis g).writeHeaders headers = .ok hc ∧
        FirstHighest Header.number (g.header :: headers) hc.currentHeader ∧
        ∀ h ≤ hc.currentHeader.number, hc.chainDb.canonical h =
          ancestor Header.parentHash hc.chainDb.headers hc.currentHeader.hash hc.currentHeader.number h := by
  constructor
  · obtain ⟨before, run, consistent⟩ := BlockChain.writeBlocks_consistent blocks [g] (BlockChain.genesis g)
      (BlockChain.genesis_consistent g zero) (by simp) (by simpa using parents.prefix)
      (identify.sublist (by simp))
    obtain ⟨status, after, step, consistent', lookups⟩ := BlockChain.writeBlockAndState_consistent consistent
      (parents (g :: blocks) b [] (by simp) (by simp)) (by simpa using identify)
    refine ⟨before, after, run, ?_, by simpa using consistent'.highest, fun h _ => consistent'.canonical h,
      lookups⟩
    rw [BlockChain.writeBlocks_append, run]
    simp [BlockChain.writeBlocks, step]
  · obtain ⟨hc, run, consistent⟩ := HeaderChain.writeHeaders_consistent headers [g.header]
      (HeaderChain.genesis g) (HeaderChain.genesis_consistent g zero) (by simp) (by simpa using headerParents)
      (by simpa using headerIdentify)
    exact ⟨hc, run, by simpa using consistent.highest, fun h _ => consistent.canonical h⟩

/-- A genesis block and a child of it. -/
def genesisBlock : Block :=
  { header := { hash := [0], parentHash := [], number := 0 }, transactions := [] }

def childBlock : Block :=
  { header := { hash := [1], parentHash := [0], number := 1 }, transactions := [[7]] }

theorem canonical_chain_consistent_child :
    (∃ before after, (BlockChain.genesis genesisBlock).writeBlocks [] = .ok before ∧
        (BlockChain.genesis genesisBlock).writeBlocks ([] ++ [childBlock]) = .ok after ∧
        FirstHighest Block.number (genesisBlock :: ([] ++ [childBlock])) after.currentBlock ∧
        (∀ h ≤ after.currentBlock.number, after.chainDb.canonical h =
          ancestor Block.parentHash after.chainDb.blocks after.currentBlock.hash after.currentBlock.number h) ∧
        LookupsFollow before after) ∧
      ∃ hc, (HeaderChain.genesis genesisBlock).writeHeaders [childBlock.header] = .ok hc ∧
        FirstHighest Header.number (genesisBlock.header :: [childBlock.header]) hc.currentHeader ∧
        ∀ h ≤ hc.currentHeader.number, hc.chainDb.canonical h =
          ancestor Header.parentHash hc.chainDb.headers hc.currentHeader.hash hc.currentHeader.number h :=
  canonical_chain_consistent genesisBlock rfl [] childBlock
    ((ParentsFirst.singleton genesisBlock).append ⟨genesisBlock, by simp, rfl, rfl⟩)
    (by unfold KeysIdentify; decide) [childBlock.header]
    ((ParentsFirst.singleton genesisBlock.header).append ⟨genesisBlock.header, by simp, rfl, rfl⟩)
    (by unfold KeysIdentify; decide)

end Mjoy.Chain
