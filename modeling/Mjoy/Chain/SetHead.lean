import Mjoy.Chain.BlockChain

/-!
Rewinding the chain: `BlockChain.SetHead` (`core/blockchain/blockchain.go`), with
`HeaderChain.SetHead` (`core/blockchain/headerChain.go`) and `loadLastState`.

The header chain walks down from its current header, deleting every header above the target
with its body, then deletes the canonical entries above the target. The head block and the head
fast block are lowered to the new current header's block when they are above it, the head
block falls back to the genesis when its state does not open, and `loadLastState` reads the
three heads back from the hashes written. On a consistent chain the walk deletes exactly the
canonical headers above the target, and every head ends canonical at or below it.

`loadLastState` calls `Reset()` when the head block's state does not open, and `Reset` calls
`SetHead(0)`, which waits for the mutex `bc.mu` that the outer `SetHead` holds. So when the
genesis state does not open either, `SetHead` never returns.

The caches (`headerCache`, `numberCache`, `bodyCache`, `blockCache`, `futureBlocks`) hold
copies of what the database holds and are purged by the call; they are left out.
-/

namespace Mjoy.Chain

open KeyValue Ancestry
open Mjoy.State (Hash)

/-- The chain database with the entries `WriteHeader` keeps under `blockHashPrefix`: the number
of each stored header's hash, as `GetBlockNumber` reads it. -/
structure NumberedDb extends ChainDb where
  numbers : Store Hash Nat

namespace NumberedDb

def getBlockNumber (db : NumberedDb) (hash : Hash) : Option Nat :=
  db.numbers hash

/-- `GetBlock`: the header, then the body. -/
def getBlock (db : NumberedDb) (hash : Hash) (number : Nat) : Option Block := do
  let _ ← db.headers (hash, number)
  db.blocks (hash, number)

def getBlockByHash (db : NumberedDb) (hash : Hash) : Option Block :=
  (db.getBlockNumber hash).bind (db.getBlock hash)

def getHeaderByHash (db : NumberedDb) (hash : Hash) : Option Header :=
  (db.getBlockNumber hash).bind fun number => db.headers (hash, number)

/-- `DeleteHeader`: the hash-to-number entry and the header. -/
def deleteHeader (db : NumberedDb) (hash : Hash) (number : Nat) : NumberedDb :=
  { db with numbers := db.numbers.erase hash, headers := db.headers.erase (hash, number) }

def deleteBody (db : NumberedDb) (hash : Hash) (number : Nat) : NumberedDb :=
  { db with blocks := db.blocks.erase (hash, number) }

def deleteCanonicalHash (db : NumberedDb) (number : Nat) : NumberedDb :=
  { db with canonical := db.canonical.erase number }

def writeHeadHeaderHash (db : NumberedDb) (hash : Hash) : NumberedDb :=
  { db with toChainDb := db.toChainDb.writeHeadHeaderHash hash }

def writeHeadBlockHash (db : NumberedDb) (hash : Hash) : NumberedDb :=
  { db with toChainDb := db.toChainDb.writeHeadBlockHash hash }

def writeHeadFastBlockHash (db : NumberedDb) (hash : Hash) : NumberedDb :=
  { db with toChainDb := db.toChainDb.writeHeadFastBlockHash hash }

/-- The database `SetupGenesisBlock` leaves, with the genesis hash's number. -/
def genesis (g : Block) : NumberedDb :=
  { ChainDb.genesis g with numbers := Store.empty.put g.hash g.number }

-- Equation lemmas of the definitions above, made once here rather than by the proofs below
-- that unfold them in parallel.
section
attribute [local simp] getBlockNumber getBlock getBlockByHash getHeaderByHash deleteHeader deleteBody deleteCanonicalHash genesis
end

end NumberedDb

/-- `BlockChain` as `SetHead` and `loadLastState` use it: the database, the genesis block, the
head block, the head fast block and the header chain's current header. -/
structure Heads where
  chainDb : NumberedDb
  genesisBlock : Block
  currentBlock : Block
  currentFastBlock : Block
  currentHeader : Header

/-- The first loop of `HeaderChain.SetHead`, with the `delFn` that `BlockChain.SetHead` passes:
while the current header is above `head`, its body and the header are deleted and its parent
becomes the current header; a missing parent leaves none. `fuel` bounds the numbers walked. -/
def rewindHeaders (head : Nat) : Nat → NumberedDb → Header → NumberedDb × Option Header
  | 0, db, current => (db, some current)
  | fuel + 1, db, current =>
      if current.number > head then
        let db := (db.deleteBody current.hash current.number).deleteHeader current.hash current.number
        match db.headers (current.parentHash, current.number - 1) with
        | some parent => rewindHeaders head fuel db parent
        | none => (db, none)
      else (db, some current)

/-- The second loop of `HeaderChain.SetHead`: `DeleteCanonicalHash(i)` for `i` from the old
height down to `head + 1`. -/
def deleteCanonicalAbove (head : Nat) : Nat → NumberedDb → NumberedDb
  | 0, db => db
  | i + 1, db => if i + 1 > head then deleteCanonicalAbove head i (db.deleteCanonicalHash (i + 1)) else db

/-- `HeaderChain.SetHead(head, delFn)`: the database and the new current header. -/
def HeaderChain.setHead (db : NumberedDb) (genesisHeader currentHeader : Header) (head : Nat) :
    NumberedDb × Header :=
  let height := currentHeader.number
  let (db, current) := rewindHeaders head height db currentHeader
  let db := deleteCanonicalAbove head height db
  let current := current.getD genesisHeader
  (db.writeHeadHeaderHash current.hash, current)

/-- What `loadLastState` does: it sets the heads, or it calls `Reset()`. -/
inductive Loaded where
  | heads (bc : Heads)
  | reset

section
attribute [local simp] rewindHeaders deleteCanonicalAbove HeaderChain.setHead
end

namespace Heads

/-- `loadLastState`: the head block by the stored hash, if it is there and its state opens
(`hasState`, the answer of `state.New` on the block's root); then the current header and the
head fast block by their stored hashes, each falling back to the head block. -/
def loadLastState (bc : Heads) (hasState : Block → Bool) : Loaded :=
  match bc.chainDb.headBlockHash with
  | none => .reset
  | some headHash =>
      match bc.chainDb.getBlockByHash headHash with
      | none => .reset
      | some currentBlock =>
          if hasState currentBlock then
            let currentHeader := match bc.chainDb.headHeaderHash with
              | some head => (bc.chainDb.getHeaderByHash head).getD currentBlock.header
              | none => currentBlock.header
            -- `bc.hc.SetCurrentHeader(currentHeader)`
            let db := bc.chainDb.writeHeadHeaderHash currentHeader.hash
            let currentFastBlock := match db.headFastBlockHash with
              | some head => (db.getBlockByHash head).getD currentBlock
              | none => currentBlock
            .heads { bc with chainDb := db, currentBlock, currentHeader, currentFastBlock }
          else .reset

/-- `BlockChain.SetHead(head)`. `none` where the call never returns: `loadLastState` calls
`Reset()`, whose `SetHead(0)` waits for `bc.mu`, which this call holds. -/
def setHead (bc : Heads) (hasState : Block → Bool) (head : Nat) : Option Heads :=
  let (db, currentHeader) := HeaderChain.setHead bc.chainDb bc.genesisBlock.header bc.currentHeader head
  let currentBlock := if currentHeader.number < bc.currentBlock.number then
      db.getBlock currentHeader.hash currentHeader.number
    else some bc.currentBlock
  -- a rewound head block whose state is missing is dropped
  let currentBlock := currentBlock.filter hasState
  let currentFastBlock := if currentHeader.number < bc.currentFastBlock.number then
      db.getBlock currentHeader.hash currentHeader.number
    else some bc.currentFastBlock
  let currentBlock := currentBlock.getD bc.genesisBlock
  let currentFastBlock := currentFastBlock.getD bc.genesisBlock
  let db := (db.writeHeadBlockHash currentBlock.hash).writeHeadFastBlockHash currentFastBlock.hash
  match loadLastState { bc with chainDb := db, currentBlock, currentFastBlock, currentHeader } hasState with
  | .heads bc => some bc
  | .reset => none

/-- The chain on the genesis database. -/
def genesis (g : Block) : Heads :=
  { chainDb := NumberedDb.genesis g, genesisBlock := g, currentBlock := g, currentFastBlock := g,
    currentHeader := g.header }

section
attribute [local simp] loadLastState setHead genesis
end

end Heads

/-! ### The database's keys -/

namespace NumberedDb

/-- What every write of the chain database keeps: a header is stored under its hash and number,
the hash-to-number entries are those of the stored headers, and a body is stored under the key
of its stored header. -/
structure WellKeyed (db : NumberedDb) : Prop where
  keys : ∀ hash n x, db.headers (hash, n) = some x → x.hash = hash ∧ x.number = n
  numbers : ∀ hash n, db.numbers hash = some n ↔ ∃ x, db.headers (hash, n) = some x
  bodies : ∀ k b, db.blocks k = some b → b.key = k ∧ db.headers k = some b.header

/-- `b` is stored whole and canonical at its number. -/
def CanonicalBlock (db : NumberedDb) (b : Block) : Prop :=
  db.blocks b.key = some b ∧ db.canonical b.number = some b.hash

variable {db : NumberedDb}

section
attribute [local simp] CanonicalBlock
end

theorem WellKeyed.getBlock_eq (wellKeyed : db.WellKeyed) (hash : Hash) (number : Nat) :
    db.getBlock hash number = db.blocks (hash, number) := by
  cases found : db.blocks (hash, number) with
  | none => simp [getBlock, found]
  | some b =>
      have header := (wellKeyed.bodies _ b found).2
      simp [getBlock, header, found]

theorem WellKeyed.getBlockByHash (wellKeyed : db.WellKeyed) {b : Block} (stored : db.blocks b.key = some b) :
    db.getBlockByHash b.hash = some b := by
  have numbered : db.numbers b.hash = some b.number :=
    (wellKeyed.numbers _ _).mpr ⟨b.header, (wellKeyed.bodies _ b stored).2⟩
  simp only [NumberedDb.getBlockByHash, getBlockNumber, numbered, Option.bind_some]
  rw [wellKeyed.getBlock_eq]
  exact stored

theorem WellKeyed.getHeaderByHash (wellKeyed : db.WellKeyed) {x : Header}
    (stored : db.headers (x.hash, x.number) = some x) : db.getHeaderByHash x.hash = some x := by
  have numbered : db.numbers x.hash = some x.number := (wellKeyed.numbers _ _).mpr ⟨x, stored⟩
  simp [NumberedDb.getHeaderByHash, getBlockNumber, numbered, stored]

/-- Deleting the body and then the header of a stored header keeps the database well keyed. -/
theorem WellKeyed.deleteRecord (wellKeyed : db.WellKeyed) {x : Header}
    (stored : db.headers (x.hash, x.number) = some x) :
    ((db.deleteBody x.hash x.number).deleteHeader x.hash x.number).WellKeyed := by
  have numbered : db.numbers x.hash = some x.number := (wellKeyed.numbers _ _).mpr ⟨x, stored⟩
  refine ⟨fun hash n y found => ?_, fun hash n => ?_, fun k b found => ?_⟩
  · simp only [deleteHeader, deleteBody, Store.erase] at found
    split_ifs at found
    exact wellKeyed.keys hash n y found
  · simp only [deleteHeader, deleteBody, Store.erase]
    by_cases same : hash = x.hash
    · -- the hash names one number only, the deleted header's
      subst same
      simp only [if_true, reduceCtorEq, false_iff, not_exists]
      intro y found
      split_ifs at found with deleted
      have other := (wellKeyed.numbers _ _).mpr ⟨y, found⟩
      rw [numbered, Option.some_inj] at other
      exact deleted (by rw [other])
    · simp only [same, if_false, Prod.mk.injEq, false_and]
      exact wellKeyed.numbers hash n
  · simp only [deleteHeader, deleteBody, Store.erase] at found ⊢
    split_ifs at found with deleted
    rw [if_neg deleted]
    exact wellKeyed.bodies k b found

end NumberedDb

/-! ### The walk down the header chain -/

section Rewind

variable {head : Nat}

/-- What the walk from `x` leaves: the header and the body deleted at each ancestor of `x` above
`head`, and the ancestor at `min head x.number` as the current header. -/
structure Walked (head : Nat) (db : NumberedDb) (x : Header) (db' : NumberedDb) (y : Header) : Prop where
  wellKeyed : db'.WellKeyed
  headers : ∀ k, db'.headers k =
    if head < k.2 ∧ ancestor Header.parentHash db.headers x.hash x.number k.2 = some k.1 then none
    else db.headers k
  blocks : ∀ k, db'.blocks k =
    if head < k.2 ∧ ancestor Header.parentHash db.headers x.hash x.number k.2 = some k.1 then none
    else db.blocks k
  canonical : db'.canonical = db.canonical
  number : y.number = min head x.number
  named : ancestor Header.parentHash db.headers x.hash x.number y.number = some y.hash
  stored : db.headers (y.hash, y.number) = some y

theorem rewindHeaders_stop (fuel : Nat) (db : NumberedDb) {x : Header} (below : x.number ≤ head) :
    rewindHeaders head fuel db x = (db, some x) := by
  cases fuel with
  | zero => rfl
  | succ fuel => simp [rewindHeaders, Nat.not_lt.mpr below]

/-- A walk that stops at once deletes nothing: no ancestor of `x` is above `x`. -/
theorem Walked.stop {db : NumberedDb} {x : Header} (wellKeyed : db.WellKeyed)
    (stored : db.headers (x.hash, x.number) = some x) (below : x.number ≤ head) :
    Walked head db x db x := by
  have untouched : ∀ k : Hash × Nat,
      ¬ (head < k.2 ∧ ancestor Header.parentHash db.headers x.hash x.number k.2 = some k.1) := by
    rintro k ⟨above, found⟩
    rw [ancestor_above (by omega)] at found
    cases found
  refine ⟨wellKeyed, fun k => by rw [if_neg (untouched k)], fun k => by rw [if_neg (untouched k)], rfl,
    by omega, ancestor_self x.hash x.number, stored⟩

/-- One turn of the walk, on one store: erasing the top key `(top, t)` and then the keys of the
walk from the parent is erasing the keys of the walk from the top. -/
theorem erase_walk {V : Type} {s s' : Store (Hash × Nat) V} {A A' : Nat → Option Hash} {top : Hash}
    {t : Nat} (above : head < t) (step : ∀ n, A n = if n = t then some top else A' n)
    (past : A' t = none)
    (rest : ∀ k, s' k = if head < k.2 ∧ A' k.2 = some k.1 then none else s.erase (top, t) k)
    (k : Hash × Nat) : s' k = if head < k.2 ∧ A k.2 = some k.1 then none else s k := by
  obtain ⟨hash, n⟩ := k
  rw [rest, step]
  by_cases topNumber : n = t
  · subst topNumber
    by_cases topHash : hash = top
    · subst topHash
      simp [Store.erase, above]
    · simp [Store.erase, past, topHash, Ne.symm topHash]
  · simp [Store.erase, topNumber]

/-- Below a stored header, the ancestors are its parent's in any store that agrees below it. -/
theorem ancestor_walk_step {s s₁ : Store (Hash × Nat) Header} {x : Header} {m : Nat}
    (stored : s (x.hash, m + 1) = some x) (agree : ∀ k : Hash × Nat, k.2 ≤ m → s₁ k = s k) (n : Nat) :
    ancestor Header.parentHash s x.hash (m + 1) n =
      if n = m + 1 then some x.hash else ancestor Header.parentHash s₁ x.parentHash m n := by
  by_cases top : n = m + 1
  · subst top
    rw [if_pos rfl, ancestor_self]
  · rw [if_neg top, ancestor_of_ne stored top, ancestor_congr (fun k below => (agree k below).symm)]

/-- The walk from a stored header whose ancestors are stored, with enough fuel, deletes the
header and the body at each ancestor above `head` and stops at the ancestor at `head`, or at
the header itself when it is not above `head`. Induction on the fuel: each turn deletes the
current header and goes on from its parent, one number down. -/
theorem rewindHeaders_spec : ∀ (fuel : Nat) (db : NumberedDb) (x : Header), db.WellKeyed →
    db.headers (x.hash, x.number) = some x →
    (∀ n ≤ x.number, ∃ y r, ancestor Header.parentHash db.headers x.hash x.number n = some y ∧
      db.headers (y, n) = some r) →
    x.number ≤ fuel + head →
    ∃ db' y, rewindHeaders head fuel db x = (db', some y) ∧ Walked head db x db' y := by
  intro fuel
  induction fuel with
  | zero =>
      intro db x wellKeyed stored _ enough
      exact ⟨db, x, rewindHeaders_stop 0 db (by omega), Walked.stop wellKeyed stored (by omega)⟩
  | succ fuel ih =>
      intro db x wellKeyed stored ancestors enough
      by_cases below : x.number ≤ head
      · exact ⟨db, x, rewindHeaders_stop _ db below, Walked.stop wellKeyed stored below⟩
      obtain ⟨m, number⟩ : ∃ m, x.number = m + 1 := ⟨x.number - 1, by omega⟩
      let db₁ := (db.deleteBody x.hash x.number).deleteHeader x.hash x.number
      have storedTop : db.headers (x.hash, m + 1) = some x := number ▸ stored
      have agree : ∀ k : Hash × Nat, k.2 ≤ m → db₁.headers k = db.headers k := by
        rintro ⟨hash, n⟩ le
        simp only [db₁, NumberedDb.deleteHeader, NumberedDb.deleteBody, Store.erase, number,
          Prod.mk.injEq]
        rw [if_neg (by omega)]
      -- the parent is the ancestor one number down
      obtain ⟨parentHash, p, atParent, parentStored⟩ := ancestors m (by omega)
      rw [number, ancestor_parent storedTop le_rfl, ancestor_self, Option.some_inj] at atParent
      subst atParent
      obtain ⟨parentKey, parentNumber⟩ := wellKeyed.keys _ _ p parentStored
      have parentStored₁ : db₁.headers (p.hash, p.number) = some p := by
        rw [parentKey, parentNumber, agree _ le_rfl]
        exact parentStored
      have step : ∀ n, ancestor Header.parentHash db.headers x.hash x.number n =
          if n = x.number then some x.hash
          else ancestor Header.parentHash db₁.headers p.hash p.number n := by
        rw [number, parentKey, parentNumber]
        exact ancestor_walk_step storedTop agree
      have ancestors₁ : ∀ n ≤ p.number, ∃ y r,
          ancestor Header.parentHash db₁.headers p.hash p.number n = some y ∧ db₁.headers (y, n) = some r := by
        intro n le
        obtain ⟨y, r, found, atN⟩ := ancestors n (by omega)
        rw [step n, if_neg (by omega)] at found
        exact ⟨y, r, found, by rw [agree _ (by simp only; omega)]; exact atN⟩
      obtain ⟨db', y, run, walked⟩ :=
        ih db₁ p (wellKeyed.deleteRecord stored) parentStored₁ ancestors₁ (by omega)
      have past : ancestor Header.parentHash db₁.headers p.hash p.number x.number = none :=
        ancestor_above (by omega)
      refine ⟨db', y, ?_, walked.wellKeyed, erase_walk (by omega) step past walked.headers,
        erase_walk (by omega) step past walked.blocks, walked.canonical, by rw [walked.number]; omega, ?_, ?_⟩
      · have getParent : db₁.headers (x.parentHash, x.number - 1) = some p := by
          rw [show x.number - 1 = p.number by omega, ← parentKey]
          exact parentStored₁
        simp only [rewindHeaders, gt_iff_lt, Nat.lt_of_not_le below, if_true]
        rw [show (db.deleteBody x.hash x.number).deleteHeader x.hash x.number = db₁ from rfl, getParent]
        exact run
      · rw [step, if_neg (by rw [walked.number]; omega)]
        exact walked.named
      · rw [← agree _ (by rw [walked.number]; omega)]
        exact walked.stored

/-- The second loop deletes the canonical entries between `head` and the old height. -/
theorem deleteCanonicalAbove_eq (head : Nat) : ∀ (height : Nat) (db : NumberedDb),
    deleteCanonicalAbove head height db =
      { db with canonical := fun n => if head < n ∧ n ≤ height then none else db.canonical n }
  | 0, db => by
      have unchanged : (fun n => if head < n ∧ n ≤ 0 then none else db.canonical n) = db.canonical :=
        funext fun n => if_neg (by omega)
      rw [deleteCanonicalAbove, unchanged]
  | i + 1, db => by
      by_cases above : head < i + 1
      · rw [deleteCanonicalAbove, if_pos above, deleteCanonicalAbove_eq head i]
        simp only [NumberedDb.deleteCanonicalHash, Store.erase]
        congr
        funext n
        by_cases top : n = i + 1
        · simp [top, above]
        · by_cases inside : head < n ∧ n ≤ i
          · simp [inside, show n ≤ i + 1 by omega]
          · simp only [inside, if_false, top]
            rw [if_neg (by omega)]
      · have unchanged : (fun n => if head < n ∧ n ≤ i + 1 then none else db.canonical n) =
            db.canonical := funext fun n => if_neg (by omega)
        rw [deleteCanonicalAbove, if_neg above, unchanged]

end Rewind

/-! ### The consistency law and the header chain's rewind -/

namespace NumberedDb

variable {db db' : NumberedDb}

theorem WellKeyed.congr (wellKeyed : db.WellKeyed) (headers : db'.headers = db.headers)
    (numbers : db'.numbers = db.numbers) (blocks : db'.blocks = db.blocks) : db'.WellKeyed := by
  refine ⟨?_, ?_, ?_⟩
  · simp only [headers]
    exact wellKeyed.keys
  · simp only [headers, numbers]
    exact wellKeyed.numbers
  · simp only [headers, blocks]
    exact wellKeyed.bodies

end NumberedDb

namespace Heads

/-- The canonical-chain consistency law: a well-keyed database whose stored headers have their
parents stored, a stored current header whose ancestor map is the canonical index, and a head
block, a head fast block and a genesis block at number zero stored whole and canonical. -/
structure Consistent (bc : Heads) : Prop where
  wellKeyed : bc.chainDb.WellKeyed
  linked : Linked Header.parentHash bc.chainDb.headers
  header : bc.chainDb.headers (bc.currentHeader.hash, bc.currentHeader.number) = some bc.currentHeader
  canonical : ∀ n, bc.chainDb.canonical n =
    ancestor Header.parentHash bc.chainDb.headers bc.currentHeader.hash bc.currentHeader.number n
  block : bc.chainDb.CanonicalBlock bc.currentBlock
  fastBlock : bc.chainDb.CanonicalBlock bc.currentFastBlock
  genesis : bc.chainDb.CanonicalBlock bc.genesisBlock
  genesisNumber : bc.genesisBlock.number = 0

/-- What `HeaderChain.SetHead(head)` leaves of a consistent chain: the headers and the bodies
of the canonical chain above `head` deleted, the canonical entries above `head` deleted, and
the canonical header at `min head height` current. -/
structure HeaderRewound (bc : Heads) (head : Nat) (db : NumberedDb) (y : Header) : Prop where
  wellKeyed : db.WellKeyed
  headers : ∀ k, db.headers k =
    if head < k.2 ∧ bc.chainDb.canonical k.2 = some k.1 then none else bc.chainDb.headers k
  blocks : ∀ k, db.blocks k =
    if head < k.2 ∧ bc.chainDb.canonical k.2 = some k.1 then none else bc.chainDb.blocks k
  canonical : ∀ n, db.canonical n = if head < n then none else bc.chainDb.canonical n
  headHeaderHash : db.headHeaderHash = some y.hash
  number : y.number = min head bc.currentHeader.number
  named : bc.chainDb.canonical y.number = some y.hash
  stored : db.headers (y.hash, y.number) = some y

variable {bc : Heads}

theorem Consistent.headerChainSetHead (consistent : bc.Consistent) (head : Nat) :
    ∃ db y, HeaderChain.setHead bc.chainDb bc.genesisBlock.header bc.currentHeader head = (db, y) ∧
      HeaderRewound bc head db y := by
  obtain ⟨db, y, run, walked⟩ := @rewindHeaders_spec head bc.currentHeader.number bc.chainDb bc.currentHeader
    consistent.wellKeyed consistent.header
    (fun _ below => ancestor_stored consistent.linked consistent.header below) (by omega)
  have canon : ∀ n, ancestor Header.parentHash bc.chainDb.headers bc.currentHeader.hash
      bc.currentHeader.number n = bc.chainDb.canonical n := fun n => (consistent.canonical n).symm
  have below : y.number ≤ head := by rw [walked.number]; omega
  refine ⟨(deleteCanonicalAbove head bc.currentHeader.number db).writeHeadHeaderHash y.hash, y, ?_, ?_⟩
  · simp only [HeaderChain.setHead, run, Option.getD_some]
  · rw [deleteCanonicalAbove_eq]
    refine ⟨walked.wellKeyed.congr rfl rfl rfl, fun k => ?_, fun k => ?_, fun n => ?_, rfl, walked.number,
      by rw [← canon]; exact walked.named, ?_⟩
    · rw [← canon]
      exact walked.headers k
    · rw [← canon]
      exact walked.blocks k
    · -- nothing is canonical above the old height
      show (if head < n ∧ n ≤ bc.currentHeader.number then none else db.canonical n) = _
      rw [walked.canonical]
      by_cases above : head < n
      · by_cases inside : n ≤ bc.currentHeader.number
        · rw [if_pos ⟨above, inside⟩, if_pos above]
        · rw [if_neg (by omega), if_pos above, consistent.canonical, ancestor_above (by omega)]
      · rw [if_neg (by omega), if_neg above]
    · show db.headers (y.hash, y.number) = some y
      rw [walked.headers, if_neg fun inside => Nat.lt_irrefl _ (Nat.lt_of_lt_of_le inside.1 below)]
      exact walked.stored

/-- Nothing at or below `head` is deleted. -/
theorem HeaderRewound.kept {head : Nat} {db : NumberedDb} {y : Header} (rewound : HeaderRewound bc head db y)
    (k : Hash × Nat) (below : k.2 ≤ head) :
    db.headers k = bc.chainDb.headers k ∧ db.blocks k = bc.chainDb.blocks k := by
  have untouched : ¬ (head < k.2 ∧ bc.chainDb.canonical k.2 = some k.1) :=
    fun inside => Nat.lt_irrefl _ (Nat.lt_of_lt_of_le inside.1 below)
  exact ⟨by rw [rewound.headers, if_neg untouched], by rw [rewound.blocks, if_neg untouched]⟩

theorem HeaderRewound.canonicalBlock {head : Nat} {db : NumberedDb} {y : Header}
    (rewound : HeaderRewound bc head db y) {b : Block} (canon : bc.chainDb.CanonicalBlock b)
    (below : b.number ≤ head) : db.CanonicalBlock b := by
  refine ⟨?_, ?_⟩
  · rw [(rewound.kept b.key below).2]
    exact canon.1
  · rw [rewound.canonical, if_neg (by omega)]
    exact canon.2

/-- The block `SetHead` settles a head `b` on, `o`: `b` when the new current header is not below
it, else the new current header's block when its body is stored, or else the genesis. It is
stored whole and canonical at or below `head`. -/
theorem HeaderRewound.settled {head : Nat} {db : NumberedDb} {y : Header} (consistent : bc.Consistent)
    (rewound : HeaderRewound bc head db y) {b : Block} (canon : bc.chainDb.CanonicalBlock b)
    (o : Option Block)
    (chosen : ∀ c, o = some c →
      (if y.number < b.number then db.getBlock y.hash y.number else some b) = some c) :
    (o.getD bc.genesisBlock).number ≤ head ∧ db.CanonicalBlock (o.getD bc.genesisBlock) := by
  have yBelow : y.number ≤ head := by rw [rewound.number]; omega
  cases o with
  | none =>
      -- the genesis
      have zero := consistent.genesisNumber
      simp only [Option.getD_none]
      exact ⟨by omega, rewound.canonicalBlock consistent.genesis (by omega)⟩
  | some c =>
      simp only [Option.getD_some]
      have found := chosen c rfl
      split_ifs at found with lower
      · -- the new current header's block, read by its key
        rw [rewound.wellKeyed.getBlock_eq] at found
        have key : c.key = (y.hash, y.number) := (rewound.wellKeyed.bodies _ c found).1
        have number : c.number = y.number := congrArg Prod.snd key
        have hash : c.hash = y.hash := congrArg Prod.fst key
        refine ⟨by omega, by rw [key]; exact found, ?_⟩
        rw [rewound.canonical, if_neg (by omega), number, hash]
        exact rewound.named
      · cases found
        exact ⟨by omega, rewound.canonicalBlock canon (by omega)⟩

end Heads

/-! ### Loading the heads back -/

namespace Heads

/-- `loadLastState` on head hashes that name stored records reads them back, and calls `Reset()`
when the head block's state does not open. -/
theorem loadLastState_eq {bc : Heads} (wellKeyed : bc.chainDb.WellKeyed) {b f : Block} {y : Header}
    (blockHash : bc.chainDb.headBlockHash = some b.hash) (blockStored : bc.chainDb.blocks b.key = some b)
    (headerHash : bc.chainDb.headHeaderHash = some y.hash)
    (headerStored : bc.chainDb.headers (y.hash, y.number) = some y)
    (fastHash : bc.chainDb.headFastBlockHash = some f.hash) (fastStored : bc.chainDb.blocks f.key = some f)
    (hasState : Block → Bool) :
    bc.loadLastState hasState = if hasState b then
      .heads { bc with
        chainDb := bc.chainDb.writeHeadHeaderHash y.hash, currentBlock := b, currentHeader := y,
        currentFastBlock := f }
    else .reset := by
  -- writing the head header hash leaves the records and the fast hash as they are
  have fast : (bc.chainDb.writeHeadHeaderHash y.hash).headFastBlockHash = some f.hash := fastHash
  have fastFound : (bc.chainDb.writeHeadHeaderHash y.hash).getBlockByHash f.hash = some f :=
    wellKeyed.getBlockByHash fastStored
  simp only [loadLastState, blockHash, wellKeyed.getBlockByHash blockStored, headerHash,
    wellKeyed.getHeaderByHash headerStored, Option.getD_some, fast, fastFound]

variable {bc : Heads}

/-- `SetHead(head)` on a consistent chain: the header chain rewinds, the head block and the head
fast block settle canonical at or below `head`, and the call returns exactly when the settled
head block's state opens. -/
theorem Consistent.setHead_eq (consistent : bc.Consistent) (hasState : Block → Bool) {head : Nat}
    {db : NumberedDb} {y : Header}
    (split : HeaderChain.setHead bc.chainDb bc.genesisBlock.header bc.currentHeader head = (db, y))
    (rewound : HeaderRewound bc head db y) {block fast : Block}
    (settledBlock : ((if y.number < bc.currentBlock.number then db.getBlock y.hash y.number
      else some bc.currentBlock).filter hasState).getD bc.genesisBlock = block)
    (settledFast : (if y.number < bc.currentFastBlock.number then db.getBlock y.hash y.number
      else some bc.currentFastBlock).getD bc.genesisBlock = fast) :
    (block.number ≤ head ∧ db.CanonicalBlock block) ∧ (fast.number ≤ head ∧ db.CanonicalBlock fast) ∧
    bc.setHead hasState head = if hasState block then
      some { bc with
        chainDb := ((db.writeHeadBlockHash block.hash).writeHeadFastBlockHash fast.hash).writeHeadHeaderHash y.hash,
        currentBlock := block, currentFastBlock := fast, currentHeader := y }
    else none := by
  have blockCanonical : block.number ≤ head ∧ db.CanonicalBlock block := by
    rw [← settledBlock]
    exact rewound.settled consistent consistent.block _ fun c found => (Option.filter_eq_some_iff.mp found).1
  have fastCanonical : fast.number ≤ head ∧ db.CanonicalBlock fast := by
    rw [← settledFast]
    exact rewound.settled consistent consistent.fastBlock _ fun _ found => found
  refine ⟨blockCanonical, fastCanonical, ?_⟩
  simp only [setHead, split, settledBlock, settledFast]
  rw [loadLastState_eq (rewound.wellKeyed.congr rfl rfl rfl) rfl blockCanonical.2.1
    rewound.headHeaderHash rewound.stored rfl fastCanonical.2.1]
  cases hasState block <;> rfl

end Heads

/-! ### What a rewind leaves -/

/-- What `SetHead(head)` leaves of `bc` as `bc'`: every head canonical at or below `head`, a head
block whose state opens or the genesis, nothing canonical above the current header, head hashes
naming the heads, and only headers, bodies and canonical entries above `head` deleted, each on
the old canonical chain. -/
structure Rewound (bc : Heads) (hasState : Block → Bool) (head : Nat) (bc' : Heads) : Prop where
  header : bc'.currentHeader.number ≤ head ∧
    bc'.chainDb.canonical bc'.currentHeader.number = some bc'.currentHeader.hash
  block : bc'.currentBlock.number ≤ head ∧
    bc'.chainDb.canonical bc'.currentBlock.number = some bc'.currentBlock.hash
  fastBlock : bc'.currentFastBlock.number ≤ head ∧
    bc'.chainDb.canonical bc'.currentFastBlock.number = some bc'.currentFastBlock.hash
  state : hasState bc'.currentBlock = true ∨ bc'.currentBlock = bc.genesisBlock
  noneAbove : ∀ n, bc'.currentHeader.number < n → bc'.chainDb.canonical n = none
  heads : bc'.chainDb.headHeaderHash = some bc'.currentHeader.hash ∧
    bc'.chainDb.headBlockHash = some bc'.currentBlock.hash ∧
    bc'.chainDb.headFastBlockHash = some bc'.currentFastBlock.hash
  removedHeaders : ∀ k, bc.chainDb.headers k ≠ none → bc'.chainDb.headers k = none →
    head < k.2 ∧ bc.chainDb.canonical k.2 = some k.1
  removedBodies : ∀ k, bc.chainDb.blocks k ≠ none → bc'.chainDb.blocks k = none →
    head < k.2 ∧ bc.chainDb.canonical k.2 = some k.1
  kept : ∀ k : Hash × Nat, k.2 ≤ head →
    bc'.chainDb.headers k = bc.chainDb.headers k ∧ bc'.chainDb.blocks k = bc.chainDb.blocks k
  keptCanonical : ∀ n ≤ head, bc'.chainDb.canonical n = bc.chainDb.canonical n

namespace Heads

variable {bc : Heads}

/-- A settled head block satisfies `hasState` when the genesis does. -/
theorem filter_getD_holds {p : Block → Bool} {g : Block} (holds : p g = true) (o : Option Block) :
    p ((o.filter p).getD g) = true := by
  cases found : o.filter p with
  | none => exact holds
  | some c => exact (Option.filter_eq_some_iff.mp found).2

/-- `SetHead(0)` settles the head block on the genesis: the only block at number zero. -/
theorem Consistent.settled_zero (consistent : bc.Consistent) {db : NumberedDb} {y : Header}
    (rewound : HeaderRewound bc 0 db y) :
    (if y.number < bc.currentBlock.number then db.getBlock y.hash y.number else some bc.currentBlock) =
      some bc.genesisBlock := by
  have zero : y.number = 0 := by rw [rewound.number]; omega
  have genesisNamed : bc.chainDb.canonical 0 = some bc.genesisBlock.hash := by
    rw [← consistent.genesisNumber]
    exact consistent.genesis.2
  have yHash : y.hash = bc.genesisBlock.hash := by
    have named := rewound.named
    rw [zero, genesisNamed, Option.some_inj] at named
    exact named.symm
  have genesisStored : bc.chainDb.blocks (bc.genesisBlock.hash, 0) = some bc.genesisBlock := by
    rw [← consistent.genesisNumber]
    exact consistent.genesis.1
  split_ifs with lower
  · rw [rewound.wellKeyed.getBlock_eq, yHash, zero, (rewound.kept (bc.genesisBlock.hash, 0) le_rfl).2]
    exact genesisStored
  · -- a head block at number zero is canonical there, so it is the genesis
    have blockZero : bc.currentBlock.number = 0 := by omega
    have blockNamed := consistent.block.2
    rw [blockZero, genesisNamed, Option.some_inj] at blockNamed
    have blockStored := consistent.block.1
    rw [show bc.currentBlock.key = (bc.genesisBlock.hash, 0) by rw [Block.key, blockZero, blockNamed],
      genesisStored, Option.some_inj] at blockStored
    rw [blockStored]

/-- The chain `SetupGenesisBlock` leaves is consistent. -/
theorem genesis_consistent (g : Block) (zero : g.number = 0) : (Heads.genesis g).Consistent := by
  have stored : (NumberedDb.genesis g).CanonicalBlock g := by
    simp [NumberedDb.CanonicalBlock, NumberedDb.genesis, ChainDb.genesis, Block.key]
  refine ⟨⟨fun hash n x found => ?_, fun hash n => ?_, fun k b found => ?_⟩, fun hash n r found => ?_,
    ?_, fun n => ?_, stored, stored, stored, zero⟩
  · -- the one header is stored under its own key
    simp only [Heads.genesis, NumberedDb.genesis, ChainDb.genesis, Store.put, Store.empty] at found
    split_ifs at found with key
    cases found
    obtain ⟨rfl, rfl⟩ := Prod.mk.inj key
    exact ⟨rfl, rfl⟩
  · simp only [Heads.genesis, NumberedDb.genesis, ChainDb.genesis, Store.put, Store.empty]
    by_cases same : hash = g.hash
    · simp [same, eq_comm]
    · simp [same]
  · simp only [Heads.genesis, NumberedDb.genesis, ChainDb.genesis, Store.put, Store.empty] at found
    split_ifs at found with key
    cases found
    exact ⟨key.symm, by simp [key, Heads.genesis, NumberedDb.genesis, ChainDb.genesis]⟩
  · -- nothing is stored above number zero
    simp only [Heads.genesis, NumberedDb.genesis, ChainDb.genesis, Store.put, Store.empty] at found
    split_ifs at found with key
    have : n + 1 = g.number := (Prod.mk.inj key).2
    omega
  · exact Store.put_same _ _ _
  · -- the index names the genesis at number zero and nothing else
    have headerZero : g.header.number = 0 := zero
    simp only [Heads.genesis, NumberedDb.genesis, ChainDb.genesis, Store.put, Store.empty, headerZero]
    cases n <;> simp [ancestor, zero, Block.hash]

/-- Rewinding a consistent chain. When the genesis state opens, `SetHead(head)` returns; when it
does not, `SetHead(0)` never returns, as `loadLastState` calls `Reset()` under the lock. Whenever
it returns, every head is canonical at or below `head`, the head block's state opens or it is
the genesis, nothing is canonical above the current header, the stored head hashes name the
heads, and only headers, bodies and canonical entries above `head` are deleted, each on the old
canonical chain. -/
theorem setHead_rewinds (consistent : bc.Consistent) (hasState : Block → Bool) (head : Nat) :
    (hasState bc.genesisBlock = true → ∃ bc', bc.setHead hasState head = some bc') ∧
      (hasState bc.genesisBlock = false → bc.setHead hasState 0 = none) ∧
      ∀ bc', bc.setHead hasState head = some bc' → Rewound bc hasState head bc' := by
  refine ⟨fun genesisState => ?_, fun noGenesisState => ?_, fun bc' returned => ?_⟩
  · obtain ⟨db, y, split, rewound⟩ := consistent.headerChainSetHead head
    rw [(consistent.setHead_eq hasState split rewound rfl rfl).2.2, if_pos (filter_getD_holds genesisState _)]
    exact ⟨_, rfl⟩
  · obtain ⟨db, y, split, rewound⟩ := consistent.headerChainSetHead 0
    rw [(consistent.setHead_eq hasState split rewound rfl rfl).2.2, consistent.settled_zero rewound]
    simp [Option.filter, noGenesisState]
  · obtain ⟨db, y, split, rewound⟩ := consistent.headerChainSetHead head
    obtain ⟨blockCanonical, fastCanonical, result⟩ := consistent.setHead_eq hasState split rewound rfl rfl
    rw [result, Option.ite_none_right_eq_some] at returned
    obtain ⟨opens, returned⟩ := returned
    cases returned
    have yBelow : y.number ≤ head := by rw [rewound.number]; omega
    refine ⟨⟨yBelow, ?_⟩, ⟨blockCanonical.1, blockCanonical.2.2⟩, ⟨fastCanonical.1, fastCanonical.2.2⟩,
      .inl opens, fun n above => ?_, ⟨rfl, rfl, rfl⟩, fun k before after => ?_, fun k before after => ?_,
      rewound.kept, fun n below => ?_⟩
    · show db.canonical y.number = some y.hash
      rw [rewound.canonical, if_neg (by omega)]
      exact rewound.named
    · -- above the target nothing is left; between the old height and the target nothing was
      show db.canonical n = none
      rw [rewound.canonical]
      split_ifs with high
      · rfl
      · rw [consistent.canonical, ancestor_above (by rw [rewound.number] at above; omega)]
    · change db.headers k = none at after
      rw [rewound.headers] at after
      split_ifs at after with deleted
      · exact deleted
      · exact absurd after before
    · change db.blocks k = none at after
      rw [rewound.blocks] at after
      split_ifs at after with deleted
      · exact deleted
      · exact absurd after before
    · show db.canonical n = _
      rw [rewound.canonical, if_neg (by omega)]

end Heads

/-- A chain just set up from a genesis block whose state does not open: `SetHead(0)` never
returns. -/
theorem setHead_rewinds_stateless_genesis :
    (Heads.genesis genesisBlock).Consistent ∧ (Heads.genesis genesisBlock).setHead (fun _ => false) 0 = none :=
  ⟨Heads.genesis_consistent genesisBlock rfl,
    (Heads.setHead_rewinds (Heads.genesis_consistent genesisBlock rfl) (fun _ => false) 0).2.1 rfl⟩

end Mjoy.Chain
