import Mjoy.Lib.Ancestry
import Mjoy.State.StateDB

/-!
The chain database (`core/blockchain/database_util.go`) and the header chain
(`core/blockchain/headerChain.go`). Headers and blocks are stored under their hash and
number; the canonical index maps a number to a hash.

`HeaderChain.WriteHeader` stores a header and, when its number is above the current
header's, rewrites the canonical index downwards from the header's parent until the index
already names the header it reaches, then makes the header the current one. From the genesis
on, over any sequence of headers whose parents come first, the current header is the first
highest header written and the index is its ancestor map (`Ancestry.ancestor`).

The header and number caches are left out: they hold copies of what the database holds.
-/

namespace Mjoy.Chain

open KeyValue Ancestry
open Mjoy.State (Hash nilDereference)

/-- The fields of `block.Header` the chain reads: `Hash()`, the hash of the header's
encoding, the parent's hash and the number. -/
structure Header where
  hash : Hash
  parentHash : Hash
  number : Nat
deriving DecidableEq, Repr

/-- `block.Block`: its header and the hashes of its transactions. -/
structure Block where
  header : Header
  transactions : List Hash
deriving DecidableEq, Repr

namespace Block

def hash (b : Block) : Hash := b.header.hash

def parentHash (b : Block) : Hash := b.header.parentHash

def number (b : Block) : Nat := b.header.number

-- Equation lemmas of the definitions above, made once here rather than by the proofs below
-- that unfold them in parallel.
section
attribute [local simp] hash parentHash number
end

end Block

/-- `TxLookupEntry`: the block and the position where a transaction is found. -/
structure TxLookupEntry where
  blockHash : Hash
  blockIndex : Nat
  index : Nat
deriving DecidableEq, Repr

/-- The chain database. A block is kept whole under its key, as `WriteBlock` writes its body
and header in one batch. A missing canonical entry reads as `none` where the code reads the
zero hash, which no header has. -/
structure ChainDb where
  headers : Store (Hash × Nat) Header
  blocks : Store (Hash × Nat) Block
  canonical : Store Nat Hash
  headHeaderHash : Option Hash
  headBlockHash : Option Hash
  headFastBlockHash : Option Hash
  txLookup : Store Hash TxLookupEntry

namespace ChainDb

def getCanonicalHash (db : ChainDb) (number : Nat) : Option Hash :=
  db.canonical number

def writeCanonicalHash (db : ChainDb) (hash : Hash) (number : Nat) : ChainDb :=
  { db with canonical := db.canonical.put number hash }

def writeHeadHeaderHash (db : ChainDb) (hash : Hash) : ChainDb :=
  { db with headHeaderHash := some hash }

def writeHeadBlockHash (db : ChainDb) (hash : Hash) : ChainDb :=
  { db with headBlockHash := some hash }

def writeHeadFastBlockHash (db : ChainDb) (hash : Hash) : ChainDb :=
  { db with headFastBlockHash := some hash }

def getHeader (db : ChainDb) (hash : Hash) (number : Nat) : Option Header :=
  db.headers (hash, number)

def writeHeader (db : ChainDb) (header : Header) : ChainDb :=
  { db with headers := db.headers.put (header.hash, header.number) header }

def getBlock (db : ChainDb) (hash : Hash) (number : Nat) : Option Block :=
  db.blocks (hash, number)

/-- `WriteBlock`: the body and the header. -/
def writeBlock (db : ChainDb) (block : Block) : ChainDb :=
  { db.writeHeader block.header with blocks := db.blocks.put (block.hash, block.number) block }

/-- `WriteTxLookupEntries`: every transaction of the block, with its position. -/
def writeTxLookupEntries (db : ChainDb) (block : Block) : ChainDb :=
  { db with
    txLookup := block.transactions.zipIdx.foldl (fun lookup entry =>
      lookup.put entry.1 { blockHash := block.hash, blockIndex := block.number, index := entry.2 })
      db.txLookup }

def deleteTxLookupEntry (db : ChainDb) (hash : Hash) : ChainDb :=
  { db with txLookup := db.txLookup.erase hash }

/-- The database `SetupGenesisBlock` leaves: the genesis block, canonical at its number, and
every head hash naming it. -/
def genesis (g : Block) : ChainDb :=
  { headers := Store.empty.put (g.hash, g.number) g.header,
    blocks := Store.empty.put (g.hash, g.number) g,
    canonical := Store.empty.put g.number g.hash,
    headHeaderHash := some g.hash, headBlockHash := some g.hash, headFastBlockHash := some g.hash,
    txLookup := Store.empty }

section
attribute [local simp] getCanonicalHash writeCanonicalHash getHeader writeHeader getBlock writeTxLookupEntries deleteTxLookupEntry genesis
end

@[simp] theorem writeCanonicalHash_canonical (db : ChainDb) (hash : Hash) (number : Nat) :
    (db.writeCanonicalHash hash number).canonical = db.canonical.put number hash := rfl

@[simp] theorem writeCanonicalHash_headers (db : ChainDb) (hash : Hash) (number : Nat) :
    (db.writeCanonicalHash hash number).headers = db.headers := rfl

@[simp] theorem writeHeadHeaderHash_canonical (db : ChainDb) (hash : Hash) :
    (db.writeHeadHeaderHash hash).canonical = db.canonical := rfl

@[simp] theorem writeHeadHeaderHash_headers (db : ChainDb) (hash : Hash) :
    (db.writeHeadHeaderHash hash).headers = db.headers := rfl

@[simp] theorem writeHeader_canonical (db : ChainDb) (header : Header) :
    (db.writeHeader header).canonical = db.canonical := rfl

@[simp] theorem writeHeader_headers (db : ChainDb) (header : Header) :
    (db.writeHeader header).headers = db.headers.put (header.hash, header.number) header := rfl

end ChainDb

inductive WriteStatus where
  | nonStatTy
  | canonStatTy
  | sideStatTy
deriving DecidableEq, Repr

/-- `HeaderChain`: the database and the current header. -/
structure HeaderChain where
  chainDb : ChainDb
  currentHeader : Header
  currentHeaderHash : Hash

namespace HeaderChain

/-- The loop of `WriteHeader` that overwrites stale canonical number assignments: from the
new header's parent down, until the index names the header reached. A nil header is
dereferenced when the loop goes on past it. `fuel` bounds the numbers walked; below number
zero nothing is stored. -/
def rewriteCanonical : Nat → ChainDb → Hash → Nat → Option Header → Except String ChainDb
  | fuel, db, headHash, headNumber, headHeader =>
      if db.getCanonicalHash headNumber = some headHash then .ok db
      else
        let db := db.writeCanonicalHash headHash headNumber
        match fuel, headHeader with
        | fuel + 1, some headHeader =>
            rewriteCanonical fuel db headHeader.parentHash (headHeader.number - 1)
              (db.getHeader headHeader.parentHash (headHeader.number - 1))
        | _, _ => .error nilDereference

/-- `WriteHeader(header)`: the header is stored; a header numbered above the current one
becomes the current header, with the index rewritten along its ancestors. -/
def writeHeader (hc : HeaderChain) (header : Header) : Except String (WriteStatus × HeaderChain) := do
  let currentCanonicaNumber := hc.currentHeader.number
  let db := hc.chainDb.writeHeader header
  if header.number > currentCanonicaNumber then
    let headHash := header.parentHash
    let headNumber := header.number - 1
    let db ← rewriteCanonical header.number db headHash headNumber (db.getHeader headHash headNumber)
    let db := (db.writeCanonicalHash header.hash header.number).writeHeadHeaderHash header.hash
    pure (.canonStatTy, { chainDb := db, currentHeader := header, currentHeaderHash := header.hash })
  else
    pure (.sideStatTy, { hc with chainDb := db })

/-- A sequence of `WriteHeader` calls, as `InsertHeaderChain` makes them. -/
def writeHeaders (hc : HeaderChain) : List Header → Except String HeaderChain
  | [] => .ok hc
  | header :: rest => do
      let (_, hc) ← hc.writeHeader header
      writeHeaders hc rest

/-- The header chain on the genesis database. -/
def genesis (g : Block) : HeaderChain :=
  { chainDb := ChainDb.genesis g, currentHeader := g.header, currentHeaderHash := g.hash }

section
attribute [local simp] rewriteCanonical writeHeader writeHeaders genesis
end

end HeaderChain

/-! ### The canonical index along the header chain -/

section Rewrite

variable {db : ChainDb}

theorem rewriteCanonical_named {fuel : Nat} {headHash : Hash} {headNumber : Nat} {headHeader : Option Header}
    (named : db.canonical headNumber = some headHash) :
    HeaderChain.rewriteCanonical fuel db headHash headNumber headHeader = .ok db := by
  rw [HeaderChain.rewriteCanonical]
  simp [ChainDb.getCanonicalHash, named]

theorem rewriteCanonical_turn {fuel : Nat} {headHash : Hash} {headNumber : Nat} {headHeader : Header}
    (unnamed : db.canonical headNumber ≠ some headHash) :
    HeaderChain.rewriteCanonical (fuel + 1) db headHash headNumber (some headHeader) =
      HeaderChain.rewriteCanonical fuel (db.writeCanonicalHash headHash headNumber) headHeader.parentHash
        (headHeader.number - 1) (db.getHeader headHeader.parentHash (headHeader.number - 1)) := by
  rw [HeaderChain.rewriteCanonical]
  simp only [ChainDb.getCanonicalHash, unnamed, if_false]
  rfl

/-- `rewriteCanonical` from `a` at number `k`: the index is rewritten with the ancestors of `a`
down to the highest number `c` where it already names the ancestor there. -/
theorem rewriteCanonical_spec (keys : ∀ hash n x, db.headers (hash, n) = some x → x.number = n)
    (linked : Linked Header.parentHash db.headers) :
    ∀ k fuel (canon : Store Nat Hash) a hd, k ≤ fuel → db.headers (a, k) = some hd →
      canon 0 = ancestor Header.parentHash db.headers a k 0 →
      ∃ c ≤ k, canon c = ancestor Header.parentHash db.headers a k c ∧
        HeaderChain.rewriteCanonical fuel { db with canonical := canon } a k (some hd) =
          .ok { db with canonical := fun h =>
            if c < h ∧ h ≤ k then ancestor Header.parentHash db.headers a k h else canon h } := by
  intro k
  induction k with
  | zero =>
      intro fuel canon a hd _ _ bottom
      refine ⟨0, le_refl 0, bottom, ?_⟩
      rw [ancestor_self] at bottom
      rw [rewriteCanonical_named bottom]
      congr
      funext h
      rw [if_neg (by omega)]
  | succ k ih =>
      intro fuel canon a hd enough stored bottom
      by_cases named : canon (k + 1) = some a
      · refine ⟨k + 1, le_refl _, by rw [named, ancestor_self], ?_⟩
        rw [rewriteCanonical_named named]
        congr
        funext h
        rw [if_neg (by omega)]
      · obtain ⟨fuel, rfl⟩ : ∃ f, fuel = f + 1 := ⟨fuel - 1, by omega⟩
        obtain ⟨hd', parentStored⟩ := linked a k hd stored
        have number : hd.number = k + 1 := keys a (k + 1) hd stored
        have down : ∀ h ≤ k, ancestor Header.parentHash db.headers a (k + 1) h =
            ancestor Header.parentHash db.headers hd.parentHash k h :=
          fun h below => ancestor_parent stored below
        obtain ⟨c, le, meets, rest⟩ := ih fuel (canon.put (k + 1) a) hd.parentHash hd' (by omega) parentStored
          (by rw [Store.put_other _ _ (by omega), bottom, down 0 (Nat.zero_le k)])
        refine ⟨c, by omega, ?_, ?_⟩
        · rw [down c le, ← meets, Store.put_other _ _ (by omega)]
        · -- one turn writes `a` at `k + 1` and goes on from the parent at `k`
          rw [rewriteCanonical_turn named, number, Nat.add_sub_cancel]
          simp only [ChainDb.getHeader, parentStored]
          rw [show ({ db with canonical := canon } : ChainDb).writeCanonicalHash a (k + 1) =
            { db with canonical := canon.put (k + 1) a } from rfl, rest]
          congr
          funext h
          by_cases top : h = k + 1
          · subst top
            simp [show c < k + 1 by omega]
          · rw [Store.put_other _ _ top]
            by_cases below : h ≤ k
            · simp only [below, down h below, and_true, show h ≤ k + 1 by omega]
            · simp [show ¬ h ≤ k + 1 by omega, below]

end Rewrite

/-! ### Runs of `WriteHeader` from the genesis -/

section Runs

/-- What a header chain keeps after the headers of `written` were written, genesis first: its
headers, index and current header are `Ancestry.Indexed`. -/
def HeaderChain.Consistent (written : List Header) (hc : HeaderChain) : Prop :=
  Indexed Header.hash Header.parentHash Header.number hc.chainDb.headers hc.chainDb.canonical
    hc.currentHeader written

variable {written : List Header} {hc : HeaderChain} {x : Header}

section
attribute [local simp] HeaderChain.Consistent
end

/-- One `WriteHeader` call on a header whose parent was written keeps the chain consistent. -/
theorem HeaderChain.writeHeader_consistent (consistent : hc.Consistent written)
    (parent : ∃ p ∈ written, p.hash = x.parentHash ∧ p.number + 1 = x.number)
    (identify : KeysIdentify Header.hash Header.number (written ++ [x])) :
    ∃ status hc', hc.writeHeader x = .ok (status, hc') ∧ hc'.Consistent (written ++ [x]) := by
  obtain ⟨p, parentMem, parentHash, parentNumber⟩ := parent
  have headLe : p.number ≤ hc.currentHeader.number := consistent.highest.1 p parentMem
  by_cases higher : hc.currentHeader.number < x.number
  · -- the header extends the chain one number above the head
    have number : x.number = hc.currentHeader.number + 1 := by omega
    have ext := consistent.stores.extends_put identify
    have storedP := consistent.stores.stored parentMem
    have parentStored : hc.chainDb.headers.put (x.hash, x.number) x (x.parentHash, hc.currentHeader.number) =
        some p := by
      rw [← parentHash, show hc.currentHeader.number = p.number by omega]
      exact ext _ _ storedP
    have bottom : hc.chainDb.canonical 0 = ancestor Header.parentHash
        (hc.chainDb.headers.put (x.hash, x.number) x) x.parentHash hc.currentHeader.number 0 := by
      rw [← parentHash, show hc.currentHeader.number = p.number by omega,
        ancestor_extends_eq ext consistent.linked storedP]
      exact consistent.canonical_zero storedP
    obtain ⟨c, le, meets, run⟩ := @rewriteCanonical_spec (hc.chainDb.writeHeader x)
      (fun _ _ _ found => (consistent.stores.put identify).number_eq found)
      (consistent.linked.put consistent.stores identify ⟨p, parentMem, parentHash, parentNumber⟩)
      hc.currentHeader.number x.number hc.chainDb.canonical x.parentHash p (by omega) parentStored bottom
    refine ⟨.canonStatTy,
      { chainDb := (({ hc.chainDb.writeHeader x with
          canonical := fun h => if c < h ∧ h ≤ hc.currentHeader.number then
            ancestor Header.parentHash (hc.chainDb.writeHeader x).headers x.parentHash hc.currentHeader.number h
            else hc.chainDb.canonical h } : ChainDb).writeCanonicalHash x.hash x.number).writeHeadHeaderHash x.hash,
        currentHeader := x, currentHeaderHash := x.hash }, ?_, ?_⟩
    · have getParent : (hc.chainDb.writeHeader x).getHeader x.parentHash (x.number - 1) = some p := by
        rw [number, Nat.add_sub_cancel]
        exact parentStored
      simp only [HeaderChain.writeHeader, gt_iff_lt, higher, if_true, getParent]
      rw [number, Nat.add_sub_cancel, ← number]
      rw [show HeaderChain.rewriteCanonical x.number (hc.chainDb.writeHeader x) x.parentHash
        hc.currentHeader.number (some p) = _ from run]
      rfl
    · refine consistent.advance ⟨p, parentMem, parentHash, parentNumber⟩ identify higher meets le fun h => ?_
      simp only [ChainDb.writeHeadHeaderHash_canonical, ChainDb.writeCanonicalHash_canonical]
      by_cases top : h = x.number
      · subst top
        rw [if_pos ⟨by omega, le_refl _⟩, ancestor_self]
        exact Store.put_same _ _ _
      · refine (Store.put_other _ _ top).trans ?_
        have storedX : hc.chainDb.headers.put (x.hash, x.number) x (x.hash, hc.currentHeader.number + 1) =
            some x := by
          rw [← number]
          exact Store.put_same _ _ _
        rw [show ancestor Header.parentHash (hc.chainDb.headers.put (x.hash, x.number) x) x.hash x.number h =
            ancestor Header.parentHash (hc.chainDb.headers.put (x.hash, x.number) x) x.hash
              (hc.currentHeader.number + 1) h by rw [number],
          ancestor_of_ne storedX (by omega)]
        by_cases inside : c < h ∧ h ≤ hc.currentHeader.number
        · rw [if_pos inside, if_pos ⟨inside.1, by omega⟩]
          rfl
        · rw [if_neg inside, if_neg (by omega)]
  · -- a header not above the head is only stored
    refine ⟨.sideStatTy, { hc with chainDb := hc.chainDb.writeHeader x }, ?_, ?_⟩
    · simp [HeaderChain.writeHeader, higher]
    · exact consistent.side ⟨p, parentMem, parentHash, parentNumber⟩ identify (by omega)

/-- A sequence of `WriteHeader` calls on headers whose parents come first keeps the chain
consistent, and no call fails. -/
theorem HeaderChain.writeHeaders_consistent :
    ∀ (headers written : List Header) (hc : HeaderChain), hc.Consistent written → written ≠ [] →
      ParentsFirst Header.hash Header.parentHash Header.number (written ++ headers) →
      KeysIdentify Header.hash Header.number (written ++ headers) →
      ∃ hc', hc.writeHeaders headers = .ok hc' ∧ hc'.Consistent (written ++ headers) := by
  intro headers
  induction headers with
  | nil =>
      intro written hc consistent _ _ _
      exact ⟨hc, rfl, by simpa using consistent⟩
  | cons x rest ih =>
      intro written hc consistent nonempty parents identify
      have parent := parents written x rest rfl nonempty
      obtain ⟨status, hc₁, step, consistent₁⟩ := hc.writeHeader_consistent consistent parent
        (identify.sublist (by simp))
      obtain ⟨hc', run, final⟩ := ih (written ++ [x]) hc₁ consistent₁ (by simp)
        (by simpa using parents) (by simpa using identify)
      refine ⟨hc', ?_, by simpa using final⟩
      simp only [HeaderChain.writeHeaders, step]
      exact run

/-- The genesis database is consistent with the genesis header alone. -/
theorem HeaderChain.genesis_consistent (g : Block) (zero : g.number = 0) :
    (HeaderChain.genesis g).Consistent [g.header] :=
  Indexed.init g.header zero

end Runs

end Mjoy.Chain
