import Mjoy.Lib.Journal
import Mjoy.State.Object

/-!
The state database (`core/state/statedb.go`) and its journal (`core/state/journal.go`): the
live objects over the account trie, the dirty set the commit reads, the refund counter, the
logs and preimages, and the journal that `RevertToSnapshot` replays backwards.

The account trie is its content, a map from address to account. Calls that would
dereference a nil object, and `RevertToSnapshot` of an unknown revision, are panics in the
source and errors here.
-/

namespace Mjoy.State

open KeyValue Journal

/-- The journal entries, one per kind of change, with what their `undo` needs. -/
inductive JournalEntry where
  | createObjectChange (account : Address)
  | resetObjectChange (prev : StateObject)
  | suicideChange (account : Address) (prev : Bool) (prevbalance : Int)
  | balanceChange (account : Address) (prev : Int)
  | nonceChange (account : Address) (prev : UInt64)
  | storageChange (account : Address) (key prevalue : Hash)
  | codeChange (account : Address) (prevcode : Option (List UInt8)) (prevhash : List UInt8)
  | refundChange (prev : UInt64)
  | addLogChange (txhash : Hash)
  | addPreimageChange (hash : Hash)
  | touchChange (account : Address) (prev prevDirty : Bool)

structure StateDB where
  db : Database
  trie : Store Address Account
  stateObjects : Table Address StateObject
  stateObjectsDirty : Table Address Unit
  refund : UInt64
  thash : Hash
  bhash : Hash
  txIndex : Nat
  logs : Table Hash (List Log)
  logSize : Nat
  preimages : Table Hash (List UInt8)
  journal : List JournalEntry
  validRevisions : List Revision
  nextRevisionId : Nat

/-- `types.HexToAddress("0000000000000000000000000000000000000003")`. -/
def ripemd : Address := List.replicate 19 0 ++ [3]

def nilDereference : String := "invalid memory address or nil pointer dereference"

namespace StateDB

/-- `New(root, db)` on an account trie that holds `trie`. -/
def new (db : Database) (trie : Store Address Account) : StateDB :=
  { db := db, trie := trie, stateObjects := Table.empty, stateObjectsDirty := Table.empty,
    refund := 0, thash := [], bhash := [], txIndex := 0, logs := Table.empty, logSize := 0,
    preimages := Table.empty, journal := [], validRevisions := [], nextRevisionId := 0 }

def appendJournal (s : StateDB) (entry : JournalEntry) : StateDB :=
  { s with journal := s.journal ++ [entry] }

def setStateObject (s : StateDB) (o : StateObject) : StateDB :=
  { s with stateObjects := s.stateObjects.set o.address o }

/-- `MarkStateObjectDirty`, when the object's callback ran. -/
def markDirty (s : StateDB) (addr : Address) (fired : Bool) : StateDB :=
  if fired then { s with stateObjectsDirty := s.stateObjectsDirty.set addr () } else s

/-- A setter's result written back to the live object it was called on. -/
def putObject (s : StateDB) (result : StateObject × Bool) : StateDB :=
  (s.setStateObject result.1).markDirty result.1.address result.2

/-- `getStateObject(addr)`: the live object unless it is deleted, else the account loaded
from the trie, which becomes live with its dirty callback set. -/
def getStateObject (s : StateDB) (addr : Address) : Option StateObject × StateDB :=
  match s.stateObjects.get addr with
  | some obj => (if obj.deleted then none else some obj, s)
  | none =>
      match s.trie addr with
      | none => (none, s)
      | some data =>
          let obj := newObject addr data true
          (some obj, s.setStateObject obj)

/-- `createObject(addr)`: a new object, dirty at once through `setNonce(0)`, replacing the
live one, which the journal keeps. -/
def createObject (s : StateDB) (addr : Address) : StateObject × Option StateObject × StateDB :=
  let (prev, s) := s.getStateObject addr
  let (newobj, fired) := (newObject addr Account.new true).setNonce 0
  let s := (s.markDirty addr fired).appendJournal
    (match prev with
     | none => .createObjectChange addr
     | some prev => .resetObjectChange prev)
  (newobj, prev, s.setStateObject newobj)

def getOrNewStateObject (s : StateDB) (addr : Address) : StateObject × StateDB :=
  let (obj, s) := s.getStateObject addr
  match obj with
  | some obj =>
      if obj.deleted then
        let (created, _, s) := s.createObject addr
        (created, s)
      else (obj, s)
  | none =>
      let (created, _, s) := s.createObject addr
      (created, s)

-- Equation lemmas of the definitions above, made once here rather than by the proofs below
-- that unfold them in parallel.
section
attribute [local simp] new markDirty putObject getStateObject createObject getOrNewStateObject
end

/-! ### The journaled setters of a live object -/

/-- `touch()`: journaled with whether the object was touched and whether its callback had
already run. -/
def touch (s : StateDB) (obj : StateObject) : StateDB :=
  let s := s.appendJournal (.touchChange obj.address obj.touched !obj.onDirty)
  let (obj, fired) := obj.fireDirty
  s.putObject ({ obj with touched := true }, fired)

/-- `stateObject.SetBalance`. -/
def objectSetBalance (s : StateDB) (obj : StateObject) (amount : Int) : StateDB :=
  (s.appendJournal (.balanceChange obj.address obj.data.balance)).putObject (obj.setBalance amount)

/-- `stateObject.AddBalance`: adding zero touches an empty object and changes nothing else. -/
def objectAddBalance (s : StateDB) (obj : StateObject) (amount : Int) : StateDB :=
  if amount = 0 then (if obj.empty then s.touch obj else s)
  else s.objectSetBalance obj (obj.data.balance + amount)

def objectSubBalance (s : StateDB) (obj : StateObject) (amount : Int) : StateDB :=
  if amount = 0 then s else s.objectSetBalance obj (obj.data.balance - amount)

def objectSetNonce (s : StateDB) (obj : StateObject) (nonce : UInt64) : StateDB :=
  (s.appendJournal (.nonceChange obj.address obj.data.nonce)).putObject (obj.setNonce nonce)

/-- `stateObject.SetCode`: the previous code is loaded first, so that the journal holds it. -/
def objectSetCode (s : StateDB) (obj : StateObject) (codeHash : Hash) (code : Option (List UInt8)) : StateDB :=
  let (prevcode, obj) := obj.loadCode s.db
  (s.appendJournal (.codeChange obj.address prevcode obj.data.codeHash)).putObject (obj.setCode codeHash code)

def objectSetState (s : StateDB) (obj : StateObject) (key value : Hash) : StateDB :=
  let (prevalue, obj) := obj.getState key
  (s.appendJournal (.storageChange obj.address key prevalue)).putObject (obj.setState key value)

section
attribute [local simp] objectAddBalance objectSubBalance
end

/-! ### The state database's setters -/

def addBalance (s : StateDB) (addr : Address) (amount : Int) : StateDB :=
  let (obj, s) := s.getOrNewStateObject addr
  s.objectAddBalance obj amount

def subBalance (s : StateDB) (addr : Address) (amount : Int) : StateDB :=
  let (obj, s) := s.getOrNewStateObject addr
  s.objectSubBalance obj amount

def setBalance (s : StateDB) (addr : Address) (amount : Int) : StateDB :=
  let (obj, s) := s.getOrNewStateObject addr
  s.objectSetBalance obj amount

def setNonce (s : StateDB) (addr : Address) (nonce : UInt64) : StateDB :=
  let (obj, s) := s.getOrNewStateObject addr
  s.objectSetNonce obj nonce

/-- `SetCode(addr, code)`, with the code hash `crypto.Keccak256Hash(code)`. -/
def setCode (keccak : List UInt8 → List UInt8) (s : StateDB) (addr : Address) (code : Option (List UInt8)) : StateDB :=
  let (obj, s) := s.getOrNewStateObject addr
  s.objectSetCode obj (keccak (code.getD [])) code

def setState (s : StateDB) (addr : Address) (key value : Hash) : StateDB :=
  let (obj, s) := s.getOrNewStateObject addr
  s.objectSetState obj key value

/-- `Suicide(addr)`: the balance is cleared without a callback of its own. -/
def suicide (s : StateDB) (addr : Address) : Bool × StateDB :=
  match s.getStateObject addr with
  | (none, s) => (false, s)
  | (some obj, s) =>
      let s := s.appendJournal (.suicideChange addr obj.suicided obj.data.balance)
      let (obj, fired) := obj.markSuicided
      (true, s.putObject ({ obj with data := { obj.data with balance := 0 } }, fired))

/-- `CreateAccount(addr)`: the balance of the object it replaces is carried over. -/
def createAccount (s : StateDB) (addr : Address) : StateDB :=
  let (newobj, prev, s) := s.createObject addr
  match prev with
  | some prev => s.putObject (newobj.setBalance prev.data.balance)
  | none => s

def addRefund (s : StateDB) (value : UInt64) : StateDB :=
  { s.appendJournal (.refundChange s.refund) with refund := s.refund + value }

def addLog (s : StateDB) (log : Log) : StateDB :=
  let s := s.appendJournal (.addLogChange s.thash)
  let log := { log with txHash := s.thash, blockHash := s.bhash, txIndex := s.txIndex, index := s.logSize }
  { s with logs := s.logs.set s.thash ((s.logs.get s.thash).getD [] ++ [log]), logSize := s.logSize + 1 }

def addPreimage (s : StateDB) (hash : Hash) (preimage : List UInt8) : StateDB :=
  match s.preimages.get hash with
  | some _ => s
  | none => { s.appendJournal (.addPreimageChange hash) with preimages := s.preimages.set hash preimage }

section
attribute [local simp] addBalance subBalance setNonce setCode createAccount
end

/-! ### The accessors; loading an account or its code leaves it live -/

def exist (s : StateDB) (addr : Address) : Bool × StateDB :=
  let (obj, s) := s.getStateObject addr
  (obj.isSome, s)

def empty (s : StateDB) (addr : Address) : Bool × StateDB :=
  let (obj, s) := s.getStateObject addr
  (match obj with
   | none => true
   | some obj => obj.empty, s)

def getBalance (s : StateDB) (addr : Address) : Int × StateDB :=
  let (obj, s) := s.getStateObject addr
  ((obj.map fun o => o.data.balance).getD 0, s)

def getNonce (s : StateDB) (addr : Address) : UInt64 × StateDB :=
  let (obj, s) := s.getStateObject addr
  ((obj.map fun o => o.data.nonce).getD 0, s)

def getCode (s : StateDB) (addr : Address) : Option (List UInt8) × StateDB :=
  match s.getStateObject addr with
  | (none, s) => (none, s)
  | (some obj, s) =>
      let (code, obj) := obj.loadCode s.db
      (code, s.setStateObject obj)

def getCodeSize (s : StateDB) (addr : Address) : Nat × StateDB :=
  match s.getStateObject addr with
  | (none, s) => (0, s)
  | (some obj, s) =>
      match obj.code with
      | some code => (code.length, s)
      | none => (s.db.contractCodeSize (bytesToHash obj.data.codeHash), s)

def getCodeHash (s : StateDB) (addr : Address) : Hash × StateDB :=
  let (obj, s) := s.getStateObject addr
  ((obj.map fun o => bytesToHash o.data.codeHash).getD zeroHash, s)

def getState (s : StateDB) (addr : Address) (key : Hash) : Hash × StateDB :=
  match s.getStateObject addr with
  | (none, s) => (zeroHash, s)
  | (some obj, s) =>
      let (value, obj) := obj.getState key
      (value, s.setStateObject obj)

def hasSuicided (s : StateDB) (addr : Address) : Bool × StateDB :=
  let (obj, s) := s.getStateObject addr
  ((obj.map StateObject.suicided).getD false, s)

def getRefund (s : StateDB) : UInt64 :=
  s.refund

def getLogs (s : StateDB) (hash : Hash) : List Log :=
  (s.logs.get hash).getD []

section
attribute [local simp] exist empty getBalance getNonce
end

/-! ### Undo, snapshots and reverting -/

/-- The object an undo acts on; the source dereferences it without a nil check. -/
def liveObject (s : StateDB) (addr : Address) : Except String (StateObject × StateDB) :=
  match s.getStateObject addr with
  | (some obj, s) => .ok (obj, s)
  | (none, _) => .error nilDereference

/-- `undo(s)` of each journal entry. -/
def undo : JournalEntry → StateDB → Except String StateDB
  | .createObjectChange account, s =>
      .ok { s with stateObjects := s.stateObjects.remove account,
                   stateObjectsDirty := s.stateObjectsDirty.remove account }
  | .resetObjectChange prev, s => .ok (s.setStateObject prev)
  | .suicideChange account prev prevbalance, s =>
      match s.getStateObject account with
      | (some obj, s) => .ok (s.putObject ({ obj with suicided := prev }.setBalance prevbalance))
      | (none, s) => .ok s
  | .touchChange account prev prevDirty, s =>
      if !prev && account ≠ ripemd then do
        let (obj, s) ← s.liveObject account
        let s := s.setStateObject { obj with touched := prev }
        pure (if !prevDirty then { s with stateObjectsDirty := s.stateObjectsDirty.remove account } else s)
      else .ok s
  | .balanceChange account prev, s => do
      let (obj, s) ← s.liveObject account
      pure (s.putObject (obj.setBalance prev))
  | .nonceChange account prev, s => do
      let (obj, s) ← s.liveObject account
      pure (s.putObject (obj.setNonce prev))
  | .codeChange account prevcode prevhash, s => do
      let (obj, s) ← s.liveObject account
      pure (s.putObject (obj.setCode (bytesToHash prevhash) prevcode))
  | .storageChange account key prevalue, s => do
      let (obj, s) ← s.liveObject account
      pure (s.putObject (obj.setState key prevalue))
  | .refundChange prev, s => .ok { s with refund := prev }
  | .addLogChange txhash, s =>
      let logs := (s.logs.get txhash).getD []
      .ok { s with logs := if logs.length = 1 then s.logs.remove txhash else s.logs.set txhash logs.dropLast,
                   logSize := s.logSize - 1 }
  | .addPreimageChange hash, s => .ok { s with preimages := s.preimages.remove hash }

def snapshot (s : StateDB) : Nat × StateDB :=
  (s.nextRevisionId, { s with nextRevisionId := s.nextRevisionId + 1,
                              validRevisions := s.validRevisions ++ [⟨s.nextRevisionId, s.journal.length⟩] })

/-- `RevertToSnapshot(revid)`: undo the entries added since the revision, newest first,
then cut the journal and the revisions back. -/
def revertToSnapshot (s : StateDB) (revid : Nat) : Except String StateDB :=
  match findRevision s.validRevisions revid with
  | none => .error "revision id cannot be reverted"
  | some (idx, snapshot) => do
      let s' ← replay undo (s.journal.drop snapshot) s
      pure { s' with journal := s.journal.take snapshot, validRevisions := s.validRevisions.take idx }

def clearJournalAndRefund (s : StateDB) : StateDB :=
  { s with journal := [], validRevisions := [], refund := 0 }

end StateDB

end Mjoy.State
