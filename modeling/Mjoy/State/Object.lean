import Mjoy.Lib.Store
import Mjoy.Lib.Table
import Mjoy.Trie.Trie

/-!
Accounts and the live state objects of the state database (`core/state/state_object.go`).

The model keeps what the accessors, the journal and the commit read. Three abstractions:
an account's `Root` is the content of the storage trie it commits to (a trie stands for the
map it holds, `Mjoy.Trie.Map`); the contract code database is a lookup from code hash to
code; and the cached address hash, the storage trie handle and the memoized database error
are left out, since no modelled path reads them.
-/

namespace Mjoy.State

open KeyValue

abbrev Address := List UInt8

abbrev Hash := List UInt8

/-- `types.Hash{}`. -/
def zeroHash : Hash := Mjoy.Trie.zeroHash

/-- `crypto.Keccak256(nil)`, the code hash of an account without code. -/
def emptyCodeHash : Hash :=
  [0xc5, 0xd2, 0x46, 0x01, 0x86, 0xf7, 0x23, 0x3c, 0x92, 0x7e, 0x7d, 0xb2, 0xdc, 0xc7, 0x03, 0xc0,
   0xe5, 0x00, 0xb6, 0x53, 0xca, 0x82, 0x27, 0x3b, 0x7b, 0xfa, 0xd8, 0x04, 0x5d, 0x85, 0xa4, 0x70]

/-- `types.BytesToHash`: the last 32 bytes, padded with zeros on the left. -/
def bytesToHash (b : List UInt8) : Hash :=
  List.replicate (32 - b.length) 0 ++ b.drop (b.length - 32)

/-- The content of a storage trie: the value stored under each key. -/
abbrev Storage := Store Hash Hash

/-- `Account`, with `Root` standing for the storage trie content it commits to. -/
structure Account where
  nonce : UInt64
  balance : Int
  storage : Storage
  codeHash : List UInt8

/-- `Account{}` once `newObject` has filled in its nil balance and code hash. -/
def Account.new : Account :=
  { nonce := 0, balance := 0, storage := Store.empty, codeHash := emptyCodeHash }

/-- The contract code database: `ContractCode` and `ContractCodeSize` by code hash. -/
structure Database where
  contractCode : Hash → Option (List UInt8)
  contractCodeSize : Hash → Nat

/-- `transaction.Log`: the fields `AddLog` sets, and what the log says. -/
structure Log where
  payload : List UInt8
  txHash : Hash := []
  blockHash : Hash := []
  txIndex : Nat := 0
  index : Nat := 0

/-- `stateObject`. `code` is `none` while the code is not loaded (a nil slice); `onDirty`
says whether the callback that marks the object dirty is still set. -/
structure StateObject where
  address : Address
  data : Account
  code : Option (List UInt8)
  cachedStorage : Table Hash Hash
  dirtyStorage : Table Hash Hash
  dirtyCode : Bool
  suicided : Bool
  touched : Bool
  deleted : Bool
  onDirty : Bool

/-- `newObject(db, address, data, onDirty)`. -/
def newObject (address : Address) (data : Account) (onDirty : Bool) : StateObject :=
  { address := address, data := data, code := none, cachedStorage := Table.empty,
    dirtyStorage := Table.empty, dirtyCode := false, suicided := false, touched := false,
    deleted := false, onDirty := onDirty }

-- Equation lemmas of the definitions above, made once here rather than by the proofs below
-- that unfold them in parallel.
section
attribute [local simp] zeroHash Account.new newObject
end

namespace StateObject

def empty (o : StateObject) : Bool :=
  o.data.nonce == 0 && o.data.balance == 0 && o.data.codeHash == emptyCodeHash

/-- The `if self.onDirty != nil { self.onDirty(addr); self.onDirty = nil }` every setter ends
with: the object with the callback cleared, and whether the callback ran (the state
database then marks the address dirty). -/
def fireDirty (o : StateObject) : StateObject × Bool :=
  ({ o with onDirty := false }, o.onDirty)

def setBalance (o : StateObject) (amount : Int) : StateObject × Bool :=
  fireDirty { o with data := { o.data with balance := amount } }

def setNonce (o : StateObject) (nonce : UInt64) : StateObject × Bool :=
  fireDirty { o with data := { o.data with nonce := nonce } }

def setCode (o : StateObject) (codeHash : Hash) (code : Option (List UInt8)) : StateObject × Bool :=
  fireDirty { o with code := code, data := { o.data with codeHash := codeHash }, dirtyCode := true }

def setState (o : StateObject) (key value : Hash) : StateObject × Bool :=
  fireDirty { o with cachedStorage := o.cachedStorage.set key value, dirtyStorage := o.dirtyStorage.set key value }

def markSuicided (o : StateObject) : StateObject × Bool :=
  fireDirty { o with suicided := true }

/-- `GetState(db, key)`: the cached value, else the stored one, which is cached when it is
not zero. -/
def getState (o : StateObject) (key : Hash) : Hash × StateObject :=
  match o.cachedStorage.get key with
  | some value => (value, o)
  | none =>
      let value := (o.data.storage key).getD zeroHash
      (value, if value ≠ zeroHash then { o with cachedStorage := o.cachedStorage.set key value } else o)

/-- `Code(db)`: the loaded code, nothing for the empty code hash, else the code the database
holds, which is kept in the object. -/
def loadCode (db : Database) (o : StateObject) : Option (List UInt8) × StateObject :=
  match o.code with
  | some code => (some code, o)
  | none =>
      if o.data.codeHash = emptyCodeHash then (none, o)
      else
        let code := db.contractCode (bytesToHash o.data.codeHash)
        (code, { o with code := code })

/-- `updateTrie` and the root update of `updateRoot` and `CommitTrie`: the dirty storage is
written to the storage trie, a zero value deleting its key. -/
def updateRoot (o : StateObject) : StateObject :=
  { o with
    data := { o.data with storage := o.dirtyStorage.foldl (fun st entry =>
      if entry.2 = zeroHash then st.erase entry.1 else st.put entry.1 entry.2) o.data.storage }
    dirtyStorage := Table.empty }

section
attribute [local simp] empty setNonce setCode
end

end StateObject

end Mjoy.State
