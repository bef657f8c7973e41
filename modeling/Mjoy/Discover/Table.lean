import Mathlib.Data.List.Nodup

/-!
The Kademlia table of node discovery (`p2p/discover/table.go`). Nodes sit in `nBuckets`
buckets by their logarithmic distance to the local node; a bucket holds at most `bucketSize`
entries, the most recently active first.

`add` takes the mutex, and when the bucket is full lets go of it while it pings the bucket's
oldest entry, then takes it again and calls `replace`. The model cuts `add` at that point:
`addLocked` is the part before the ping and `addPinged` the part after, and a run of the table
(`State.step`) lets the adds in flight get their ping outcome between any other operations.
`bond` rejects the local node before it adds; `add` itself does not check it.

A node's address and ports are only read by the ping, and are left out. `contested` is a flag
of the node object; the model keeps it on the bucket entry and clears it, after the ping, on
the entry that has the pinged node's ID.
-/

namespace Mjoy.Discover

/-- `NodeID`: the node's public key. -/
abbrev NodeID := List UInt8

/-- `types.Hash`, 32 bytes in the source. -/
abbrev Hash := List UInt8

/-- Kademlia bucket size. -/
def bucketSize : Nat := 16

/-- `len(types.Hash{}) * 8`. -/
def hashBits : Nat := 256

/-- Number of buckets. -/
def nBuckets : Nat := hashBits + 1

structure Node where
  id : NodeID
  /-- A cached copy of `sha3(ID)`, used for node distances. -/
  sha : Hash
  /-- Whether this node is being pinged in order to replace it in a bucket. -/
  contested : Bool
  deriving DecidableEq, Repr

/-- `NewNode(id, ...)`. -/
def newNode (keccak : List UInt8 → List UInt8) (id : NodeID) : Node :=
  { id, sha := keccak id, contested := false }

-- Equation lemmas of the definitions above, made once here rather than by the proofs below
-- that unfold them in parallel.
section
attribute [local simp] bucketSize nBuckets
end

/-! ### Distance -/

/-- `lzcount[x]`: the leading zero bits of a byte. -/
def lzcount (x : UInt8) : Nat := if x = 0 then 8 else 7 - x.toNat.log2

/-- The loop of `logdist`: eight leading zeros for every equal byte, up to the first byte that
differs. -/
def leadingZeros : List UInt8 → List UInt8 → Nat
  | x :: a, y :: b => if x ^^^ y = 0 then 8 + leadingZeros a b else lzcount (x ^^^ y)
  | _, _ => 0

/-- `logdist(a, b)`: the logarithmic distance between `a` and `b`, `log2(a ^ b)`. -/
def logdist (a b : Hash) : Nat := a.length * 8 - leadingZeros a b

section
attribute [local simp] leadingZeros logdist
end

@[simp] theorem leadingZeros_self (a : List UInt8) : leadingZeros a a = 8 * a.length := by
  induction a with
  | nil => rfl
  | cons x a ih => simp [leadingZeros, ih]; omega

/-- A node is at distance zero from itself. -/
@[simp] theorem logdist_self (a : Hash) : logdist a a = 0 := by
  simp [logdist]; omega

/-- For hashes of `hashBits` bits the distance indexes one of the `nBuckets` buckets, so the
model's buckets, indexed by every `Nat`, agree with the source's array. -/
theorem logdist_lt_nBuckets (a b : Hash) (size : a.length * 8 = hashBits) : logdist a b < nBuckets := by
  unfold logdist nBuckets
  omega

/-! ### Buckets -/

/-- `bucket`: the entries, ordered by their last activity, the most recent first. -/
structure Bucket where
  entries : List Node

/-- `bump(n)`: an entry with the ID of `n` is replaced by `n`, moved to the front. -/
def Bucket.bump (b : Bucket) (n : Node) : Bool × Bucket :=
  match b.entries.findIdx? (·.id == n.id) with
  -- copy(b.entries[1:], b.entries[:i]); b.entries[0] = n
  | some i => (true, ⟨n :: b.entries.eraseIdx i⟩)
  | none => (false, b)

/-- `last == nil || b.entries[bucketSize-1].ID != last.ID`: the entry `add` pinged is no
longer the last one; it was replaced or became active. -/
def Bucket.lastChanged (b : Bucket) : Option Node → Bool
  | none => true
  | some last => b.entries[bucketSize - 1]?.map Node.id != some last.id

/-- `replace(n, last)`: `n` goes to the front, pushing out `last` when the bucket is full. -/
def Bucket.replace (b : Bucket) (n : Node) (last : Option Node) : Bool × Bucket :=
  if b.entries.any (·.id == n.id) then (false, b)
  else if b.entries.length == bucketSize && b.lastChanged last then (false, b)
  else
    -- with room, a slot is appended first; the shift drops the last entry
    let kept := if b.entries.length < bucketSize then b.entries else b.entries.dropLast
    (true, ⟨n :: kept⟩)

/-- The ping of `oldest` is over: `oldest.contested = false`. -/
def Bucket.uncontest (b : Bucket) (oldest : Node) : Bucket :=
  ⟨b.entries.map fun e => if e.id = oldest.id then { e with contested := false } else e⟩

section
attribute [local simp] Bucket.bump Bucket.replace
end

/-! ### The table -/

structure Table where
  /-- Index of known nodes by distance. -/
  buckets : Nat → Bucket
  /-- The local node. -/
  self : Node

/-- `newTable`: every bucket empty. -/
def Table.empty (self : Node) : Table :=
  { buckets := fun _ => ⟨[]⟩, self }

/-- The bucket of node `n`: `tab.buckets[logdist(tab.self.sha, n.sha)]`. -/
def Table.index (tab : Table) (n : Node) : Nat := logdist tab.self.sha n.sha

def Table.setBucket (tab : Table) (i : Nat) (b : Bucket) : Table :=
  { tab with buckets := Function.update tab.buckets i b }

section
attribute [local simp] Table.empty Table.index Table.setBucket
end

@[simp] theorem Table.setBucket_self (tab : Table) (i : Nat) (b : Bucket) :
    (tab.setBucket i b).self = tab.self := rfl

@[simp] theorem Table.setBucket_index (tab : Table) (i : Nat) (b : Bucket) (n : Node) :
    (tab.setBucket i b).index n = tab.index n := rfl

/-- The part of `add(new)` under the mutex, up to the ping: the table, and the oldest entry
when the bucket is full and `add` goes on to ping it. -/
def Table.addLocked (tab : Table) (new : Node) : Table × Option Node :=
  let i := tab.index new
  let b := tab.buckets i
  match b.bump new with
  | (true, b) => (tab.setBucket i b, none)
  | (false, _) =>
      match b.entries.length == bucketSize, b.entries[bucketSize - 1]? with
      | true, some oldest =>
          -- the node is already being replaced: don't attempt to replace it
          if oldest.contested then (tab, none)
          else
            let entries := b.entries.set (bucketSize - 1) { oldest with contested := true }
            (tab.setBucket i ⟨entries⟩, some oldest)
      | _, _ => (tab.setBucket i (b.replace new none).2, none)

/-- The rest of `add(new)` once the ping of `oldest` has returned, with `err` its failure: the
flag is cleared, and a node that did not respond is replaced. -/
def Table.addPinged (tab : Table) (new oldest : Node) (err : Bool) : Table :=
  let i := tab.index new
  let tab := tab.setBucket i ((tab.buckets i).uncontest oldest)
  if err then tab.setBucket i ((tab.buckets i).replace new (some oldest)).2 else tab

/-- One node of `stuff`: appended to its bucket unless it is the local node, already there,
or the bucket is full. -/
def Table.stuffNode (tab : Table) (n : Node) : Table :=
  if n.id = tab.self.id then tab
  else
    let i := tab.index n
    let b := tab.buckets i
    if b.entries.any (·.id == n.id) then tab
    else if b.entries.length < bucketSize then tab.setBucket i ⟨b.entries ++ [n]⟩
    else tab

/-- `stuff(nodes)`. -/
def Table.stuff (tab : Table) (nodes : List Node) : Table :=
  nodes.foldl Table.stuffNode tab

/-- `delete(node)`: the first entry with the ID of `node` is removed from its bucket. -/
def Table.delete (tab : Table) (node : Node) : Table :=
  let i := tab.index node
  let b := tab.buckets i
  match b.entries.findIdx? (·.id == node.id) with
  | some j => tab.setBucket i ⟨b.entries.eraseIdx j⟩
  | none => tab

section
attribute [local simp] Table.addLocked Table.addPinged Table.stuffNode Table.delete
end

section Bond

variable (keccak : List UInt8 → List UInt8)

/-- `bond(pinged, id, ...)` as far as it touches the table. `bonded` says whether it has a node
for `id`: one the database knew, or one the ping/pong just reached; that node is added. -/
def Table.bond (tab : Table) (id : NodeID) (bonded : Bool) :
    Except String (Table × Option (Node × Node)) :=
  if id = tab.self.id then .error "is self"
  else if bonded then
    let node := newNode keccak id
    let (tab, oldest) := tab.addLocked node
    .ok (tab, oldest.map (node, ·))
  else .ok (tab, none)

section
attribute [local simp] Table.bond
end

/-! ### Runs -/

/-- The table with the adds that have let go of the mutex: each its new node and the oldest
entry it pings. -/
structure State where
  tab : Table
  pinging : List (Node × Node)

/-- An operation of the table, or the answer to a ping of an add in flight. -/
inductive Op where
  | add (new : Node)
  | bond (id : NodeID) (bonded : Bool)
  /-- The ping of the add at position `i` of `pinging` returns, failed when `err`. -/
  | pong (i : Nat) (err : Bool)
  | stuff (nodes : List Node)
  | delete (node : Node)

def State.init (self : Node) : State := { tab := Table.empty self, pinging := [] }

/-- The first part of an add: the add waits for its ping when it has an oldest entry. -/
def State.addLocked (s : State) (new : Node) : State :=
  let (tab, oldest) := s.tab.addLocked new
  { tab, pinging := s.pinging ++ oldest.toList.map (new, ·) }

def State.step (s : State) : Op → State
  | .add new => s.addLocked new
  | .bond id bonded =>
      match s.tab.bond keccak id bonded with
      | .ok (tab, waiting) => { tab, pinging := s.pinging ++ waiting.toList }
      | .error _ => s
  | .pong i err =>
      match s.pinging[i]? with
      | some (new, oldest) => { tab := s.tab.addPinged new oldest err, pinging := s.pinging.eraseIdx i }
      | none => s
  | .stuff nodes => { s with tab := s.tab.stuff nodes }
  | .delete node => { s with tab := s.tab.delete node }

def State.run (s : State) (ops : List Op) : State := ops.foldl (State.step keccak) s

section
attribute [local simp] State.init State.addLocked State.step State.run
end

end Bond

/-! ### The table invariant -/

/-- What a bucket keeps: its entries are at its own distance from the local node and are not
the local node, there are at most `bucketSize` of them, and their IDs differ. -/
structure Bucket.Valid (localNode : Node) (i : Nat) (b : Bucket) : Prop where
  placed : ∀ n ∈ b.entries, logdist localNode.sha n.sha = i
  notSelf : ∀ n ∈ b.entries, n.id ≠ localNode.id
  bounded : b.entries.length ≤ bucketSize
  distinct : (b.entries.map Node.id).Nodup

/-- Every bucket is valid at its own index. -/
def Table.Valid (tab : Table) : Prop := ∀ i, (tab.buckets i).Valid tab.self i

section Bucket

variable {localNode : Node} {i : Nat} {b : Bucket}

theorem Bucket.Valid.sublist (valid : b.Valid localNode i) {l : List Node} (sub : l.Sublist b.entries) :
    Bucket.Valid localNode i ⟨l⟩ where
  placed n mem := valid.placed n (sub.subset mem)
  notSelf n mem := valid.notSelf n (sub.subset mem)
  bounded := Nat.le_trans sub.length_le valid.bounded
  distinct := valid.distinct.sublist (sub.map Node.id)

/-- Every write of a bucket puts one node `n` in front of or behind a part `l` of the old
entries: it keeps the bucket valid when `n` belongs to the bucket, is not the local node, is
not in `l`, and `l` leaves room for it. -/
theorem Bucket.Valid.insert (valid : b.Valid localNode i) {l : List Node} (sub : l.Sublist b.entries)
    {n : Node} (placed : logdist localNode.sha n.sha = i) (notSelf : n.id ≠ localNode.id)
    (fresh : ∀ m ∈ l, m.id ≠ n.id) (room : l.length < bucketSize) {entries : List Node}
    (perm : entries.Perm (n :: l)) : Bucket.Valid localNode i ⟨entries⟩ := by
  have kept := valid.sublist sub
  refine ⟨?_, ?_, ?_, ?_⟩
  · intro m mem
    rcases List.mem_cons.mp (perm.subset mem) with rfl | old
    · exact placed
    · exact kept.placed m old
  · intro m mem
    rcases List.mem_cons.mp (perm.subset mem) with rfl | old
    · exact notSelf
    · exact kept.notSelf m old
  · have length : entries.length = l.length + 1 := perm.length_eq
    change entries.length ≤ bucketSize
    omega
  · change (entries.map Node.id).Nodup
    rw [(perm.map Node.id).nodup_iff, List.map_cons, List.nodup_cons]
    refine ⟨?_, kept.distinct⟩
    intro mem
    obtain ⟨m, old, same⟩ := List.mem_map.mp mem
    exact fresh m old same

/-- Changing entries in place, keeping their IDs and hashes, keeps the bucket valid. -/
theorem Bucket.Valid.keys (valid : b.Valid localNode i) {entries : List Node}
    (ids : entries.map Node.id = b.entries.map Node.id)
    (shas : entries.map Node.sha = b.entries.map Node.sha) : Bucket.Valid localNode i ⟨entries⟩ := by
  refine ⟨?_, ?_, ?_, ?_⟩
  · intro n mem
    have : n.sha ∈ b.entries.map Node.sha := shas ▸ List.mem_map_of_mem mem
    obtain ⟨m, old, same⟩ := List.mem_map.mp this
    rw [← same]
    exact valid.placed m old
  · intro n mem
    have : n.id ∈ b.entries.map Node.id := ids ▸ List.mem_map_of_mem mem
    obtain ⟨m, old, same⟩ := List.mem_map.mp this
    rw [← same]
    exact valid.notSelf m old
  · have length := congrArg List.length ids
    simp only [List.length_map] at length
    change entries.length ≤ bucketSize
    exact length ▸ valid.bounded
  · change (entries.map Node.id).Nodup
    exact ids ▸ valid.distinct

theorem Bucket.found_id {n : Node} {j : Nat} (found : b.entries.findIdx? (·.id == n.id) = some j) :
    ∃ bound : j < b.entries.length, b.entries[j].id = n.id := by
  obtain ⟨bound, same, -⟩ := List.findIdx?_eq_some_iff_getElem.mp found
  exact ⟨bound, by simpa using same⟩

theorem Bucket.fresh_of_any {n : Node} (absent : ¬b.entries.any (·.id == n.id) = true) :
    ∀ m ∈ b.entries, m.id ≠ n.id := by
  intro m mem same
  exact absent (List.any_eq_true.mpr ⟨m, mem, by simp [same]⟩)

/-- The entry `bump` finds has the ID of `n`, so it is the only one with it. -/
theorem Bucket.Valid.id_ne_of_eraseIdx (valid : b.Valid localNode i) {n : Node} {j : Nat}
    (found : b.entries.findIdx? (·.id == n.id) = some j) :
    ∀ m ∈ b.entries.eraseIdx j, m.id ≠ n.id := by
  obtain ⟨bound, foundId⟩ := Bucket.found_id found
  intro m mem sameId
  obtain ⟨k, kBound, other, rfl⟩ := List.mem_eraseIdx_iff_getElem.mp mem
  have ids : (b.entries.map Node.id)[k]? = (b.entries.map Node.id)[j]? := by
    simp only [List.getElem?_map, List.getElem?_eq_getElem kBound, List.getElem?_eq_getElem bound,
      Option.map_some, sameId, foundId]
  exact other ((List.getElem?_inj (by simpa using kBound) valid.distinct).mp ids)

theorem Bucket.Valid.bump (valid : b.Valid localNode i) {n : Node}
    (placed : logdist localNode.sha n.sha = i) : (b.bump n).2.Valid localNode i := by
  unfold Bucket.bump
  split
  · next j found =>
      obtain ⟨bound, foundId⟩ := Bucket.found_id found
      have length : (b.entries.eraseIdx j).length = b.entries.length - 1 := by
        simp [List.length_eraseIdx, bound]
      refine valid.insert (List.eraseIdx_sublist _ _) placed ?_ (valid.id_ne_of_eraseIdx found) ?_
        (List.Perm.refl _)
      · -- `n` has the ID of an entry, which is not the local node
        rw [← foundId]
        exact valid.notSelf _ (List.getElem_mem bound)
      · have := valid.bounded
        omega
  · exact valid

/-- `replace` keeps the bucket valid for a node of the bucket that is not the local node. -/
theorem Bucket.Valid.replace (valid : b.Valid localNode i) {n : Node}
    (placed : logdist localNode.sha n.sha = i) (notSelf : n.id ≠ localNode.id) (last : Option Node) :
    (b.replace n last).2.Valid localNode i := by
  unfold Bucket.replace
  by_cases present : b.entries.any (·.id == n.id) = true
  · rw [if_pos present]
    exact valid
  rw [if_neg present]
  have fresh := Bucket.fresh_of_any present
  by_cases stale : (b.entries.length == bucketSize && b.lastChanged last) = true
  · rw [if_pos stale]
    exact valid
  rw [if_neg stale]
  have bounded := valid.bounded
  have positive : 0 < bucketSize := by decide
  dsimp only
  split
  · next room => exact valid.insert (List.Sublist.refl _) placed notSelf fresh room (List.Perm.refl _)
  · -- a full bucket: the shift drops its last entry
    refine valid.insert (List.dropLast_sublist _) placed notSelf
      (fun m mem => fresh m ((List.dropLast_sublist _).subset mem)) ?_ (List.Perm.refl _)
    rw [List.length_dropLast]
    omega

theorem Bucket.Valid.uncontest (valid : b.Valid localNode i) (oldest : Node) :
    (b.uncontest oldest).Valid localNode i := by
  refine valid.keys ?_ ?_
  · simp only [List.map_map]
    congr 1
    funext e
    by_cases same : e.id = oldest.id <;> simp [same]
  · simp only [List.map_map]
    congr 1
    funext e
    by_cases same : e.id = oldest.id <;> simp [same]

/-- Setting the flag of an entry keeps the bucket valid. -/
theorem Bucket.Valid.contest (valid : b.Valid localNode i) {j : Nat} {oldest : Node}
    (stored : b.entries[j]? = some oldest) (contested : Bool) :
    Bucket.Valid localNode i ⟨b.entries.set j { oldest with contested }⟩ := by
  obtain ⟨bound, rfl⟩ := List.getElem?_eq_some_iff.mp stored
  refine valid.keys ?_ ?_
  · have unchanged := @List.set_getElem_self _ (b.entries.map Node.id) j (by simpa using bound)
    simpa [List.map_set] using unchanged
  · have unchanged := @List.set_getElem_self _ (b.entries.map Node.sha) j (by simpa using bound)
    simpa [List.map_set] using unchanged

end Bucket

section Table

variable {tab : Table}

@[simp] theorem Table.setBucket_buckets (tab : Table) (i : Nat) (b : Bucket) :
    (tab.setBucket i b).buckets = Function.update tab.buckets i b := rfl

theorem Table.Valid.empty (self : Node) : (Table.empty self).Valid :=
  fun _ => ⟨by simp [Table.empty], by simp [Table.empty], Nat.zero_le _, List.nodup_nil⟩

/-- Writing one bucket valid at its index keeps the table valid. -/
theorem Table.Valid.setBucket (valid : tab.Valid) {i : Nat} {b : Bucket} (bucket : b.Valid tab.self i) :
    (tab.setBucket i b).Valid := by
  intro k
  by_cases same : k = i
  · subst same
    simpa using bucket
  · simpa [Function.update_of_ne same] using valid k

theorem Table.addLocked_self (tab : Table) (new : Node) : (tab.addLocked new).1.self = tab.self := by
  unfold Table.addLocked
  dsimp only
  split
  · rfl
  · split
    · split <;> rfl
    · rfl

/-- The part of `add` before the ping keeps the table valid when the new node is not the local
node. -/
theorem Table.Valid.addLocked (valid : tab.Valid) {new : Node} (notSelf : new.id ≠ tab.self.id) :
    (tab.addLocked new).1.Valid := by
  unfold Table.addLocked
  dsimp only
  split
  · next bumped _ found =>
      have bump := (valid (tab.index new)).bump (n := new) rfl
      rw [found] at bump
      exact valid.setBucket bump
  · split
    · next oldest _ stored =>
        split
        · exact valid
        · exact valid.setBucket ((valid _).contest stored true)
    · exact valid.setBucket ((valid _).replace rfl notSelf none)

theorem Table.addPinged_self (tab : Table) (new oldest : Node) (err : Bool) :
    (tab.addPinged new oldest err).self = tab.self := by
  unfold Table.addPinged
  split <;> rfl

theorem Table.Valid.addPinged (valid : tab.Valid) {new : Node} (notSelf : new.id ≠ tab.self.id)
    (oldest : Node) (err : Bool) : (tab.addPinged new oldest err).Valid := by
  unfold Table.addPinged
  have cleared := valid.setBucket ((valid (tab.index new)).uncontest oldest)
  split
  · exact cleared.setBucket ((cleared _).replace rfl notSelf _)
  · exact cleared

theorem Table.stuffNode_self (tab : Table) (n : Node) : (tab.stuffNode n).self = tab.self := by
  unfold Table.stuffNode
  split
  · rfl
  · dsimp only
    split
    · rfl
    · split <;> rfl

/-- `stuff` checks for the local node itself. -/
theorem Table.Valid.stuffNode (valid : tab.Valid) (n : Node) : (tab.stuffNode n).Valid := by
  unfold Table.stuffNode
  split
  · exact valid
  · next notSelf =>
      dsimp only
      split
      · exact valid
      · next absent =>
          split
          · next room =>
              exact valid.setBucket ((valid _).insert (List.Sublist.refl _) rfl notSelf
                (Bucket.fresh_of_any absent) room (List.perm_append_singleton n _))
          · exact valid

theorem Table.Valid.stuff (valid : tab.Valid) (nodes : List Node) : (tab.stuff nodes).Valid := by
  induction nodes generalizing tab with
  | nil => exact valid
  | cons n rest ih => exact ih (valid.stuffNode n)

theorem Table.stuff_self (tab : Table) (nodes : List Node) : (tab.stuff nodes).self = tab.self := by
  induction nodes generalizing tab with
  | nil => rfl
  | cons n rest ih => exact (ih (tab.stuffNode n)).trans (tab.stuffNode_self n)

theorem Table.delete_self (tab : Table) (node : Node) : (tab.delete node).self = tab.self := by
  unfold Table.delete
  dsimp only
  split <;> rfl

theorem Table.Valid.delete (valid : tab.Valid) (node : Node) : (tab.delete node).Valid := by
  unfold Table.delete
  dsimp only
  split
  · exact valid.setBucket ((valid _).sublist (List.eraseIdx_sublist _ _))
  · exact valid

end Table

section Runs

variable (keccak : List UInt8 → List UInt8)

/-- What `bond` can do: reject the local node, leave the table as it is when it has no node, or
run the first part of an add of the node it has. -/
theorem Table.bond_cases {tab tab' : Table} {id : NodeID} {bonded : Bool}
    {waiting : Option (Node × Node)} (ok : tab.bond keccak id bonded = .ok (tab', waiting)) :
    id ≠ tab.self.id ∧ (tab' = tab ∧ waiting = none ∨ tab' = (tab.addLocked (newNode keccak id)).1 ∧
      waiting = (tab.addLocked (newNode keccak id)).2.map (newNode keccak id, ·)) := by
  unfold Table.bond at ok
  split at ok
  · cases ok
  · next notSelf =>
      refine ⟨notSelf, ?_⟩
      split at ok
      · cases ok
        exact .inr ⟨rfl, rfl⟩
      · cases ok
        exact .inl ⟨rfl, rfl⟩

/-- The table is valid, and no add in flight adds the local node. -/
structure State.Valid (s : State) : Prop where
  table : s.tab.Valid
  pingingOthers : ∀ p ∈ s.pinging, p.1.id ≠ s.tab.self.id

theorem State.Valid.init (self : Node) : (State.init self).Valid :=
  ⟨Table.Valid.empty self, by simp [State.init]⟩

theorem State.step_self (s : State) (op : Op) : (s.step keccak op).tab.self = s.tab.self := by
  cases op with
  | add new => exact s.tab.addLocked_self new
  | bond id bonded =>
      simp only [State.step]
      split
      · next tab waiting ok =>
          obtain ⟨-, ⟨rfl, rfl⟩ | ⟨rfl, rfl⟩⟩ := Table.bond_cases keccak ok
          · rfl
          · exact s.tab.addLocked_self _
      · rfl
  | pong i err =>
      simp only [State.step]
      split
      · exact s.tab.addPinged_self _ _ err
      · rfl
  | stuff nodes => exact s.tab.stuff_self nodes
  | delete node => exact s.tab.delete_self node

/-- One operation keeps the table valid, unless it is an add of the local node. -/
theorem State.Valid.step {s : State} (valid : s.Valid) (op : Op)
    (addsOther : ∀ new, op = .add new → new.id ≠ s.tab.self.id) : (s.step keccak op).Valid := by
  have self := s.step_self keccak op
  refine ⟨?_, ?_⟩
  · cases op with
    | add new => exact valid.table.addLocked (addsOther new rfl)
    | bond id bonded =>
        simp only [State.step]
        split
        · next tab waiting ok =>
            obtain ⟨notSelf, ⟨rfl, rfl⟩ | ⟨rfl, rfl⟩⟩ := Table.bond_cases keccak ok
            · exact valid.table
            · exact valid.table.addLocked notSelf
        · exact valid.table
    | pong i err =>
        simp only [State.step]
        split
        · next new oldest waiting =>
            exact valid.table.addPinged (valid.pingingOthers _ (List.mem_of_getElem? waiting)) oldest err
        · exact valid.table
    | stuff nodes => exact valid.table.stuff nodes
    | delete node => exact valid.table.delete node
  · rw [self]
    cases op with
    | add new =>
        intro p mem
        rcases List.mem_append.mp mem with old | waiting
        · exact valid.pingingOthers p old
        · obtain ⟨oldest, -, rfl⟩ := List.mem_map.mp waiting
          exact addsOther new rfl
    | bond id bonded =>
        simp only [State.step]
        split
        · next tab waiting ok =>
            obtain ⟨notSelf, ⟨rfl, rfl⟩ | ⟨rfl, rfl⟩⟩ := Table.bond_cases keccak ok
            · simpa using valid.pingingOthers
            · intro p mem
              rcases List.mem_append.mp mem with old | waiting
              · exact valid.pingingOthers p old
              · simp only [Option.mem_toList, Option.map_eq_some_iff] at waiting
                obtain ⟨oldest, -, rfl⟩ := waiting
                exact notSelf
        · exact valid.pingingOthers
    | pong i err =>
        simp only [State.step]
        split
        · exact fun p mem => valid.pingingOthers p ((List.eraseIdx_sublist _ _).subset mem)
        · exact valid.pingingOthers
    | stuff nodes => exact valid.pingingOthers
    | delete node => exact valid.pingingOthers

/-- A run keeps the table valid when none of its adds adds the local node: induction on the
operations, with the local node fixed by every step. -/
theorem State.Valid.run {s : State} (valid : s.Valid) (ops : List Op)
    (addsOthers : ∀ new, Op.add new ∈ ops → new.id ≠ s.tab.self.id) : (s.run keccak ops).Valid := by
  induction ops generalizing s with
  | nil => exact valid
  | cons op rest ih =>
      have stepped := valid.step keccak op fun new isAdd => addsOthers new (isAdd ▸ List.mem_cons_self)
      refine ih stepped fun new mem => ?_
      rw [s.step_self keccak op]
      exact addsOthers new (List.mem_cons_of_mem _ mem)

theorem kademlia_table_invariant (self : Node) (ops : List Op)
    (addsOthers : ∀ new, Op.add new ∈ ops → new.id ≠ self.id) :
    ((State.init self).run keccak ops).tab.Valid :=
  ((State.Valid.init self).run keccak ops addsOthers).table

/-- A run of a table whose node IDs are their own hashes: two adds, a bond that reaches a node
and one of the local node, a stuff that offers the local node again, a delete, and a ping
answered for no add in flight. -/
theorem kademlia_table_invariant_run :
    ((State.init (newNode id [0])).run id
      [.add (newNode id [1]), .add (newNode id [3]), .bond [2] true, .bond [0] true,
        .stuff [newNode id [4], newNode id [0]], .delete (newNode id [1]), .pong 0 true]).tab.Valid :=
  kademlia_table_invariant id _ _ (by
    intro new mem
    simp only [List.mem_cons, Op.add.injEq, reduceCtorEq, List.not_mem_nil, or_false] at mem
    rcases mem with rfl | rfl <;> decide)

/-- `add` does not check for the local node, as `bond` and `stuff` do: added to a new table, the
local node is stored in bucket 0. -/
theorem add_stores_local_node (self : Node) :
    self ∈ (((State.init self).run keccak [.add self]).tab.buckets 0).entries := by
  simp [State.run, State.step, State.addLocked, State.init, Table.addLocked, Table.empty,
    Table.index, Bucket.bump, Bucket.replace, Table.setBucket, bucketSize]

/-- With one add of the local node, a new table is no longer valid: the local node is stored. -/
theorem add_local_node_breaks_table :
    ¬((State.init (newNode id [0])).run id [.add (newNode id [0])]).tab.Valid := by
  intro valid
  exact (valid 0).notSelf _ (add_stores_local_node id (newNode id [0])) rfl

end Runs

end Mjoy.Discover
