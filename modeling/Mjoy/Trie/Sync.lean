import Mjoy.Trie.Iterator
import Mjoy.Lib.Prque
import Mjoy.Lib.Table
import Mjoy.Lib.Loop

/-!
The trie sync scheduler, `TrieSync` in `trie/sync.go`. It hands out the hashes of trie nodes it
does not have (`Missing`), takes their data (`Process`), requests the children each node names,
and keeps a node out of the membatch until every child it waits for is in: a request counts its
outstanding children in `deps`, every child lists the requests waiting for it in `parents`, and
`commit` writes a request and releases its parents, committing those that reach zero.

Requests are pointers in the source; here a parent is named by its hash, and the pending requests
are keyed by hash. `Valid` shows the two agree: every parent a pending request names is pending.
The node decoder, Keccak and the leaf callback are parameters; the callback is the one state sync
installs, which attaches sub-tries and raw entries under the leaf's node.
-/

namespace Mjoy.Trie

/-- `request`. -/
structure Request where
  hash : List UInt8
  data : Option (List UInt8)
  raw : Bool
  parents : List (List UInt8)
  depth : Int
  deps : Int
  callback : Bool
  deriving DecidableEq, Repr

/-- A request's record without its links to other requests. -/
def Request.body (r : Request) : Request :=
  { r with parents := [], deps := 0 }

-- Equation lemmas of the definitions above, made once here rather than by the proofs below
-- that unfold them in parallel.
section
attribute [local simp] Request.body
end

theorem Request.data_eq_of_body {r r' : Request} (body : r.body = r'.body) : r.data = r'.data := by
  have same := congrArg Request.data body
  exact same

theorem Request.raw_eq_of_body {r r' : Request} (body : r.body = r'.body) : r.raw = r'.raw := by
  have same := congrArg Request.raw body
  exact same

theorem Request.depth_eq_of_body {r r' : Request} (body : r.body = r'.body) : r.depth = r'.depth := by
  have same := congrArg Request.depth body
  exact same

theorem Request.callback_eq_of_body {r r' : Request} (body : r.body = r'.body) : r.callback = r'.callback := by
  have same := congrArg Request.callback body
  exact same

/-- `SyncResult`. -/
structure SyncResult where
  hash : List UInt8
  data : List UInt8
  deriving DecidableEq, Repr

/-- What the leaf callback of state sync asks for under the leaf's node: a storage trie
(`AddSubTrie(root, depth, parent, nil)`) or code (`AddRawEntry(hash, depth, parent)`). -/
inductive Attach where
  | subTrie (root : List UInt8) (depth : Int)
  | rawEntry (hash : List UInt8) (depth : Int)
  deriving DecidableEq, Repr

inductive SyncError where
  | notRequested
  | alreadyProcessed
  | decode (e : DecodeError)
  | callback (reason : String)
  /-- The panic of `children` on a node that is neither short nor full. -/
  | unknownNode
  /-- The panics of `AddSubTrie` and `AddRawEntry` on a parent that is not pending. -/
  | ancestorNotFound (raw : Bool) (parent : List UInt8)

def SyncError.text : SyncError → String
  | .notRequested => "not requested"
  | .alreadyProcessed => "already processed"
  | .decode .unexpectedEOF => "unexpected EOF"
  | .decode (.msgp reason) => reason
  | .decode .compactKeyPanic => "runtime error: index out of range"
  | .callback reason => reason
  | .unknownNode => "unknown node"
  | .ancestorNotFound false _ => "sub-trie ancestor not found"
  | .ancestorNotFound true _ => "raw-entry ancestor not found"

/-- What the scheduler is given: the msgp reader under `decodeNode`, Keccak, and the leaf
callback, as the sub-tries and raw entries it attaches or its error. -/
structure SyncEnv where
  decodeMsg : List UInt8 → Except String Node
  keccak : List UInt8 → List UInt8
  leaf : List UInt8 → Except String (List Attach)

/-- `TrieSync`, with its membatch (`batch` and `order`) inline. -/
structure TrieSync where
  database : Database
  batch : Table (List UInt8) (List UInt8)
  order : List (List UInt8)
  requests : Table (List UInt8) Request
  queue : Prque (List UInt8)

/-- `emptyState`, set by `init` to the Keccak hash of no bytes. -/
def emptyState (keccak : List UInt8 → List UInt8) : List UInt8 :=
  bytesToHash (keccak [])

namespace TrieSync

variable (env : SyncEnv)

/-- The test of `AddSubTrie` for a trie already in the database: its root decodes to a node. -/
def known (s : TrieSync) (root : List UInt8) : Bool :=
  match decodeNode env.decodeMsg root ((s.database root).getD []) 0 with
  | .ok node => !node.isNil
  | .error _ => false

/-- `schedule`: a request for a hash already pending only adds its parents to the old one. -/
def schedule (s : TrieSync) (req : Request) : TrieSync :=
  match s.requests.get req.hash with
  | some old => { s with requests := s.requests.set req.hash { old with parents := old.parents ++ req.parents } }
  | none => { s with queue := s.queue.push req.hash req.depth, requests := s.requests.set req.hash req }

/-- The end of `AddSubTrie` and `AddRawEntry`: a parent other than the zero hash has its counter
raised and becomes the request's parent, then the request is scheduled. -/
def link (s : TrieSync) (req : Request) (parent : List UInt8) : Except SyncError TrieSync :=
  if parent ≠ zeroHash then
    match s.requests.get parent with
    | none => .error (.ancestorNotFound req.raw parent)
    | some ancestor =>
        .ok ((({ s with requests := s.requests.set parent { ancestor with deps := ancestor.deps + 1 } } : TrieSync)).schedule
          { req with parents := req.parents ++ [parent] })
  else .ok (s.schedule req)

/-- `AddSubTrie`. -/
def addSubTrie (s : TrieSync) (root : List UInt8) (depth : Int) (parent : List UInt8) (callback : Bool) :
    Except SyncError TrieSync :=
  if root = emptyRoot then .ok s
  else if s.batch.contains root then .ok s
  else if s.known env root then .ok s
  else s.link ⟨root, none, false, [], depth, 0, callback⟩ parent

/-- `AddRawEntry`. -/
def addRawEntry (s : TrieSync) (hash : List UInt8) (depth : Int) (parent : List UInt8) : Except SyncError TrieSync :=
  if hash = emptyState env.keccak then .ok s
  else if s.batch.contains hash then .ok s
  else if (s.database hash).isSome then .ok s
  else s.link ⟨hash, none, true, [], depth, 0, false⟩ parent

/-- What the callback asks for, attached under `parent`. -/
def attach (s : TrieSync) (parent : List UInt8) : Attach → Except SyncError TrieSync
  | .subTrie root depth => s.addSubTrie env root depth parent false
  | .rawEntry hash depth => s.addRawEntry env hash depth parent

/-- The leaf callback on a value child, when the request has one. -/
def notify (s : TrieSync) (req : Request) (child : Node) : Except SyncError TrieSync :=
  match child with
  | .valueNode leaf =>
      if req.callback then
        match env.leaf leaf with
        | .error reason => .error (.callback reason)
        | .ok attached => attached.foldlM (fun s a => s.attach env req.hash a) s
      else .ok s
  | _ => .ok s

/-- The children `children` gathers, with their depths: a short node's value, or a full node's
children that are not nil. `none` on any other node. -/
def childList (req : Request) : Node → Option (List (Node × Int))
  | .shortNode key val _ => some [(val, req.depth + key.length)]
  | .fullNode children _ =>
      some ((List.finRange 17).filterMap fun i => if (children i).isNil then none else some (children i, req.depth + 1))
  | _ => none

/-- The loop of `children` over the gathered children: the callback on each value child, then a
request for each hash child that is neither in the membatch nor in the database. On an error the
state is what the earlier callbacks left. -/
def gather (req : Request) : TrieSync → List Request → List (Node × Int) → TrieSync × Except SyncError (List Request)
  | s, acc, [] => (s, .ok acc)
  | s, acc, (child, depth) :: rest =>
      match s.notify env req child with
      | .error e => (s, .error e)
      | .ok s =>
          match child with
          | .hashNode node =>
              let hash := bytesToHash node
              if s.batch.contains hash ∨ (s.database node).isSome then gather req s acc rest
              else gather req s (acc ++ [⟨hash, none, false, [req.hash], depth, 0, req.callback⟩]) rest
          | _ => gather req s acc rest

/-- `children`. -/
def children (s : TrieSync) (req : Request) (node : Node) : TrieSync × Except SyncError (List Request) :=
  match childList req node with
  | none => (s, .error .unknownNode)
  | some kids => gather env req s [] kids

/-- The first lines of `commit`: the request's data goes into the membatch and it stops being
pending. -/
def store (s : TrieSync) (req : Request) : TrieSync :=
  { s with batch := s.batch.set req.hash (req.data.getD []), order := s.order ++ [req.hash],
           requests := s.requests.remove req.hash }

/-- One round of the loop of `commit` over the parents: the parent's counter goes down, and
`commit` commits it when it reaches zero. -/
def releaseWith (commit : TrieSync → Request → TrieSync) (s : TrieSync) (p : List UInt8) : TrieSync :=
  match s.requests.get p with
  | none => s
  | some parent =>
      let parent := { parent with deps := parent.deps - 1 }
      let s := { s with requests := s.requests.set p parent }
      if parent.deps = 0 then commit s parent else s

/-- `commit`. Every nested call stores a pending request, so `fuel` above the number of pending
requests is never used up (`commitFuel_enough`). -/
def commitFuel : Nat → TrieSync → Request → TrieSync
  | 0, s, _ => s
  | fuel + 1, s, req => req.parents.foldl (releaseWith (commitFuel fuel)) (s.store req)

def commit (s : TrieSync) (req : Request) : TrieSync :=
  commitFuel (s.requests.length + 1) s req

/-- One result of `Process`: whether it committed, or the error that stops the batch. -/
def processItem (s : TrieSync) (item : SyncResult) : TrieSync × Except SyncError Bool :=
  match s.requests.get item.hash with
  | none => (s, .error .notRequested)
  | some request =>
      if request.data.isSome then (s, .error .alreadyProcessed)
      else if request.raw then (s.commit { request with data := some item.data }, .ok true)
      else
        match decodeNode env.decodeMsg item.hash item.data 0 with
        | .error e => (s, .error (.decode e))
        | .ok node =>
            let request := { request with data := some item.data }
            let s := { s with requests := s.requests.set item.hash request }
            match s.children env request node with
            | (s, .error e) => (s, .error e)
            | (s, .ok requests) =>
                -- the callback may have raised the counter of the request being processed
                let request := (s.requests.get item.hash).getD request
                if requests.length = 0 ∧ request.deps = 0 then (s.commit request, .ok true)
                else
                  let s := { s with requests := s.requests.set item.hash { request with deps := request.deps + requests.length } }
                  (requests.foldl schedule s, .ok false)

/-- The loop of `Process`: whether anything was committed, and the index and error of the result
that stopped it. -/
def processLoop : TrieSync → Bool → Nat → List SyncResult → TrieSync × Bool × Nat × Option SyncError
  | s, committed, _, [] => (s, committed, 0, none)
  | s, committed, i, item :: rest =>
      match s.processItem env item with
      | (s, .error e) => (s, committed, i, some e)
      | (s, .ok c) => processLoop s (committed || c) (i + 1) rest

/-- `Process`. -/
def process (s : TrieSync) (results : List SyncResult) : TrieSync × Bool × Nat × Option SyncError :=
  s.processLoop env false 0 results

/-- The loop of `Missing`: items popped while the queue has any and fewer than `max` are taken,
`max = 0` taking all. Every round pops one, so the size of the queue is enough fuel. -/
def missingLoop (max : Nat) : Nat → Prque (List UInt8) → List (List UInt8) → Prque (List UInt8) × List (List UInt8)
  | 0, q, acc => (q, acc)
  | fuel + 1, q, acc =>
      if max = 0 ∨ acc.length < max then
        match q.pop with
        | none => (q, acc)
        | some ((hash, _), q) => missingLoop max fuel q (acc ++ [hash])
      else (q, acc)

/-- `Missing`. -/
def missing (s : TrieSync) (max : Nat) : TrieSync × List (List UInt8) :=
  let popped := missingLoop max s.queue.size s.queue []
  ({ s with queue := popped.1 }, popped.2)

/-- `Commit(dbw)`: the membatch written in order, then emptied. -/
def commitBatch (s : TrieSync) (dbw : Database) : Database × Nat × TrieSync :=
  (s.order.foldl (fun db key => db.put key ((s.batch.get key).getD [])) dbw, s.order.length,
    { s with batch := [], order := [] })

/-- `Pending`. -/
def pending (s : TrieSync) : Nat :=
  s.requests.length

section
attribute [local simp] known schedule link addSubTrie addRawEntry attach notify childList gather children store releaseWith commitFuel commit processItem missingLoop missing pending
end

/-! ### What each operation changes -/

section Frame

variable {env : SyncEnv}

/-- The operations below `Process` that only touch the pending requests and the queue. -/
structure SameStore (s s' : TrieSync) : Prop where
  database : s'.database = s.database
  batch : s'.batch = s.batch
  order : s'.order = s.order

theorem SameStore.refl (s : TrieSync) : SameStore s s :=
  ⟨rfl, rfl, rfl⟩

theorem SameStore.trans {s₁ s₂ s₃ : TrieSync} (a : SameStore s₁ s₂) (b : SameStore s₂ s₃) : SameStore s₁ s₃ :=
  ⟨b.database.trans a.database, b.batch.trans a.batch, b.order.trans a.order⟩

theorem sameStore_schedule (s : TrieSync) (req : Request) : SameStore s (s.schedule req) := by
  unfold schedule
  split <;> exact ⟨rfl, rfl, rfl⟩

theorem schedule_requests_of_get {s : TrieSync} {req old : Request} (found : s.requests.get req.hash = some old) :
    (s.schedule req).requests = s.requests.set req.hash { old with parents := old.parents ++ req.parents } := by
  simp [schedule, found]

theorem schedule_requests_of_get_eq_none {s : TrieSync} {req : Request} (absent : s.requests.get req.hash = none) :
    (s.schedule req).requests = s.requests.set req.hash req := by
  simp [schedule, absent]

theorem schedule_queue_of_get_eq_none {s : TrieSync} {req : Request} (absent : s.requests.get req.hash = none) :
    (s.schedule req).queue = s.queue.push req.hash req.depth := by
  simp [schedule, absent]

theorem schedule_queue_of_get {s : TrieSync} {req old : Request} (found : s.requests.get req.hash = some old) :
    (s.schedule req).queue = s.queue := by
  simp [schedule, found]

/-- `link` either panics on a missing ancestor or raises it and schedules. -/
theorem link_ok {s s' : TrieSync} {req : Request} {parent : List UInt8} (linked : s.link req parent = .ok s') :
    (parent = zeroHash ∧ s' = s.schedule req) ∨
      ∃ ancestor, parent ≠ zeroHash ∧ s.requests.get parent = some ancestor ∧
        s' = ({ s with requests := s.requests.set parent { ancestor with deps := ancestor.deps + 1 } } : TrieSync).schedule
          { req with parents := req.parents ++ [parent] } := by
  unfold link at linked
  split at linked
  · rename_i nonzero
    split at linked
    · cases linked
    · rename_i ancestor found
      cases linked
      exact .inr ⟨ancestor, nonzero, found, rfl⟩
  · rename_i zero
    cases linked
    exact .inl ⟨not_not.mp zero, rfl⟩

theorem sameStore_link {s s' : TrieSync} {req : Request} {parent : List UInt8} (linked : s.link req parent = .ok s') :
    SameStore s s' := by
  rcases link_ok linked with ⟨-, rfl⟩ | ⟨ancestor, -, -, rfl⟩
  · exact sameStore_schedule s req
  · refine SameStore.trans ?_ (sameStore_schedule _ _)
    exact ⟨rfl, rfl, rfl⟩

/-- `AddSubTrie` and `AddRawEntry` return at once on what is in, or link a fresh request. -/
theorem addSubTrie_ok {s s' : TrieSync} {root parent : List UInt8} {depth : Int} {callback : Bool}
    (added : s.addSubTrie env root depth parent callback = .ok s') :
    s' = s ∨ (root ≠ emptyRoot ∧ s.batch.contains root = false ∧ s.known env root = false ∧
      s.link ⟨root, none, false, [], depth, 0, callback⟩ parent = .ok s') := by
  unfold addSubTrie at added
  split at added
  · exact .inl (Except.ok.inj added).symm
  split at added
  · exact .inl (Except.ok.inj added).symm
  split at added
  · exact .inl (Except.ok.inj added).symm
  rename_i emptyNe inBatch isKnown
  exact .inr ⟨emptyNe, by simpa using inBatch, by simpa using isKnown, added⟩

theorem addRawEntry_ok {s s' : TrieSync} {hash parent : List UInt8} {depth : Int}
    (added : s.addRawEntry env hash depth parent = .ok s') :
    s' = s ∨ (hash ≠ emptyState env.keccak ∧ s.batch.contains hash = false ∧ s.database hash = none ∧
      s.link ⟨hash, none, true, [], depth, 0, false⟩ parent = .ok s') := by
  unfold addRawEntry at added
  split at added
  · exact .inl (Except.ok.inj added).symm
  split at added
  · exact .inl (Except.ok.inj added).symm
  split at added
  · exact .inl (Except.ok.inj added).symm
  rename_i emptyNe inBatch inDatabase
  exact .inr ⟨emptyNe, by simpa using inBatch, by simpa using inDatabase, added⟩

/-- What the operations below `Process` do to the pending requests: none goes away, and each keeps
its record but for its counter and its parents, which only grow. -/
def Extends (t t' : Table (List UInt8) Request) : Prop :=
  ∀ h r, t.get h = some r → ∃ r', t'.get h = some r' ∧ r'.body = r.body ∧ r.parents <+: r'.parents

theorem Extends.refl (t : Table (List UInt8) Request) : Extends t t :=
  fun _ _ found => ⟨_, found, rfl, List.prefix_refl _⟩

theorem Extends.trans {t₁ t₂ t₃ : Table (List UInt8) Request} (a : Extends t₁ t₂) (b : Extends t₂ t₃) :
    Extends t₁ t₃ := by
  intro h r found
  obtain ⟨r₂, found₂, body₂, grown₂⟩ := a h r found
  obtain ⟨r₃, found₃, body₃, grown₃⟩ := b h r₂ found₂
  exact ⟨r₃, found₃, body₃.trans body₂, grown₂.trans grown₃⟩

/-- Writing a pending request with a new counter and more parents. -/
theorem extends_set {t : Table (List UInt8) Request} {k : List UInt8} {r r' : Request} (found : t.get k = some r)
    (body : r'.body = r.body) (grown : r.parents <+: r'.parents) : Extends t (t.set k r') := by
  intro h q got
  by_cases same : h = k
  · subst same
    rw [found] at got
    cases got
    exact ⟨r', by simp, body, grown⟩
  · exact ⟨q, by simp [same, got], rfl, List.prefix_refl _⟩

theorem extends_schedule (s : TrieSync) (req : Request) : Extends s.requests (s.schedule req).requests := by
  cases found : s.requests.get req.hash with
  | some old =>
      rw [schedule_requests_of_get found]
      exact extends_set found (by rfl) (List.prefix_append _ _)
  | none =>
      rw [schedule_requests_of_get_eq_none found]
      intro h q got
      have other : h ≠ req.hash := by
        rintro rfl
        rw [found] at got
        cases got
      exact ⟨q, by simp [other, got], rfl, List.prefix_refl _⟩

theorem extends_link {s s' : TrieSync} {req : Request} {parent : List UInt8} (linked : s.link req parent = .ok s') :
    Extends s.requests s'.requests := by
  rcases link_ok linked with ⟨-, rfl⟩ | ⟨ancestor, -, found, rfl⟩
  · exact extends_schedule s req
  · have raised : Extends s.requests (s.requests.set parent { ancestor with deps := ancestor.deps + 1 }) :=
      extends_set found rfl (List.prefix_refl _)
    exact raised.trans (extends_schedule { s with requests := s.requests.set parent { ancestor with deps := ancestor.deps + 1 } } _)

theorem extends_attach {s s' : TrieSync} {parent : List UInt8} {a : Attach} (attached : s.attach env parent a = .ok s') :
    Extends s.requests s'.requests ∧ SameStore s s' := by
  cases a with
  | subTrie root depth =>
      rcases addSubTrie_ok attached with rfl | ⟨-, -, -, linked⟩
      · exact ⟨Extends.refl _, SameStore.refl _⟩
      · exact ⟨extends_link linked, sameStore_link linked⟩
  | rawEntry hash depth =>
      rcases addRawEntry_ok attached with rfl | ⟨-, -, -, linked⟩
      · exact ⟨Extends.refl _, SameStore.refl _⟩
      · exact ⟨extends_link linked, sameStore_link linked⟩

/-- Whatever every attachment keeps, the leaf callback keeps. -/
theorem notify_invariant (P : TrieSync → Prop) {req : Request}
    (attachKeeps : ∀ {s s' a}, P s → s.attach env req.hash a = .ok s' → P s')
    {s s' : TrieSync} {child : Node} (holds : P s) (notified : s.notify env req child = .ok s') : P s' := by
  unfold notify at notified
  split at notified
  · split at notified
    · split at notified
      · cases notified
      · rename_i attached _
        exact Loop.foldlM_ok_invariant _ (fun _ s => P s) (fun _ _ _ _ holds step => attachKeeps holds step)
          attached [] holds notified
    · cases notified
      exact holds
  · cases notified
    exact holds

/-- Whatever the leaf callback keeps, `gather` keeps, up to an error too. -/
theorem gather_invariant (P : TrieSync → Prop) {req : Request}
    (notifyKeeps : ∀ {s s' child}, P s → s.notify env req child = .ok s' → P s') :
    ∀ (kids : List (Node × Int)) {s : TrieSync} {acc : List Request}, P s → P (gather env req s acc kids).1
  | [], _, _, holds => holds
  | (child, depth) :: rest, s, acc, holds => by
      unfold gather
      split
      · exact holds
      · rename_i s' notified
        have kept := notifyKeeps holds notified
        dsimp only
        split
        · split
          · exact gather_invariant P notifyKeeps rest kept
          · exact gather_invariant P notifyKeeps rest kept
        · exact gather_invariant P notifyKeeps rest kept

/-- The other half of `Extends`: every request processed after was processed before, with the same
record but for its links. -/
def OnlyProcessed (t t' : Table (List UInt8) Request) : Prop :=
  ∀ h r', t'.get h = some r' → r'.data.isSome → ∃ r, t.get h = some r ∧ r.body = r'.body

theorem OnlyProcessed.refl (t : Table (List UInt8) Request) : OnlyProcessed t t :=
  fun _ _ found _ => ⟨_, found, rfl⟩

theorem OnlyProcessed.trans {t₁ t₂ t₃ : Table (List UInt8) Request} (a : OnlyProcessed t₁ t₂)
    (b : OnlyProcessed t₂ t₃) : OnlyProcessed t₁ t₃ := by
  intro h r₃ found₃ processed
  obtain ⟨r₂, found₂, body₂⟩ := b h r₃ found₃ processed
  have processed₂ : r₂.data.isSome := by
    rw [Request.data_eq_of_body body₂]
    exact processed
  obtain ⟨r₁, found₁, body₁⟩ := a h r₂ found₂ processed₂
  exact ⟨r₁, found₁, body₁.trans body₂⟩

theorem onlyProcessed_set {t : Table (List UInt8) Request} {k : List UInt8} {r r' : Request}
    (fresh : t.get k = some r ∧ r'.body = r.body ∨ r'.data = none) : OnlyProcessed t (t.set k r') := by
  intro h q got processed
  by_cases same : h = k
  · subst same
    simp only [Table.get_set, if_true, Option.some.injEq] at got
    subst got
    rcases fresh with ⟨found, body⟩ | unprocessed
    · exact ⟨r, found, body.symm⟩
    · simp [unprocessed] at processed
  · exact ⟨q, by simpa [same] using got, rfl⟩

theorem onlyProcessed_schedule (s : TrieSync) {req : Request} (fresh : req.data = none) :
    OnlyProcessed s.requests (s.schedule req).requests := by
  cases found : s.requests.get req.hash with
  | some old =>
      rw [schedule_requests_of_get found]
      exact onlyProcessed_set (.inl ⟨found, rfl⟩)
  | none =>
      rw [schedule_requests_of_get_eq_none found]
      exact onlyProcessed_set (r := req) (.inr fresh)

theorem onlyProcessed_link {s s' : TrieSync} {req : Request} {parent : List UInt8} (fresh : req.data = none)
    (linked : s.link req parent = .ok s') : OnlyProcessed s.requests s'.requests := by
  rcases link_ok linked with ⟨-, rfl⟩ | ⟨ancestor, -, found, rfl⟩
  · exact onlyProcessed_schedule s fresh
  · have raised : OnlyProcessed s.requests (s.requests.set parent { ancestor with deps := ancestor.deps + 1 }) :=
      onlyProcessed_set (.inl ⟨found, rfl⟩)
    exact raised.trans (onlyProcessed_schedule { s with requests := s.requests.set parent { ancestor with deps := ancestor.deps + 1 } } fresh)

/-- Everything an attachment changes: the pending requests grow, with keys not in the membatch,
and nothing else moves. -/
structure Grows (s s' : TrieSync) : Prop where
  store : SameStore s s'
  extend : Extends s.requests s'.requests
  only : OnlyProcessed s.requests s'.requests
  fresh : ∀ k, (s'.requests.get k).isSome → (s.requests.get k).isSome ∨ s.batch.contains k = false

theorem Grows.refl (s : TrieSync) : Grows s s :=
  ⟨SameStore.refl s, Extends.refl _, OnlyProcessed.refl _, fun _ pending => .inl pending⟩

theorem Grows.trans {s₁ s₂ s₃ : TrieSync} (a : Grows s₁ s₂) (b : Grows s₂ s₃) : Grows s₁ s₃ := by
  refine ⟨a.store.trans b.store, a.extend.trans b.extend, a.only.trans b.only, ?_⟩
  intro k pending
  rcases b.fresh k pending with before | notIn
  · exact a.fresh k before
  · rw [a.store.batch] at notIn
    exact .inr notIn

theorem grows_schedule (s : TrieSync) {req : Request} (fresh : req.data = none) (notIn : s.batch.contains req.hash = false) :
    Grows s (s.schedule req) := by
  refine ⟨sameStore_schedule s req, extends_schedule s req, onlyProcessed_schedule s fresh, ?_⟩
  intro k pending
  by_cases same : k = req.hash
  · exact .inr (same ▸ notIn)
  · left
    unfold schedule at pending
    split at pending <;> simpa [same] using pending

/-- Writing a pending request with a new counter and more parents. -/
theorem grows_set {s : TrieSync} {k : List UInt8} {r r' : Request} (found : s.requests.get k = some r)
    (body : r'.body = r.body) (grown : r.parents <+: r'.parents) :
    Grows s { s with requests := s.requests.set k r' } := by
  refine ⟨⟨rfl, rfl, rfl⟩, extends_set found body grown, onlyProcessed_set (.inl ⟨found, body⟩), ?_⟩
  intro key pending
  by_cases same : key = k
  · subst same
    simp [found]
  · exact .inl (by simpa [same] using pending)

theorem grows_link {s s' : TrieSync} {req : Request} {parent : List UInt8} (fresh : req.data = none)
    (notIn : s.batch.contains req.hash = false) (linked : s.link req parent = .ok s') : Grows s s' := by
  rcases link_ok linked with ⟨-, rfl⟩ | ⟨ancestor, -, found, rfl⟩
  · exact grows_schedule s fresh notIn
  · have raised : Grows s { s with requests := s.requests.set parent { ancestor with deps := ancestor.deps + 1 } } :=
      grows_set found rfl (List.prefix_refl _)
    exact raised.trans (grows_schedule _ fresh notIn)

theorem grows_addSubTrie {s s' : TrieSync} {root parent : List UInt8} {depth : Int} {callback : Bool}
    (added : s.addSubTrie env root depth parent callback = .ok s') : Grows s s' := by
  rcases addSubTrie_ok added with rfl | ⟨-, notIn, -, linked⟩
  · exact Grows.refl _
  · exact grows_link rfl notIn linked

theorem grows_addRawEntry {s s' : TrieSync} {hash parent : List UInt8} {depth : Int}
    (added : s.addRawEntry env hash depth parent = .ok s') : Grows s s' := by
  rcases addRawEntry_ok added with rfl | ⟨-, notIn, -, linked⟩
  · exact Grows.refl _
  · exact grows_link rfl notIn linked

theorem grows_attach {s s' : TrieSync} {parent : List UInt8} {a : Attach} (attached : s.attach env parent a = .ok s') :
    Grows s s' := by
  cases a with
  | subTrie root depth => exact grows_addSubTrie attached
  | rawEntry hash depth => exact grows_addRawEntry attached

theorem grows_notify {s s' : TrieSync} {req : Request} {child : Node} (notified : s.notify env req child = .ok s') :
    Grows s s' :=
  notify_invariant (fun s' => Grows s s') (fun grown attached => grown.trans (grows_attach attached)) (Grows.refl s)
    notified

theorem grows_gather {req : Request} (kids : List (Node × Int)) {s : TrieSync} {acc : List Request} :
    Grows s (gather env req s acc kids).1 :=
  gather_invariant (fun s' => Grows s s') (fun grown notified => grown.trans (grows_notify notified)) kids (Grows.refl s)

/-- Scheduling fresh requests for keys not in the membatch, one after another. -/
theorem grows_foldl_schedule :
    ∀ (requests : List Request) {s : TrieSync}, (∀ q ∈ requests, q.data = none ∧ s.batch.contains q.hash = false) →
      Grows s (requests.foldl schedule s)
  | [], s, _ => Grows.refl s
  | q :: rest, s, fresh => by
      rw [List.foldl_cons]
      have first := grows_schedule s (fresh q (by simp)).1 (fresh q (by simp)).2
      refine first.trans (grows_foldl_schedule rest ?_)
      intro q' mem
      rw [first.store.batch]
      exact fresh q' (by simp [mem])

/-- The requests `gather` makes are fresh, with the node being processed as their one parent. -/
theorem gather_requests {req : Request} :
    ∀ (kids : List (Node × Int)) {s s' : TrieSync} {acc requests : List Request},
      gather env req s acc kids = (s', .ok requests) →
        ∃ more, requests = acc ++ more ∧ ∀ q ∈ more, q.data = none ∧ q.deps = 0 ∧ q.parents = [req.hash]
  | [], _, _, _, _, gathered => by
      cases gathered
      exact ⟨[], by simp, by simp⟩
  | (child, depth) :: rest, s, s', acc, requests, gathered => by
      unfold gather at gathered
      split at gathered
      · cases gathered
      · dsimp only at gathered
        split at gathered
        · split at gathered
          · exact gather_requests rest gathered
          · rename_i node _ _
            obtain ⟨more, rfl, fresh⟩ := gather_requests rest gathered
            refine ⟨⟨bytesToHash node, none, false, [req.hash], depth, 0, req.callback⟩ :: more, by simp, ?_⟩
            intro q mem
            rcases List.mem_cons.mp mem with rfl | later
            · exact ⟨rfl, rfl, rfl⟩
            · exact fresh q later
        · exact gather_requests rest gathered

theorem children_ok {s s' : TrieSync} {req : Request} {node : Node} {requests : List Request}
    (gathered : s.children env req node = (s', .ok requests)) :
    ∃ kids, childList req node = some kids ∧ gather env req s [] kids = (s', .ok requests) := by
  unfold children at gathered
  split at gathered
  · cases gathered
  · rename_i kids listed
    exact ⟨kids, listed, gathered⟩

/-- What a result that `Process` accepts does: a raw entry is committed at once; a node is
decoded, its children are requested, and it is committed when it waits for nothing. -/
theorem processItem_ok {s s' : TrieSync} {item : SyncResult} {c : Bool}
    (processed : s.processItem env item = (s', .ok c)) :
    ∃ r, s.requests.get item.hash = some r ∧ r.data = none ∧
      ((r.raw = true ∧ s' = s.commit { r with data := some item.data }) ∨
       ∃ node s₁ requests, r.raw = false ∧ decodeNode env.decodeMsg item.hash item.data 0 = .ok node ∧
         ({ s with requests := s.requests.set item.hash { r with data := some item.data } } : TrieSync).children env
           { r with data := some item.data } node = (s₁, .ok requests) ∧
         let r₁ := (s₁.requests.get item.hash).getD { r with data := some item.data }
         ((requests.length = 0 ∧ r₁.deps = 0 ∧ s' = s₁.commit r₁) ∨
          (¬(requests.length = 0 ∧ r₁.deps = 0) ∧
            s' = requests.foldl schedule { s₁ with requests := s₁.requests.set item.hash { r₁ with deps := r₁.deps + requests.length } }))) := by
  unfold processItem at processed
  split at processed
  · cases processed
  rename_i r found
  refine ⟨r, found, ?_⟩
  split at processed
  · cases processed
  rename_i unprocessed
  refine ⟨by simpa using unprocessed, ?_⟩
  split at processed
  · rename_i raw
    exact .inl ⟨by simpa using raw, (congrArg Prod.fst processed).symm⟩
  rename_i notRaw
  split at processed
  · cases processed
  rename_i node decoded
  dsimp only at processed
  split at processed
  · cases processed
  rename_i s₁ requests gathered
  refine .inr ⟨node, s₁, requests, by simpa using notRaw, decoded, gathered, ?_⟩
  split at processed
  · rename_i done
    exact .inl ⟨done.1, done.2, (congrArg Prod.fst processed).symm⟩
  · rename_i waiting
    exact .inr ⟨waiting, (congrArg Prod.fst processed).symm⟩

end Frame

/-! ### `Missing` and the size of `commit` -/

section Missing

/-- The loop of `Missing` takes items off the queue best first, as many as it may: all of them
when `max` is zero, else up to `max` in all. -/
theorem missingLoop_spec (max : Nat) :
    ∀ (fuel : Nat) (q : Prque (List UInt8)) (acc : List (List UInt8)), q.size ≤ fuel → (max = 0 ∨ acc.length ≤ max) →
      ∃ taken : List (List UInt8 × Int),
        (missingLoop max fuel q acc).2 = acc ++ taken.map Prod.fst ∧
        q.items.Perm (taken ++ (missingLoop max fuel q acc).1.items) ∧
        taken.length = (if max = 0 then q.size else min (max - acc.length) q.size) ∧
        taken.Pairwise (fun a b => b.2 ≤ a.2) ∧
        ∀ a ∈ taken, ∀ b ∈ (missingLoop max fuel q acc).1.items, b.2 ≤ a.2
  | 0, q, acc, small, _ => by
      have empty : q.items = [] := List.eq_nil_of_length_eq_zero (Nat.le_zero.mp small)
      refine ⟨[], by simp [missingLoop], by simp [missingLoop, empty], ?_, by simp, by simp⟩
      simp [Prque.size, empty]
  | fuel + 1, q, acc, small, room => by
      unfold missingLoop
      split
      · rename_i more
        split
        · rename_i none
          have empty : q.items = [] := Prque.pop_eq_none.mp none
          refine ⟨[], by simp, by simp [empty], ?_, by simp, by simp⟩
          simp [Prque.size, empty]
        · rename_i hash priority q' popped
          obtain ⟨perm, best⟩ := Prque.pop_spec popped
          have size : q'.size + 1 = q.size := by
            simp [Prque.size, perm.length_eq]
          obtain ⟨taken, out, perm', length, sorted, above⟩ :=
            missingLoop_spec max fuel q' (acc ++ [hash]) (by omega) (by simp; omega)
          -- what is taken later was in the queue when this item was the best of it
          have later : ∀ b ∈ taken ++ (missingLoop max fuel q' (acc ++ [hash])).1.items, b.2 ≤ priority := by
            intro b mem
            exact best b (perm.symm.subset (List.mem_cons_of_mem _ (perm'.symm.subset mem)))
          refine ⟨(hash, priority) :: taken, by simp [out], ?_, ?_, ?_, ?_⟩
          · exact perm.trans (List.Perm.cons _ perm')
          · rw [List.length_cons, length]
            split <;> simp_all <;> omega
          · exact List.Pairwise.cons (fun b mem => later b (List.mem_append_left _ mem)) sorted
          · intro a mem b rest
            rcases List.mem_cons.mp mem with rfl | earlier
            · exact later b (List.mem_append_right _ rest)
            · exact above a earlier b rest
      · rename_i full
        have none : max - acc.length = 0 := by omega
        refine ⟨[], by simp, by simp, ?_, by simp, by simp⟩
        simp only [List.length_nil]
        split <;> simp_all

/-- `Missing(max)`: the hashes of the best `max` queued requests, or of all of them when `max` is
zero, each at least as deep as every request left queued and as every one handed out after it. -/
theorem missing_spec (s : TrieSync) (max : Nat) :
    ∃ taken : List (List UInt8 × Int),
      (s.missing max).2 = taken.map Prod.fst ∧
      s.queue.items.Perm (taken ++ (s.missing max).1.queue.items) ∧
      taken.length = (if max = 0 then s.queue.size else min max s.queue.size) ∧
      taken.Pairwise (fun a b => b.2 ≤ a.2) ∧
      ∀ a ∈ taken, ∀ b ∈ (s.missing max).1.queue.items, b.2 ≤ a.2 := by
  obtain ⟨taken, out, perm, length, sorted, above⟩ := missingLoop_spec max s.queue.size s.queue [] le_rfl (by simp)
  exact ⟨taken, by simpa [missing] using out, perm, by simpa using length, sorted, above⟩

end Missing

/-- `commit` never adds a pending request. -/
theorem length_commitFuel_le (fuel : Nat) :
    ∀ (s : TrieSync) (req : Request), (s.commitFuel fuel req).requests.length ≤ s.requests.length := by
  induction fuel with
  | zero => intro s req; exact le_rfl
  | succ fuel ih =>
      intro s req
      have stored : (s.store req).requests.length ≤ s.requests.length := Table.length_remove_le _ _
      refine Loop.foldl_invariant _ (fun _ (acc : TrieSync) => acc.requests.length ≤ s.requests.length) req.parents
        ?_ stored
      intro done p rest acc _ small
      unfold releaseWith
      split
      · exact small
      · rename_i parent found
        have lowered := Table.length_set_le found { parent with deps := parent.deps - 1 }
        dsimp only
        split
        · exact (ih _ _).trans (lowered.trans small)
        · exact lowered.trans small

end TrieSync

/-- `NewTrieSync`: the root's sub-trie added with no parent, which never panics. -/
def newTrieSync (env : SyncEnv) (root : List UInt8) (database : Database) (callback : Bool) : TrieSync :=
  let s : TrieSync := ⟨database, [], [], [], Prque.empty⟩
  match s.addSubTrie env root 0 zeroHash callback with
  | .ok s => s
  | .error _ => s

section
attribute [local simp] newTrieSync
end

end Mjoy.Trie
