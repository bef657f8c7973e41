import Mjoy.Trie.Trie

/-!
The node iterator of `trie/iterator.go`: a walk over the nodes of a trie in pre-order. The
iterator keeps a stack of the nodes it is inside, each with the child it took last, and loads
a hash node from the database when it reaches it. A load that fails is reported by `Next`, or
by the seek that places a new iterator, and the iterator is left so that, once the node is back
in the database, the next `Next` carries on where the walk was: the nodes yielded before and
after the error are those of a walk that never failed (`nodeIterator_resumes`).

`trie.Hash()` is the parameter `rootHash`: the walk never changes the trie, so every call of
it answers the same. The seek loop of the source has no bound; the model's (`seekFuel`) is the
number of rounds past which it gives up with `outOfFuel`.
-/

namespace Mjoy.Trie

open KeyValue

/-- `types.BytesToHash(b)`: the last 32 bytes of `b`, zero-filled in front. -/
def bytesToHash (b : List UInt8) : List UInt8 :=
  List.replicate (32 - b.length) 0 ++ b.drop (b.length - 32)

/-- `bytes.Compare(a, b)`: the lexicographic order of byte strings. -/
def compareBytes : List UInt8 → List UInt8 → Ordering
  | [], [] => .eq
  | [], _ :: _ => .lt
  | _ :: _, [] => .gt
  | a :: as, b :: bs => if a < b then .lt else if b < a then .gt else compareBytes as bs

/-- `nodeIteratorState`: a node of the walk; the hash it is stored under (zero when it is not
stored on its own); the hash of its nearest stored ancestor; the child it took last; and the
length of the path to it. -/
structure IteratorState where
  hash : List UInt8
  node : Node
  parent : List UInt8
  index : Int
  pathlen : Nat

/-- What `nodeIterator.err` holds besides nil. -/
inductive IteratorError where
  /-- `iteratorEnd`: the walk is over. -/
  | iteratorEnd
  /-- `seekError{key, err}`: the seek to `key` failed, and `Next` seeks again. -/
  | seekError (key : List UInt8) (err : Failure)
  /-- The error of loading the next node. -/
  | failed (err : Failure)

/-- `nodeIterator`, with the stack innermost first. The trie is nil in the iterator that
`newNodeIterator` makes for the empty state. -/
structure NodeIterator where
  trie : Option Trie
  stack : List IteratorState
  path : List UInt8
  err : Option IteratorError

/-- What `peek` answers: the next state, whether its parent is on the stack (so that `push`
moves the parent's index on), and its path; or `iteratorEnd`; or the error of loading it. -/
inductive Peeked where
  | next (state : IteratorState) (hasParent : Bool) (path : List UInt8)
  | finished
  | failed (err : Failure)

/-- `it.Error()`: the end of the walk is no error, and a seek error is the error under it. -/
def NodeIterator.error (it : NodeIterator) : Option Failure :=
  match it.err with
  | none | some .iteratorEnd => none
  | some (.seekError _ err) | some (.failed err) => some err

/-- The loop of `nextChild` over a full node: the first slot from `start` on whose child is
not nil. -/
def firstChild (children : Fin 17 → Node) (start : Nat) : Option (Fin 17) :=
  (List.finRange 17).find? fun i => decide (start ≤ i.val) && !(children i).isNil

/-- The state `nextChild` makes for a child: its cached hash, the hash of its nearest stored
ancestor, no child taken yet. -/
def IteratorState.child (node : Node) (ancestor : List UInt8) (pathlen : Nat) : IteratorState :=
  { hash := bytesToHash (node.cache.1.getD []), node, parent := ancestor, index := -1, pathlen }

/-- `it.nextChild(parent, ancestor)`: the parent with its index just before the child taken,
the state of that child, and the path to it; `none` when the parent has no child left. The
index of a state is never below `-1`, so the loop of the source starts at a slot. -/
def nextChild (path : List UInt8) (parent : IteratorState) (ancestor : List UInt8) :
    Option (IteratorState × IteratorState × List UInt8) :=
  match parent.node with
  | .fullNode children _ =>
      (firstChild children (parent.index + 1).toNat).map fun i =>
        ({ parent with index := (i.val : Int) - 1 },
          IteratorState.child (children i) ancestor path.length, path ++ [i.val.toUInt8])
  | .shortNode key val _ =>
      if parent.index < 0 then
        some (parent, IteratorState.child val ancestor path.length, path ++ key)
      else none
  | _ => none

/-- `it.push(state, parentIndex, path)`: the state goes on the stack, its path becomes the
iterator's, and the index of the parent (when it has one) moves on to the child taken. -/
def push (it : NodeIterator) (state : IteratorState) (hasParent : Bool) (path : List UInt8) :
    NodeIterator :=
  { it with path, stack := state :: if hasParent then bumpTop it.stack else it.stack }
where
  bumpTop : List IteratorState → List IteratorState
    | [] => []
    | top :: rest => { top with index := top.index + 1 } :: rest

/-- The rounds the model allows the seek loop: enough for every sibling of every node on the
way to the key. -/
def seekFuel (key : List UInt8) : Nat :=
  17 * fuelFor key

-- Equation lemmas of the definitions above, made once here rather than by the proofs below
-- that unfold them in parallel.
section
attribute [local simp] NodeIterator.error firstChild IteratorState.child nextChild push
end

section Walk

variable (decodeMsg : List UInt8 → Except String Node) (db : Database) (rootHash : List UInt8)

/-- `st.resolve(tr, path)`: a hash node is loaded, and the state takes the node and its hash. -/
def IteratorState.resolve (tr : Trie) (st : IteratorState) (path : List UInt8) :
    Except Failure IteratorState :=
  match st.node with
  | .hashNode hash =>
      match resolveHash decodeMsg db tr.cachegen hash path with
      | .ok resolved => .ok { st with node := resolved, hash := bytesToHash hash }
      | .error err => .error err
  | _ => .ok st

/-- The loop of `peek`: the next child of the innermost state that has one, with the states
that have none popped (`it.pop()` cuts the path back to the popped state's `pathlen`). The
stack and the path it leaves come first. -/
def peekLoop (tr : Trie) : List IteratorState → List UInt8 → (List IteratorState × List UInt8) × Peeked
  | [], path => (([], path), .finished)
  | parent :: rest, path =>
      let ancestor := if parent.hash = zeroHash then parent.parent else parent.hash
      match nextChild path parent ancestor with
      | some (parent', state, childPath) =>
          -- on a failed load the parent keeps the index just before the child
          match state.resolve decodeMsg db tr childPath with
          | .ok state' => ((parent' :: rest, path), .next state' true childPath)
          | .error err => ((parent' :: rest, path), .failed err)
      | none => peekLoop tr rest (path.take parent.pathlen)

/-- Where the search of `peek` starts: at the current node, or, skipping its children, at the
node below it with the path cut back (`it.pop()`). -/
def searchStart (top : IteratorState) (rest : List IteratorState) (path : List UInt8)
    (descend : Bool) : List IteratorState × List UInt8 :=
  if descend then (top :: rest, path) else (rest, path.take top.pathlen)

/-- `it.peek(descend)`: the iterator with the stack and path the search left, and what it
found. An empty stack starts the walk at the root. The iterator without a trie panics on
`it.trie.Hash()`; it never has a stack. -/
def peek (it : NodeIterator) (descend : Bool) : NodeIterator × Peeked :=
  match it.trie with
  | none => (it, .failed (.panicked .nilNode))
  | some tr =>
      match it.stack with
      | [] =>
          let state : IteratorState :=
            { hash := if rootHash ≠ emptyRoot then rootHash else zeroHash, node := tr.root,
              parent := zeroHash, index := -1, pathlen := 0 }
          match state.resolve decodeMsg db tr [] with
          | .ok state' => (it, .next state' false [])
          | .error err => (it, .failed err)
      | top :: rest =>
          let start := searchStart top rest it.path descend
          let found := peekLoop decodeMsg db tr start.1 start.2
          ({ it with stack := found.1.1, path := found.1.2 }, found.2)

/-- The loop of `it.seek(prefix)`: walk on, descending only into nodes on the way to `key`,
and stop before the first node whose path is not before `key`. -/
def seekLoop (key pre : List UInt8) : Nat → NodeIterator → NodeIterator × Option IteratorError
  | 0, it => (it, some (.seekError pre .outOfFuel))
  | fuel + 1, it =>
      match peek decodeMsg db rootHash it (it.path.isPrefixOf key) with
      | (it, .finished) => (it, some .iteratorEnd)
      | (it, .failed err) => (it, some (.seekError pre err))
      | (it, .next state hasParent path) =>
          if compareBytes path key ≠ .lt then (it, none)
          else seekLoop key pre fuel (push it state hasParent path)

/-- `it.seek(prefix)`: the key is the hex path of `prefix` without its terminator. -/
def seek (it : NodeIterator) (pre : List UInt8) : NodeIterator × Option IteratorError :=
  let key := (keybytesToHex pre).dropLast
  seekLoop decodeMsg db rootHash key pre (seekFuel key) it

/-- `newNodeIterator(trie, start)`: an iterator at `start`, with the error of the seek kept for
`Next`. `emptyState` is the hash of no bytes. -/
def newNodeIterator (keccak : List UInt8 → List UInt8) (trie : Trie) (start : List UInt8) :
    NodeIterator :=
  if rootHash = bytesToHash (keccak []) then { trie := none, stack := [], path := [], err := none }
  else
    let sought := seek decodeMsg db rootHash { trie := some trie, stack := [], path := [], err := none } start
    { sought.1 with err := sought.2 }

/-- The step of `Next` after the error checks: peek, then push what was found or keep the
error. -/
def advance (it : NodeIterator) (descend : Bool) : Bool × NodeIterator :=
  match peek decodeMsg db rootHash it descend with
  | (it, .next state hasParent path) => (true, { push it state hasParent path with err := none })
  | (it, .finished) => (false, { it with err := some .iteratorEnd })
  | (it, .failed err) => (false, { it with err := some (.failed err) })

/-- `it.Next(descend)`: whether the walk moved to another node, and the iterator after it. A
seek that failed is made again first. -/
def next (it : NodeIterator) (descend : Bool) : Bool × NodeIterator :=
  match it.err with
  | some .iteratorEnd => (false, it)
  | some (.seekError key _) =>
      match seek decodeMsg db rootHash it key with
      | (it, some err) => (false, { it with err := some err })
      | (it, none) => advance decodeMsg db rootHash { it with err := none } descend
  | _ => advance decodeMsg db rootHash it descend

/-- `n` calls of `Next(true)`: the iterator after each call that moved, in order, and the
iterator after the last call. -/
def walk : Nat → NodeIterator → List NodeIterator × NodeIterator
  | 0, it => ([], it)
  | n + 1, it =>
      let moved := next decodeMsg db rootHash it true
      let rest := walk n moved.2
      (if moved.1 then moved.2 :: rest.1 else rest.1, rest.2)

section
attribute [local simp] IteratorState.resolve peekLoop searchStart peek seekLoop seek newNodeIterator advance next walk
end

end Walk

/-! ### A failed load is invisible to the next search -/

/-- The slot `firstChild` found is found again when the search starts at it. -/
theorem firstChild_again {children : Fin 17 → Node} {start : Nat} {i : Fin 17}
    (found : firstChild children start = some i) : firstChild children i.val = some i := by
  unfold firstChild at found
  obtain ⟨taken, before, after, split, -⟩ := List.find?_eq_some_iff_append.mp found
  -- the slots the first search passed over are all below `i`
  have below : ∀ j ∈ before, j < i := by
    have sorted := List.pairwise_lt_finRange 17
    rw [split, List.pairwise_append] at sorted
    exact fun j mem => sorted.2.2 j mem i List.mem_cons_self
  have passed : ∀ j ∈ before, ¬ (decide (i.val ≤ j.val) && !(children j).isNil) = true := by
    intro j mem
    have : ¬ i.val ≤ j.val := Nat.not_le.mpr (below j mem)
    simp [this]
  unfold firstChild
  rw [split, List.find?_append, List.find?_eq_none.mpr passed]
  simp_all

/-- What `nextChild` gives: the parent with another index, and a child state whose `pathlen`
is the length of `path`, at a path that extends `path`. -/
theorem nextChild_spec {path : List UInt8} {parent parent' state : IteratorState}
    {ancestor childPath : List UInt8}
    (found : nextChild path parent ancestor = some (parent', state, childPath)) :
    (∃ index, parent' = { parent with index }) ∧ state.pathlen = path.length ∧
      ∃ step, childPath = path ++ step := by
  unfold nextChild at found
  split at found
  next children flags _ =>
    obtain ⟨i, -, same⟩ := Option.map_eq_some_iff.mp found
    simp only [Prod.mk.injEq] at same
    obtain ⟨rfl, rfl, rfl⟩ := same
    exact ⟨⟨_, rfl⟩, rfl, _, rfl⟩
  next key val flags _ =>
    split at found
    · simp only [Option.some.injEq, Prod.mk.injEq] at found
      obtain ⟨rfl, rfl, rfl⟩ := found
      exact ⟨⟨parent.index, rfl⟩, rfl, key, rfl⟩
    · cases found
  next => cases found

/-- Asked again with the index it set, `nextChild` takes the same child. -/
theorem nextChild_again {path : List UInt8} {parent parent' state : IteratorState}
    {ancestor childPath : List UInt8}
    (found : nextChild path parent ancestor = some (parent', state, childPath)) :
    nextChild path parent' ancestor = some (parent', state, childPath) := by
  obtain ⟨hash, node, up, index, pathlen⟩ := parent
  cases node with
  | fullNode children flags =>
      simp only [nextChild, Option.map_eq_some_iff, Prod.mk.injEq] at found
      obtain ⟨i, first, rfl, rfl, rfl⟩ := found
      simp [nextChild, firstChild_again first]
  | shortNode key val flags =>
      simp only [nextChild] at found
      split at found
      · simp only [Option.some.injEq, Prod.mk.injEq] at found
        obtain ⟨rfl, rfl, rfl⟩ := found
        simp_all [nextChild]
      · cases found
  | hashNode _ | valueNode _ | nil => simp [nextChild] at found

/-- `resolveHash` loads the same node from a database that holds more. -/
theorem resolveHash_of_extends {decodeMsg : List UInt8 → Except String Node} {db' db : Database}
    (more : Store.Extends db' db) {cachegen : UInt16} {h pre : List UInt8} {n : Node}
    (loaded : resolveHash decodeMsg db' cachegen h pre = .ok n) :
    resolveHash decodeMsg db cachegen h pre = .ok n := by
  unfold resolveHash at loaded ⊢
  cases stored : db' h with
  | none => simp [stored] at loaded
  | some enc => simpa [more h enc stored, stored] using loaded

section Resume

variable {decodeMsg : List UInt8 → Except String Node} {rootHash : List UInt8}

theorem IteratorState.resolve_pathlen {db : Database} {tr : Trie} {st st' : IteratorState}
    {path : List UInt8} (loaded : st.resolve decodeMsg db tr path = .ok st') :
    st'.pathlen = st.pathlen := by
  unfold IteratorState.resolve at loaded
  split at loaded
  · split at loaded
    · cases loaded; rfl
    · cases loaded
  · cases loaded; rfl

theorem IteratorState.resolve_of_extends {db' db : Database} (more : Store.Extends db' db)
    {tr : Trie} {st st' : IteratorState} {path : List UInt8}
    (loaded : st.resolve decodeMsg db' tr path = .ok st') :
    st.resolve decodeMsg db tr path = .ok st' := by
  unfold IteratorState.resolve at loaded ⊢
  split at loaded
  · split at loaded
    · rename_i resolved
      rw [resolveHash_of_extends more resolved]
      exact loaded
    · cases loaded
  · exact loaded

/-- A search that failed leaves a stack. -/
theorem peekLoop_failed_stack {db : Database} {tr : Trie} {stack stack' : List IteratorState}
    {path path' : List UInt8} {err : Failure}
    (failed : peekLoop decodeMsg db tr stack path = ((stack', path'), .failed err)) :
    ∃ top rest, stack' = top :: rest := by
  induction stack generalizing path with
  | nil => simp [peekLoop] at failed
  | cons parent rest ih =>
      simp only [peekLoop] at failed
      split at failed
      · split at failed
        · cases failed
        · simp only [Prod.mk.injEq] at failed
          exact ⟨_, _, failed.1.1.symm⟩
      · exact ih failed

/-- The stack and path that a failed search leaves are searched, with any database, as the
failed search itself would have gone on: the failure is not seen by the next search. -/
theorem peekLoop_again {db' : Database} (db : Database) {tr : Trie}
    {stack stack' : List IteratorState} {path path' : List UInt8} {err : Failure}
    (failed : peekLoop decodeMsg db' tr stack path = ((stack', path'), .failed err)) :
    peekLoop decodeMsg db tr stack' path' = peekLoop decodeMsg db tr stack path := by
  induction stack generalizing path with
  | nil => simp [peekLoop] at failed
  | cons parent rest ih =>
      simp only [peekLoop] at failed
      split at failed
      next parent' state childPath found =>
        split at failed
        · cases failed
        · simp only [Prod.mk.injEq] at failed
          obtain ⟨⟨rfl, rfl⟩, -⟩ := failed
          -- the parent only changed its index, so it names the same ancestor
          obtain ⟨⟨index, rfl⟩, -, -⟩ := nextChild_spec found
          simp only [peekLoop]
          rw [nextChild_again found, found]
      next none =>
        rw [ih failed]
        simp only [peekLoop, none]

/-- A search that loaded what it reached is the same with a database that holds more. -/
theorem peekLoop_of_extends {db' db : Database} (more : Store.Extends db' db) {tr : Trie}
    {stack : List IteratorState} {path : List UInt8} {left : List IteratorState × List UInt8}
    {found : Peeked} (ran : peekLoop decodeMsg db' tr stack path = (left, found))
    (loaded : ∀ err, found ≠ .failed err) :
    peekLoop decodeMsg db tr stack path = (left, found) := by
  induction stack generalizing path with
  | nil => simpa [peekLoop] using ran
  | cons parent rest ih =>
      simp only [peekLoop] at ran ⊢
      split at ran
      next parent' state childPath child =>
        split at ran
        next state' resolved =>
          rw [IteratorState.resolve_of_extends more resolved]
          exact ran
        next err _ =>
          simp only [Prod.mk.injEq] at ran
          exact absurd ran.2.symm (loaded err)
      next none => exact ih ran

/-- `peek` does not read the error of the iterator, and keeps it. -/
theorem peek_err {db : Database} (it : NodeIterator) (descend : Bool) (err : Option IteratorError) :
    peek decodeMsg db rootHash { it with err } descend =
      ({ (peek decodeMsg db rootHash it descend).1 with err }, (peek decodeMsg db rootHash it descend).2) := by
  obtain ⟨trie, stack, path, _⟩ := it
  cases trie with
  | none => rfl
  | some tr =>
      cases stack with
      | nil => simp only [peek]; split <;> rfl
      | cons top rest => rfl

/-- The iterator a failed `peek` leaves is peeked again, with any database and descending, as
the failed `peek` would have gone on. -/
theorem peek_again {db' : Database} (db : Database) {it it' : NodeIterator} {descend : Bool}
    {err : Failure} (failed : peek decodeMsg db' rootHash it descend = (it', .failed err)) :
    peek decodeMsg db rootHash it' true = peek decodeMsg db rootHash it descend := by
  obtain ⟨trie, stack, path, e⟩ := it
  cases trie with
  | none =>
      simp only [peek, Prod.mk.injEq] at failed
      rw [← failed.1]
      rfl
  | some tr =>
      cases stack with
      | nil =>
          -- at the root the iterator is left as it was, and `descend` is not read
          simp only [peek] at failed
          split at failed
          · cases failed
          · simp only [Prod.mk.injEq] at failed
            rw [← failed.1]
            rfl
      | cons top rest =>
          simp only [peek] at failed ⊢
          generalize searchStart top rest path descend = start at failed ⊢
          generalize searched : peekLoop decodeMsg db' tr start.1 start.2 = result at failed
          obtain ⟨⟨stack', path'⟩, peeked⟩ := result
          simp only [Prod.mk.injEq] at failed
          obtain ⟨rfl, rfl⟩ := failed
          obtain ⟨top', rest', rfl⟩ := peekLoop_failed_stack searched
          simp only [searchStart, ↓reduceIte]
          rw [peekLoop_again db searched]

/-- A `peek` that loaded what it reached is the same with a database that holds more. -/
theorem peek_of_extends {db' db : Database} (more : Store.Extends db' db) {it it' : NodeIterator}
    {descend : Bool} {found : Peeked} (ran : peek decodeMsg db' rootHash it descend = (it', found))
    (loaded : ∀ err, found ≠ .failed err) :
    peek decodeMsg db rootHash it descend = (it', found) := by
  obtain ⟨trie, stack, path, e⟩ := it
  cases trie with
  | none =>
      simp only [peek, Prod.mk.injEq] at ran
      exact absurd ran.2.symm (loaded _)
  | some tr =>
      cases stack with
      | nil =>
          simp only [peek] at ran ⊢
          split at ran
          next state' resolved => rw [IteratorState.resolve_of_extends more resolved]; exact ran
          next err _ =>
            simp only [Prod.mk.injEq] at ran
            exact absurd ran.2.symm (loaded err)
      | cons top rest =>
          simp only [peek] at ran ⊢
          generalize searchStart top rest path descend = start at ran ⊢
          generalize searched : peekLoop decodeMsg db' tr start.1 start.2 = result at ran
          obtain ⟨left, peeked⟩ := result
          simp only [Prod.mk.injEq] at ran
          obtain ⟨rfl, rfl⟩ := ran
          rw [peekLoop_of_extends more searched loaded]

/-! ### The seek stays on the way to its key -/

/-- The invariant of the seek to `key`: each state's `pathlen` cuts the path above it to a
prefix of `key`, and the states below it are framed by that cut. -/
def Framed (key : List UInt8) : List UInt8 → List IteratorState → Prop
  | _, [] => True
  | path, st :: rest => path.take st.pathlen <+: key ∧ Framed key (path.take st.pathlen) rest

section
attribute [local simp] Framed
end

/-- Moving the index of the top state does not touch the frames. -/
@[simp] theorem framed_bumpTop {key path : List UInt8} {stack : List IteratorState} :
    Framed key path (push.bumpTop stack) ↔ Framed key path stack := by
  cases stack <;> rfl

/-- The seek's search starts framed, at a path towards `key`: it starts at the current node only
when the path to it leads towards `key`, and cuts the path back otherwise. -/
theorem searchStart_framed {key path : List UInt8} {top : IteratorState} {rest : List IteratorState}
    {descend : Bool} (framed : Framed key path (top :: rest)) (towards : descend = path.isPrefixOf key) :
    Framed key (searchStart top rest path descend).2 (searchStart top rest path descend).1 ∧
      (searchStart top rest path descend).2 <+: key := by
  subst towards
  by_cases leads : path.isPrefixOf key = true
  · simp only [searchStart, leads, ↓reduceIte]
    exact ⟨framed, List.isPrefixOf_iff_prefix.mp leads⟩
  · simp only [searchStart, leads, Bool.false_eq_true, ↓reduceIte]
    exact ⟨framed.2, framed.1⟩

/-- A search from a framed stack, at a path towards `key`, leaves a framed stack at a path
towards `key`, and frames the child it found above it. -/
theorem peekLoop_framed {db : Database} {tr : Trie} {key : List UInt8}
    {stack stack' : List IteratorState} {path path' : List UInt8} {found : Peeked}
    (framed : Framed key path stack) (towards : path <+: key)
    (ran : peekLoop decodeMsg db tr stack path = ((stack', path'), found)) :
    Framed key path' stack' ∧ path' <+: key ∧
      ∀ state hasParent childPath, found = .next state hasParent childPath →
        Framed key childPath (state :: stack') := by
  induction stack generalizing path with
  | nil =>
      simp only [peekLoop, Prod.mk.injEq] at ran
      obtain ⟨⟨rfl, rfl⟩, rfl⟩ := ran
      exact ⟨trivial, towards, fun _ _ _ no => by cases no⟩
  | cons parent rest ih =>
      simp only [peekLoop] at ran
      split at ran
      next parent' state childPath child =>
        obtain ⟨⟨index, rfl⟩, below, step, rfl⟩ := nextChild_spec child
        -- the parent keeps its `pathlen`, so the stack stays framed
        have kept : Framed key path ({ parent with index } :: rest) := framed
        split at ran
        next state' resolved =>
          simp only [Prod.mk.injEq] at ran
          obtain ⟨⟨rfl, rfl⟩, rfl⟩ := ran
          refine ⟨kept, towards, fun s h c same => ?_⟩
          cases same
          have cut : (path ++ step).take state'.pathlen = path := by
            rw [IteratorState.resolve_pathlen resolved, below, List.take_left]
          simp only [Framed, cut]
          exact ⟨towards, kept⟩
        next err _ =>
          simp only [Prod.mk.injEq] at ran
          obtain ⟨⟨rfl, rfl⟩, rfl⟩ := ran
          exact ⟨kept, towards, fun _ _ _ no => by cases no⟩
      next none => exact ih framed.2 framed.1 ran

/-- The `peek` of the seek to `key`, from a framed iterator: the iterator it leaves is the one it
started from or is framed at a path towards `key`, and what it found, pushed, is framed. -/
theorem peek_framed {db : Database} {key : List UInt8} {it it' : NodeIterator} {found : Peeked}
    (framed : Framed key it.path it.stack)
    (ran : peek decodeMsg db rootHash it (it.path.isPrefixOf key) = (it', found)) :
    (it' = it ∨ Framed key it'.path it'.stack ∧ it'.path <+: key) ∧
      ∀ state hasParent childPath, found = .next state hasParent childPath →
        Framed key (push it' state hasParent childPath).path (push it' state hasParent childPath).stack := by
  obtain ⟨trie, stack, path, e⟩ := it
  cases trie with
  | none =>
      simp only [peek, Prod.mk.injEq] at ran
      obtain ⟨rfl, rfl⟩ := ran
      exact ⟨.inl rfl, fun _ _ _ no => by cases no⟩
  | some tr =>
      cases stack with
      | nil =>
          simp only [peek] at ran
          split at ran
          next state' resolved =>
            simp only [Prod.mk.injEq] at ran
            obtain ⟨rfl, rfl⟩ := ran
            refine ⟨.inl rfl, fun s h c same => ?_⟩
            cases same
            -- the root is the only state, at the empty path
            have root : state'.pathlen = 0 := IteratorState.resolve_pathlen resolved
            simp [push, Framed, root]
          next err _ =>
            simp only [Prod.mk.injEq] at ran
            obtain ⟨rfl, rfl⟩ := ran
            exact ⟨.inl rfl, fun _ _ _ no => by cases no⟩
      | cons top rest =>
          have start := searchStart_framed framed rfl
          simp only [peek] at ran
          generalize searchStart top rest path (path.isPrefixOf key) = first at ran start
          generalize searched : peekLoop decodeMsg db tr first.1 first.2 = result at ran
          obtain ⟨⟨stack', path'⟩, peeked⟩ := result
          simp only [Prod.mk.injEq] at ran
          obtain ⟨rfl, rfl⟩ := ran
          obtain ⟨kept, towards, child⟩ := peekLoop_framed start.1 start.2 searched
          refine ⟨.inr ⟨kept, towards⟩, fun s h c same => ?_⟩
          have above := child s h c same
          cases h <;> simpa [push, Framed] using above

/-- In the seek, the iterator a failed `peek` leaves is peeked again, with any database, as the
failed `peek` would have gone on: the path it leaves leads towards `key`, so the seek descends
from it. -/
theorem peek_again_towards {db' : Database} (db : Database) {key : List UInt8}
    {it it' : NodeIterator} {err : Failure} (framed : Framed key it.path it.stack)
    (failed : peek decodeMsg db' rootHash it (it.path.isPrefixOf key) = (it', .failed err)) :
    peek decodeMsg db rootHash it' (it'.path.isPrefixOf key) =
      peek decodeMsg db rootHash it (it.path.isPrefixOf key) := by
  rcases (peek_framed framed failed).1 with same | ⟨-, towards⟩
  · rw [same]
  · rw [List.isPrefixOf_iff_prefix.mpr towards]
    exact peek_again db failed

@[simp] theorem push_err (it : NodeIterator) (state : IteratorState) (hasParent : Bool)
    (path : List UInt8) (err : Option IteratorError) :
    push { it with err } state hasParent path = { push it state hasParent path with err } := rfl

/-- The seek does not read the error of the iterator, and keeps it. -/
theorem seekLoop_err {db : Database} {key pre : List UInt8} (fuel : Nat) (it : NodeIterator)
    (err : Option IteratorError) :
    seekLoop decodeMsg db rootHash key pre fuel { it with err } =
      ({ (seekLoop decodeMsg db rootHash key pre fuel it).1 with err },
        (seekLoop decodeMsg db rootHash key pre fuel it).2) := by
  induction fuel generalizing it with
  | zero => rfl
  | succ fuel ih =>
      simp only [seekLoop, peek_err]
      generalize peek decodeMsg db rootHash it (it.path.isPrefixOf key) = peeked
      obtain ⟨it1, found⟩ := peeked
      cases found with
      | next state hasParent path =>
          simp only
          split
          · rfl
          · rw [push_err]; exact ih _
      | finished | failed _ => rfl

/-- The seek answers nothing, the end of the walk, or a seek error on its prefix. -/
theorem seekLoop_result {db : Database} {key pre : List UInt8} (fuel : Nat) (it : NodeIterator) :
    (seekLoop decodeMsg db rootHash key pre fuel it).2 = none ∨
      (seekLoop decodeMsg db rootHash key pre fuel it).2 = some .iteratorEnd ∨
      ∃ err, (seekLoop decodeMsg db rootHash key pre fuel it).2 = some (.seekError pre err) := by
  induction fuel generalizing it with
  | zero => exact .inr (.inr ⟨_, rfl⟩)
  | succ fuel ih =>
      simp only [seekLoop]
      generalize peek decodeMsg db rootHash it (it.path.isPrefixOf key) = peeked
      obtain ⟨it1, found⟩ := peeked
      cases found with
      | next state hasParent path =>
          simp only
          split
          · exact .inl rfl
          · exact ih _
      | finished => exact .inr (.inl rfl)
      | failed err => exact .inr (.inr ⟨err, rfl⟩)

theorem seek_result {db : Database} (it : NodeIterator) (pre : List UInt8) :
    (seek decodeMsg db rootHash it pre).2 = none ∨ (seek decodeMsg db rootHash it pre).2 = some .iteratorEnd ∨
      ∃ err, (seek decodeMsg db rootHash it pre).2 = some (.seekError pre err) :=
  seekLoop_result _ it

/-- A seek that ended without a failed load is the same with a database that holds more. -/
theorem seekLoop_of_extends {db' db : Database} (more : Store.Extends db' db) {key pre : List UInt8}
    {fuel : Nat} {it it' : NodeIterator} {ended : Option IteratorError}
    (ran : seekLoop decodeMsg db' rootHash key pre fuel it = (it', ended))
    (stopped : ended = none ∨ ended = some .iteratorEnd) :
    seekLoop decodeMsg db rootHash key pre fuel it = (it', ended) := by
  induction fuel generalizing it with
  | zero =>
      simp only [seekLoop, Prod.mk.injEq] at ran
      rcases stopped with rfl | rfl <;> simp at ran
  | succ fuel ih =>
      simp only [seekLoop] at ran ⊢
      generalize peeked : peek decodeMsg db' rootHash it (it.path.isPrefixOf key) = result at ran
      obtain ⟨it1, found⟩ := result
      cases found with
      | next state hasParent path =>
          rw [peek_of_extends more peeked fun _ no => by cases no]
          simp only at ran ⊢
          split at ran
          · rw [if_pos ‹_›]; exact ran
          · rw [if_neg ‹_›]; exact ih ran
      | finished =>
          rw [peek_of_extends more peeked fun _ no => by cases no]
          exact ran
      | failed err =>
          simp only [Prod.mk.injEq] at ran
          rcases stopped with rfl | rfl <;> simp at ran

/-- A seek that did not run out of rounds is the same with more rounds. -/
theorem seekLoop_more_fuel {db : Database} {key pre : List UInt8} {fuel : Nat}
    {it it' : NodeIterator} {ended : Option IteratorError}
    (ran : seekLoop decodeMsg db rootHash key pre fuel it = (it', ended))
    (within : ended ≠ some (.seekError pre .outOfFuel)) (extra : Nat) :
    seekLoop decodeMsg db rootHash key pre (fuel + extra) it = (it', ended) := by
  induction fuel generalizing it with
  | zero =>
      simp only [seekLoop, Prod.mk.injEq] at ran
      exact absurd ran.2.symm within
  | succ fuel ih =>
      rw [Nat.add_right_comm]
      simp only [seekLoop] at ran ⊢
      generalize peek decodeMsg db rootHash it (it.path.isPrefixOf key) = peeked at ran ⊢
      obtain ⟨it1, found⟩ := peeked
      cases found with
      | next state hasParent path =>
          simp only at ran ⊢
          split at ran
          · rw [if_pos ‹_›]; exact ran
          · rw [if_neg ‹_›]; exact ih ran
      | finished | failed _ => exact ran

/-- A seek that failed to load a node, from a framed iterator: the seek with the database that
holds the node reaches, after some of its rounds, an iterator from which it goes on exactly as
it goes on from the iterator the failed seek left. -/
theorem seekLoop_again {db' db : Database} (more : Store.Extends db' db) {key pre : List UInt8}
    {fuel : Nat} {it it' : NodeIterator} {err : Failure} (framed : Framed key it.path it.stack)
    (failed : seekLoop decodeMsg db' rootHash key pre fuel it = (it', some (.seekError pre err)))
    (loadFailed : err ≠ .outOfFuel) :
    ∃ rounds resumed, rounds < fuel ∧
      (∀ left, seekLoop decodeMsg db rootHash key pre (rounds + left) it =
        seekLoop decodeMsg db rootHash key pre left resumed) ∧
      ∀ left, seekLoop decodeMsg db rootHash key pre (left + 1) it' =
        seekLoop decodeMsg db rootHash key pre (left + 1) resumed := by
  induction fuel generalizing it with
  | zero =>
      simp only [seekLoop, Prod.mk.injEq, Option.some.injEq, IteratorError.seekError.injEq] at failed
      exact absurd failed.2.2.symm loadFailed
  | succ fuel ih =>
      simp only [seekLoop] at failed
      generalize peeked : peek decodeMsg db' rootHash it (it.path.isPrefixOf key) = result at failed
      obtain ⟨it1, found⟩ := result
      cases found with
      | next state hasParent path =>
          simp only at failed
          split at failed
          · simp at failed
          · rename_i before
            -- the round pushed what it found; the failure comes in a later round
            have pushed := (peek_framed framed peeked).2 state hasParent path rfl
            obtain ⟨rounds, resumed, within, fromStart, fromFailed⟩ := ih pushed failed
            refine ⟨rounds + 1, resumed, by omega, fun left => ?_, fromFailed⟩
            rw [Nat.add_right_comm]
            simp only [seekLoop]
            rw [peek_of_extends more peeked fun _ no => by cases no]
            simp only [if_neg before]
            exact fromStart left
      | finished => simp at failed
      | failed e =>
          -- the failure is in this round: its iterator is resumed as this round would go on
          simp only [Prod.mk.injEq] at failed
          obtain ⟨rfl, -⟩ := failed
          refine ⟨0, it, Nat.zero_lt_succ _, fun left => by rw [Nat.zero_add], fun left => ?_⟩
          simp only [seekLoop]
          rw [peek_again_towards db framed peeked]

/-! ### `Next` goes on after a failed load -/

/-- The iterator holds no seek error: its seek is done. -/
def NodeIterator.Placed (it : NodeIterator) : Prop :=
  ∀ key err, it.err ≠ some (.seekError key err)

section
attribute [local simp] NodeIterator.Placed
end

theorem NodeIterator.error_eq_none {it : NodeIterator} :
    it.error = none ↔ it.err = none ∨ it.err = some .iteratorEnd := by
  unfold NodeIterator.error
  split <;> simp_all

theorem NodeIterator.placed_of_error {it : NodeIterator} (none : it.error = none) : it.Placed := by
  intro key err
  rcases error_eq_none.mp none with stored | stored <;> simp [stored]

/-- The error a placed iterator reports is that of a failed load. -/
theorem NodeIterator.err_of_error {it : NodeIterator} (placed : it.Placed) {err : Failure}
    (reported : it.error = some err) : it.err = some (.failed err) := by
  unfold NodeIterator.error at reported
  split at reported
  next => cases reported
  next => cases reported
  next key e stored => exact absurd stored (placed key e)
  next e stored => rw [stored, Option.some.inj reported]

theorem advance_err {db : Database} (it : NodeIterator) (descend : Bool) (err : Option IteratorError) :
    advance decodeMsg db rootHash { it with err } descend = advance decodeMsg db rootHash it descend := by
  unfold advance
  rw [peek_err]
  generalize peek decodeMsg db rootHash it descend = peeked
  obtain ⟨it1, found⟩ := peeked
  cases found <;> rfl

theorem advance_placed {db : Database} (it : NodeIterator) (descend : Bool) :
    (advance decodeMsg db rootHash it descend).2.Placed := by
  unfold advance
  generalize peek decodeMsg db rootHash it descend = peeked
  obtain ⟨it1, found⟩ := peeked
  cases found <;> simp [NodeIterator.Placed]

theorem advance_of_extends {db' db : Database} (more : Store.Extends db' db) {it it' : NodeIterator}
    {descend : Bool} (moved : advance decodeMsg db' rootHash it descend = (true, it')) :
    advance decodeMsg db rootHash it descend = (true, it') := by
  unfold advance at moved ⊢
  generalize peeked : peek decodeMsg db' rootHash it descend = result at moved
  obtain ⟨it1, found⟩ := result
  cases found with
  | next state hasParent path =>
      rw [peek_of_extends more peeked fun _ no => by cases no]
      exact moved
  | finished | failed _ => simp at moved

/-- `advance` from the iterator a failed load left goes on as the failed `advance` would have. -/
theorem advance_again {db' : Database} (db : Database) {it it' : NodeIterator} {err : Failure}
    (failed : advance decodeMsg db' rootHash it true = (false, it'))
    (reported : it'.err = some (.failed err)) :
    advance decodeMsg db rootHash it' true = advance decodeMsg db rootHash it true := by
  unfold advance at failed
  generalize peeked : peek decodeMsg db' rootHash it true = result at failed
  obtain ⟨it1, found⟩ := result
  cases found with
  | next => simp at failed
  | finished =>
      simp only [Prod.mk.injEq, true_and] at failed
      simp [← failed] at reported
  | failed e =>
      simp only [Prod.mk.injEq, true_and] at failed
      rw [← failed, advance_err]
      unfold advance
      rw [peek_again db peeked]

theorem next_of_placed {db : Database} {it : NodeIterator} (placed : it.Placed)
    (going : it.err ≠ some .iteratorEnd) (descend : Bool) :
    next decodeMsg db rootHash it descend = advance decodeMsg db rootHash it descend := by
  unfold next
  split
  · contradiction
  · exact absurd ‹_› (placed _ _)
  · rfl

theorem next_placed {db : Database} {it : NodeIterator} (placed : it.Placed) (descend : Bool) :
    (next decodeMsg db rootHash it descend).2.Placed := by
  unfold next
  split
  · exact placed
  · exact absurd ‹_› (placed _ _)
  · exact advance_placed it descend

/-- A call of `Next` that moved is the same with a database that holds more. -/
theorem next_of_extends {db' db : Database} (more : Store.Extends db' db) {it it' : NodeIterator}
    {descend : Bool} (moved : next decodeMsg db' rootHash it descend = (true, it')) :
    next decodeMsg db rootHash it descend = (true, it') := by
  unfold next at moved ⊢
  cases stored : it.err with
  | none =>
      simp only [stored] at moved ⊢
      exact advance_of_extends more moved
  | some e =>
      cases e with
      | iteratorEnd => simp [stored] at moved
      | seekError key e =>
          simp only [stored] at moved ⊢
          -- the seek made again succeeded, so it is the same with `db`
          generalize sought : seek decodeMsg db' rootHash it key = result at moved
          obtain ⟨it1, ended⟩ := result
          cases ended with
          | some _ => simp at moved
          | none =>
              have again : seek decodeMsg db rootHash it key = (it1, none) :=
                seekLoop_of_extends more sought (.inl rfl)
              rw [again]
              exact advance_of_extends more moved
      | failed e =>
          simp only [stored] at moved ⊢
          exact advance_of_extends more moved

/-- `Next(true)` from the iterator a failed load left goes on as the failed call would have. -/
theorem next_again {db' : Database} (db : Database) {it it' : NodeIterator} {err : Failure}
    (placed : it.Placed) (failed : next decodeMsg db' rootHash it true = (false, it'))
    (reported : it'.err = some (.failed err)) :
    next decodeMsg db rootHash it' true = next decodeMsg db rootHash it true := by
  by_cases ended : it.err = some .iteratorEnd
  · -- at the end of the walk `Next` leaves the iterator as it is
    simp only [next, ended, Prod.mk.injEq, true_and] at failed
    rw [← failed, ended] at reported
    cases reported
  · rw [next_of_placed placed ended] at failed
    have placed' : it'.Placed := by simp [NodeIterator.Placed, reported]
    have going' : it'.err ≠ some .iteratorEnd := by simp [reported]
    rw [next_of_placed placed' going', next_of_placed placed ended]
    exact advance_again db failed reported

theorem walk_add {db : Database} (k m : Nat) (it : NodeIterator) :
    walk decodeMsg db rootHash (k + m) it =
      ((walk decodeMsg db rootHash k it).1 ++ (walk decodeMsg db rootHash m (walk decodeMsg db rootHash k it).2).1,
        (walk decodeMsg db rootHash m (walk decodeMsg db rootHash k it).2).2) := by
  induction k generalizing it with
  | zero => simp [walk]
  | succ k ih =>
      rw [Nat.add_right_comm]
      simp only [walk, ih]
      split <;> simp

theorem length_walk_le {db : Database} (n : Nat) (it : NodeIterator) :
    (walk decodeMsg db rootHash n it).1.length ≤ n := by
  induction n generalizing it with
  | zero => simp [walk]
  | succ n ih =>
      simp only [walk]
      have := ih (next decodeMsg db rootHash it true).2
      split <;> simp <;> omega

theorem walk_placed {db : Database} (n : Nat) {it : NodeIterator} (placed : it.Placed) :
    (walk decodeMsg db rootHash n it).2.Placed := by
  induction n generalizing it with
  | zero => exact placed
  | succ n ih => exact ih (next_placed placed true)

/-- Two iterators whose next call of `Next(true)` is the same yield the same nodes. -/
theorem walk_congr {db : Database} {a b : NodeIterator}
    (same : next decodeMsg db rootHash a true = next decodeMsg db rootHash b true) (n : Nat) :
    (walk decodeMsg db rootHash n a).1 = (walk decodeMsg db rootHash n b).1 := by
  cases n with
  | zero => rfl
  | succ n => simp only [walk, same]

/-- Calls of `Next(true)` that all moved are the same with a database that holds more. -/
theorem walk_of_extends {db' db : Database} (more : Store.Extends db' db) {k : Nat}
    {it : NodeIterator} (moved : (walk decodeMsg db' rootHash k it).1.length = k) :
    walk decodeMsg db rootHash k it = walk decodeMsg db' rootHash k it := by
  induction k generalizing it with
  | zero => rfl
  | succ k ih =>
      simp only [walk] at moved ⊢
      rcases stepped : next decodeMsg db' rootHash it true with ⟨went, it1⟩
      cases went with
      | false =>
          have : (walk decodeMsg db' rootHash k it1).1.length ≤ k := length_walk_le k it1
          simp [stepped] at moved
          omega
      | true =>
          rw [next_of_extends more stepped]
          simp only [stepped, ↓reduceIte, List.length_cons, Nat.add_right_cancel_iff] at moved ⊢
          rw [ih moved]

/-- A new iterator whose seek reported no error is the same with a database that holds more. -/
theorem newNodeIterator_of_extends {db' db : Database} (more : Store.Extends db' db)
    {keccak : List UInt8 → List UInt8} {trie : Trie} {start : List UInt8}
    (placed : (newNodeIterator decodeMsg db' rootHash keccak trie start).error = none) :
    newNodeIterator decodeMsg db rootHash keccak trie start =
      newNodeIterator decodeMsg db' rootHash keccak trie start := by
  by_cases empty : rootHash = bytesToHash (keccak [])
  · simp only [newNodeIterator, empty, ↓reduceIte]
  · simp only [newNodeIterator, empty, ↓reduceIte] at placed ⊢
    generalize sought : seek decodeMsg db' rootHash _ start = result at placed ⊢
    obtain ⟨it1, ended⟩ := result
    have stopped : ended = none ∨ ended = some .iteratorEnd := NodeIterator.error_eq_none.mp placed
    have again : seek decodeMsg db rootHash _ start = (it1, ended) :=
      seekLoop_of_extends more sought stopped
    rw [again]

/-- The seek made again from the iterator a failed seek left ends where the seek that never
failed ended, when that one ended within its rounds. -/
theorem seekLoop_resumed {db' db : Database} (more : Store.Extends db' db) {key pre : List UInt8}
    {fuel : Nat} {it itF itS : NodeIterator} {err : Failure} {ended : Option IteratorError}
    (framed : Framed key it.path it.stack)
    (failed : seekLoop decodeMsg db' rootHash key pre fuel it = (itF, some (.seekError pre err)))
    (loadFailed : err ≠ .outOfFuel)
    (whole : seekLoop decodeMsg db rootHash key pre fuel it = (itS, ended))
    (stopped : ended = none ∨ ended = some .iteratorEnd) :
    seekLoop decodeMsg db rootHash key pre fuel itF = (itS, ended) := by
  obtain ⟨rounds, resumed, within, fromStart, fromFailed⟩ := seekLoop_again more framed failed loadFailed
  -- the seek that never failed passes through `resumed` and ends within the rounds left
  have rest : seekLoop decodeMsg db rootHash key pre (fuel - rounds) resumed = (itS, ended) := by
    rw [← fromStart, Nat.add_sub_cancel' within.le]
    exact whole
  have enough := seekLoop_more_fuel rest (by rcases stopped with rfl | rfl <;> simp) rounds
  rw [Nat.sub_add_cancel within.le] at enough
  obtain ⟨left, rfl⟩ : ∃ left, fuel = left + 1 := ⟨fuel - 1, by omega⟩
  rw [fromFailed]
  exact enough

/-- A new iterator whose seek failed to load a node: once the node is back, its first call of
`Next(true)` is that of the iterator whose seek never failed, provided that seek reported no
error. -/
theorem newNodeIterator_again {db' db : Database} (more : Store.Extends db' db)
    {keccak : List UInt8 → List UInt8} {trie : Trie} {start : List UInt8} {err : Failure}
    (lost : (newNodeIterator decodeMsg db' rootHash keccak trie start).error = some err)
    (loadFailed : err ≠ .outOfFuel)
    (whole : (newNodeIterator decodeMsg db rootHash keccak trie start).error = none) :
    next decodeMsg db rootHash (newNodeIterator decodeMsg db' rootHash keccak trie start) true =
      next decodeMsg db rootHash (newNodeIterator decodeMsg db rootHash keccak trie start) true := by
  by_cases empty : rootHash = bytesToHash (keccak [])
  · simp [newNodeIterator, empty, NodeIterator.error] at lost
  simp only [newNodeIterator, empty, ↓reduceIte] at lost whole ⊢
  generalize broken : seek decodeMsg db' rootHash _ start = result at lost ⊢
  obtain ⟨itF, stored⟩ := result
  -- the failed seek stored a seek error on `start`
  have shape := @seek_result decodeMsg rootHash db'
    { trie := some trie, stack := [], path := [], err := none } start
  rw [broken] at shape
  have failedSeek : stored = some (.seekError start err) := by
    rcases shape with rfl | rfl | ⟨e, rfl⟩ <;> simp_all [NodeIterator.error]
  subst failedSeek
  generalize sought : seek decodeMsg db rootHash _ start = result at whole ⊢
  obtain ⟨itS, ended⟩ := result
  have stopped : ended = none ∨ ended = some .iteratorEnd := NodeIterator.error_eq_none.mp whole
  have reseek : seek decodeMsg db rootHash { itF with err := some (.seekError start err) } start =
      ({ itS with err := some (.seekError start err) }, ended) := by
    unfold seek
    rw [seekLoop_err, seekLoop_resumed more (by exact trivial) broken loadFailed sought stopped]
  simp only [next, reseek]
  rcases stopped with rfl | rfl <;> rfl

end Resume

/-- Iterating with a node missing from the database (`db'`) and putting it back (`db`) once the
iterator reports it, either from the seek of the new iterator or from a call of `Next(true)`:
the calls of `Next(true)` made after that go on with the walk, so that the nodes yielded before
and after the error are those of the walk with the node there all along, each once and in the
same order. Where the seek failed, the walk it is compared with is one whose seek reported no
error, as every seek on a committed trie does. -/
theorem nodeIterator_resumes (decodeMsg : List UInt8 → Except String Node) (rootHash : List UInt8)
    (keccak : List UInt8 → List UInt8) (trie : Trie) (start : List UInt8) {db' db : Database}
    (restored : Store.Extends db' db) (hash path : List UInt8) :
    let broken := newNodeIterator decodeMsg db' rootHash keccak trie start
    let fresh := newNodeIterator decodeMsg db rootHash keccak trie start
    (broken.error = some (.missingNode hash path) → fresh.error = none →
      ∀ m, (walk decodeMsg db rootHash m broken).1 = (walk decodeMsg db rootHash m fresh).1) ∧
    ∀ k failed, broken.error = none → (walk decodeMsg db' rootHash k broken).1.length = k →
      next decodeMsg db' rootHash (walk decodeMsg db' rootHash k broken).2 true = (false, failed) →
      failed.error = some (.missingNode hash path) →
      ∀ m, (walk decodeMsg db' rootHash k broken).1 ++ (walk decodeMsg db rootHash m failed).1 =
        (walk decodeMsg db rootHash (k + m) fresh).1 := by
  intro broken fresh
  constructor
  · -- the error of the seek: the seek is made again by the first call
    intro lost whole m
    exact walk_congr (newNodeIterator_again restored lost (by simp) whole) m
  · -- the error of a call: the calls before it are the same with `db`, and the next call
    -- from the iterator it left is the one it failed to make
    intro k failed placed moved failing reported m
    have same : fresh = broken := newNodeIterator_of_extends restored placed
    have placedBefore : (walk decodeMsg db' rootHash k broken).2.Placed :=
      walk_placed k (NodeIterator.placed_of_error placed)
    have placedAfter : failed.Placed := by
      have after : (next decodeMsg db' rootHash (walk decodeMsg db' rootHash k broken).2 true).2.Placed :=
        next_placed placedBefore true
      rwa [failing] at after
    have stored := NodeIterator.err_of_error placedAfter reported
    rw [same, walk_add, walk_of_extends restored moved]
    congr 1
    exact walk_congr (next_again db placedBefore failing stored) m

/-- A trie whose root is in memory and has one child, stored under the hash `[9]`. -/
def oneChildTrie : Trie :=
  { root := .fullNode (fun i => if i.val = 0 then .hashNode [9] else .nil) {} }

/-- The database that holds the child of `oneChildTrie`. -/
def oneChildDb : Database := fun h => if h = [9] then some [1] else none

/-- The child of `oneChildTrie` is missing when the walk reaches it after the root, and put back:
the root yielded before the error and the child yielded after it are the walk of two nodes. -/
theorem nodeIterator_resumes_one_child :
    let decodeMsg : List UInt8 → Except String Node := fun _ => .ok (.valueNode [5])
    let broken := newNodeIterator decodeMsg Store.empty [7] (fun _ => []) oneChildTrie []
    let failed := (next decodeMsg Store.empty [7] (walk decodeMsg Store.empty [7] 1 broken).2 true).2
    Store.Extends Store.empty oneChildDb ∧
      (walk decodeMsg Store.empty [7] 1 broken).1 ++ (walk decodeMsg oneChildDb [7] 1 failed).1 =
        (walk decodeMsg oneChildDb [7] (1 + 1)
          (newNodeIterator decodeMsg oneChildDb [7] (fun _ => []) oneChildTrie [])).1 := by
  intro decodeMsg broken failed
  have restored : Store.Extends Store.empty oneChildDb := fun _ _ none => by cases none
  exact ⟨restored, (nodeIterator_resumes decodeMsg [7] (fun _ => []) oneChildTrie [] restored [9] [0]).2
    1 failed rfl rfl rfl rfl 1⟩

end Mjoy.Trie