import Mjoy.Trie.Map
import Mjoy.Trie.Codec

/-!
A client's session with a trie over one database: the calls of the `Trie` API, `CommitTo`
into that database, and `New` at the root the last commit returned, read back with the msgp
decoder of `Mjoy.Trie.Codec`.

The session refines a spec of two maps, the one the trie holds and the one the last commit
stored. As long as the database keeps what the commits put into it, every run succeeds,
every `TryGet` returns what the spec says, every `Hash` and `Commit` returns the root hash of
the one tree of the minimal shape that holds the current map, and the trie always stands
for that tree.
-/

set_option linter.dupNamespace false

namespace Mjoy.Trie

open KeyValue

/-- The calls a client makes. -/
inductive Op where
  | tryUpdate (key value : List UInt8)
  | tryDelete (key : List UInt8)
  | tryGet (key : List UInt8)
  | hash
  | commit
  /-- `New(root, db)` at the root the last commit returned. -/
  | reopen
  /-- `SetCacheLimit(l)`. -/
  | setCacheLimit (limit : UInt16)
  deriving DecidableEq, Repr

inductive Reply where
  | done
  | got (value : Option (List UInt8))
  | root (hash : List UInt8)
  deriving DecidableEq, Repr

/-- The answer of a `TryGet`, if the reply is one. -/
def Reply.got? : Reply → Option (Option (List UInt8))
  | .got value => some value
  | _ => none

/-- The trie, the database it reads and commits to, and the root the last commit returned. -/
structure Session where
  trie : Trie
  db : Database
  committed : List UInt8

structure Outcome where
  next : Session
  reply : Reply
  /-- What a commit put into the database. -/
  writes : Writes

/-- The session a client starts with: `New(root, db)`. -/
def Session.new (db : Database) (root : List UInt8) : Except Failure Session := do
  let t ← Trie.new NodeIntf.decodeMsg db root
  pure { trie := t, db := db, committed := root }

/-- A session on an empty trie, as `New(emptyRoot, db)` opens it. -/
def Session.empty (db : Database) : Session :=
  { trie := { root := .nil }, db := db, committed := emptyRoot }

-- Equation lemmas of the definitions above, made once here rather than by the proofs below
-- that unfold them in parallel.
section
attribute [local simp] Session.new Session.empty
end

theorem Session.new_emptyRoot (db : Database) : Session.new db emptyRoot = .ok (Session.empty db) := by
  simp [Session.new, Trie.new, Session.empty]

section Run

variable (keccak : List UInt8 → List UInt8)

def Session.step (s : Session) : Op → Except Failure Outcome
  | .tryUpdate key value => do
      let t ← s.trie.tryUpdate NodeIntf.decodeMsg s.db key value
      pure ⟨{ s with trie := t }, .done, []⟩
  | .tryDelete key => do
      let t ← s.trie.tryDelete NodeIntf.decodeMsg s.db key
      pure ⟨{ s with trie := t }, .done, []⟩
  | .tryGet key => do
      let (value, t) ← s.trie.tryGet NodeIntf.decodeMsg s.db key
      pure ⟨{ s with trie := t }, .got value, []⟩
  | .hash => do
      let (root, t) ← s.trie.hash keccak
      pure ⟨{ s with trie := t }, .root root, []⟩
  | .commit => do
      let (root, t, writes) ← s.trie.commitTo keccak
      pure ⟨{ trie := t, db := s.db.putAll writes, committed := root }, .root root, writes⟩
  | .reopen => do
      let t ← Trie.new NodeIntf.decodeMsg s.db s.committed
      pure ⟨{ s with trie := t }, .done, []⟩
  | .setCacheLimit limit => pure ⟨{ s with trie := { s.trie with cachelimit := limit } }, .done, []⟩

/-- The calls one after the other, with their replies; the first failure ends the run. -/
def Session.run : Session → List Op → Except Failure (Session × List Reply)
  | s, [] => .ok (s, [])
  | s, op :: ops => do
      let out ← s.step keccak op
      let (last, replies) ← out.next.run ops
      pure (last, out.reply :: replies)

/-- The database keeps what a commit puts into it: no write replaces a stored encoding by a
different one. Every encoding written is also short enough for its length to fit the
`uint32` that `WriteBytes` gives it. -/
def Kept (db : Database) (writes : Writes) : Prop :=
  Store.Consistent db writes ∧ ∀ w ∈ writes, w.2.length < 2 ^ 32

section
attribute [local simp] Session.step Session.run
end

instance (db : Database) (writes : Writes) : Decidable (Kept db writes) :=
  inferInstanceAs (Decidable (_ ∧ _))

/-- The database keeps the writes of every commit of the run. -/
def Session.Keeps : Session → List Op → Prop
  | _, [] => True
  | s, op :: ops =>
      match s.step keccak op with
      | .ok out => Kept s.db out.writes ∧ out.next.Keeps ops
      | .error _ => True

section
attribute [local simp] Session.Keeps
end

instance Session.decidableKeeps : (s : Session) → (ops : List Op) → Decidable (s.Keeps keccak ops)
  | _, [] => isTrue trivial
  | s, op :: ops =>
      match found : s.step keccak op with
      | .ok out =>
          have := Session.decidableKeeps out.next ops
          decidable_of_iff (Kept s.db out.writes ∧ out.next.Keeps keccak ops) (by simp [Session.Keeps, found])
      | .error _ => isTrue (by simp [Session.Keeps, found])

end Run

/-! ### What the calls mean -/

/-- The map the trie holds and the map the last commit stored. -/
structure Spec where
  current : KeyMap
  committed : KeyMap

def Spec.empty : Spec :=
  ⟨Store.empty, Store.empty⟩

def Spec.step (σ : Spec) : Op → Spec
  | .tryUpdate key value =>
      { σ with current := if value = [] then σ.current.erase key else σ.current.put key value }
  | .tryDelete key => { σ with current := σ.current.erase key }
  | .commit => { σ with committed := σ.current }
  | .reopen => { σ with current := σ.committed }
  | _ => σ

def Spec.run (σ : Spec) (ops : List Op) : Spec :=
  ops.foldl Spec.step σ

/-- What the `TryGet` calls of a run answer. -/
def Spec.answers : Spec → List Op → List (Option (List UInt8))
  | _, [] => []
  | σ, .tryGet key :: ops => σ.current key :: σ.answers ops
  | σ, op :: ops => (σ.step op).answers ops

/-- What each reply says of the spec before the call: a `TryGet` answers the value of the
current map, and `Hash` and `Commit` the root hash of the tree of the minimal shape that
holds it. -/
def Spec.Answers (keccak : List UInt8 → List UInt8) (σ : Spec) : Op → Reply → Prop
  | .tryGet key, reply => reply = .got (σ.current key)
  | .hash, reply | .commit, reply =>
      ∃ T : Tree, T.Canonical ∧ T.Holds σ.current ∧ reply = .root (T.rootHash keccak)
  | _, reply => reply = .done

section
attribute [local simp] Spec.empty Spec.step Spec.run
end

/-! ### The session refines the spec -/

/-- The session stands for the spec: its trie for a tree of the minimal shape that holds the
current map, and the root of its last commit for a tree that holds the committed map. -/
def Session.Refines (keccak : List UInt8 → List UInt8) (s : Session) (σ : Spec) : Prop :=
  (∃ T, s.trie.Stands keccak s.db T ∧ T.Holds σ.current) ∧
    ∃ Tc, Committed keccak s.db s.committed Tc ∧ Tc.Holds σ.committed

section Refinement

variable {keccak : List UInt8 → List UInt8}

theorem Trie.Stands.mono {db db' : Database} (more : Store.Extends db db') {t : Trie} {T : Tree}
    (stands : t.Stands keccak db T) : t.Stands keccak db' T :=
  ⟨stands.1, stands.2.mono more⟩

theorem committed_emptyRoot (db : Database) : Committed keccak db emptyRoot .nil :=
  ⟨Or.inl rfl, fun _ => Or.inr rfl, fun notNil => absurd rfl notNil⟩

/-- A session opened at a committed root stands for the map committed there, which is also
the current one. -/
theorem Session.new_refines (avoids : HashAvoids keccak) {db : Database} {root : List UInt8} {Tc : Tree}
    {m : KeyMap} (committed : Committed keccak db root Tc) (holds : Tc.Holds m) :
    ∃ s, Session.new db root = .ok s ∧ s.Refines keccak ⟨m, m⟩ := by
  obtain ⟨t, opened, stands⟩ := Trie.new_spec codecLaw avoids committed
  exact ⟨⟨t, db, root⟩, by simp [Session.new, opened], ⟨Tc, stands, holds⟩, Tc, committed, holds⟩

theorem Session.empty_refines (db : Database) : (Session.empty db).Refines keccak Spec.empty :=
  ⟨⟨.nil, ⟨Or.inl rfl, .nil true⟩, Tree.holds_nil⟩, .nil, committed_emptyRoot db, Tree.holds_nil⟩

/-- One call: it succeeds, its reply answers the spec, and once the database has kept what
it wrote the session stands for the spec after the call. -/
theorem Session.step_refines (avoids : HashAvoids keccak) {s : Session} {σ : Spec}
    (refines : s.Refines keccak σ) (op : Op) :
    ∃ out, s.step keccak op = .ok out ∧ σ.Answers keccak op out.reply ∧
      (Kept s.db out.writes → out.next.Refines keccak (σ.step op)) := by
  obtain ⟨⟨T, stands, holds⟩, committedPart⟩ := refines
  cases op with
  | tryUpdate key value =>
      obtain ⟨t', U, run, standsU, holdsU⟩ := Trie.tryUpdate_spec codecLaw stands holds key value
      exact ⟨⟨{ s with trie := t' }, .done, []⟩, by simp [Session.step, run], rfl,
        fun _ => ⟨⟨U, standsU, holdsU⟩, committedPart⟩⟩
  | tryDelete key =>
      obtain ⟨t', U, run, standsU, holdsU⟩ := Trie.tryDelete_spec codecLaw stands holds key
      exact ⟨⟨{ s with trie := t' }, .done, []⟩, by simp [Session.step, run], rfl,
        fun _ => ⟨⟨U, standsU, holdsU⟩, committedPart⟩⟩
  | tryGet key =>
      obtain ⟨t', run, stands'⟩ := Trie.tryGet_spec codecLaw stands holds key
      exact ⟨⟨{ s with trie := t' }, .got (σ.current key), []⟩, by simp [Session.step, run], rfl,
        fun _ => ⟨⟨T, stands', holds⟩, committedPart⟩⟩
  | hash =>
      obtain ⟨t', run, stands'⟩ := Trie.hash_spec stands
      exact ⟨⟨{ s with trie := t' }, .root (T.rootHash keccak), []⟩, by simp [Session.step, run],
        ⟨T, stands.1, holds, rfl⟩, fun _ => ⟨⟨T, stands', holds⟩, committedPart⟩⟩
  | commit =>
      obtain ⟨t', writes, run, kept⟩ := Trie.commitTo_spec stands
      refine ⟨⟨{ trie := t', db := s.db.putAll writes, committed := T.rootHash keccak },
        .root (T.rootHash keccak), writes⟩, by simp [Session.step, run], ⟨T, stands.1, holds, rfl⟩,
        fun ⟨consistent, short⟩ => ?_⟩
      -- the tree the trie stood for is now both the current and the committed one
      obtain ⟨stands', committed'⟩ := kept consistent short
      exact ⟨⟨T, stands', holds⟩, T, committed', holds⟩
  | reopen =>
      obtain ⟨Tc, committed, holdsC⟩ := committedPart
      obtain ⟨t', run, stands'⟩ := Trie.new_spec codecLaw avoids committed
      exact ⟨⟨{ s with trie := t' }, .done, []⟩, by simp [Session.step, run], rfl,
        fun _ => ⟨⟨Tc, stands', holdsC⟩, Tc, committed, holdsC⟩⟩
  | setCacheLimit limit =>
      exact ⟨_, rfl, rfl, fun _ => ⟨⟨T, stands, holds⟩, committedPart⟩⟩

/-- A reply that answers the spec adds to the `TryGet` answers of a run what the spec does. -/
theorem Spec.answers_cons {σ : Spec} {op : Op} {reply : Reply} (answers : σ.Answers keccak op reply)
    {replies : List Reply} {ops : List Op} (rest : replies.filterMap Reply.got? = (σ.step op).answers ops) :
    (reply :: replies).filterMap Reply.got? = σ.answers (op :: ops) := by
  cases op with
  | tryGet key =>
      subst answers
      rw [List.filterMap_cons_some (f := Reply.got?) rfl, rest]
      rfl
  | hash | commit =>
      obtain ⟨T, -, -, rfl⟩ := answers
      rw [List.filterMap_cons_none (f := Reply.got?) rfl, rest]
      rfl
  | tryUpdate | tryDelete | reopen | setCacheLimit =>
      subst answers
      rw [List.filterMap_cons_none (f := Reply.got?) rfl, rest]
      rfl

/-- A whole run: each call refines a step of the spec, so the run succeeds, ends in a session
that stands for the spec after the run, and answers every `TryGet` as the spec does. -/
theorem Session.run_refines (avoids : HashAvoids keccak) :
    ∀ (ops : List Op) (s : Session) (σ : Spec), s.Refines keccak σ → s.Keeps keccak ops →
      ∃ last replies, s.run keccak ops = .ok (last, replies) ∧ last.Refines keccak (σ.run ops) ∧
        replies.filterMap Reply.got? = σ.answers ops
  | [], s, σ, refines, _ => ⟨s, [], rfl, refines, rfl⟩
  | op :: ops, s, σ, refines, keeps => by
      obtain ⟨out, stepped, answers, next⟩ := Session.step_refines avoids refines op
      simp only [Session.Keeps, stepped] at keeps
      obtain ⟨last, replies, run, refinesLast, gets⟩ :=
        Session.run_refines avoids ops out.next (σ.step op) (next keeps.1) keeps.2
      exact ⟨last, out.reply :: replies, by simp [Session.run, stepped, run], refinesLast,
        Spec.answers_cons answers gets⟩

end Refinement

/-! ### Whole runs -/

/-- A hash for concrete runs: it tags the encoding, so it never gives the zero hash or
`emptyRoot`. -/
def testHash (enc : List UInt8) : List UInt8 :=
  1 :: enc

section
attribute [local simp] testHash
end

theorem testHash_avoids : HashAvoids testHash := by
  intro enc
  constructor
  · intro same
    simp [testHash, zeroHash, List.replicate_succ] at same
  · intro same
    simp [testHash, emptyRoot] at same

section Runs

variable {keccak : List UInt8 → List UInt8}

/-- Every run from an empty trie over a database that keeps what the commits put into it
succeeds, and each `TryGet` answers what the map of the spec holds: the last non-empty value
given to the key, where `New` at the root of the last commit brings back the map of that
commit. -/
theorem Session.run_answers (avoids : HashAvoids keccak) (db : Database) (ops : List Op)
    (keeps : (Session.empty db).Keeps keccak ops) :
    ∃ last replies, (Session.empty db).run keccak ops = .ok (last, replies) ∧
      replies.filterMap Reply.got? = Spec.empty.answers ops := by
  obtain ⟨last, replies, run, -, gets⟩ :=
    Session.run_refines avoids ops _ _ (Session.empty_refines db) keeps
  exact ⟨last, replies, run, gets⟩

/-- A run whose last value for the key was never committed: after `New` at the committed
root, `TryGet` answers the committed value `[1]`, not the last value given, `[2]`. -/
theorem Session.reopen_loses_update :
    ((Session.empty Store.empty).run testHash
      [.tryUpdate [1] [1], .commit, .tryUpdate [1] [2], .reopen, .tryGet [1]]).toOption.map
      (fun run => run.2.filterMap Reply.got?) = some [some [1]] := by
  decide

theorem Session.run_answers_example :
    (∃ last replies, (Session.empty Store.empty).run testHash
      [.setCacheLimit 1, .tryUpdate [1] [1], .tryUpdate [1, 2] [3], .commit, .tryUpdate [1] [2], .hash,
        .reopen, .tryGet [1], .tryDelete [1], .tryGet [1], .tryGet [1, 2]] = .ok (last, replies) ∧
      replies.filterMap Reply.got? = Spec.empty.answers
      [.setCacheLimit 1, .tryUpdate [1] [1], .tryUpdate [1, 2] [3], .commit, .tryUpdate [1] [2], .hash,
        .reopen, .tryGet [1], .tryDelete [1], .tryGet [1], .tryGet [1, 2]]) ∧
    Spec.empty.answers
      [.setCacheLimit 1, .tryUpdate [1] [1], .tryUpdate [1, 2] [3], .commit, .tryUpdate [1] [2], .hash,
        .reopen, .tryGet [1], .tryDelete [1], .tryGet [1], .tryGet [1, 2]] = [some [1], none, some [3]] :=
  ⟨Session.run_answers testHash_avoids Store.empty _ (by decide +kernel), by decide⟩

/-- The root hash depends on the map alone: two runs from empty tries that leave the same map
current give the same `Hash`, and it is `emptyRoot` exactly when that map is empty. -/
theorem Session.hash_eq_of_map (avoids : HashAvoids keccak) {db db' : Database} {ops ops' : List Op}
    (keeps : (Session.empty db).Keeps keccak ops) (keeps' : (Session.empty db').Keeps keccak ops')
    (same : (Spec.empty.run ops).current = (Spec.empty.run ops').current) :
    ∃ last last' replies replies' root t t',
      (Session.empty db).run keccak ops = .ok (last, replies) ∧
      (Session.empty db').run keccak ops' = .ok (last', replies') ∧
      last.trie.hash keccak = .ok (root, t) ∧ last'.trie.hash keccak = .ok (root, t') ∧
      (root = emptyRoot ↔ (Spec.empty.run ops).current = Store.empty) := by
  obtain ⟨last, replies, run, ⟨⟨T, stands, holds⟩, -⟩, -⟩ :=
    Session.run_refines avoids ops _ _ (Session.empty_refines db) keeps
  obtain ⟨last', replies', run', ⟨⟨T', stands', holds'⟩, -⟩, -⟩ :=
    Session.run_refines avoids ops' _ _ (Session.empty_refines db') keeps'
  -- both tries stand for the one tree of the minimal shape that holds the map
  rw [← same] at holds'
  obtain rfl : T' = T := holds'.unique stands'.1 stands.1 holds
  obtain ⟨t, hashed, -⟩ := Trie.hash_spec stands
  obtain ⟨t', hashed', -⟩ := Trie.hash_spec stands'
  refine ⟨last, last', replies, replies', T'.rootHash keccak, t, t', run, run', hashed, hashed', ?_⟩
  rw [Tree.rootHash_eq_emptyRoot avoids]
  exact holds.nil_iff stands.1

theorem Session.hash_eq_of_map_example :
    ∃ last last' replies replies' root t t',
      (Session.empty Store.empty).run testHash [.tryUpdate [1] [1], .tryUpdate [2] [2]] = .ok (last, replies) ∧
      (Session.empty Store.empty).run testHash
        [.tryUpdate [2] [2], .commit, .tryUpdate [3] [3], .tryUpdate [1] [1], .tryDelete [3]] =
        .ok (last', replies') ∧
      last.trie.hash testHash = .ok (root, t) ∧ last'.trie.hash testHash = .ok (root, t') ∧
      (root = emptyRoot ↔ (Spec.empty.run [.tryUpdate [1] [1], .tryUpdate [2] [2]]).current = Store.empty) :=
  Session.hash_eq_of_map testHash_avoids (by decide) (by decide) (by
    funext k
    simp only [Spec.run, Spec.empty, List.foldl, Spec.step]
    simp [Store.put, Store.erase, Store.empty]
    split_ifs <;> simp_all)

/-- In every run from a committed root, the empty trie's among them, the trie stands for a tree
of the minimal shape once its hash nodes are resolved from the database. -/
theorem Session.run_canonical (avoids : HashAvoids keccak) {db : Database} {root : List UInt8} {Tc : Tree}
    {m : KeyMap} (committed : Committed keccak db root Tc) (holds : Tc.Holds m) :
    ∃ start, Session.new db root = .ok start ∧ ∀ ops, start.Keeps keccak ops →
      ∃ last replies T, start.run keccak ops = .ok (last, replies) ∧
        Resolves keccak last.db true last.trie.root T ∧ T.Canonical := by
  obtain ⟨start, opened, refines⟩ := Session.new_refines avoids committed holds
  refine ⟨start, opened, fun ops keeps => ?_⟩
  obtain ⟨last, replies, run, ⟨⟨T, stands, -⟩, -⟩, -⟩ := Session.run_refines avoids ops _ _ refines keeps
  exact ⟨last, replies, T, run, stands.2, stands.1⟩

theorem Session.run_canonical_empty :
    ∃ start, Session.new Store.empty emptyRoot = .ok start ∧ ∀ ops, start.Keeps testHash ops →
      ∃ last replies T, start.run testHash ops = .ok (last, replies) ∧
        Resolves testHash last.db true last.trie.root T ∧ T.Canonical :=
  Session.run_canonical testHash_avoids (committed_emptyRoot Store.empty) Tree.holds_nil

end Runs

end Mjoy.Trie
