import Mjoy.Trie.SyncInvariant

/-!
The order of the membatch. A node is committed only when every child it names is in, so the
membatch, and the database `Commit` writes it to, never holds a node without its children. The
children are the hash children of the node and, for a node of the state trie, the storage tries and
code the leaf callback attaches to its leaves. `Waits` says every processed request still waits
for each child that is not in; `commit` finds it free of all of them, since nothing names it.
-/

namespace Mjoy.Trie

/-- The key an attachment asks for. -/
def Attach.key : Attach → List UInt8
  | .subTrie root _ => root
  | .rawEntry hash _ => hash

/-- The attachments `AddSubTrie` and `AddRawEntry` drop at once: the empty trie and empty code. -/
def Attach.Empty (env : SyncEnv) : Attach → Prop
  | .subTrie root _ => root = emptyRoot
  | .rawEntry hash _ => hash = emptyState env.keccak

/-- A child of a processed node is covered when `ready` holds of its key: a hash child (or its
bytes are in the database, the test `children` makes), and for a node with the leaf callback each
entry the callback attaches to a value child. -/
def Covered (env : SyncEnv) (database : Database) (ready : List UInt8 → Prop) (r : Request) : Node → Prop
  | .hashNode c => ready (bytesToHash c) ∨ (database c).isSome
  | .valueNode v => r.callback = true → ∃ attached, env.leaf v = .ok attached ∧ ∀ a ∈ attached, a.Empty env ∨ ready a.key
  | _ => True

-- Equation lemmas of the definitions above, made once here rather than by the proofs below
-- that unfold them in parallel.
section
attribute [local simp] Attach.key
end

namespace TrieSync

/-- A key the membatch or the database holds. -/
def Stored (s : TrieSync) (key : List UInt8) : Prop :=
  s.batch.contains key = true ∨ (s.database key).isSome = true

/-- A pending request waits under `parent`. -/
def Awaits (s : TrieSync) (parent key : List UInt8) : Prop :=
  ∃ q, s.requests.get key = some q ∧ parent ∈ q.parents

section
attribute [local simp] Stored
end

end TrieSync

/-- Every processed request but those `skip` holds of decodes to a node with children, and each
child is stored or pending under it. -/
def WaitsBut (env : SyncEnv) (skip : List UInt8 → Prop) (s : TrieSync) : Prop :=
  ∀ h r d, ¬skip h → s.requests.get h = some r → r.data = some d →
    ∃ node kids, decodeNode env.decodeMsg h d 0 = .ok node ∧ TrieSync.childList r node = some kids ∧
      ∀ kid ∈ kids, Covered env s.database (fun k => s.Stored k ∨ s.Awaits h k) r kid.1

/-- Every processed request waits for each of its children that is not in. -/
def Waits (env : SyncEnv) (s : TrieSync) : Prop :=
  WaitsBut env (fun _ => False) s

/-- The membatch: its keys are the order, each once, and none of them is pending. -/
structure Membatch (s : TrieSync) : Prop where
  keys : s.batch.keys = s.order
  nodup : s.order.Nodup
  apart : ∀ k, (s.requests.get k).isSome → s.batch.contains k = false

section
attribute [local simp] WaitsBut Waits
end

section Mono

variable {env : SyncEnv}

theorem Covered.mono {database database' : Database} {ready ready' : List UInt8 → Prop} {r r' : Request} {n : Node}
    (covered : Covered env database ready r n) (more : ∀ k, ready k → ready' k)
    (kept : ∀ k, (database k).isSome → (database' k).isSome) (callback : r'.callback = r.callback) :
    Covered env database' ready' r' n := by
  cases n with
  | hashNode c =>
      rcases covered with ready | stored
      · exact .inl (more _ ready)
      · exact .inr (kept _ stored)
  | valueNode v =>
      intro on
      obtain ⟨attached, leaf, each⟩ := covered (callback ▸ on)
      exact ⟨attached, leaf, fun a mem => (each a mem).imp id (more _)⟩
  | _ => trivial

theorem childList_of_depth {r r' : Request} (depth : r.depth = r'.depth) (node : Node) :
    TrieSync.childList r node = TrieSync.childList r' node := by
  cases node <;> simp [TrieSync.childList, depth]

theorem Stored.of_grows {s s' : TrieSync} (grown : TrieSync.Grows s s') {k : List UInt8} (stored : s.Stored k) :
    s'.Stored k := by
  rw [TrieSync.Stored, grown.store.batch, grown.store.database]
  exact stored

theorem Awaits.of_extends {s s' : TrieSync} (grown : TrieSync.Extends s.requests s'.requests) {p k : List UInt8}
    (awaits : s.Awaits p k) : s'.Awaits p k := by
  obtain ⟨q, found, named⟩ := awaits
  obtain ⟨q', found', -, grownParents⟩ := grown k q found
  exact ⟨q', found', grownParents.subset named⟩

/-- `WaitsBut` over any step whose processed requests were processed before, with the same record,
and that keeps what is stored and what is pending under what. -/
theorem WaitsBut.mono {skip : List UInt8 → Prop} {s s' : TrieSync} (waits : WaitsBut env skip s)
    (only : TrieSync.OnlyProcessed s.requests s'.requests)
    (ready : ∀ p k, s.Stored k ∨ s.Awaits p k → s'.Stored k ∨ s'.Awaits p k)
    (kept : ∀ k, (s.database k).isSome → (s'.database k).isSome) : WaitsBut env skip s' := by
  intro h r' d skipped found' data
  obtain ⟨r, found, body⟩ := only h r' found' (by simp [data])
  obtain ⟨node, kids, decoded, listed, covered⟩ :=
    waits h r d skipped found (by rw [Request.data_eq_of_body body, data])
  refine ⟨node, kids, decoded, by rw [← childList_of_depth (Request.depth_eq_of_body body)]; exact listed, ?_⟩
  intro kid mem
  exact (covered kid mem).mono (ready h) kept (Request.callback_eq_of_body body).symm

theorem WaitsBut.of_grows {skip : List UInt8 → Prop} {s s' : TrieSync} (waits : WaitsBut env skip s)
    (grown : TrieSync.Grows s s') : WaitsBut env skip s' :=
  waits.mono grown.only (fun _ _ => Or.imp (Stored.of_grows grown) (Awaits.of_extends grown.extend))
    (fun k stored => by rw [grown.store.database]; exact stored)

end Mono

/-! ### What `children` leaves covered -/

section Children

variable {env : SyncEnv}

theorem database_of_known {s : TrieSync} {root : List UInt8} (known : s.known env root = true) :
    (s.database root).isSome := by
  unfold TrieSync.known at known
  cases found : s.database root with
  | none => simp [found, decodeNode] at known
  | some _ => rfl

theorem awaits_schedule (s : TrieSync) {req : Request} {parent : List UInt8} (named : parent ∈ req.parents) :
    (s.schedule req).Awaits parent req.hash := by
  cases found : s.requests.get req.hash with
  | some old =>
      exact ⟨{ old with parents := old.parents ++ req.parents }, by rw [TrieSync.schedule_requests_of_get found]; simp,
        by simp [named]⟩
  | none => exact ⟨req, by rw [TrieSync.schedule_requests_of_get_eq_none found]; simp, named⟩

/-- A fresh request linked under a parent other than the zero hash waits under it. -/
theorem awaits_link {s s' : TrieSync} {req : Request} {parent : List UInt8} (nonzero : parent ≠ zeroHash)
    (linked : s.link req parent = .ok s') : s'.Awaits parent req.hash := by
  rcases TrieSync.link_ok linked with ⟨zero, -⟩ | ⟨ancestor, -, -, rfl⟩
  · exact absurd zero nonzero
  · exact awaits_schedule _ (by simp)

/-- An attachment is dropped as empty, found stored, or left waiting under its parent. -/
theorem attach_covers {s s' : TrieSync} {parent : List UInt8} {a : Attach} (nonzero : parent ≠ zeroHash)
    (attached : s.attach env parent a = .ok s') : a.Empty env ∨ s'.Stored a.key ∨ s'.Awaits parent a.key := by
  cases a with
  | subTrie root depth =>
      simp only [TrieSync.attach, TrieSync.addSubTrie] at attached
      split at attached
      · rename_i empty
        exact .inl empty
      split at attached
      · rename_i inBatch
        cases attached
        exact .inr (.inl (.inl inBatch))
      split at attached
      · rename_i known
        cases attached
        exact .inr (.inl (.inr (database_of_known known)))
      · exact .inr (.inr (awaits_link nonzero attached))
  | rawEntry hash depth =>
      simp only [TrieSync.attach, TrieSync.addRawEntry] at attached
      split at attached
      · rename_i empty
        exact .inl empty
      split at attached
      · rename_i inBatch
        cases attached
        exact .inr (.inl (.inl inBatch))
      split at attached
      · rename_i inDatabase
        cases attached
        exact .inr (.inl (.inr inDatabase))
      · exact .inr (.inr (awaits_link nonzero attached))

theorem notify_covers {s s' : TrieSync} {req : Request} {v : List UInt8} (nonzero : req.hash ≠ zeroHash)
    (notified : s.notify env req (.valueNode v) = .ok s') :
    Covered env s'.database (fun k => s'.Stored k ∨ s'.Awaits req.hash k) req (.valueNode v) := by
  intro on
  simp only [TrieSync.notify, on, if_true] at notified
  split at notified
  · cases notified
  rename_i attached leaf
  refine ⟨attached, leaf, ?_⟩
  -- every attachment made stays covered while the later ones are made
  have loop := Loop.foldlM_ok_invariant _
    (fun done (acc : TrieSync) => TrieSync.Grows s acc ∧ ∀ a ∈ done, a.Empty env ∨ acc.Stored a.key ∨ acc.Awaits req.hash a.key)
    ?_ attached [] ⟨TrieSync.Grows.refl s, by simp⟩ notified
  · simpa using loop.2
  intro done a acc acc' ⟨grown, covered⟩ step
  have more := TrieSync.grows_attach step
  refine ⟨grown.trans more, ?_⟩
  intro b mem
  rcases List.mem_append.mp mem with earlier | now
  · exact (covered b earlier).imp id (Or.imp (Stored.of_grows more) (Awaits.of_extends more.extend))
  · rw [List.mem_singleton.mp now]
    exact attach_covers nonzero step

/-- After `gather`, each child it went through is stored, pending under the node, or among the
requests it returns. -/
theorem gather_covers {req : Request} (nonzero : req.hash ≠ zeroHash) :
    ∀ (kids : List (Node × Int)) {s s' : TrieSync} {acc requests : List Request},
      TrieSync.gather env req s acc kids = (s', .ok requests) →
        ∀ kid ∈ kids, Covered env s'.database
          (fun k => s'.Stored k ∨ s'.Awaits req.hash k ∨ k ∈ requests.map Request.hash) req kid.1
  | [], _, _, _, _, _ => by simp
  | (child, depth) :: rest, s, s', acc, requests, gathered => by
      unfold TrieSync.gather at gathered
      split at gathered
      · cases gathered
      rename_i s₁ notified
      -- what stays true from `s₁` to the end
      have later : ∀ acc', TrieSync.gather env req s₁ acc' rest = (s', .ok requests) →
          TrieSync.Grows s₁ s' ∧ ∀ k ∈ acc'.map Request.hash, k ∈ requests.map Request.hash := by
        intro acc' rest'
        have grown : TrieSync.Grows s₁ (TrieSync.gather env req s₁ acc' rest).1 := TrieSync.grows_gather rest
        rw [rest'] at grown
        obtain ⟨more, rfl, -⟩ := TrieSync.gather_requests rest rest'
        exact ⟨grown, fun k mem => by simp only [List.map_append, List.mem_append]; exact .inl mem⟩
      have lift : ∀ acc' (n : Node), TrieSync.gather env req s₁ acc' rest = (s', .ok requests) →
          Covered env s₁.database (fun k => s₁.Stored k ∨ s₁.Awaits req.hash k ∨ k ∈ acc'.map Request.hash) req n →
          Covered env s'.database (fun k => s'.Stored k ∨ s'.Awaits req.hash k ∨ k ∈ requests.map Request.hash) req n := by
        intro acc' n rest' covered
        obtain ⟨grown, kept⟩ := later acc' rest'
        refine covered.mono ?_ (fun k stored => by rw [grown.store.database]; exact stored) rfl
        intro k ready
        rcases ready with stored | awaits | made
        · exact .inl (Stored.of_grows grown stored)
        · exact .inr (.inl (Awaits.of_extends grown.extend awaits))
        · exact .inr (.inr (kept k made))
      intro kid mem
      rcases List.mem_cons.mp mem with rfl | further
      · -- the child just gone through
        cases child with
        | hashNode node =>
            dsimp only at gathered
            split at gathered
            · rename_i skipped
              refine lift acc _ gathered ?_
              rcases skipped with inBatch | inDatabase
              · exact .inl (.inl (.inl inBatch))
              · exact .inr inDatabase
            · refine lift _ _ gathered (.inl (.inr (.inr ?_)))
              simp
        | valueNode v =>
            refine lift acc _ gathered ((notify_covers nonzero notified).mono ?_ (fun _ stored => stored) rfl)
            intro k ready
            exact ready.imp id .inl
        | fullNode _ _ => trivial
        | shortNode _ _ _ => trivial
        | nil => trivial
      · -- a later child, by induction
        cases child with
        | hashNode node =>
            dsimp only at gathered
            split at gathered
            · exact gather_covers nonzero rest gathered kid further
            · exact gather_covers nonzero rest gathered kid further
        | valueNode v => exact gather_covers nonzero rest gathered kid further
        | fullNode _ _ => exact gather_covers nonzero rest gathered kid further
        | shortNode _ _ _ => exact gather_covers nonzero rest gathered kid further
        | nil => exact gather_covers nonzero rest gathered kid further

/-- The requests `gather` makes are for keys not in the membatch. -/
theorem gather_fresh {req : Request} :
    ∀ (kids : List (Node × Int)) {s s' : TrieSync} {acc requests : List Request},
      TrieSync.gather env req s acc kids = (s', .ok requests) → ∀ q ∈ requests, q ∈ acc ∨ s.batch.contains q.hash = false
  | [], _, _, _, _, gathered => by
      cases gathered
      exact fun q mem => .inl mem
  | (child, depth) :: rest, s, s', acc, requests, gathered => by
      unfold TrieSync.gather at gathered
      split at gathered
      · cases gathered
      rename_i s₁ notified
      have same : s₁.batch = s.batch := (TrieSync.grows_notify notified).store.batch
      intro q mem
      cases child with
      | hashNode node =>
          dsimp only at gathered
          split at gathered
          · rw [← same]
            exact gather_fresh rest gathered q mem
          · rename_i kept
            rcases gather_fresh rest gathered q mem with made | notIn
            · rcases List.mem_append.mp made with earlier | now
              · exact .inl earlier
              · rw [List.mem_singleton.mp now, ← same]
                simp only [not_or] at kept
                exact .inr (by simpa using kept.1)
            · rw [← same]
              exact .inr notIn
      | valueNode v => rw [← same]; exact gather_fresh rest gathered q mem
      | fullNode _ _ => rw [← same]; exact gather_fresh rest gathered q mem
      | shortNode _ _ _ => rw [← same]; exact gather_fresh rest gathered q mem
      | nil => rw [← same]; exact gather_fresh rest gathered q mem

/-- Scheduled under `p`, each request waits under it. -/
theorem awaits_foldl_schedule {p : List UInt8} :
    ∀ (requests : List Request) {s : TrieSync}, (∀ q ∈ requests, p ∈ q.parents) →
      ∀ k, s.Awaits p k ∨ k ∈ requests.map Request.hash → (requests.foldl TrieSync.schedule s).Awaits p k
  | [], _, _, _, ready => ready.resolve_right (by simp)
  | q :: rest, s, named, k, ready => by
      rw [List.foldl_cons]
      apply awaits_foldl_schedule rest (fun q' mem => named q' (by simp [mem]))
      rcases ready with awaits | made
      · exact .inl (Awaits.of_extends (TrieSync.extends_schedule s q) awaits)
      · rw [List.map_cons, List.mem_cons] at made
        rcases made with rfl | later
        · exact .inl (awaits_schedule s (named q (by simp)))
        · exact .inr later

end Children

/-! ### The membatch order -/

/-- Two records of one request that agree on what its place in the membatch order depends on. -/
def Request.Like (r r' : Request) : Prop :=
  r.raw = r'.raw ∧ r.depth = r'.depth ∧ r.callback = r'.callback

theorem Request.like_of_body {r r' : Request} (body : r.body = r'.body) : r.Like r' :=
  ⟨Request.raw_eq_of_body body, Request.depth_eq_of_body body, Request.callback_eq_of_body body⟩

/-- Position `i` of the membatch order holds a raw entry, or a node each of whose children is
earlier in the order or in the database; `t` holds the requests as they were before they were
committed. -/
def ChildrenFirstAt (env : SyncEnv) (t : Table (List UInt8) Request) (s : TrieSync) (i : Nat) : Prop :=
  ∃ key q, s.order[i]? = some key ∧ t.get key = some q ∧
    (q.raw = true ∨ ∃ d node kids, s.batch.get key = some d ∧ decodeNode env.decodeMsg key d 0 = .ok node ∧
      TrieSync.childList q node = some kids ∧
      ∀ kid ∈ kids, Covered env s.database (fun k => k ∈ s.order.take i ∨ (s.database k).isSome) q kid.1)

section Order

variable {env : SyncEnv}

theorem Membatch.contains_iff {s : TrieSync} (mb : Membatch s) (k : List UInt8) :
    s.batch.contains k = true ↔ k ∈ s.order := by
  rw [Table.contains_iff_mem_keys, mb.keys]

theorem Membatch.of_grows {s s' : TrieSync} (mb : Membatch s) (grown : TrieSync.Grows s s') : Membatch s' := by
  refine ⟨by rw [grown.store.batch, grown.store.order]; exact mb.keys, by rw [grown.store.order]; exact mb.nodup, ?_⟩
  intro k pending
  rw [grown.store.batch]
  rcases grown.fresh k pending with before | notIn
  · exact mb.apart k before
  · exact notIn

/-- A request named as a parent is counted. -/
theorem count_pos_of_awaits {s : TrieSync} {p k : List UInt8} (awaits : s.Awaits p k) :
    0 < (parentRefs s.requests).count p := by
  obtain ⟨q, found, named⟩ := awaits
  apply List.count_pos_iff.mpr
  exact List.mem_flatMap.mpr ⟨(k, q), Table.mem_of_get found, named⟩

theorem ChildrenFirstAt.later {t : Table (List UInt8) Request} {s s' : TrieSync} {i : Nat}
    (first : ChildrenFirstAt env t s i) (order : s.order <+: s'.order)
    (batch : ∀ k d, s.batch.get k = some d → s'.batch.get k = some d) (database : s'.database = s.database) :
    ChildrenFirstAt env t s' i := by
  obtain ⟨key, q, atKey, found, shape⟩ := first
  have lt : i < s.order.length := (List.getElem?_eq_some_iff.mp atKey).1
  obtain ⟨more, whole⟩ := order
  have atKey' : s'.order[i]? = some key := by
    rw [← whole, List.getElem?_append_left lt, atKey]
  have taken : s'.order.take i = s.order.take i := by
    rw [← whole, List.take_append_of_le_length lt.le]
  refine ⟨key, q, atKey', found, shape.imp id ?_⟩
  rintro ⟨d, node, kids, stored, decoded, listed, covered⟩
  refine ⟨d, node, kids, batch _ _ stored, decoded, listed, fun kid mem => ?_⟩
  rw [taken, database]
  exact covered kid mem

/-- What committing keeps from `s` to `s'`, `t₀` holding the requests as they were: the invariants,
the database and the membatch so far, and every position it adds to the order is children-first. -/
structure Commits (env : SyncEnv) (t₀ : Table (List UInt8) Request) (s s' : TrieSync) : Prop where
  waits : Waits env s'
  membatch : Membatch s'
  database : s'.database = s.database
  order : s.order <+: s'.order
  batch : ∀ k d, s.batch.get k = some d → s'.batch.get k = some d
  first : ∀ i, s.order.length ≤ i → i < s'.order.length → ChildrenFirstAt env t₀ s' i

theorem Commits.refl {t₀ : Table (List UInt8) Request} {s : TrieSync} (waits : Waits env s) (mb : Membatch s) :
    Commits env t₀ s s :=
  ⟨waits, mb, rfl, List.prefix_refl _, fun _ _ found => found, fun _ low high => absurd high (Nat.not_lt.mpr low)⟩

theorem Commits.trans {t₀ : Table (List UInt8) Request} {s₁ s₂ s₃ : TrieSync} (a : Commits env t₀ s₁ s₂)
    (b : Commits env t₀ s₂ s₃) : Commits env t₀ s₁ s₃ := by
  refine ⟨b.waits, b.membatch, b.database.trans a.database, a.order.trans b.order,
    fun k d found => b.batch k d (a.batch k d found), ?_⟩
  intro i low high
  by_cases earlier : i < s₂.order.length
  · exact (a.first i low earlier).later b.order b.batch b.database
  · exact b.first i (Nat.not_lt.mp earlier) high

/-- The processed requests of `s` are records of requests of `t₀`. -/
def Recorded (t₀ : Table (List UInt8) Request) (s : TrieSync) : Prop :=
  ∀ k q, s.requests.get k = some q → q.data.isSome → ∃ q₀, t₀.get k = some q₀ ∧ q₀.Like q

theorem Recorded.of_only {t₀ : Table (List UInt8) Request} {s s' : TrieSync} (recorded : Recorded t₀ s)
    (only : TrieSync.OnlyProcessed s.requests s'.requests) : Recorded t₀ s' := by
  intro k q found processed
  obtain ⟨q', found', body⟩ := only k q found processed
  obtain ⟨q₀, found₀, like⟩ := recorded k q' found' (by rw [Request.data_eq_of_body body]; exact processed)
  obtain ⟨raw, depth, callback⟩ := Request.like_of_body body
  exact ⟨q₀, found₀, like.1.trans raw, like.2.1.trans depth, like.2.2.trans callback⟩

/-- The first lines of `commit` store a request nothing names, a raw entry or a processed node,
after all the children it waited for. -/
theorem store_commits {t₀ : Table (List UInt8) Request} {s : TrieSync} {req r : Request} {owed : List (List UInt8)}
    (waits : Waits env s) (mb : Membatch s) (recorded : Recorded t₀ s)
    (found : s.requests.get req.hash = some r) (free : (parentRefs s.requests ++ owed).count req.hash = 0)
    (shape : (∃ q₀, t₀.get req.hash = some q₀ ∧ q₀.raw = true) ∨ (req = r ∧ r.data.isSome)) :
    Commits env t₀ s (s.store req) ∧ TrieSync.OnlyProcessed s.requests (s.store req).requests := by
  have notIn : s.batch.contains req.hash = false := mb.apart _ (by simp [found])
  have absent : s.batch.get req.hash = none := by
    simpa [Table.contains, Option.isSome_iff_ne_none] using notIn
  have appended : (s.store req).batch = s.batch ++ [(req.hash, req.data.getD [])] :=
    Table.set_of_get_eq_none absent _
  have notOrdered : req.hash ∉ s.order := by
    rw [← mb.contains_iff]
    simp [notIn]
  have only : TrieSync.OnlyProcessed s.requests (s.store req).requests := by
    intro k q got _
    exact ⟨q, (get_remove_eq_some got).2, rfl⟩
  -- nothing waits under the request, so every child it waited for is stored
  have unnamed : ∀ k, ¬s.Awaits req.hash k := by
    intro k awaits
    have := count_pos_of_awaits awaits
    simp only [List.count_append] at free
    omega
  refine ⟨⟨?_, ?_, rfl, List.prefix_append _ _, ?_, ?_⟩, only⟩
  · refine WaitsBut.mono waits only ?_ (fun _ stored => stored)
    intro p k ready
    rcases ready with stored | ⟨q, got, named⟩
    · left
      rcases stored with inBatch | inDatabase
      · exact .inl (by simp [TrieSync.store, inBatch])
      · exact .inr inDatabase
    · by_cases same : k = req.hash
      · exact .inl (.inl (by simp [TrieSync.store, same]))
      · exact .inr ⟨q, by simp [TrieSync.store, same, got], named⟩
  · refine ⟨?_, ?_, ?_⟩
    · show (s.store req).batch.keys = s.order ++ [req.hash]
      rw [appended]
      simp [Table.keys, ← mb.keys]
    · simpa [TrieSync.store] using mb.nodup.append (List.nodup_singleton _) (by simpa using notOrdered)
    · intro k pending
      by_cases same : k = req.hash
      · simp [TrieSync.store, same] at pending
      · have before : (s.requests.get k).isSome := by simpa [TrieSync.store, same] using pending
        simp [TrieSync.store, same, mb.apart k before]
  · intro k d got
    have other : k ≠ req.hash := by
      rintro rfl
      rw [absent] at got
      cases got
    simp [TrieSync.store, other, got]
  · intro i low high
    have atEnd : i = s.order.length := by
      simp [TrieSync.store] at high
      omega
    subst atEnd
    have atKey : (s.store req).order[s.order.length]? = some req.hash := by
      simp [TrieSync.store]
    rcases shape with ⟨q₀, found₀, raw⟩ | ⟨rfl, processed⟩
    · exact ⟨req.hash, q₀, atKey, found₀, .inl raw⟩
    obtain ⟨d, data⟩ := Option.isSome_iff_exists.mp processed
    obtain ⟨q₀, found₀, like⟩ := recorded _ _ found processed
    obtain ⟨node, kids, decoded, listed, covered⟩ := waits _ _ d not_false found data
    refine ⟨req.hash, q₀, atKey, found₀, .inr ⟨d, node, kids, by simp [TrieSync.store, data], decoded, ?_, ?_⟩⟩
    · rw [childList_of_depth like.2.1]
      exact listed
    intro kid mem
    refine (covered kid mem).mono ?_ (fun _ stored => stored) like.2.2
    rintro k (stored | awaits)
    · rcases stored with inBatch | inDatabase
      · left
        simpa [TrieSync.store] using (mb.contains_iff k).mp inBatch
      · exact .inr inDatabase
    · exact absurd awaits (unnamed k)

theorem Commits.of_grows {t₀ : Table (List UInt8) Request} {s s' : TrieSync} (waits : Waits env s) (mb : Membatch s)
    (grown : TrieSync.Grows s s') : Commits env t₀ s s' := by
  refine ⟨WaitsBut.of_grows waits grown, mb.of_grows grown, grown.store.database, by rw [grown.store.order],
    fun k d found => by rw [grown.store.batch]; exact found, ?_⟩
  intro i low high
  rw [grown.store.order] at high
  exact absurd high (Nat.not_lt.mpr low)

/-- `commit` over its whole cascade: every request it stores, the first one a raw entry or a
processed node and every other one a processed parent it frees, went in after its children. -/
theorem commitFuel_commits {t₀ : Table (List UInt8) Request} (fuel : Nat) :
    ∀ {s : TrieSync} {req r : Request} {owed : List (List UInt8)}, Counted s.requests owed → Waits env s →
      Membatch s → Recorded t₀ s → s.requests.get req.hash = some r → r.parents = req.parents →
      (parentRefs s.requests ++ owed).count req.hash = 0 →
      ((∃ q₀, t₀.get req.hash = some q₀ ∧ q₀.raw = true) ∨ (req = r ∧ r.data.isSome)) →
      Commits env t₀ s (s.commitFuel fuel req) ∧ TrieSync.OnlyProcessed s.requests (s.commitFuel fuel req).requests := by
  induction fuel with
  | zero =>
      intro s req r owed _ waits mb _ _ _ _ _
      exact ⟨Commits.refl waits mb, TrieSync.OnlyProcessed.refl _⟩
  | succ fuel ih =>
      intro s req r owed c waits mb recorded found parents free shape
      have stored := store_commits waits mb recorded found free shape
      have counted : Counted (s.store req).requests (req.parents ++ owed) := by
        rw [← parents]
        exact c.remove found free
      -- along the loop: the bookkeeping, and everything `commit` keeps since `s`
      have loop := Counted.release_invariant
        (fun acc owed => Counted acc.requests owed ∧ Commits env t₀ s acc ∧ TrieSync.OnlyProcessed s.requests acc.requests)
        (TrieSync.commitFuel fuel) (fun holds => holds.1) ?lowered ?nested req.parents ⟨counted, stored⟩
      · exact loop.2
      case lowered =>
        intro acc p rest parent ⟨c', commits, only⟩ got
        have grown : TrieSync.Grows acc { acc with requests := acc.requests.set p { parent with deps := parent.deps - 1 } } :=
          TrieSync.grows_set got rfl (List.prefix_refl _)
        exact ⟨c'.release rfl got, commits.trans (Commits.of_grows commits.waits commits.membatch grown),
          only.trans grown.only⟩
      case nested =>
        intro acc parent owed' ⟨c', commits, only⟩ got processed free'
        obtain ⟨commits', only'⟩ := ih c' commits.waits commits.membatch (recorded.of_only only) got rfl free'
          (.inr ⟨rfl, processed⟩)
        exact ⟨Counted.commitFuel fuel c' got rfl free', commits.trans commits', only.trans only'⟩

theorem Recorded.refl (s : TrieSync) : Recorded s.requests s :=
  fun _ q found _ => ⟨q, found, rfl, rfl, rfl⟩

/-- Steps that leave the membatch and the database as they are add nothing to the order. -/
theorem Commits.of_sameStore {t₀ : Table (List UInt8) Request} {s s₁ s' : TrieSync} (same : TrieSync.SameStore s s₁)
    (commits : Commits env t₀ s₁ s') : Commits env t₀ s s' := by
  refine ⟨commits.waits, commits.membatch, commits.database.trans same.database, ?_, ?_, ?_⟩
  · rw [← same.order]
    exact commits.order
  · intro k d found
    exact commits.batch k d (by rw [same.batch]; exact found)
  · intro i low high
    exact commits.first i (by rw [same.order]; exact low) high

/-- Processing a request: every other processed request still waits, and the membatch stays as it
is, the request having been pending. -/
theorem setData_waits {s : TrieSync} {h : List UInt8} {r : Request} (waits : Waits env s) (mb : Membatch s)
    (found : s.requests.get h = some r) (d : List UInt8) :
    WaitsBut env (· = h) { s with requests := s.requests.set h { r with data := some d } } ∧
      Membatch { s with requests := s.requests.set h { r with data := some d } } := by
  constructor
  · intro k q d' other got data
    have before : s.requests.get k = some q := by simpa [other] using got
    obtain ⟨node, kids, decoded, listed, covered⟩ := waits k q d' not_false before data
    refine ⟨node, kids, decoded, listed, fun kid mem => (covered kid mem).mono ?_ (fun _ stored => stored) rfl⟩
    rintro key (stored | ⟨q', got', named⟩)
    · exact .inl stored
    · by_cases same : key = h
      · subst same
        rw [found] at got'
        cases got'
        exact .inr ⟨{ r with data := some d }, by simp, named⟩
      · exact .inr ⟨q', by simp [same, got'], named⟩
  · refine ⟨mb.keys, mb.nodup, ?_⟩
    intro k pending
    by_cases same : k = h
    · subst same
      exact mb.apart k (by simp [found])
    · exact mb.apart k (by simpa [same] using pending)

/-- A result `Process` accepts, for a key other than the zero hash: the invariants hold after it,
and every entry it commits went in after its children. -/
theorem processItem_commits {s s' : TrieSync} {item : SyncResult} {b : Bool} (c : Counted s.requests [])
    (waits : Waits env s) (mb : Membatch s) (nonzero : item.hash ≠ zeroHash)
    (processed : s.processItem env item = (s', .ok b)) : Commits env s.requests s s' := by
  obtain ⟨r, found, unprocessed, ⟨raw, rfl⟩ | ⟨node, s₁, requests, notRaw, decoded, gathered, finish⟩⟩ :=
    TrieSync.processItem_ok processed
  · -- a raw entry is committed at once
    have keyed : r.hash = item.hash := c.keyed found
    have found' : s.requests.get ({ r with data := some item.data } : Request).hash = some r := by
      simpa [keyed] using found
    exact (commitFuel_commits _ c waits mb (Recorded.refl s) found' rfl
      (by simpa [keyed] using c.count_eq_zero_of_unprocessed found unprocessed) (.inl ⟨r, found', raw⟩)).1
  have keyed : r.hash = item.hash := c.keyed found
  obtain ⟨kids, listed, gathered⟩ := TrieSync.children_ok gathered
  let R : Request := { r with data := some item.data }
  let s₀ : TrieSync := { s with requests := s.requests.set item.hash R }
  have found₀ : s₀.requests.get R.hash = some R := by simp [s₀, R, keyed]
  obtain ⟨waits₀, mb₀⟩ := setData_waits waits mb found item.data
  have grown : TrieSync.Grows s₀ s₁ := by
    have grown : TrieSync.Grows s₀ (TrieSync.gather env R s₀ [] kids).1 := TrieSync.grows_gather kids
    rwa [gathered] at grown
  have c₁ : Counted s₁.requests [] := by
    have counted : Counted (TrieSync.gather env R s₀ [] kids).1.requests [] :=
      Counted.gather kids (c.setData found notRaw item.data) found₀ rfl
    rwa [gathered] at counted
  have waits₁ : WaitsBut env (· = item.hash) s₁ := WaitsBut.of_grows waits₀ grown
  have mb₁ : Membatch s₁ := mb₀.of_grows grown
  have covers := gather_covers (by simpa [R, keyed] using nonzero) kids gathered
  obtain ⟨r₁, found₁, body₁, -⟩ := grown.extend item.hash R (by simp [s₀])
  have processed₁ : r₁.data = some item.data := Request.data_eq_of_body body₁
  -- the node waits for each child, once `ready` says where each child is
  have node₁ : ∀ {t : TrieSync} {ready : List UInt8 → Prop} {r' : Request}, r'.body = r₁.body →
      (∀ k, s₁.Stored k ∨ s₁.Awaits R.hash k ∨ k ∈ requests.map Request.hash → ready k) →
      (∀ k, (s₁.database k).isSome → (t.database k).isSome) →
      ∃ node kids, decodeNode env.decodeMsg item.hash item.data 0 = .ok node ∧ TrieSync.childList r' node = some kids ∧
        ∀ kid ∈ kids, Covered env t.database ready r' kid.1 := by
    intro t ready r' body more kept
    refine ⟨node, kids, decoded, ?_, fun kid mem => (covers kid mem).mono more kept ?_⟩
    · rw [childList_of_depth (Request.depth_eq_of_body (body.trans body₁))]
      exact listed
    · exact Request.callback_eq_of_body (body.trans body₁)
  have recorded₁ : Recorded s.requests s₁ := by
    intro k q got processed
    obtain ⟨q₀, got₀, body⟩ := grown.only k q got processed
    by_cases same : k = item.hash
    · subst same
      simp only [s₀, Table.get_set, if_true, Option.some.injEq] at got₀
      subst got₀
      exact ⟨r, found, (Request.like_of_body body :)⟩
    · exact ⟨q₀, by simpa [s₀, same] using got₀, Request.like_of_body body⟩
  rw [found₁] at finish
  dsimp only [Option.getD] at finish
  rcases finish with ⟨empty, zero, rfl⟩ | ⟨-, rfl⟩
  · -- nothing to wait for: the node is committed with its parents it frees
    have waitsAll : Waits env s₁ := by
      intro h q d _ got data
      by_cases same : h = item.hash
      · subst same
        rw [found₁] at got
        cases got
        rw [processed₁] at data
        cases data
        refine node₁ rfl ?_ (fun _ stored => stored)
        intro k ready
        rcases ready with stored | awaits | made
        · exact .inl stored
        · exact .inr (by simpa [R, keyed] using awaits)
        · simp [List.length_eq_zero_iff.mp empty] at made
      · exact waits₁ h q d same got data
    have keyed₁ : r₁.hash = item.hash := c₁.keyed found₁
    have free : (parentRefs s₁.requests ++ []).count r₁.hash = 0 := by
      have := c₁.counted found₁
      rw [keyed₁]
      omega
    exact Commits.of_sameStore ((show TrieSync.SameStore s s₀ from ⟨rfl, rfl, rfl⟩).trans grown.store)
      (commitFuel_commits _ c₁ waitsAll mb₁ recorded₁ (by simpa [keyed₁] using found₁) rfl free
        (.inr ⟨rfl, by simp [processed₁]⟩)).1
  · -- the node waits for the requests it makes
    obtain ⟨more, same, fresh⟩ := TrieSync.gather_requests _ gathered
    rw [List.nil_append] at same
    subst same
    let s₂ : TrieSync := { s₁ with requests := s₁.requests.set item.hash { r₁ with deps := r₁.deps + requests.length } }
    have raised : TrieSync.Grows s₁ s₂ := TrieSync.grows_set found₁ rfl (List.prefix_refl _)
    have scheduled : TrieSync.Grows s₂ (requests.foldl TrieSync.schedule s₂) := by
      refine TrieSync.grows_foldl_schedule requests fun q mem => ⟨(fresh q mem).1, ?_⟩
      rcases gather_fresh kids gathered q mem with none | notIn
      · simp at none
      · rw [show s₂.batch = s₀.batch from grown.store.batch]
        exact notIn
    have grownAll := raised.trans scheduled
    refine ⟨?_, mb₁.of_grows grownAll, grownAll.store.database.trans grown.store.database, ?_, ?_, ?_⟩
    · intro h q d _ got data
      by_cases same : h = item.hash
      · subst same
        obtain ⟨q', got', body⟩ := grownAll.only item.hash q got (by simp [data])
        rw [found₁] at got'
        cases got'
        rw [← Request.data_eq_of_body body, processed₁] at data
        cases data
        refine node₁ body.symm ?_ (fun k stored => by rw [grownAll.store.database]; exact stored)
        intro k ready
        rcases ready with stored | awaits | made
        · exact .inl (Stored.of_grows grownAll stored)
        · right
          simpa [R, keyed] using Awaits.of_extends grownAll.extend awaits
        · right
          refine awaits_foldl_schedule requests (fun q mem => ?_) k (.inr made)
          simp [(fresh q mem).2.2, keyed]
      · exact WaitsBut.of_grows waits₁ grownAll h q d same got data
    · rw [grownAll.store.order, grown.store.order]
    · intro k d got
      rw [grownAll.store.batch, grown.store.batch]
      exact got
    · intro i low high
      rw [grownAll.store.order, grown.store.order] at high
      exact absurd high (Nat.not_lt.mpr low)

end Order

end Mjoy.Trie
