import Mjoy.Lib.Loop
import Mjoy.Trie.Refinement

/-!
The hasher refines `Tree.hashed`. On a node that stands for a tree of the minimal shape,
`hash` puts in the parent what `Tree.hashed` says, up to cache flags, and keeps a node that
still stands for the tree: over the database the commit writes to, when it writes, and over
the same database when it only hashes. A commit stores every node it replaces by a hash.
-/

namespace Mjoy.Trie

open KeyValue

/-- A node with its cache flags cleared all the way down: what its encoding reads. -/
def Node.erase : Node → Node
  | .fullNode children _ => .fullNode (fun i => (children i).erase) {}
  | .shortNode key val _ => .shortNode key val.erase {}
  | n => n

/-- The hash `hashFinish` caches for what `store` returned. -/
def Node.hashOf : Node → Option (List UInt8)
  | .hashNode h => some h
  | _ => none

-- Equation lemmas of the definitions above, made once here rather than by the proofs below
-- that unfold them in parallel.
section
attribute [local simp] Node.erase Node.hashOf
end

theorem fromNode_erase : ∀ n : Node, fromNode n.erase = fromNode n
  | .fullNode children _ => by simp only [Node.erase, fromNode, fromNode_erase]
  | .shortNode key val _ => by simp only [Node.erase, fromNode, fromNode_erase]
  | .hashNode _ => rfl
  | .valueNode _ => rfl
  | .nil => rfl

@[simp] theorem encodeNode_erase (n : Node) : encodeNode n.erase = encodeNode n := by
  simp only [encodeNode, fromNode_erase]

@[simp] theorem hashOf_erase (n : Node) : n.erase.hashOf = n.hashOf := by
  cases n <;> rfl

@[simp] theorem isNil_erase (n : Node) : n.erase.isNil = n.isNil := by
  cases n <;> rfl

theorem erase_eq_hashNode {n : Node} {h : List UInt8} : n.erase = .hashNode h ↔ n = .hashNode h := by
  cases n <;> simp [Node.erase]

theorem hashOf_eq_some {n : Node} {h : List UInt8} : n.hashOf = some h ↔ n = .hashNode h := by
  cases n <;> simp [Node.hashOf]

/-! ### The writes of a commit -/

/-- Every write made so far is in `db'`, with an encoding msgp can frame. -/
def WritesIn (db' : Database) (writes : Option Writes) : Prop :=
  ∀ kv ∈ writes.getD [], db' kv.1 = some kv.2 ∧ kv.2.length < 2 ^ 32

/-- `written` continues the writer `w`: the same kind of writer, with writes appended. -/
def Grows (w written : Option Writes) : Prop :=
  written.isSome = w.isSome ∧ w.getD [] <+: written.getD []

section
attribute [local simp] Grows
end

theorem Grows.refl (w : Option Writes) : Grows w w :=
  ⟨rfl, List.prefix_refl _⟩

theorem Grows.trans {w w' w'' : Option Writes} (first : Grows w w') (second : Grows w' w'') : Grows w w'' :=
  ⟨second.1.trans first.1, first.2.trans second.2⟩

theorem Grows.append (w : Option Writes) (more : Writes) : Grows w (w.map fun writes => writes ++ more) := by
  cases w <;> simp [Grows]

theorem WritesIn.last {db' : Database} {w : Option Writes} {h enc : List UInt8}
    (holds : WritesIn db' (w.map fun writes => writes ++ [(h, enc)])) (writing : w.isSome) :
    db' h = some enc ∧ enc.length < 2 ^ 32 := by
  cases w with
  | none => cases writing
  | some writes => exact holds (h, enc) (by simp)

theorem Grows.none {written : Option Writes} (grows : Grows none written) : written = none := by
  cases written with
  | none => rfl
  | some _ => cases grows.1

theorem Grows.some {writes : Writes} {written : Option Writes} (grows : Grows (some writes) written) :
    ∃ more, written = some more ∧ writes <+: more := by
  cases written with
  | none => cases grows.1
  | some more => exact ⟨more, rfl, grows.2⟩

theorem WritesIn.of_grows {db' : Database} {w w' : Option Writes} (grows : Grows w w')
    (holds : WritesIn db' w') : WritesIn db' w :=
  fun kv member => holds kv (grows.2.subset member)

/-! ### `store` and `hashFinish` -/

section Store

variable {keccak : List UInt8 → List UInt8}

theorem Node.isBranch_erase {C : Node} (branch : C.isBranch = true) : C.erase.isBranch = true := by
  cases C <;> simp_all [Node.isBranch, Node.erase]

theorem store_branch {C : Node} (branch : C.isBranch = true) (w : Option Writes) (force : Bool) :
    store keccak C w force =
      if (encodeNode C).length < 32 ∧ !force then (C, w)
      else (.hashNode (C.cache.1.getD (keccak (encodeNode C))),
        w.map fun writes => writes ++ [(C.cache.1.getD (keccak (encodeNode C)), encodeNode C)]) := by
  cases C <;> simp_all [Node.isBranch, store]

/-- `store` on a collapsed node of the minimal shape: what it puts in the parent is the node
`Tree.hashed` gives, up to flags; it writes that node's encoding under its hash when it
replaces it by the hash, and a cached hash it reuses is that hash. -/
theorem store_spec {C : Node} {T : Tree} {flags : NodeFlag} {force : Bool}
    (collapsedEq : C.erase = T.collapsed keccak) (notNil : T ≠ .nil) (cacheC : C.cache.1 = flags.hash)
    (branch : C.isBranch = true) (hashOk : ∀ h, flags.hash = some h → T.hashed keccak force = .hashNode h)
    (w : Option Writes) :
    (store keccak C w force).1.erase = T.hashed keccak force ∧ Grows w (store keccak C w force).2 ∧
      ∀ h, T.hashed keccak force = .hashNode h →
        (store keccak C w force).2 = w.map fun writes => writes ++ [(h, encodeNode (T.collapsed keccak))] := by
  have encEq : encodeNode C = encodeNode (T.collapsed keccak) := by rw [← collapsedEq, encodeNode_erase]
  rw [Tree.hashed_ne_nil notNil, store_branch branch, encEq]
  unfold Tree.embed
  by_cases small : (encodeNode (T.collapsed keccak)).length < 32 ∧ !force
  · -- embedded in the parent: nothing written
    simp only [if_pos small]
    refine ⟨collapsedEq, Grows.refl w, fun h isHash => ?_⟩
    have branchT := Node.isBranch_erase branch
    rw [collapsedEq, isHash] at branchT
    cases branchT
  · -- replaced by its hash, which a cached hash agrees with
    have reused : C.cache.1.getD (keccak (encodeNode (T.collapsed keccak))) = keccak (encodeNode (T.collapsed keccak)) := by
      rw [cacheC]
      cases cached : flags.hash with
      | none => rfl
      | some h =>
          have := hashOk h cached
          rw [Tree.hashed_ne_nil notNil] at this
          unfold Tree.embed at this
          rw [if_neg small] at this
          cases this
          rfl
    simp only [if_neg small, reused]
    refine ⟨rfl, Grows.append w _, fun h isHash => ?_⟩
    cases isHash
    rfl

end Store

/-! ### One call of `hash` -/

section Hashing

variable (keccak : List UInt8 → List UInt8) (db' : Database)

/-- What `hash` does for a node that stands for `T`, given the writer `w`: it returns
`written`, which continues `w`, puts in the parent `Tree.hashed` up to flags, and, once
its writes are in `db'`, keeps a node that stands for `T` over `db'`; a commit also stores
`T` and every node under it that it refers to by hash. -/
def Hashes (force : Bool) (T : Tree) (w : Option Writes) (hashed cached : Node) (written : Option Writes) :
    Prop :=
  Grows w written ∧ hashed.erase = T.hashed keccak force ∧
  (WritesIn db' written → Resolves keccak db' force cached T ∧
    (w.isSome → T.Stored keccak db' ∧ ∀ h, T.hashed keccak force = .hashNode h → T.StoredAt keccak db' h))

variable {keccak db'} {db : Database} (more : Store.Extends db db') (cachegen cachelimit : UInt16)

include more in
/-- A node with a cached hash that `hash` does not walk again. -/
theorem hashCached_spec {n : Node} {flags : NodeFlag} {force : Bool} {T : Tree}
    (resolves : Resolves keccak db force n T) (compact : T.Compact) (flagsOk : FlagsOk keccak db force flags T)
    (cacheEq : n.cache = (flags.hash, flags.dirty))
    (unload : n.canUnload cachegen cachelimit = true → flags.dirty = false) {w : Option Writes}
    {hashed cached : Node} (found : hashCached cachegen cachelimit n w = some (hashed, cached)) :
    Hashes keccak db' force T w hashed cached w := by
  unfold hashCached at found
  rw [cacheEq] at found
  cases hashEq : flags.hash with
  | none => simp [hashEq] at found
  | some h =>
      have isHash := flagsOk.1 h hashEq
      have kept : ∀ clean : flags.dirty = false, T.StoredAt keccak db' h ∧ T.Stored keccak db' := by
        intro clean
        have held := flagsOk.2 clean
        simp only [hashEq] at held
        exact ⟨held.1.mono more, held.2.mono more⟩
      have storedAt : ∀ h', T.hashed keccak force = .hashNode h' → flags.dirty = false → T.StoredAt keccak db' h' := by
        intro h' isHash' clean
        rw [isHash, Node.hashNode.injEq] at isHash'
        subst isHash'
        exact (kept clean).1
      simp only [hashEq] at found
      split_ifs at found with noWriter unloads clean <;>
        simp only [Option.some.injEq, Prod.mk.injEq] at found <;> obtain ⟨rfl, rfl⟩ := found
      · -- only hashing: the cached hash is the answer
        refine ⟨Grows.refl w, isHash.symm ▸ rfl, fun _ => ⟨resolves.mono more, fun writing => ?_⟩⟩
        cases w with
        | none => cases writing
        | some _ => cases noWriter
      · -- an old clean node is unloaded to its hash
        have clean := unload unloads
        exact ⟨Grows.refl w, isHash.symm ▸ rfl, fun _ =>
          ⟨.hash compact isHash (kept clean).1 (kept clean).2,
            fun _ => ⟨(kept clean).2, fun h' isHash' => storedAt h' isHash' clean⟩⟩⟩
      · -- a clean node is stored already
        have clean : flags.dirty = false := by simpa using clean
        exact ⟨Grows.refl w, isHash.symm ▸ rfl, fun _ =>
          ⟨resolves.mono more, fun _ => ⟨(kept clean).2, fun h' isHash' => storedAt h' isHash' clean⟩⟩⟩

/-- A node that `hash` walks while only hashing has no cached hash. -/
theorem hashCached_none {n : Node} {flags : NodeFlag} (cacheEq : n.cache = (flags.hash, flags.dirty))
    {w : Option Writes} (missed : hashCached cachegen cachelimit n w = none) : w = none → flags.hash = none := by
  rintro rfl
  unfold hashCached at missed
  rw [cacheEq] at missed
  cases hashEq : flags.hash with
  | none => rfl
  | some h => simp [hashEq] at missed

/-- The flags `hashFinish` gives a walked node. -/
theorem flagsOk_rehashed {force : Bool} {T : Tree} {flags : NodeFlag} {w : Option Writes}
    (flagsOk : FlagsOk keccak db force flags T) (walked : w = none → flags.hash = none)
    (stored : w.isSome → T.Stored keccak db' ∧ ∀ h, T.hashed keccak force = .hashNode h → T.StoredAt keccak db' h) :
    FlagsOk keccak db' force
      { flags with hash := (T.hashed keccak force).hashOf, dirty := if w.isSome then false else flags.dirty } T := by
  refine ⟨fun h isSome => hashOf_eq_some.mp isSome, fun clean => ?_⟩
  cases hashOfEq : (T.hashed keccak force).hashOf with
  | some h =>
      cases w with
      | none =>
          -- only hashing: a clean node was embedded, and stays so
          have held := flagsOk.2 (by simpa using clean)
          rw [walked rfl] at held
          exact absurd (hashOf_eq_some.mp hashOfEq) (held h)
      | some writes =>
          obtain ⟨storedT, storedAt⟩ := stored rfl
          exact ⟨storedAt h (hashOf_eq_some.mp hashOfEq), storedT⟩
  | none =>
      intro h isHash
      rw [isHash] at hashOfEq
      cases hashOfEq

/-- The end of `hash` on a walked short or full node: `store` the collapsed node `C` and
give the kept node `mk` its new flags. -/
theorem finish_spec {C : Node} {T : Tree} {flags : NodeFlag} {force : Bool} {w w1 : Option Writes}
    (mk : NodeFlag → Node) (collapsedEq : C.erase = T.collapsed keccak) (compact : T.Compact)
    (cacheC : C.cache.1 = flags.hash) (branch : C.isBranch = true) (flagsOk : FlagsOk keccak db force flags T)
    (walked : w = none → flags.hash = none) (grows : Grows w w1)
    (childrenOk : WritesIn db' w1 →
      (∀ f, FlagsOk keccak db' force f T → Resolves keccak db' force (mk f) T) ∧ (w.isSome → T.Stored keccak db')) :
    Hashes keccak db' force T w (store keccak C w1 force).1
      (mk { flags with hash := (store keccak C w1 force).1.hashOf, dirty := if w1.isSome then false else flags.dirty })
      (store keccak C w1 force).2 := by
  have notNil : T ≠ .nil := by
    rintro rfl
    exact compact
  obtain ⟨hashedEq, growsStore, writesEq⟩ := store_spec collapsedEq notNil cacheC branch flagsOk.1 w1
  refine ⟨grows.trans growsStore, hashedEq, fun holds => ?_⟩
  obtain ⟨resolveMk, storedT⟩ := childrenOk (holds.of_grows growsStore)
  have storedAt : w.isSome → ∀ h, T.hashed keccak force = .hashNode h → T.StoredAt keccak db' h := by
    intro writing h isHash
    rw [writesEq h isHash] at holds
    exact holds.last (grows.1.trans writing)
  have hashOfEq : (store keccak C w1 force).1.hashOf = (T.hashed keccak force).hashOf := by
    rw [← hashOf_erase, hashedEq]
  rw [hashOfEq, grows.1]
  exact ⟨resolveMk _ (flagsOk_rehashed flagsOk walked fun writing => ⟨storedT writing, storedAt writing⟩),
    fun writing => ⟨storedT writing, storedAt writing⟩⟩

theorem Tree.hashed_isNil {T : Tree} (compact : T.Compact) (force : Bool) :
    (T.hashed keccak force).isNil = false := by
  have notNil : T ≠ .nil := by
    rintro rfl
    exact compact
  have branch := @Tree.isBranch_collapsed keccak T compact
  rw [Tree.hashed_ne_nil notNil]
  unfold Tree.embed
  split
  · revert branch
    cases T.collapsed keccak <;> simp [Node.isBranch, Node.isNil]
  · rfl

theorem unload_clean {n : Node} {flags : NodeFlag} (cacheEq : n.canUnload cachegen cachelimit =
    (!flags.dirty && cachegen - flags.gen ≥ cachelimit)) : n.canUnload cachegen cachelimit = true → flags.dirty = false := by
  rw [cacheEq]
  simp only [Bool.and_eq_true, Bool.not_eq_eq_eq_not, Bool.not_true]
  exact fun unloads => unloads.1

theorem hashFinish_short (C : Node) (key : List UInt8) (kv : Node) (flags : NodeFlag) (w : Option Writes)
    (force : Bool) :
    hashFinish keccak C (.shortNode key kv flags) w force =
      ((store keccak C w force).1,
        .shortNode key kv
          { flags with hash := (store keccak C w force).1.hashOf, dirty := if w.isSome then false else flags.dirty },
        (store keccak C w force).2) :=
  rfl

theorem hashFinish_full (C : Node) (cached : Fin 17 → Node) (flags : NodeFlag) (w : Option Writes)
    (force : Bool) :
    hashFinish keccak C (.fullNode cached flags) w force =
      ((store keccak C w force).1,
        .fullNode cached
          { flags with hash := (store keccak C w force).1.hashOf, dirty := if w.isSome then false else flags.dirty },
        (store keccak C w force).2) :=
  rfl

include more in
/-- `hash` on a short node: a value below it is kept as it is, a full node below it is
hashed as a child. -/
theorem hash_short_case {force : Bool} {key : List UInt8} {val : Node} {flags : NodeFlag} {Tval : Tree}
    (below : Resolves keccak db false val Tval) (flagsOk : FlagsOk keccak db force flags (.short key Tval))
    (ih : Tval.Compact → ∀ w, ∃ hashed cached written,
      hash keccak cachegen cachelimit val w false = .ok (hashed, cached, written) ∧
        Hashes keccak db' false Tval w hashed cached written)
    (compact : (Tree.short key Tval).Compact) (w : Option Writes) :
    ∃ hashed cached written, hash keccak cachegen cachelimit (.shortNode key val flags) w force =
      .ok (hashed, cached, written) ∧ Hashes keccak db' force (.short key Tval) w hashed cached written := by
  cases missed : hashCached cachegen cachelimit (.shortNode key val flags) w with
  | some r =>
      obtain ⟨hashed, cached⟩ := r
      exact ⟨hashed, cached, w, by simp [hash, missed], hashCached_spec more cachegen cachelimit
        (.short below flagsOk) compact flagsOk rfl (unload_clean cachegen cachelimit rfl) missed⟩
  | none =>
      have walked := hashCached_none cachegen cachelimit rfl missed
      rcases compact.2 with ⟨_, valFull, valCompact⟩ | ⟨_, v, rfl, _⟩
      · -- a full node below: hashed as a child and embedded or referred to by hash
        obtain ⟨cv, kv, w1, run, grows, cvErase, childOk⟩ := ih valCompact w
        have notNil : Tval ≠ .nil := by
          rintro rfl
          exact valCompact
        have cvNil : cv.isNil = false := by
          rw [← isNil_erase, cvErase, Tree.hashed_isNil valCompact]
        have collapsedEq : (Node.shortNode (hexToCompact key) cv flags).erase = (Tree.short key Tval).collapsed keccak := by
          cases Tval with
          | full children => simp only [Node.erase, Tree.collapsed, cvErase, Tree.hashed_ne_nil notNil]
          | _ => simp [Tree.isFull] at valFull
        have finished := finish_spec (fun f => .shortNode key kv f) collapsedEq compact rfl rfl flagsOk walked
          grows fun holds => ⟨fun f fOk => .short (childOk holds).1 fOk, fun writing => ?_⟩
        · refine ⟨_, _, _, ?_, finished⟩
          cases val with
          | valueNode v => cases below; simp [Tree.isFull] at valFull
          | _ =>
              rw [hash]
              simp [missed, run, cvNil, hashFinish_short]
        · -- the child is stored, and under its hash when the parent refers to it by hash
          obtain ⟨storedVal, storedAt⟩ := (childOk holds).2 writing
          refine ⟨storedVal, fun _ _ h embedded => storedAt h ?_⟩
          rwa [Tree.hashed_ne_nil notNil]
      · -- a value below: kept in the collapsed node as it is
        obtain rfl := below.value_inv
        have collapsedEq : (Node.shortNode (hexToCompact key) (.valueNode v) flags).erase =
            (Tree.short key (.value v)).collapsed keccak := rfl
        have finished : Hashes keccak db' force _ w _ _ _ :=
          finish_spec (fun f => .shortNode key (.valueNode v) f) collapsedEq compact rfl rfl
            flagsOk walked (Grows.refl w) fun _ => ⟨fun f fOk => .short (.value false v) fOk,
              fun _ => ⟨trivial, fun notValue => by simp [Tree.isValue] at notValue⟩⟩
        exact ⟨_, _, _, by simp [hash, missed, Node.isNil, hashFinish_short], finished⟩

variable (keccak db') in
/-- Slot `i` after the loop of `hashChildren` reached it: an empty value for a nil child,
and otherwise what `hash` does for the child below a parent. -/
def SlotHashed (children : Fin 17 → Node) (T : Fin 17 → Tree) (w : Option Writes) (i : Fin 17)
    (c k : Node) (written : Option Writes) : Prop :=
  if (T i).isNil then c = .valueNode [] ∧ k = children i
  else c.erase = (T i).hashed keccak false ∧
    (WritesIn db' written → Resolves keccak db' false k (T i) ∧
      (w.isSome → (T i).Stored keccak db' ∧
        ∀ h, (T i).hashed keccak false = .hashNode h → (T i).StoredAt keccak db' h))

variable (keccak db') in
/-- The invariant of the loop of `hashChildren` after the slots `done`: the writer has grown,
the slots done are hashed and the others untouched. -/
def ChildrenHashed (children : Fin 17 → Node) (T : Fin 17 → Tree) (w : Option Writes) (done : List (Fin 16))
    (acc : (Fin 17 → Node) × (Fin 17 → Node) × Option Writes) : Prop :=
  Grows w acc.2.2 ∧ ∀ i : Fin 17,
    (i ∈ done.map Fin.castSucc → SlotHashed keccak db' children T w i (acc.1 i) (acc.2.1 i) acc.2.2) ∧
    (i ∉ done.map Fin.castSucc → acc.1 i = children i ∧ acc.2.1 i = children i)

section
attribute [local simp] SlotHashed
end

theorem SlotHashed.grow {children : Fin 17 → Node} {T : Fin 17 → Tree} {w written written' : Option Writes}
    {i : Fin 17} {c k : Node} (slot : SlotHashed keccak db' children T w i c k written)
    (grows : Grows written written') : SlotHashed keccak db' children T w i c k written' := by
  unfold SlotHashed at slot ⊢
  split
  · simpa [*] using slot
  · rename_i notNil
    rw [if_neg notNil] at slot
    exact ⟨slot.1, fun holds => slot.2 (holds.of_grows grows)⟩

/-- One turn of the loop keeps its invariant: the slot it reaches is hashed. -/
theorem hashChildStep_spec {children : Fin 17 → Node} {T : Fin 17 → Tree}
    (below : ∀ i, Resolves keccak db false (children i) (T i)) (compact : (Tree.full T).Compact)
    (ih : ∀ i, (T i).Compact → ∀ w, ∃ hashed cached written,
      hash keccak cachegen cachelimit (children i) w false = .ok (hashed, cached, written) ∧
        Hashes keccak db' false (T i) w hashed cached written)
    (w : Option Writes) {done : List (Fin 16)} {j : Fin 16} {rest : List (Fin 16)}
    {acc : (Fin 17 → Node) × (Fin 17 → Node) × Option Writes}
    (order : done ++ j :: rest = List.finRange 16) (inv : ChildrenHashed keccak db' children T w done acc) :
    ∃ acc', hashChildStep (fun i written => hash keccak cachegen cachelimit (children i) written false)
      children acc j = .ok acc' ∧ ChildrenHashed keccak db' children T w (done ++ [j]) acc' := by
  obtain ⟨collapsed, cached, written⟩ := acc
  obtain ⟨grows, slots⟩ := inv
  have fresh : j.castSucc ∉ done.map Fin.castSucc := by
    have nodup := List.nodup_finRange 16
    rw [← order] at nodup
    intro member
    obtain ⟨j', mem', same⟩ := List.mem_map.mp member
    obtain rfl := Fin.castSucc_injective _ same
    exact List.disjoint_of_nodup_append nodup mem' List.mem_cons_self
  obtain ⟨-, cachedJ⟩ : collapsed j.castSucc = children j.castSucc ∧ cached j.castSucc = children j.castSucc :=
    (slots j.castSucc).2 fresh
  have processed : ∀ i, i ∈ (done ++ [j]).map Fin.castSucc ↔ i ∈ done.map Fin.castSucc ∨ i = j.castSucc := by
    intro i
    simp
  have small : j.castSucc.val < 16 := j.isLt
  by_cases isNil : (children j.castSucc).isNil
  · -- a nil child is written as an empty value
    have treeNil : (T j.castSucc).isNil = true := by rw [← (below _).isNil_eq, isNil]
    refine ⟨(Function.update collapsed j.castSucc (.valueNode []), cached, written),
      by simp [hashChildStep, isNil], grows, fun i => ⟨fun member => ?_, fun member => ?_⟩⟩
    · by_cases same : i = j.castSucc
      · subst same
        simp [SlotHashed, treeNil, cachedJ]
      · have old := (slots i).1 (((processed i).mp member).resolve_right same)
        simpa [Function.update_of_ne same] using old
    · have same : i ≠ j.castSucc := fun same => member ((processed i).mpr (Or.inr same))
      simpa [Function.update_of_ne same] using (slots i).2 fun old => member ((processed i).mpr (Or.inl old))
  · -- any other child is hashed below the parent
    have treeNil : (T j.castSucc).isNil = false := by rw [← (below _).isNil_eq]; simpa using isNil
    have childCompact : (T j.castSucc).Compact := by
      rcases compact.2.1 j.castSucc small with nil | inner
      · simp [nil, Tree.isNil] at treeNil
      · exact inner
    obtain ⟨c, k, written', run, hashes⟩ := ih j.castSucc childCompact written
    refine ⟨(Function.update collapsed j.castSucc c, Function.update cached j.castSucc k, written'),
      by simp [hashChildStep, isNil, run], grows.trans hashes.1, fun i => ⟨fun member => ?_, fun member => ?_⟩⟩
    · by_cases same : i = j.castSucc
      · subst same
        simp only [SlotHashed, treeNil, Bool.false_eq_true, if_false, Function.update_self]
        refine ⟨hashes.2.1, fun holds => ?_⟩
        obtain ⟨resolves, stored⟩ := hashes.2.2 holds
        exact ⟨resolves, fun writing => stored (grows.1.trans writing)⟩
      · have old := (slots i).1 (((processed i).mp member).resolve_right same)
        simpa [Function.update_of_ne same] using old.grow hashes.1
    · have same : i ≠ j.castSucc := fun same => member ((processed i).mpr (Or.inr same))
      simpa [Function.update_of_ne same] using (slots i).2 fun old => member ((processed i).mpr (Or.inl old))

/-- The loop of `hashChildren` over the first sixteen slots of a full node. -/
theorem hashChildren_loop {children : Fin 17 → Node} {T : Fin 17 → Tree}
    (below : ∀ i, Resolves keccak db false (children i) (T i)) (compact : (Tree.full T).Compact)
    (ih : ∀ i, (T i).Compact → ∀ w, ∃ hashed cached written,
      hash keccak cachegen cachelimit (children i) w false = .ok (hashed, cached, written) ∧
        Hashes keccak db' false (T i) w hashed cached written)
    (w : Option Writes) :
    ∃ collapsed cached written, (List.finRange 16).foldlM
      (hashChildStep (fun i written => hash keccak cachegen cachelimit (children i) written false) children)
      (children, children, w) = .ok (collapsed, cached, written) ∧
      ChildrenHashed keccak db' children T w (List.finRange 16) (collapsed, cached, written) := by
  have start : ChildrenHashed keccak db' children T w [] (children, children, w) :=
    ⟨Grows.refl w, fun i => ⟨fun member => by simp at member, fun _ => ⟨rfl, rfl⟩⟩⟩
  obtain ⟨⟨collapsed, cached, written⟩, run, inv⟩ :=
    Loop.foldlM_invariant _ (ChildrenHashed keccak db' children T w) (List.finRange 16)
      (fun _ _ _ _ order inv => hashChildStep_spec cachegen cachelimit below compact ih w order inv) start
  exact ⟨collapsed, cached, written, run, inv⟩

theorem mem_castSucc_finRange {i : Fin 17} (small : i.val < 16) : i ∈ (List.finRange 16).map Fin.castSucc :=
  List.mem_map.mpr ⟨⟨i.val, small⟩, List.mem_finRange _, Fin.ext rfl⟩

theorem last_not_mem_castSucc : (16 : Fin 17) ∉ (List.finRange 16).map Fin.castSucc := by
  intro member
  obtain ⟨j, _, same⟩ := List.mem_map.mp member
  have := congrArg Fin.val same
  simp only [Fin.val_castSucc] at this
  have := j.isLt
  simp_all

include more in
/-- `hash` on a full node: its first sixteen children hashed in order, the value in slot 16
kept as it is. -/
theorem hash_full_case {force : Bool} {children : Fin 17 → Node} {flags : NodeFlag} {T : Fin 17 → Tree}
    (below : ∀ i, Resolves keccak db false (children i) (T i)) (flagsOk : FlagsOk keccak db force flags (.full T))
    (ih : ∀ i, (T i).Compact → ∀ w, ∃ hashed cached written,
      hash keccak cachegen cachelimit (children i) w false = .ok (hashed, cached, written) ∧
        Hashes keccak db' false (T i) w hashed cached written)
    (compact : (Tree.full T).Compact) (w : Option Writes) :
    ∃ hashed cached written, hash keccak cachegen cachelimit (.fullNode children flags) w force =
      .ok (hashed, cached, written) ∧ Hashes keccak db' force (.full T) w hashed cached written := by
  cases missed : hashCached cachegen cachelimit (.fullNode children flags) w with
  | some r =>
      obtain ⟨hashed, cached⟩ := r
      exact ⟨hashed, cached, w, by simp [hash, missed], hashCached_spec more cachegen cachelimit
        (.full below flagsOk) compact flagsOk rfl (unload_clean cachegen cachelimit rfl) missed⟩
  | none =>
      have walked := hashCached_none cachegen cachelimit rfl missed
      obtain ⟨collapsed, cached, written, run, grows, slots⟩ := hashChildren_loop cachegen cachelimit below compact ih w
      dsimp only at grows slots
      obtain ⟨collapsed16, cached16⟩ := (slots 16).2 last_not_mem_castSucc
      have terminal := compact.2.2
      have isNil16 : (children 16).isNil = (T 16).isNil := (below 16).isNil_eq
      have collapsedEq : (Node.fullNode (if (children 16).isNil then Function.update collapsed 16 (.valueNode [])
          else collapsed) flags).erase = (Tree.full T).collapsed keccak := by
        simp only [Node.erase, Tree.collapsed, Node.fullNode.injEq, and_true]
        funext i
        by_cases small : i.val < 16
        · -- a slot the loop hashed
          have other : i ≠ 16 := fun same => by simp [same] at small
          have slot := (slots i).1 (mem_castSucc_finRange small)
          unfold SlotHashed at slot
          simp only [if_pos small, apply_ite (fun c : Fin 17 → Node => (c i).erase), Function.update_of_ne other,
            ite_self]
          split at slot
          · rename_i treeNil
            simp [slot.1, Node.erase, treeNil]
          · rename_i treeNil
            have notNil : T i ≠ .nil := by simpa using treeNil
            simp [slot.1, treeNil, Tree.hashed_ne_nil notNil]
        · -- the value slot, kept as it is
          have last : i = 16 := by ext; simp; omega
          subst last
          rcases terminal with isNil | ⟨v, isValue, _⟩
          · have : (children 16).isNil = true := by rw [isNil16, isNil]; rfl
            simp [this, isNil, Node.erase, Tree.isNil]
          · have valueNode := (below 16)
            rw [isValue] at valueNode
            have : children 16 = .valueNode v := valueNode.value_inv
            simp [this, isValue, collapsed16, Node.erase, Node.isNil, Tree.isNil, Tree.toNode]
      have finished : Hashes keccak db' force _ w _ _ _ :=
        finish_spec (fun f => .fullNode cached f) collapsedEq compact rfl rfl flagsOk walked grows
          fun holds => ⟨fun f fOk => .full (fun i => ?_) fOk, fun writing i => ?_⟩
      · refine ⟨_, _, _, ?_, finished⟩
        rw [hash]
        simp [missed, run, hashFinish_full]
      · -- each child kept stands for its tree once the writes are in
        by_cases small : i.val < 16
        · have slot := (slots i).1 (mem_castSucc_finRange small)
          unfold SlotHashed at slot
          split at slot
          · rw [slot.2]
            exact (below i).mono more
          · exact (slot.2 holds).1
        · have last : i = 16 := by ext; simp; omega
          subst last
          rw [cached16]
          exact (below 16).mono more
      · -- each child is stored, and under its hash when the parent refers to it by hash
        by_cases small : i.val < 16
        · have slot := (slots i).1 (mem_castSucc_finRange small)
          unfold SlotHashed at slot
          split at slot
          · rename_i treeNil
            have isNil : T i = .nil := by simpa using treeNil
            exact ⟨by simp [isNil, Tree.Stored], fun _ notNil => absurd isNil notNil⟩
          · rename_i treeNil
            have notNil : T i ≠ .nil := by simpa using treeNil
            obtain ⟨storedT, storedAt⟩ := (slot.2 holds).2 writing
            refine ⟨storedT, fun _ _ h embedded => storedAt h ?_⟩
            rwa [Tree.hashed_ne_nil notNil]
        · have last : i = 16 := by ext; simp; omega
          subst last
          refine ⟨?_, fun small16 => absurd small16 small⟩
          rcases terminal with isNil | ⟨v, isValue, _⟩
          · simp [isNil, Tree.Stored]
          · simp [isValue, Tree.Stored]

include more in
/-- `hash` refines `Tree.hashed`, by induction on how the node stands for its tree: on a
node for a tree of the minimal shape it succeeds, puts in the parent what `Tree.hashed`
gives, and keeps a node that stands for the tree over any database holding its writes. -/
theorem hash_refines {force : Bool} {n : Node} {T : Tree} (resolves : Resolves keccak db force n T) :
    T.Compact → ∀ w, ∃ hashed cached written,
      hash keccak cachegen cachelimit n w force = .ok (hashed, cached, written) ∧
        Hashes keccak db' force T w hashed cached written := by
  induction resolves with
  | nil => exact fun compact => compact.elim
  | value => exact fun compact => compact.elim
  | short below flagsOk ih => exact hash_short_case more cachegen cachelimit below flagsOk ih
  | full below flagsOk ih => exact hash_full_case more cachegen cachelimit below flagsOk ih
  | @hash force h T compact isHash storedAt stored =>
      -- an unloaded node is left as it is: its hash is what the parent holds
      intro _ w
      refine ⟨.hashNode h, .hashNode h, w, by simp [hash, hashFinish, store], Grows.refl w,
        isHash.symm ▸ rfl, fun _ => ⟨(Resolves.hash compact isHash storedAt stored).mono more,
          fun _ => ⟨stored.mono more, fun h' isHash' => ?_⟩⟩⟩
      rw [isHash, Node.hashNode.injEq] at isHash'
      subst isHash'
      exact storedAt.mono more

end Hashing

end Mjoy.Trie
