import Mjoy.Trie.Session

/-!
The cache flags of the nodes a trie keeps in memory (`trie/node.go`), and the rule
`checkCacheInvariant` of `trie_test.go` checks of them: below a clean node every short or full
node is clean. `hasher.hash` unloads a node to its hash once it is clean and old enough, and
skips it while it is clean, so what the rule protects is that nothing dirty is ever dropped or
skipped by a commit.

Every call of a session keeps the rule: `insert` and `delete` make every node on the path they
change dirty, `tryGet` copies a node with its own dirty bit, the msgp reader returns nodes without
flags, and a commit leaves the copy it keeps clean all the way down. With the refinement of
`Mjoy.Trie.Session`, every cached hash is the hash of the node's collapsed encoding.
-/

set_option linter.dupNamespace false

namespace Mjoy.Trie

open KeyValue Loop

namespace Node

/-- `checkCacheInvariant` without the generation check: a dirty short or full node has a dirty
parent, all the way down. `parentDirty` is the dirty bit of the node above; the root has none
above it, and the source skips the check at depth 0, so the root is checked with `true`.
`DirtyRule false` says that no node of the subtree is dirty. -/
def DirtyRule (parentDirty : Bool) : Node → Prop
  | fullNode children flags => (flags.dirty = true → parentDirty = true) ∧ ∀ i, (children i).DirtyRule flags.dirty
  | shortNode _ val flags => (flags.dirty = true → parentDirty = true) ∧ val.DirtyRule flags.dirty
  | hashNode _ => True
  | valueNode _ => True
  | nil => True

/-- Slot 16 of every full node holds a value or nothing: every key of the trie ends in the
terminator, so only a value is ever stored there. -/
def ValueSlots : Node → Prop
  | fullNode children _ =>
      (∀ i, (children i).ValueSlots) ∧ (children 16 = nil ∨ ∃ v, children 16 = valueNode v)
  | shortNode _ val _ => val.ValueSlots
  | _ => True

/-- `n.Within m`: `n` is `m` or a node below it. -/
inductive Within (n : Node) : Node → Prop
  | refl : Within n n
  | short {key : List UInt8} {val : Node} {flags : NodeFlag} : Within n val → Within n (shortNode key val flags)
  | full {children : Fin 17 → Node} {flags : NodeFlag} (i : Fin 17) :
      Within n (children i) → Within n (fullNode children flags)

variable {d : Bool}

-- Equation lemmas of the definitions above, made once here rather than by the proofs below
-- that unfold them in parallel.
section
attribute [local simp] DirtyRule
end

@[simp] theorem dirtyRule_full {children : Fin 17 → Node} {flags : NodeFlag} :
    (fullNode children flags).DirtyRule d ↔
      (flags.dirty = true → d = true) ∧ ∀ i, (children i).DirtyRule flags.dirty :=
  Iff.rfl

@[simp] theorem dirtyRule_short {key : List UInt8} {val : Node} {flags : NodeFlag} :
    (shortNode key val flags).DirtyRule d ↔ (flags.dirty = true → d = true) ∧ val.DirtyRule flags.dirty :=
  Iff.rfl

theorem DirtyRule.of_isNil {n : Node} (empty : n.isNil = true) : n.DirtyRule d := by
  cases n <;> simp_all [Node.isNil, DirtyRule]

/-- The rule only ever constrains a node's own flag against its parent's, so a dirtier parent
keeps it. -/
theorem DirtyRule.mono {n : Node} {d' : Bool} (rule : n.DirtyRule d) (dirtier : d = true → d' = true) :
    n.DirtyRule d' := by
  cases n with
  | fullNode children flags => exact ⟨fun dirty => dirtier (rule.1 dirty), rule.2⟩
  | shortNode key val flags => exact ⟨fun dirty => dirtier (rule.1 dirty), rule.2⟩
  | _ => trivial

theorem DirtyRule.weaken {n : Node} (rule : n.DirtyRule false) (d : Bool) : n.DirtyRule d :=
  rule.mono nofun

/-- A clean node that keeps the rule has nothing dirty below it. -/
theorem DirtyRule.clean {n : Node} (rule : n.DirtyRule d) (clean : n.cache.2 = false) : n.DirtyRule false := by
  cases n with
  | fullNode children flags =>
      simp only [cache] at clean
      exact ⟨fun dirty => by rw [clean] at dirty; exact dirty, rule.2⟩
  | shortNode key val flags =>
      simp only [cache] at clean
      exact ⟨fun dirty => by rw [clean] at dirty; exact dirty, rule.2⟩
  | _ => trivial

theorem DirtyRule.update {children : Fin 17 → Node} (rules : ∀ j, (children j).DirtyRule d) {i : Fin 17}
    {nn : Node} (changed : nn.DirtyRule d) : ∀ j, (Function.update children i nn j).DirtyRule d := by
  intro j
  by_cases same : j = i
  · subst same
    rw [Function.update_self]
    exact changed
  · rw [Function.update_of_ne same]
    exact rules j

theorem DirtyRule.within {m n : Node} (rule : m.DirtyRule d) (inside : n.Within m) : ∃ d', n.DirtyRule d' := by
  induction inside generalizing d with
  | refl => exact ⟨d, rule⟩
  | short _ ih => exact ih rule.2
  | full i _ ih => exact ih (rule.2 i)

theorem canUnload_clean {n : Node} {cachegen cachelimit : UInt16} (unloads : n.canUnload cachegen cachelimit = true) :
    n.cache.2 = false := by
  cases n <;> simp_all [canUnload, cache]

/-! ### Loaded nodes are clean -/

/-- A node without flags is clean all the way down. -/
theorem Clear.dirtyRule {n : Node} (clear : n.Clear) : n.DirtyRule false := by
  induction clear with
  | full _ ih => exact ⟨nofun, ih⟩
  | short _ ih => exact ⟨nofun, ih⟩
  | _ => trivial

/-- `toNode`'s conversions keep every flag. -/
theorem DirtyRule.fromWire : ∀ {n m : Node} {d : Bool}, n.DirtyRule d → n.fromWire = some m → m.DirtyRule d
  | fullNode children flags, m, d, rule, wire => by
      simp only [Node.fromWire] at wire
      split at wire
      · rename_i present
        rw [Option.some.injEq] at wire
        subst wire
        exact ⟨rule.1, fun i => DirtyRule.fromWire (rule.2 i) (Option.some_get (present i)).symm⟩
      · cases wire
  | shortNode key val flags, m, d, rule, wire => by
      simp only [Node.fromWire, Option.bind_eq_bind, Option.bind_eq_some_iff, Option.pure_def,
        Option.some.injEq] at wire
      obtain ⟨key', -, val', valWire, rfl⟩ := wire
      exact ⟨rule.1, DirtyRule.fromWire rule.2 valWire⟩
  | valueNode v, m, d, _, wire => by
      simp only [Node.fromWire] at wire
      split at wire <;> (rw [Option.some.injEq] at wire; subst wire; trivial)
  | hashNode h, m, d, _, wire => by
      cases wire
      trivial
  | nil, m, d, _, wire => by
      cases wire
      trivial

/-- `setNodeflag` sets hashes and generations, never a dirty bit. -/
theorem DirtyRule.setNodeflag {n : Node} (rule : n.DirtyRule d) (hash : Option (List UInt8)) (gen : UInt16) :
    (n.setNodeflag hash gen).DirtyRule d := by
  induction n generalizing d hash with
  | fullNode children flags ih => exact ⟨rule.1, fun i => ih i (rule.2 i) none⟩
  | shortNode key val flags ih => exact ⟨rule.1, ih rule.2 none⟩
  | _ => exact rule

end Node

@[simp] theorem newFlag_dirty (cachegen : UInt16) : (newFlag cachegen).dirty = true :=
  rfl

/-- The nodes a decoder returns are written without flags. -/
def DecodesClear (decodeMsg : List UInt8 → Except String Node) : Prop :=
  ∀ buf raw, decodeMsg buf = .ok raw → raw.Clear

section Reader

variable {readChild : List UInt8 → Except String (Node × List UInt8)}
  (readsClear : ∀ buf r, readChild buf = .ok r → r.1.Clear)
include readsClear

theorem readChildren_clear {children : Fin 17 → Node} {buf : List UInt8} {r : (Fin 17 → Node) × List UInt8}
    (start : ∀ i, (children i).Clear) (run : readChildren readChild children buf = .ok r) :
    ∀ i, (r.1 i).Clear := by
  refine foldlM_ok_invariant _ (fun _ acc => ∀ i, (acc.1 i).Clear) ?_ (List.finRange 17) [] start run
  intro _ i acc acc' clear step
  rw [bind_eq_ok] at step
  obtain ⟨⟨child, rest⟩, read, step⟩ := step
  simp only [pure_eq_ok, Except.ok.injEq] at step
  subst step
  intro j
  by_cases same : j = i
  · subst same
    simpa using readsClear _ _ read
  · simpa [Function.update_of_ne same] using clear j

theorem fullFields_clear : ∀ (size : Nat) {children : Fin 17 → Node} {buf : List UInt8}
    {r : (Fin 17 → Node) × List UInt8}, (∀ i, (children i).Clear) →
    fullFields readChild size children buf = .ok r → ∀ i, (r.1 i).Clear
  | 0, children, buf, r, start, run => by
      rw [fullFields, Except.ok.injEq] at run
      subst run
      exact start
  | size + 1, children, buf, r, start, run => by
      rw [fullFields, bind_eq_ok] at run
      obtain ⟨⟨field, buf⟩, -, run⟩ := run
      dsimp only at run
      split_ifs at run
      · rw [bind_eq_ok] at run
        obtain ⟨⟨count, buf⟩, -, run⟩ := run
        dsimp only at run
        split_ifs at run
        rw [bind_eq_ok] at run
        obtain ⟨⟨read, buf⟩, readRun, run⟩ := run
        exact fullFields_clear size (readChildren_clear readsClear start readRun) run
      · rw [bind_eq_ok] at run
        obtain ⟨buf, -, run⟩ := run
        exact fullFields_clear size start run

theorem shortFields_clear : ∀ (size : Nat) {key : List UInt8} {val : Node} {buf : List UInt8}
    {r : List UInt8 × Node × List UInt8}, val.Clear → shortFields readChild size key val buf = .ok r → r.2.1.Clear
  | 0, key, val, buf, r, start, run => by
      rw [shortFields, Except.ok.injEq] at run
      subst run
      exact start
  | size + 1, key, val, buf, r, start, run => by
      rw [shortFields, bind_eq_ok] at run
      obtain ⟨⟨field, buf⟩, -, run⟩ := run
      dsimp only at run
      split_ifs at run
      · rw [bind_eq_ok] at run
        obtain ⟨⟨key, buf⟩, -, run⟩ := run
        exact shortFields_clear size start run
      · rw [bind_eq_ok] at run
        obtain ⟨⟨val, buf⟩, read, run⟩ := run
        exact shortFields_clear size (readsClear _ _ read) run
      · rw [bind_eq_ok] at run
        obtain ⟨buf, -, run⟩ := run
        exact shortFields_clear size start run

theorem decodeTagged_clear {tag body : List UInt8} {node : Node} (run : decodeTagged readChild tag body = .ok node) :
    node.Clear := by
  unfold decodeTagged at run
  split_ifs at run
  · -- a full node: its children, and no flags
    unfold decodeFull at run
    rw [bind_eq_ok] at run
    obtain ⟨⟨size, buf⟩, -, run⟩ := run
    rw [bind_eq_ok] at run
    obtain ⟨⟨children, rest⟩, fields, run⟩ := run
    simp only [pure_eq_ok, Except.ok.injEq] at run
    subst run
    exact .full (fullFields_clear readsClear size (fun _ => .nil) fields)
  · -- a short node: its value, and no flags
    unfold decodeShort at run
    rw [bind_eq_ok] at run
    obtain ⟨⟨size, buf⟩, -, run⟩ := run
    rw [bind_eq_ok] at run
    obtain ⟨⟨key, val, rest⟩, fields, run⟩ := run
    simp only [pure_eq_ok, Except.ok.injEq] at run
    subst run
    exact .short (shortFields_clear readsClear size .nil fields)
  · cases read : liftRead (Msgp.readBytes body) with
    | error e => simp [read] at run
    | ok r =>
        rw [read, map_ok, Except.ok.injEq] at run
        subst run
        exact .hash _
  · cases read : liftRead (Msgp.readBytes body) with
    | error e => simp [read] at run
    | ok r =>
        rw [read, map_ok, Except.ok.injEq] at run
        subst run
        exact .value _

theorem toNode_clear {intf : Msgp.Intf} {node : Node} (run : toNode readChild intf = .ok node) : node.Clear := by
  unfold toNode at run
  split at run
  · rw [Except.ok.injEq] at run
    subst run
    exact .nil
  · cases run
  · split at run
    · cases run
    · split at run
      · rename_i tagged
        rw [Except.ok.injEq] at run
        subst run
        exact decodeTagged_clear readsClear tagged
      · cases run

end Reader

theorem readNode_clear : ∀ (fuel : Nat) (buf : List UInt8) (r : Node × List UInt8), readNode fuel buf = .ok r → r.1.Clear
  | 0, _, _, run => by cases run
  | fuel + 1, buf, r, run => by
      rw [readNode, bind_eq_ok] at run
      obtain ⟨⟨intf, rest⟩, -, run⟩ := run
      rw [bind_eq_ok] at run
      obtain ⟨node, converted, run⟩ := run
      rw [pure_eq_ok, Except.ok.injEq] at run
      subst run
      exact toNode_clear (readNode_clear fuel) converted

theorem decodesClear_decodeMsg : DecodesClear NodeIntf.decodeMsg := by
  intro buf raw run
  unfold NodeIntf.decodeMsg at run
  cases read : readNode buf.length buf with
  | error e => simp [read] at run
  | ok r =>
      rw [read, map_ok, Except.ok.injEq] at run
      subst run
      exact readNode_clear _ _ _ read

section Loading

variable {decodeMsg : List UInt8 → Except String Node} (clear : DecodesClear decodeMsg) {db : Database}
  {cachegen : UInt16}
include clear

/-- A node loaded from the database is clean all the way down. -/
theorem resolveHash_clean {h pre : List UInt8} {node : Node}
    (run : resolveHash decodeMsg db cachegen h pre = .ok node) : node.DirtyRule false := by
  unfold resolveHash at run
  split at run
  · cases run
  · split at run
    · rename_i decoded
      rw [Except.ok.injEq] at run
      subst run
      unfold decodeNode at decoded
      split_ifs at decoded
      split at decoded
      · cases decoded
      · rename_i raw read
        split at decoded
        · cases decoded
        · rename_i wire
          rw [Except.ok.injEq] at decoded
          subst decoded
          exact ((clear _ _ read).dirtyRule.fromWire wire).setNodeflag _ _
    · cases run

theorem resolve_dirtyRule {n N : Node} {pre : List UInt8} {d : Bool} (rule : n.DirtyRule d)
    (run : resolve decodeMsg db cachegen n pre = .ok N) : N.DirtyRule d := by
  cases n with
  | hashNode h => exact (resolveHash_clean clear run).weaken d
  | _ =>
      simp only [resolve, Except.ok.injEq] at run
      subst run
      exact rule

/-- `tryGet` copies a node it changes with the node's own dirty bit, and puts loaded, clean nodes
in place of hash nodes. -/
theorem tryGet_dirtyRule : ∀ (fuel : Nat) {n : Node} {key : List UInt8} {pos : Nat} {d : Bool}
    {value : Option (List UInt8)} {nn : Node} {didResolve : Bool}, n.DirtyRule d →
    tryGet decodeMsg db cachegen fuel n key pos = .ok (value, nn, didResolve) → nn.DirtyRule d
  | 0, _, _, _, _, _, _, _, _, run => by cases run
  | fuel + 1, n, key, pos, d, value, nn, didResolve, rule, run => by
      cases n with
      | nil =>
          simp only [tryGet, Except.ok.injEq, Prod.mk.injEq] at run
          obtain ⟨-, rfl, -⟩ := run
          trivial
      | valueNode v =>
          simp only [tryGet, Except.ok.injEq, Prod.mk.injEq] at run
          obtain ⟨-, rfl, -⟩ := run
          trivial
      | shortNode nkey val flags =>
          simp only [tryGet] at run
          split_ifs at run with mismatch
          · simp only [Except.ok.injEq, Prod.mk.injEq] at run
            obtain ⟨-, rfl, -⟩ := run
            exact rule
          · rw [bind_eq_ok] at run
            obtain ⟨⟨found, newnode, resolved⟩, below, run⟩ := run
            have newRule := tryGet_dirtyRule fuel rule.2 below
            dsimp only at run
            split_ifs at run <;> simp only [pure_eq_ok, Except.ok.injEq, Prod.mk.injEq] at run <;>
              obtain ⟨-, rfl, -⟩ := run
            · exact ⟨rule.1, newRule⟩
            · exact rule
      | fullNode children flags =>
          simp only [tryGet, bind_eq_ok] at run
          obtain ⟨i, -, ⟨found, newnode, resolved⟩, below, run⟩ := run
          have newRule := tryGet_dirtyRule fuel (rule.2 i) below
          dsimp only at run
          split_ifs at run <;> simp only [pure_eq_ok, Except.ok.injEq, Prod.mk.injEq] at run <;>
            obtain ⟨-, rfl, -⟩ := run
          · exact ⟨rule.1, Node.DirtyRule.update rule.2 newRule⟩
          · exact rule
      | hashNode h =>
          simp only [tryGet, bind_eq_ok] at run
          obtain ⟨child, loaded, ⟨found, newnode, resolved⟩, below, run⟩ := run
          simp only [pure_eq_ok, Except.ok.injEq, Prod.mk.injEq] at run
          obtain ⟨-, rfl, -⟩ := run
          exact tryGet_dirtyRule fuel ((resolveHash_clean clear loaded).weaken d) below

/-- `insert` makes every node it changes dirty and loads only clean nodes: the node it puts in
place keeps the rule below a parent that is dirty whenever the insertion changed something. -/
theorem insert_dirtyRule : ∀ (fuel : Nat) {n : Node} {pre key : List UInt8} {value : Node} {d dirty : Bool}
    {nn : Node}, n.DirtyRule d → value.DirtyRule true →
    insert decodeMsg db cachegen fuel n pre key value = .ok (dirty, nn) → nn.DirtyRule (dirty || d)
  | 0, _, _, _, _, _, _, _, _, _, run => by cases run
  | fuel + 1, n, pre, key, value, d, dirty, nn, rule, valueRule, run => by
      rw [insert.eq_def] at run
      dsimp only at run
      split_ifs at run with atEnd
      · -- the key ends here: the value takes the node's place
        split at run
        · split at run
          · simp only [Except.ok.injEq, Prod.mk.injEq] at run
            obtain ⟨rfl, rfl⟩ := run
            trivial
          · cases run
        · simp only [Except.ok.injEq, Prod.mk.injEq] at run
          obtain ⟨rfl, rfl⟩ := run
          exact valueRule.mono fun _ => Bool.true_or d
      · cases n with
        | shortNode nkey nval flags =>
            dsimp only at run
            by_cases whole : prefixLen key nkey = nkey.length
            · -- the whole key of the short node matches: only its value changes
              rw [if_pos whole, bind_eq_ok] at run
              obtain ⟨⟨changed, child⟩, below, run⟩ := run
              have childRule := insert_dirtyRule fuel rule.2 valueRule below
              dsimp only at run
              split_ifs at run with isChanged <;> simp only [pure_eq_ok, Except.ok.injEq, Prod.mk.injEq] at run <;>
                obtain ⟨rfl, rfl⟩ := run
              · rw [isChanged] at childRule
                exact ⟨fun _ => rfl, childRule⟩
              · simpa using rule
            · -- a new full node where the keys differ, over the old value and the new one
              rw [if_neg whole, bind_eq_ok] at run
              obtain ⟨oldIndex, -, run⟩ := run
              rw [bind_eq_ok] at run
              obtain ⟨⟨_, oldChild⟩, oldRun, run⟩ := run
              dsimp only at run
              rw [bind_eq_ok] at run
              obtain ⟨newIndex, -, run⟩ := run
              rw [bind_eq_ok] at run
              obtain ⟨⟨_, newChild⟩, newRun, run⟩ := run
              have oldRule := insert_dirtyRule fuel (n := .nil) (d := true) trivial (rule.2.mono fun _ => rfl) oldRun
              have newRule := insert_dirtyRule fuel (n := .nil) (d := true) trivial valueRule newRun
              have branchRule : (Node.fullNode (Function.update (Function.update (fun _ => .nil) oldIndex oldChild)
                  newIndex newChild) (newFlag cachegen)).DirtyRule true := by
                refine ⟨fun _ => rfl, Node.DirtyRule.update (Node.DirtyRule.update (fun _ => ?_) ?_) ?_⟩
                · trivial
                · simpa using oldRule
                · simpa using newRule
              dsimp only at run
              split_ifs at run <;> simp only [pure_eq_ok, Except.ok.injEq, Prod.mk.injEq] at run <;>
                obtain ⟨rfl, rfl⟩ := run
              · exact branchRule.mono fun _ => Bool.true_or d
              · exact ⟨fun _ => rfl, branchRule⟩
        | fullNode children flags =>
            simp only [bind_eq_ok] at run
            obtain ⟨i, -, ⟨changed, child⟩, below, run⟩ := run
            have childRule := insert_dirtyRule fuel (rule.2 i) valueRule below
            dsimp only at run
            split_ifs at run with isChanged <;> simp only [pure_eq_ok, Except.ok.injEq, Prod.mk.injEq] at run <;>
              obtain ⟨rfl, rfl⟩ := run
            · rw [isChanged] at childRule
              exact ⟨fun _ => rfl, Node.DirtyRule.update (fun j => (rule.2 j).mono fun _ => rfl) childRule⟩
            · simpa using rule
        | nil =>
            simp only [Except.ok.injEq, Prod.mk.injEq] at run
            obtain ⟨rfl, rfl⟩ := run
            exact ⟨fun _ => rfl, valueRule⟩
        | hashNode h =>
            -- the node is loaded, clean, and the insertion goes on in it
            simp only [bind_eq_ok] at run
            obtain ⟨rn, loaded, ⟨changed, child⟩, below, run⟩ := run
            have loadedRule := (resolveHash_clean clear loaded).weaken d
            have childRule := insert_dirtyRule fuel loadedRule valueRule below
            dsimp only at run
            split_ifs at run with isChanged <;> simp only [pure_eq_ok, Except.ok.injEq, Prod.mk.injEq] at run <;>
              obtain ⟨rfl, rfl⟩ := run
            · simpa [isChanged] using childRule
            · simpa using loadedRule
        | valueNode v => cases run

/-- The node `delete` makes of a full node that lost a child is dirty, and so is what it merges
the last child with. -/
theorem reduceFull_dirtyRule {children : Fin 17 → Node} {pre : List UInt8} {dirty : Bool} {nn : Node}
    (rules : ∀ i, (children i).DirtyRule true)
    (run : reduceFull decodeMsg db cachegen children pre = .ok (dirty, nn)) : dirty = true ∧ nn.DirtyRule true := by
  unfold reduceFull at run
  dsimp only at run
  split_ifs at run with inRange last
  · -- one child left outside the value slot: merged with it when it is a short node
    rw [bind_eq_ok] at run
    obtain ⟨cnode, resolved, run⟩ := run
    have cnodeRule := resolve_dirtyRule clear (rules _) resolved
    split at run <;> simp only [pure_eq_ok, Except.ok.injEq, Prod.mk.injEq] at run <;> obtain ⟨rfl, rfl⟩ := run
    · exact ⟨rfl, fun _ => rfl, cnodeRule.2.mono fun _ => rfl⟩
    · exact ⟨rfl, fun _ => rfl, rules _⟩
  · simp only [pure_eq_ok, Except.ok.injEq, Prod.mk.injEq] at run
    obtain ⟨rfl, rfl⟩ := run
    exact ⟨rfl, fun _ => rfl, rules _⟩
  · simp only [pure_eq_ok, Except.ok.injEq, Prod.mk.injEq] at run
    obtain ⟨rfl, rfl⟩ := run
    exact ⟨rfl, fun _ => rfl, rules⟩

/-- `delete` makes every node it changes dirty, as `insert` does. -/
theorem delete_dirtyRule : ∀ (fuel : Nat) {n : Node} {pre key : List UInt8} {d dirty : Bool} {nn : Node},
    n.DirtyRule d → delete decodeMsg db cachegen fuel n pre key = .ok (dirty, nn) → nn.DirtyRule (dirty || d)
  | 0, _, _, _, _, _, _, _, run => by cases run
  | fuel + 1, n, pre, key, d, dirty, nn, rule, run => by
      cases n with
      | shortNode nkey nval flags =>
          simp only [delete] at run
          split_ifs at run with differs whole
          · simp only [Except.ok.injEq, Prod.mk.injEq] at run
            obtain ⟨rfl, rfl⟩ := run
            simpa using rule
          · simp only [Except.ok.injEq, Prod.mk.injEq] at run
            obtain ⟨rfl, rfl⟩ := run
            trivial
          · rw [bind_eq_ok] at run
            obtain ⟨⟨changed, child⟩, below, run⟩ := run
            have childRule := delete_dirtyRule fuel rule.2 below
            dsimp only at run
            split_ifs at run with unchanged
            · simp only [pure_eq_ok, Except.ok.injEq, Prod.mk.injEq] at run
              obtain ⟨rfl, rfl⟩ := run
              simpa using rule
            · -- the child changed: a short node below is merged into this one
              have isChanged : changed = true := by simpa using unchanged
              rw [isChanged, Bool.true_or] at childRule
              split at run <;> simp only [pure_eq_ok, Except.ok.injEq, Prod.mk.injEq] at run <;>
                obtain ⟨rfl, rfl⟩ := run
              · exact ⟨fun _ => rfl, childRule.2.mono fun _ => rfl⟩
              · exact ⟨fun _ => rfl, childRule⟩
      | fullNode children flags =>
          simp only [delete, bind_eq_ok] at run
          obtain ⟨i, -, ⟨changed, child⟩, below, run⟩ := run
          have childRule := delete_dirtyRule fuel (rule.2 i) below
          dsimp only at run
          split_ifs at run with unchanged
          · simp only [pure_eq_ok, Except.ok.injEq, Prod.mk.injEq] at run
            obtain ⟨rfl, rfl⟩ := run
            simpa using rule
          · have isChanged : changed = true := by simpa using unchanged
            rw [isChanged, Bool.true_or] at childRule
            obtain ⟨rfl, reduced⟩ := reduceFull_dirtyRule clear
              (Node.DirtyRule.update (fun j => (rule.2 j).mono fun _ => rfl) childRule) run
            exact reduced.mono fun _ => rfl
      | valueNode v =>
          simp only [delete, Except.ok.injEq, Prod.mk.injEq] at run
          obtain ⟨rfl, rfl⟩ := run
          trivial
      | nil =>
          simp only [delete, Except.ok.injEq, Prod.mk.injEq] at run
          obtain ⟨rfl, rfl⟩ := run
          trivial
      | hashNode h =>
          simp only [delete, bind_eq_ok] at run
          obtain ⟨rn, loaded, ⟨changed, child⟩, below, run⟩ := run
          have loadedRule := (resolveHash_clean clear loaded).weaken d
          have childRule := delete_dirtyRule fuel loadedRule below
          dsimp only at run
          split_ifs at run with isChanged <;> simp only [pure_eq_ok, Except.ok.injEq, Prod.mk.injEq] at run <;>
            obtain ⟨rfl, rfl⟩ := run
          · simpa [isChanged] using childRule
          · simpa using loadedRule

end Loading


/-! ### Hashing and committing -/

section Hashing

variable (keccak : List UInt8 → List UInt8) (cachegen cachelimit : UInt16)

theorem store_isNone (n : Node) (w : Option Writes) (force : Bool) :
    (store keccak n w force).2.isNone = w.isNone := by
  unfold store
  split
  · rfl
  · rfl
  · dsimp only
    split <;> cases w <;> rfl

theorem hashFinish_written (C K : Node) (w : Option Writes) (force : Bool) :
    (hashFinish keccak C K w force).2.2 = (store keccak C w force).2 :=
  rfl

theorem hashFinish_hashNode (C : Node) (h : List UInt8) (w : Option Writes) (force : Bool) :
    (hashFinish keccak C (.hashNode h) w force).2.1 = .hashNode h :=
  rfl

theorem hashFinish_valueNode (C : Node) (v : List UInt8) (w : Option Writes) (force : Bool) :
    (hashFinish keccak C (.valueNode v) w force).2.1 = .valueNode v :=
  rfl

/-- The dirty bit `hashFinish` gives a walked node: cleared by a commit, kept by `Hash`. -/
theorem cleared_eq (w : Option Writes) (dirty : Bool) : (if w.isSome then false else dirty) = (dirty && w.isNone) := by
  cases w <;> simp

theorem walked_top {dirty d : Bool} (top : dirty = true → d = true) (w : Option Writes) :
    (dirty && w.isNone) = true → (d && w.isNone) = true := by
  rw [Bool.and_eq_true, Bool.and_eq_true]
  exact fun both => ⟨top both.1, both.2⟩

/-- A node `hash` does not walk: kept as it is while only hashing, unloaded, or skipped because it
is clean. -/
theorem hashCached_dirtyRule {n : Node} {d : Bool} {w : Option Writes} {hashed cached : Node}
    (rule : n.DirtyRule d) (found : hashCached cachegen cachelimit n w = some (hashed, cached)) :
    cached.DirtyRule (d && w.isNone) := by
  unfold hashCached at found
  split at found
  · rename_i h dirty cacheEq
    split_ifs at found with noWriter unloads clean <;> simp only [Option.some.injEq, Prod.mk.injEq] at found <;>
      obtain ⟨-, rfl⟩ := found
    · rw [noWriter, Bool.and_true]
      exact rule
    · trivial
    · have isClean : n.cache.2 = false := by simpa [cacheEq] using clean
      exact (rule.clean isClean).weaken _
  · cases found

/-- The loop of `hashChildren` after the slots `done`: the writer is still there, or still absent,
and each copy kept keeps the rule below the walked node's new flag, or is a child the loop has
not reached. -/
def CopiesKeepRule (children : Fin 17 → Node) (e : Bool) (w : Option Writes) (done : List (Fin 16))
    (acc : (Fin 17 → Node) × (Fin 17 → Node) × Option Writes) : Prop :=
  acc.2.2.isNone = w.isNone ∧ ∀ i, (acc.2.1 i).DirtyRule e ∨ (i ∉ done.map Fin.castSucc ∧ acc.2.1 i = children i)

theorem hashChildStep_dirtyRule {children : Fin 17 → Node} {dirty : Bool} {w : Option Writes}
    (hashes : ∀ i {w' : Option Writes} {c k : Node} {written : Option Writes},
      hash keccak cachegen cachelimit (children i) w' false = .ok (c, k, written) →
        written.isNone = w'.isNone ∧ k.DirtyRule (dirty && w'.isNone))
    {done : List (Fin 16)} {j : Fin 16} {acc acc' : (Fin 17 → Node) × (Fin 17 → Node) × Option Writes}
    (kept : CopiesKeepRule children (dirty && w.isNone) w done acc)
    (step : hashChildStep (fun i written => hash keccak cachegen cachelimit (children i) written false)
      children acc j = .ok acc') :
    CopiesKeepRule children (dirty && w.isNone) w (done ++ [j]) acc' := by
  obtain ⟨collapsed, copies, written⟩ := acc
  obtain ⟨same, copiesKept⟩ := kept
  dsimp only at same copiesKept
  have reached : ∀ i, i ≠ j.castSucc → (i ∉ (done ++ [j]).map Fin.castSucc ↔ i ∉ done.map Fin.castSucc) := by
    intro i other
    simp [other]
  dsimp only [hashChildStep] at step
  by_cases isNil : (children j.castSucc).isNil = true
  · -- a nil child is left as it is
    rw [if_pos isNil, pure_eq_ok, Except.ok.injEq] at step
    subst step
    refine ⟨same, fun i => ?_⟩
    dsimp only
    by_cases here : i = j.castSucc
    · subst here
      left
      rcases copiesKept j.castSucc with rule | ⟨-, copyEq⟩
      · exact rule
      · rw [copyEq]
        exact Node.DirtyRule.of_isNil isNil
    · rw [reached i here]
      exact copiesKept i
  · rw [if_neg isNil, bind_eq_ok] at step
    obtain ⟨⟨c, k, written'⟩, run, step⟩ := step
    simp only [pure_eq_ok, Except.ok.injEq] at step
    subst step
    obtain ⟨same', rule⟩ := hashes _ run
    refine ⟨same'.trans same, fun i => ?_⟩
    dsimp only
    by_cases here : i = j.castSucc
    · subst here
      left
      rw [Function.update_self]
      rwa [same] at rule
    · rw [Function.update_of_ne here, reached i here]
      exact copiesKept i

/-- The copies `hash` keeps: only hashing keeps every dirty bit, and a commit leaves a copy that is
clean all the way down, the value in slot 16 of a full node included. -/
theorem hash_dirtyRule (n : Node) : ∀ {d : Bool} {w : Option Writes} {force : Bool} {hashed cached : Node}
    {written : Option Writes}, n.DirtyRule d → n.ValueSlots →
    hash keccak cachegen cachelimit n w force = .ok (hashed, cached, written) →
    written.isNone = w.isNone ∧ cached.DirtyRule (d && w.isNone) := by
  induction n with
  | fullNode children flags ih =>
      intro d w force hashed cached written rule slots run
      cases found : hashCached cachegen cachelimit (.fullNode children flags) w with
      | some r =>
          obtain ⟨hashedC, cachedC⟩ := r
          simp only [hash, found, pure_eq_ok, Except.ok.injEq, Prod.mk.injEq] at run
          obtain ⟨rfl, rfl, rfl⟩ := run
          exact ⟨rfl, hashCached_dirtyRule cachegen cachelimit rule found⟩
      | none =>
          simp only [hash, found, bind_eq_ok] at run
          obtain ⟨⟨collapsed, copies, w1⟩, loop, run⟩ := run
          -- the first sixteen slots, each hashed below the walked node
          have start : CopiesKeepRule children (flags.dirty && w.isNone) w [] (children, children, w) :=
            ⟨rfl, fun i => Or.inr ⟨by simp, rfl⟩⟩
          have kept := foldlM_ok_invariant _ (CopiesKeepRule children (flags.dirty && w.isNone) w)
            (fun _ _ _ _ kept step => hashChildStep_dirtyRule keccak cachegen cachelimit
              (fun i _ _ _ _ run => ih i (rule.2 i) (slots.1 i) run) kept step) (List.finRange 16) [] start loop
          obtain ⟨same, copiesKept⟩ := kept
          dsimp only at same copiesKept
          simp only [pure_eq_ok, hashFinish_full, Except.ok.injEq, Prod.mk.injEq] at run
          obtain ⟨-, rfl, rfl⟩ := run
          rw [store_isNone, cleared_eq, same]
          refine ⟨rfl, walked_top rule.1 w, fun i => ?_⟩
          rcases copiesKept i with kept | ⟨fresh, copyEq⟩
          · exact kept
          · -- the value slot, which the loop does not reach, holds a value or nothing
            have last : i = 16 := by
              by_contra other
              have small : i.val < 16 := by
                have ne : i.val ≠ 16 := fun same => other (Fin.ext same)
                omega
              exact fresh (by simpa using mem_castSucc_finRange small)
            subst last
            rw [copyEq]
            rcases slots.2 with isNil | ⟨v, isValue⟩
            · rw [isNil]
              trivial
            · rw [isValue]
              trivial
  | shortNode key val flags ih =>
      intro d w force hashed cached written rule slots run
      cases found : hashCached cachegen cachelimit (.shortNode key val flags) w with
      | some r =>
          obtain ⟨hashedC, cachedC⟩ := r
          simp only [hash, found, pure_eq_ok, Except.ok.injEq, Prod.mk.injEq] at run
          obtain ⟨rfl, rfl, rfl⟩ := run
          exact ⟨rfl, hashCached_dirtyRule cachegen cachelimit rule found⟩
      | none =>
          simp only [hash, found] at run
          -- the value, hashed below the walked node unless it is a value node
          have walked : ∃ cv kv w1, (w1.isNone = w.isNone ∧ kv.DirtyRule (flags.dirty && w.isNone)) ∧
              pure (hashFinish keccak (.shortNode (hexToCompact key) cv flags) (.shortNode key kv flags) w1 force) =
                (Except.ok (hashed, cached, written) : Except Failure _) := by
            split at run
            · rw [pure_eq_ok, ok_bind] at run
              refine ⟨_, _, _, ⟨rfl, ?_⟩, run⟩
              trivial
            · rw [bind_eq_ok] at run
              obtain ⟨⟨c, k, w1⟩, child, run⟩ := run
              exact ⟨_, _, _, ih rule.2 slots child, run⟩
          obtain ⟨cv, kv, w1, childKept, run⟩ := walked
          simp only [pure_eq_ok, hashFinish_short, Except.ok.injEq, Prod.mk.injEq] at run
          obtain ⟨-, rfl, rfl⟩ := run
          rw [store_isNone, cleared_eq, childKept.1]
          exact ⟨rfl, walked_top rule.1 w, childKept.2⟩
  | hashNode h =>
      intro d w force hashed cached written _ _ run
      simp only [hash, pure_eq_ok, Except.ok.injEq] at run
      obtain ⟨-, rfl, rfl⟩ : _ ∧ _ ∧ _ := ⟨congrArg (·.1) run, congrArg (·.2.1) run, congrArg (·.2.2) run⟩
      rw [hashFinish_written, store_isNone, hashFinish_hashNode]
      exact ⟨rfl, trivial⟩
  | valueNode v =>
      intro d w force hashed cached written _ _ run
      simp only [hash, pure_eq_ok, Except.ok.injEq] at run
      obtain ⟨-, rfl, rfl⟩ : _ ∧ _ ∧ _ := ⟨congrArg (·.1) run, congrArg (·.2.1) run, congrArg (·.2.2) run⟩
      rw [hashFinish_written, store_isNone, hashFinish_valueNode]
      exact ⟨rfl, trivial⟩
  | nil =>
      intro d w force hashed cached written _ _ run
      cases run

end Hashing


/-! ### The calls of a trie -/

section Calls

variable {decodeMsg : List UInt8 → Except String Node} (clear : DecodesClear decodeMsg) {db : Database}
include clear

theorem Trie.new_dirtyRule {root : List UInt8} {t : Trie} (run : Trie.new decodeMsg db root = .ok t) :
    t.root.DirtyRule true := by
  unfold Trie.new at run
  split_ifs at run
  · rw [bind_eq_ok] at run
    obtain ⟨rootnode, loaded, run⟩ := run
    rw [pure_eq_ok, Except.ok.injEq] at run
    subst run
    exact (resolveHash_clean clear loaded).weaken true
  · rw [pure_eq_ok, Except.ok.injEq] at run
    subst run
    trivial

theorem Trie.tryGet_dirtyRule {t t' : Trie} {key : List UInt8} {value : Option (List UInt8)}
    (rule : t.root.DirtyRule true) (run : t.tryGet decodeMsg db key = .ok (value, t')) : t'.root.DirtyRule true := by
  unfold Trie.tryGet at run
  rw [bind_eq_ok] at run
  obtain ⟨⟨found, newroot, didResolve⟩, lookup, run⟩ := run
  simp only [pure_eq_ok, Except.ok.injEq, Prod.mk.injEq] at run
  obtain ⟨-, rfl⟩ := run
  split
  · exact Mjoy.Trie.tryGet_dirtyRule clear _ rule lookup
  · exact rule

theorem Trie.tryDelete_dirtyRule {t t' : Trie} {key : List UInt8} (rule : t.root.DirtyRule true)
    (run : t.tryDelete decodeMsg db key = .ok t') : t'.root.DirtyRule true := by
  unfold Trie.tryDelete at run
  rw [bind_eq_ok] at run
  obtain ⟨⟨changed, n⟩, deleted, run⟩ := run
  simp only [pure_eq_ok, Except.ok.injEq] at run
  subst run
  exact (delete_dirtyRule clear _ rule deleted).mono fun _ => rfl

theorem Trie.tryUpdate_dirtyRule {t t' : Trie} {key value : List UInt8} (rule : t.root.DirtyRule true)
    (run : t.tryUpdate decodeMsg db key value = .ok t') : t'.root.DirtyRule true := by
  unfold Trie.tryUpdate at run
  split_ifs at run
  · rw [bind_eq_ok] at run
    obtain ⟨⟨changed, n⟩, inserted, run⟩ := run
    simp only [pure_eq_ok, Except.ok.injEq] at run
    subst run
    exact (insert_dirtyRule clear _ rule (by trivial) inserted).mono fun _ => rfl
  · rw [bind_eq_ok] at run
    obtain ⟨⟨changed, n⟩, deleted, run⟩ := run
    simp only [pure_eq_ok, Except.ok.injEq] at run
    subst run
    exact (delete_dirtyRule clear _ rule deleted).mono fun _ => rfl

end Calls

section Roots

variable (keccak : List UInt8 → List UInt8)

theorem Trie.hashRoot_dirtyRule {t : Trie} {w : Option Writes} {hashed cached : Node} {written : Option Writes}
    (rule : t.root.DirtyRule true) (slots : t.root.ValueSlots)
    (run : t.hashRoot keccak w = .ok (hashed, cached, written)) : cached.DirtyRule w.isNone := by
  unfold Trie.hashRoot at run
  split_ifs at run
  · simp only [pure_eq_ok, Except.ok.injEq, Prod.mk.injEq] at run
    obtain ⟨-, rfl, -⟩ := run
    trivial
  · simpa using (hash_dirtyRule keccak t.cachegen t.cachelimit t.root rule slots run).2

theorem Trie.hash_dirtyRule {t t' : Trie} {root : List UInt8} (rule : t.root.DirtyRule true)
    (slots : t.root.ValueSlots) (run : t.hash keccak = .ok (root, t')) : t'.root.DirtyRule true := by
  unfold Trie.hash at run
  rw [bind_eq_ok] at run
  obtain ⟨⟨hashed, cached, written⟩, rooted, run⟩ := run
  dsimp only at run
  split at run
  · simp only [pure_eq_ok, Except.ok.injEq, Prod.mk.injEq] at run
    obtain ⟨-, rfl⟩ := run
    exact t.hashRoot_dirtyRule keccak rule slots rooted
  · cases run

/-- After a commit the whole trie is clean. -/
theorem Trie.commitTo_dirtyRule {t t' : Trie} {root : List UInt8} {writes : Writes} (rule : t.root.DirtyRule true)
    (slots : t.root.ValueSlots) (run : t.commitTo keccak = .ok (root, t', writes)) : t'.root.DirtyRule false := by
  unfold Trie.commitTo at run
  rw [bind_eq_ok] at run
  obtain ⟨⟨hashed, cached, written⟩, rooted, run⟩ := run
  dsimp only at run
  split at run
  · simp only [pure_eq_ok, Except.ok.injEq, Prod.mk.injEq] at run
    obtain ⟨-, rfl, -⟩ := run
    exact t.hashRoot_dirtyRule keccak rule slots rooted
  · cases run

end Roots

/-! ### What the nodes stand for -/

section Resolution

variable {keccak : List UInt8 → List UInt8} {db : Database}

/-- Every full node of a trie of the minimal shape holds a value or nothing in slot 16. -/
theorem Resolves.valueSlots {force : Bool} {n : Node} {T : Tree} (resolves : Resolves keccak db force n T) :
    T.Canonical ∨ (∃ v, T = .value v) → n.ValueSlots := by
  induction resolves with
  | nil => exact fun _ => trivial
  | value => exact fun _ => trivial
  | short _ _ ih =>
      rintro ((isNil | compact) | ⟨v, isValue⟩)
      · cases isNil
      · rcases compact.2 with ⟨_, _, valCompact⟩ | ⟨_, v, isValue, _⟩
        · exact ih (.inl (.inr valCompact))
        · exact ih (.inr ⟨v, isValue⟩)
      · cases isValue
  | @full force children flags T below _ ih =>
      rintro ((isNil | ⟨_, inner, terminal⟩) | ⟨v, isValue⟩)
      · cases isNil
      · refine ⟨fun i => ?_, ?_⟩
        · by_cases small : i.val < 16
          · rcases inner i small with isNil | compact
            · exact ih i (.inl (.inl isNil))
            · exact ih i (.inl (.inr compact))
          · have last : i = 16 := by ext; simp; omega
            subst last
            rcases terminal with isNil | ⟨v, isValue, _⟩
            · exact ih 16 (.inl (.inl isNil))
            · exact ih 16 (.inr ⟨v, isValue⟩)
        · -- slot 16 stands for a value or for nothing, so it holds one
          rcases terminal with isNil | ⟨v, isValue, _⟩
          · exact .inl (isNil ▸ below 16).nil_inv
          · exact .inr ⟨v, (isValue ▸ below 16).value_inv⟩
      · cases isValue
  | hash => exact fun _ => trivial

theorem Resolves.within {force : Bool} {m n : Node} {T : Tree} (resolves : Resolves keccak db force m T)
    (inside : n.Within m) : ∃ f U, Resolves keccak db f n U := by
  induction inside generalizing force T with
  | refl => exact ⟨force, T, resolves⟩
  | short _ ih =>
      cases resolves with
      | short below _ => exact ih below
  | full i _ ih =>
      cases resolves with
      | full below _ => exact ih (below i)

theorem Tree.hashed_eq_hashNode {T : Tree} {force : Bool} {h : List UInt8}
    (branch : (T.collapsed keccak).isBranch = true) (isHash : T.hashed keccak force = .hashNode h) :
    h = keccak (encodeNode (T.collapsed keccak)) := by
  have notNil : T ≠ .nil := by
    rintro rfl
    simp [Tree.collapsed, Node.isBranch] at branch
  rw [Tree.hashed_ne_nil notNil, Tree.embed] at isHash
  split at isHash
  · rw [isHash] at branch
    simp [Node.isBranch] at branch
  · exact (Node.hashNode.inj isHash).symm

/-- A cached hash is the hash of the collapsed encoding of what the node stands for. -/
theorem Resolves.cachedHash_eq {force : Bool} {n : Node} {T : Tree} (resolves : Resolves keccak db force n T)
    {h : List UInt8} (cached : n.cache.1 = some h) : h = keccak (encodeNode (T.collapsed keccak)) := by
  cases resolves with
  | short _ flagsOk => exact Tree.hashed_eq_hashNode rfl (flagsOk.1 h cached)
  | full _ flagsOk => exact Tree.hashed_eq_hashNode rfl (flagsOk.1 h cached)
  | _ => simp [Node.cache] at cached

end Resolution

/-- `hash` unloads a node to its hash only when nothing is dirty in it. -/
theorem hashCached_unloads_clean {n : Node} {d : Bool} (rule : n.DirtyRule d) {cachegen cachelimit : UInt16}
    {w : Option Writes} {hashed : Node} {h : List UInt8}
    (found : hashCached cachegen cachelimit n w = some (hashed, .hashNode h)) : n.DirtyRule false := by
  unfold hashCached at found
  split at found
  · split_ifs at found with noWriter unloads clean <;> simp only [Option.some.injEq, Prod.mk.injEq] at found
    · -- only hashing keeps the node itself, which is then the hash node
      obtain ⟨-, rfl⟩ := found
      trivial
    · exact rule.clean (Node.canUnload_clean unloads)
    · obtain ⟨-, rfl⟩ := found
      trivial
  · cases found

/-! ### Sessions -/

section Sessions

variable {keccak : List UInt8 → List UInt8}

theorem Session.step_dirtyRule {s : Session} {op : Op} {out : Outcome} (rule : s.trie.root.DirtyRule true)
    (slots : s.trie.root.ValueSlots) (stepped : s.step keccak op = .ok out) : out.next.trie.root.DirtyRule true := by
  cases op with
  | tryUpdate key value =>
      simp only [Session.step, bind_eq_ok, pure_eq_ok, Except.ok.injEq] at stepped
      obtain ⟨t, run, rfl⟩ := stepped
      exact Trie.tryUpdate_dirtyRule decodesClear_decodeMsg rule run
  | tryDelete key =>
      simp only [Session.step, bind_eq_ok, pure_eq_ok, Except.ok.injEq] at stepped
      obtain ⟨t, run, rfl⟩ := stepped
      exact Trie.tryDelete_dirtyRule decodesClear_decodeMsg rule run
  | tryGet key =>
      simp only [Session.step, bind_eq_ok, pure_eq_ok, Except.ok.injEq] at stepped
      obtain ⟨⟨value, t⟩, run, rfl⟩ := stepped
      exact Trie.tryGet_dirtyRule decodesClear_decodeMsg rule run
  | hash =>
      simp only [Session.step, bind_eq_ok, pure_eq_ok, Except.ok.injEq] at stepped
      obtain ⟨⟨root, t⟩, run, rfl⟩ := stepped
      exact Trie.hash_dirtyRule keccak rule slots run
  | commit =>
      simp only [Session.step, bind_eq_ok, pure_eq_ok, Except.ok.injEq] at stepped
      obtain ⟨⟨root, t, writes⟩, run, rfl⟩ := stepped
      exact (Trie.commitTo_dirtyRule keccak rule slots run).weaken true
  | reopen =>
      simp only [Session.step, bind_eq_ok, pure_eq_ok, Except.ok.injEq] at stepped
      obtain ⟨t, run, rfl⟩ := stepped
      exact Trie.new_dirtyRule decodesClear_decodeMsg run
  | setCacheLimit limit =>
      simp only [Session.step, pure_eq_ok, Except.ok.injEq] at stepped
      subst stepped
      exact rule

/-- A whole run from a session that stands for its spec and keeps the rule: the run succeeds, and
the session it ends in stands for the spec after it and keeps the rule. -/
theorem Session.run_dirtyRule (avoids : HashAvoids keccak) :
    ∀ (ops : List Op) (s : Session) (σ : Spec), s.Refines keccak σ → s.trie.root.DirtyRule true →
      s.Keeps keccak ops → ∃ last replies, s.run keccak ops = .ok (last, replies) ∧
        last.Refines keccak (σ.run ops) ∧ last.trie.root.DirtyRule true
  | [], s, σ, refines, rule, _ => ⟨s, [], rfl, refines, rule⟩
  | op :: ops, s, σ, refines, rule, keeps => by
      obtain ⟨out, stepped, -, next⟩ := Session.step_refines avoids refines op
      obtain ⟨⟨T, stands, -⟩, -⟩ := refines
      have slots := stands.2.valueSlots (.inl stands.1)
      simp only [Session.Keeps, stepped] at keeps
      obtain ⟨last, replies, run, refinesLast, ruleLast⟩ := Session.run_dirtyRule avoids ops out.next (σ.step op)
        (next keeps.1) (Session.step_dirtyRule rule slots stepped) keeps.2
      exact ⟨last, out.reply :: replies, by simp [Session.run, stepped, run], refinesLast, ruleLast⟩

/-- In every state a session reaches from a committed root, every dirty node has a dirty parent,
every cached hash is the hash of the collapsed encoding of what its node stands for, and a node
the hasher would unload to its hash has nothing dirty in it. -/
theorem cache_flags_invariant (avoids : HashAvoids keccak) {db : Database} {root : List UInt8} {Tc : Tree}
    {m : KeyMap} (committed : Committed keccak db root Tc) (holds : Tc.Holds m) :
    ∃ start, Session.new db root = .ok start ∧ ∀ ops, start.Keeps keccak ops →
      ∃ last replies, start.run keccak ops = .ok (last, replies) ∧ last.trie.root.DirtyRule true ∧
        (∀ n, n.Within last.trie.root → ∀ h, n.cache.1 = some h →
          ∃ force T, Resolves keccak last.db force n T ∧ h = keccak (encodeNode (T.collapsed keccak))) ∧
        ∀ n, n.Within last.trie.root → ∀ cachegen cachelimit w hashed h,
          hashCached cachegen cachelimit n w = some (hashed, .hashNode h) → n.DirtyRule false := by
  obtain ⟨start, opened, refines⟩ := Session.new_refines avoids committed holds
  have rule : start.trie.root.DirtyRule true := by
    simp only [Session.new, bind_eq_ok, pure_eq_ok, Except.ok.injEq] at opened
    obtain ⟨t, run, rfl⟩ := opened
    exact Trie.new_dirtyRule decodesClear_decodeMsg run
  refine ⟨start, opened, fun ops keeps => ?_⟩
  obtain ⟨last, replies, run, ⟨⟨T, stands, -⟩, -⟩, ruleLast⟩ :=
    Session.run_dirtyRule avoids ops _ _ refines rule keeps
  refine ⟨last, replies, run, ruleLast, fun n inside h cached => ?_, fun n inside _ _ _ _ _ found => ?_⟩
  · obtain ⟨force, U, resolves⟩ := stands.2.within inside
    exact ⟨force, U, resolves, resolves.cachedHash_eq cached⟩
  · obtain ⟨d, nodeRule⟩ := ruleLast.within inside
    exact hashCached_unloads_clean nodeRule found

end Sessions

theorem cache_flags_invariant_empty :
    ∃ start, Session.new Store.empty emptyRoot = .ok start ∧ ∀ ops, start.Keeps testHash ops →
      ∃ last replies, start.run testHash ops = .ok (last, replies) ∧ last.trie.root.DirtyRule true ∧
        (∀ n, n.Within last.trie.root → ∀ h, n.cache.1 = some h →
          ∃ force T, Resolves testHash last.db force n T ∧ h = testHash (encodeNode (T.collapsed testHash))) ∧
        ∀ n, n.Within last.trie.root → ∀ cachegen cachelimit w hashed h,
          hashCached cachegen cachelimit n w = some (hashed, .hashNode h) → n.DirtyRule false :=
  cache_flags_invariant testHash_avoids (committed_emptyRoot Store.empty) Tree.holds_nil

end Mjoy.Trie
