import Mathlib
import Mjoy.Discover.Table
import Mjoy.Lib.Search
import Mjoy.Lib.TopK

/-!
The nodes of the table closest to a target (`Table.closest`, `nodesByDistance.push` and
`distcmp` of `p2p/discover`). `closest` pushes every node of the table, bucket by bucket, into
a `nodesByDistance` bounded by `nresults`; `push` finds the insertion point with `sort.Search`
and shifts the entries behind it down by one slot.

`distcmp` compares the bytes of `a ^ target` and `b ^ target` from the first on, which is the
lexicographic order of `distance`; over it `push` is the bounded insertion of `TopK`, and a
run of `closest` keeps `TopK.IsTopK` of the nodes pushed so far.
-/

namespace Mjoy.Discover

/-! ### Distance order -/

/-- Byte `i` of `a ^ target`, as a number (a byte past the end of a hash reads as zero). -/
def xorByte (target a : Hash) (i : Nat) : Nat := (a.getD i 0 ^^^ target.getD i 0).toNat

/-- The distance of `a` to `target`: the bytes of `a ^ target`, the most significant first. -/
def distance (target a : Hash) : List Nat := (List.range target.length).map (xorByte target a)

/-- The loop of `distcmp` over the indices of `target`. -/
def distcmpLoop (target a b : Hash) : List Nat → Int
  | [] => 0
  | i :: rest =>
      let da := a.getD i 0 ^^^ target.getD i 0
      let db := b.getD i 0 ^^^ target.getD i 0
      if da > db then 1 else if da < db then -1 else distcmpLoop target a b rest

/-- `distcmp(target, a, b)`: -1 if `a` is closer to `target`, 1 if `b` is closer, 0 if they are
at the same distance. -/
def distcmp (target a b : Hash) : Int := distcmpLoop target a b (List.range target.length)

-- Equation lemmas of the definitions above, made once here rather than by the proofs below
-- that unfold them in parallel.
section
attribute [local simp] distcmpLoop
end

/-- Comparing two keys of the same indices: the loop is the lexicographic comparison. -/
theorem distcmpLoop_eq (target a b : Hash) (is : List Nat) :
    distcmpLoop target a b is =
      if is.map (xorByte target a) < is.map (xorByte target b) then -1
      else if is.map (xorByte target b) < is.map (xorByte target a) then 1 else 0 := by
  induction is with
  | nil => simp [distcmpLoop]
  | cons i rest ih =>
      have byte : ∀ c d : Hash, (c.getD i 0 ^^^ target.getD i 0) < (d.getD i 0 ^^^ target.getD i 0) ↔
          xorByte target c i < xorByte target d i := fun _ _ => UInt8.lt_iff_toNat_lt
      simp only [distcmpLoop, List.map_cons, List.cons_lt_cons_iff, gt_iff_lt, byte, ih]
      -- the byte `i` decides, unless it is the same on both sides
      rcases Nat.lt_trichotomy (xorByte target a i) (xorByte target b i) with lt | eq | gt
      · simp [lt, Nat.lt_asymm lt, lt.ne]
      · simp [eq]
      · simp [gt, Nat.lt_asymm gt, gt.ne, gt.ne']

theorem distcmp_eq (target a b : Hash) :
    distcmp target a b =
      if distance target a < distance target b then -1
      else if distance target b < distance target a then 1 else 0 :=
  distcmpLoop_eq target a b _

/-- `distcmp` is positive exactly when `b` is strictly closer. -/
theorem distcmp_pos_iff {target a b : Hash} :
    0 < distcmp target a b ↔ distance target b < distance target a := by
  rw [distcmp_eq]
  split_ifs with ab ba
  · simp [lt_asymm ab]
  · simp [ba]
  · simp [ba]

/-- `distcmp` is not positive exactly when `a` is no farther than `b`. -/
theorem distcmp_nonpos_iff {target a b : Hash} :
    distcmp target a b ≤ 0 ↔ distance target a ≤ distance target b := by
  exact Int.not_lt.symm.trans (distcmp_pos_iff.not.trans not_lt)

/-- `distcmp` is not negative exactly when `b` is no farther than `a`. -/
theorem distcmp_nonneg_iff {target a b : Hash} :
    0 ≤ distcmp target a b ↔ distance target b ≤ distance target a := by
  rw [distcmp_eq]
  split_ifs with ab ba
  · simp [ab]
  · simp [ba.le]
  · simp [not_lt.mp ab]

/-! ### `nodesByDistance` -/

/-- A list of nodes, ordered by distance to `target`. -/
structure NodesByDistance where
  entries : List Node
  target : Hash

/-- The closure `push` searches with: entry `i` is farther from the target than `n`. -/
def NodesByDistance.fartherThan (h : NodesByDistance) (n : Node) (i : Nat) : Bool :=
  h.entries[i]?.any fun e => decide (distcmp h.target e.sha n.sha > 0)

/-- `push(n, maxElems)`: `n` goes in front of the first entry farther away than it; the list
grows only while it is shorter than `maxElems`. -/
def NodesByDistance.push (h : NodesByDistance) (n : Node) (maxElems : Int) : NodesByDistance :=
  let ix := Search.search h.entries.length (h.fartherThan n)
  let entries := if (h.entries.length : Int) < maxElems then h.entries ++ [n] else h.entries
  if ix = entries.length then { h with entries }
  -- `copy(h.entries[ix+1:], h.entries[ix:])` moves the entries from `ix` down over the last
  -- slot, then `h.entries[ix] = n`
  else { h with entries := entries.take ix ++ n :: (entries.drop ix).dropLast }

/-- The order `nodesByDistance` keeps: `distcmp` is never positive from an entry to a later one. -/
def Sorted (target : Hash) (entries : List Node) : Prop :=
  entries.Pairwise fun a b => distcmp target a.sha b.sha ≤ 0

/-- The distance of a node's hash, the key of `TopK`. -/
abbrev nodeDistance (target : Hash) (n : Node) : List Nat := distance target n.sha

section
attribute [local simp] NodesByDistance.fartherThan NodesByDistance.push Sorted
end

theorem sorted_iff {target : Hash} {entries : List Node} :
    Sorted target entries ↔ TopK.Sorted (nodeDistance target) entries := by
  simp only [Sorted, TopK.Sorted, distcmp_nonpos_iff]

@[simp] theorem NodesByDistance.push_target (h : NodesByDistance) (n : Node) (maxElems : Int) :
    (h.push n maxElems).target = h.target := by
  unfold push
  dsimp only
  split_ifs <;> rfl

section Push

variable {h : NodesByDistance} {n : Node}

theorem NodesByDistance.fartherThan_iff {i : Nat} (lt : i < h.entries.length) :
    h.fartherThan n i = true ↔ nodeDistance h.target n < nodeDistance h.target h.entries[i] := by
  rw [fartherThan, List.getElem?_eq_getElem lt]
  simp [distcmp_pos_iff]

/-- Over sorted entries, the search of `push` finds where `n` goes. -/
theorem NodesByDistance.splits (sorted : Sorted h.target h.entries) :
    TopK.Splits (nodeDistance h.target) h.entries (Search.search h.entries.length (h.fartherThan n)) n := by
  rw [sorted_iff, TopK.Sorted, List.pairwise_iff_getElem] at sorted
  -- farther entries only follow farther ones
  have mono : ∀ a b, a ≤ b → b < h.entries.length →
      h.fartherThan n a = true → h.fartherThan n b = true := by
    intro a b ab lt atA
    rw [fartherThan_iff (by omega)] at atA
    rw [fartherThan_iff lt]
    rcases Nat.lt_or_eq_of_le ab with lt' | rfl
    · exact lt_of_lt_of_le atA (sorted a b (by omega) lt lt')
    · exact atA
  obtain ⟨le, before, after⟩ := Search.search_spec mono
  refine ⟨le, fun y mem => ?_, fun y mem => ?_⟩
  · obtain ⟨i, lt, rfl⟩ := List.getElem_of_mem mem
    rw [List.getElem_take]
    have notFarther := before i (by simp at lt; omega)
    rw [← Bool.not_eq_true, fartherThan_iff (by simp at lt; omega)] at notFarther
    exact not_lt.mp notFarther
  · obtain ⟨i, lt, rfl⟩ := List.getElem_of_mem mem
    rw [List.getElem_drop]
    simp only [List.length_drop] at lt
    exact (fartherThan_iff (by omega)).mp (after _ (by omega) (by omega))

/-- `push` is the bounded insertion of `TopK` at the place the search finds. -/
theorem NodesByDistance.push_entries (h : NodesByDistance) (n : Node) (maxElems : Int) :
    (h.push n maxElems).entries =
      TopK.boundedInsert maxElems.toNat h.entries (Search.search h.entries.length (h.fartherThan n)) n := by
  have le := Search.search_le h.entries.length (h.fartherThan n)
  unfold push TopK.boundedInsert TopK.insertAt
  dsimp only
  generalize Search.search h.entries.length (h.fartherThan n) = ix at le ⊢
  by_cases room : (h.entries.length : Int) < maxElems
  · -- the appended slot is the one the shift overwrites
    have room' : h.entries.length < maxElems.toNat := by omega
    have inside : ix ≠ (h.entries ++ [n]).length := by simp; omega
    rw [if_pos room, if_neg inside, if_pos room']
    dsimp only
    rw [List.take_append_of_le_length le, List.drop_append_of_le_length le, List.dropLast_concat]
  · have full : ¬h.entries.length < maxElems.toNat := by omega
    rw [if_neg room, if_neg full]
    split_ifs with last
    · rfl
    · obtain ⟨_, _, shifted⟩ := TopK.insertAt_dropLast (x := n) (Nat.lt_of_le_of_ne le last)
      exact shifted.symm

end Push

/-! ### `closest` -/

/-- The nodes of the table, bucket by bucket. -/
def Table.nodes (tab : Table) : List Node := (List.range nBuckets).flatMap fun i => (tab.buckets i).entries

/-- `len()`: the number of nodes in the table. -/
def Table.len (tab : Table) : Nat :=
  (List.range nBuckets).foldl (fun n i => n + (tab.buckets i).entries.length) 0

/-- `closest(target, nresults)`: every node of every bucket pushed into a list bounded by
`nresults`. -/
def Table.closest (tab : Table) (target : Hash) (nresults : Int) : NodesByDistance :=
  (List.range nBuckets).foldl
    (fun close i => (tab.buckets i).entries.foldl (fun close n => close.push n nresults) close)
    { entries := [], target }

section
attribute [local simp] Table.nodes Table.len Table.closest
end

theorem Table.len_eq (tab : Table) : tab.len = tab.nodes.length := by
  unfold len nodes
  -- the running count is the length of the buckets read so far
  have count : ∀ (is : List Nat) (acc : Nat),
      is.foldl (fun n i => n + (tab.buckets i).entries.length) acc =
        acc + (is.flatMap fun i => (tab.buckets i).entries).length := by
    intro is
    induction is with
    | nil => simp
    | cons i rest ih => intro acc; simp [ih]; omega
  simp [count]

theorem Table.closest_eq (tab : Table) (target : Hash) (nresults : Int) :
    tab.closest target nresults =
      tab.nodes.foldl (fun close n => close.push n nresults) { entries := [], target } := by
  simp [closest, nodes, List.foldl_flatMap]

/-- Pushing the stream `S` into entries that hold the `k` least of `S₀` gives the `k` least of
`S₀ ++ S`: induction on `S`, one `TopK` step a push. -/
theorem NodesByDistance.isTopK_push_all (k : Nat) (S : List Node) :
    ∀ (S₀ : List Node) (h : NodesByDistance), TopK.IsTopK (nodeDistance h.target) k S₀ h.entries →
      TopK.IsTopK (nodeDistance h.target) k (S₀ ++ S)
        (S.foldl (fun close n => close.push n k) h).entries ∧
      (S.foldl (fun close n => close.push n k) h).target = h.target := by
  induction S with
  | nil => intro S₀ h top; simpa using top
  | cons x rest ih =>
      intro S₀ h top
      have step : TopK.IsTopK (nodeDistance h.target) k (S₀ ++ [x]) (h.push x k).entries := by
        rw [push_entries, Int.toNat_natCast]
        exact top.boundedInsert (splits (sorted_iff.mpr top.sorted))
      obtain ⟨run, same⟩ := ih (S₀ ++ [x]) (h.push x k) (by simpa using step)
      rw [push_target, List.append_assoc, List.singleton_append] at run
      rw [push_target] at same
      exact ⟨run, same⟩

/-- Two nodes of a valid table are different nodes: each bucket holds distinct IDs, and the
buckets hold nodes at different distances from the local node. -/
theorem Table.Valid.nodup_nodes {tab : Table} (valid : tab.Valid) : tab.nodes.Nodup := by
  unfold nodes
  rw [List.nodup_flatMap]
  refine ⟨fun i _ => (valid i).distinct.of_map _, ?_⟩
  refine List.nodup_range.pairwise_of_forall_ne fun i _ j _ ne => ?_
  rw [Function.onFun, List.disjoint_left]
  intro x inI inJ
  exact ne (((valid i).placed x inI).symm.trans ((valid j).placed x inJ))

/-- The nodes `closest` returns: `min(n, len())` distinct nodes of the table, ordered by
distance to the target, none farther than a node of the table left out; and `push` keeps any
list sorted, and within `maxElems` once it is. -/
theorem closest_nodes (tab : Table) (valid : tab.Valid) (target : Hash) (n : Nat) :
    let close := (tab.closest target n).entries
    (close.length = min n tab.len ∧ close.Nodup ∧ (∀ x ∈ close, x ∈ tab.nodes) ∧
      Sorted target close ∧
      ∀ x ∈ tab.nodes, x ∉ close → ∀ y ∈ close, 0 ≤ distcmp target x.sha y.sha) ∧
    ∀ (h : NodesByDistance) (x : Node) (maxElems : Int), Sorted h.target h.entries →
      Sorted h.target (h.push x maxElems).entries ∧
        ((h.entries.length : Int) ≤ maxElems → ((h.push x maxElems).entries.length : Int) ≤ maxElems) := by
  intro close
  have top := (NodesByDistance.isTopK_push_all n tab.nodes [] ⟨[], target⟩ (TopK.IsTopK.nil n)).1
  rw [← tab.closest_eq] at top
  refine ⟨⟨?_, top.nodup valid.nodup_nodes, top.subperm.subset, sorted_iff.mpr top.sorted,
    fun x left notKept y kept => ?_⟩, fun h x maxElems sorted => ⟨?_, fun bounded => ?_⟩⟩
  · rw [top.length_eq, List.nil_append, Table.len_eq]
  · exact distcmp_nonneg_iff.mpr (top.le_of_not_mem x (by simpa using left) notKept y kept)
  · rw [h.push_entries, sorted_iff]
    exact (sorted_iff.mp sorted).boundedInsert (h.splits sorted)
  · rw [h.push_entries, TopK.length_boundedInsert]
    split_ifs <;> omega

/-- Three nodes whose IDs are their own hashes, added to a new table: the two closest to `[2]`
are `[2]` and `[3]`, in that order, and the one left out, `[1]`, is farther than both. -/
theorem closest_nodes_two_of_three :
    let tab := ((State.init (newNode id [0])).run id
      [.add (newNode id [1]), .add (newNode id [3]), .add (newNode id [2])]).tab
    (tab.closest [2] 2).entries = [newNode id [2], newNode id [3]] ∧
      (tab.closest [2] 2).entries.length = min 2 tab.len ∧
      ∀ x ∈ tab.nodes, x ∉ (tab.closest [2] 2).entries →
        ∀ y ∈ (tab.closest [2] 2).entries, 0 ≤ distcmp [2] x.sha y.sha := by
  intro tab
  have valid : tab.Valid := ((State.Valid.init _).run id _ (by
    intro new mem
    simp only [List.mem_cons, Op.add.injEq, List.not_mem_nil, or_false] at mem
    rcases mem with rfl | rfl | rfl <;> decide)).table
  obtain ⟨⟨length, -, -, -, below⟩, -⟩ := closest_nodes tab valid [2] 2
  exact ⟨by decide +kernel, length, below⟩

end Mjoy.Discover
