import Mjoy.Discover.Closest
import Mjoy.Lib.Heap

/-!
`ReadRandomNodes` of `p2p/discover/table.go`: the non-empty buckets are shuffled, and the head
of each is moved into `buf` in turn, dropping the buckets that run empty, until `buf` is full or
no node is left. It returns `i + 1` for the last index `i` the loop reached.

The random source is a parameter: `rand i` is the `uint32` that `randUint` reads in the round of
the shuffle for `i` (each round draws once). The loop writes the nodes of the table, each once,
into the front of `buf`; the count it returns is one too many when `buf` is shorter than the
table, an empty `buf` included.
-/

namespace Mjoy.Discover

/-- `randUint(max)`: the random `uint32` modulo `max`, and 0 for `max = 0`. -/
def randUint (r max : UInt32) : UInt32 := if max = 0 then 0 else r % max

/-- The shuffle, `for i := len(buckets) - 1; i > 0; i--`, from `i` down: round `i` swaps entry
`i` with entry `randUint(i)`. -/
def shuffle {β : Type} (rand : Nat → UInt32) : Nat → List β → List β
  | 0, buckets => buckets
  | i + 1, buckets =>
      shuffle rand i (Heap.swap buckets (i + 1) (randUint (rand (i + 1)) (i + 1).toUInt32).toNat)

/-- The loop moving the head of bucket `j` into `buf[i]`, from `i` on: bucket `j` loses its
head and is dropped when that was its last node, and the cursor moves to `(j + 1) % len`. It
answers the last `i` and the buffer; `none` stands for the panic of an index out of range. -/
def fill (buckets : List (List Node)) (i j : Nat) (buf : List (Option Node)) :
    Option (Nat × List (Option Node)) :=
  if i < buf.length then
    match buckets[j]? with
    | some (first :: rest) =>
        let buf := buf.set i (some first)
        let buckets' := buckets.set j rest
        let buckets' := if rest.length + 1 = 1 then buckets'.eraseIdx j else buckets'
        if buckets'.length = 0 then some (i, buf)
        else fill buckets' (i + 1) ((j + 1) % buckets'.length) buf
    | _ => none
  else some (i, buf)
termination_by buf.length - i
decreasing_by simp only [List.length_set]; omega

/-- `ReadRandomNodes(buf)`: the count it returns and the buffer it leaves. -/
def Table.readRandomNodes (tab : Table) (rand : Nat → UInt32) (buf : List (Option Node)) :
    Option (Nat × List (Option Node)) :=
  let buckets := ((List.range nBuckets).map fun i => (tab.buckets i).entries).filter
    fun b => b.length > 0
  if buckets.length = 0 then some (0, buf)
  else
    let buckets := shuffle rand (buckets.length - 1) buckets
    (fill buckets 0 0 buf).map fun (i, buf) => (i + 1, buf)

-- Equation lemmas of the definitions above, made once here rather than by the proofs below
-- that unfold them in parallel.
section
attribute [local simp] fill Table.readRandomNodes
end

/-! ### The shuffle -/

theorem shuffle_perm {β : Type} (rand : Nat → UInt32) (i : Nat) (buckets : List β) :
    (shuffle rand i buckets).Perm buckets := by
  induction i generalizing buckets with
  | zero => rfl
  | succ i ih => exact (ih _).trans (Heap.swap_perm _ _ _)

/-! ### The fill loop -/

/-- The nodes of the buckets with bucket `j` taken out and put in front. -/
theorem flatten_perm_getElem {buckets : List (List Node)} {j : Nat} (lt : j < buckets.length) :
    buckets.flatten.Perm (buckets[j] ++ (buckets.eraseIdx j).flatten) := by
  have parts : buckets.take j ++ buckets[j] :: buckets.drop (j + 1) = buckets := by
    rw [List.getElem_cons_drop, List.take_append_drop]
  rw [List.eraseIdx_eq_take_drop_succ]
  conv_lhs => rw [← parts]
  simp only [List.flatten_append, List.flatten_cons]
  rw [← List.append_assoc, ← List.append_assoc]
  exact (@List.perm_append_comm _ (buckets.take j).flatten buckets[j]).append_right _

/-- A round takes the head `first` of bucket `j`: the nodes left are the others, and no bucket
kept is empty. -/
theorem take_head {buckets : List (List Node)} {j : Nat} {first : Node} {rest : List Node}
    (atJ : buckets[j]? = some (first :: rest)) (nonempty : ∀ b ∈ buckets, b ≠ []) :
    let kept := if rest.length + 1 = 1 then (buckets.set j rest).eraseIdx j else buckets.set j rest
    buckets.flatten.Perm (first :: kept.flatten) ∧ ∀ b ∈ kept, b ≠ [] := by
  intro kept
  obtain ⟨lt, bucket⟩ := List.getElem?_eq_some_iff.mp atJ
  have whole := flatten_perm_getElem lt
  rw [bucket] at whole
  by_cases last : rest.length + 1 = 1
  · have noRest : rest = [] := List.length_eq_zero_iff.mp (by omega)
    have dropped : kept = buckets.eraseIdx j := by
      simp only [kept, if_pos last, List.eraseIdx_set_eq]
    subst noRest
    rw [dropped]
    exact ⟨by simpa using whole, fun b mem => nonempty b (List.mem_of_mem_eraseIdx mem)⟩
  · have shortened : kept = buckets.set j rest := if_neg last
    have setLt : j < (buckets.set j rest).length := by simpa using lt
    have rest' := flatten_perm_getElem setLt
    simp only [List.getElem_set_self, List.eraseIdx_set_eq] at rest'
    rw [shortened]
    refine ⟨whole.trans ((rest'.symm.cons first).trans (by simp)), fun b mem => ?_⟩
    rcases List.mem_or_eq_of_mem_set mem with old | rfl
    · exact nonempty b old
    · exact fun empty => last (by simp [empty])

/-- Writing `buf[i]` after the `i` nodes written so far. -/
theorem set_front {written : List Node} {orig : List (Option Node)} {first : Node}
    (room : written.length < orig.length) :
    (written.map some ++ orig.drop written.length).set written.length (some first) =
      (written ++ [first]).map some ++ orig.drop (written ++ [first]).length := by
  rw [List.set_append_right _ _ (by simp)]
  simp only [List.length_map, Nat.sub_self, List.map_append, List.map_singleton,
    List.length_append, List.length_singleton, List.append_assoc, List.singleton_append]
  rw [List.drop_eq_getElem_cons room, List.set_cons_zero]

theorem exists_head {buckets : List (List Node)} {j : Nat} (nonempty : ∀ b ∈ buckets, b ≠ [])
    (cursor : j < buckets.length) : ∃ first rest, buckets[j]? = some (first :: rest) := by
  cases bucket : buckets[j] with
  | nil => exact absurd bucket (nonempty _ (List.getElem_mem cursor))
  | cons first rest => exact ⟨first, rest, by rw [List.getElem?_eq_getElem cursor, bucket]⟩

/-- The fill loop from `i = len(written)`, with the nodes `written` in front of `buf` and the
others in the buckets: it writes `min(len buf, total)` nodes in all, the new ones from the
buckets, and stops at `total - 1` when the nodes run out first (the inner `break`) or at
`len(buf)` when the buffer fills. Induction on the room left in `buf`. -/
theorem fill_spec (orig : List (Option Node)) (n : Nat) :
    ∀ (buckets : List (List Node)) (j : Nat) (written : List Node),
      n = orig.length - written.length → written.length ≤ orig.length →
      (∀ b ∈ buckets, b ≠ []) → j < buckets.length →
      ∃ w : List Node, w.Subperm buckets.flatten ∧
        (written ++ w).length = min orig.length (written.length + buckets.flatten.length) ∧
        fill buckets written.length j (written.map some ++ orig.drop written.length) =
          some (if written.length + buckets.flatten.length ≤ orig.length
              then written.length + buckets.flatten.length - 1 else orig.length,
            (written ++ w).map some ++ orig.drop (written ++ w).length) := by
  induction n with
  | zero =>
      -- the buffer is full, with a node still in bucket `j`
      intro buckets j written room le nonempty cursor
      obtain ⟨first, rest, atJ⟩ := exists_head nonempty cursor
      have more := (take_head atJ nonempty).1.length_eq
      have full : written.length = orig.length := by omega
      simp only [List.length_cons] at more
      refine ⟨[], List.nil_subperm, by simp; omega, ?_⟩
      rw [fill, if_neg (by simp; omega), if_neg (by omega), List.append_nil, full]
  | succ n ih =>
      intro buckets j written room le nonempty cursor
      have lt : written.length < orig.length := by omega
      obtain ⟨first, rest, atJ⟩ := exists_head nonempty cursor
      obtain ⟨whole, keptNonempty⟩ := take_head atJ nonempty
      rw [fill, if_pos (by simp; omega), atJ]
      dsimp only
      rw [set_front lt]
      set kept := if rest.length + 1 = 1 then (buckets.set j rest).eraseIdx j
        else buckets.set j rest
      have count := whole.length_eq
      simp only [List.length_cons] at count
      by_cases empty : kept.length = 0
      · -- the inner `break`: that was the last node
        have none : kept.flatten = [] := by simp [List.length_eq_zero_iff.mp empty]
        rw [none, List.length_nil] at count
        rw [none] at whole
        refine ⟨[first], whole.symm.subperm,
          by simp only [List.length_append, List.length_singleton]; omega, ?_⟩
        rw [if_pos empty, if_pos (by omega)]
        congr 2
        omega
      · rw [if_neg empty]
        obtain ⟨w, sub, length, eq⟩ := ih kept ((j + 1) % kept.length) (written ++ [first])
          (by simp; omega) (by simp; omega) keptNonempty (Nat.mod_lt _ (by omega))
        have sum : (written ++ [first]).length + kept.flatten.length =
            written.length + buckets.flatten.length := by
          simp only [List.length_append, List.length_singleton]; omega
        refine ⟨first :: w, ((List.subperm_cons first).mpr sub).trans whole.symm.subperm, ?_, ?_⟩
        · rw [← sum, ← length, List.append_assoc, List.singleton_append]
        · rw [show written.length + 1 = (written ++ [first]).length by simp, eq, sum,
            List.append_assoc, List.singleton_append]

/-! ### `ReadRandomNodes` -/

/-- Dropping the empty buckets keeps the nodes. -/
theorem flatten_filter_length_pos (buckets : List (List Node)) :
    (buckets.filter fun b => b.length > 0).flatten = buckets.flatten := by
  induction buckets with
  | nil => rfl
  | cons b rest ih => cases b <;> simp [ih]

/-- What `ReadRandomNodes` does for every table, random source and buffer: it writes
`min(len buf, len())` nodes of the table into the front of `buf`, leaves the rest of `buf` as
it was, and returns `len buf + 1` when `buf` is shorter than the table, `len()` otherwise. -/
theorem Table.readRandomNodes_spec (tab : Table) (rand : Nat → UInt32) (buf : List (Option Node)) :
    ∃ w : List Node, w.Subperm tab.nodes ∧ w.length = min buf.length tab.len ∧
      tab.readRandomNodes rand buf =
        some (if tab.len = 0 then 0 else if buf.length < tab.len then buf.length + 1 else tab.len,
          w.map some ++ buf.drop w.length) := by
  unfold readRandomNodes
  dsimp only
  set buckets := ((List.range nBuckets).map fun i => (tab.buckets i).entries).filter
    fun b => b.length > 0
  have flat : buckets.flatten = tab.nodes := by
    rw [flatten_filter_length_pos, Table.nodes, List.flatMap_def]
  have len : tab.len = buckets.flatten.length := by rw [flat, Table.len_eq]
  by_cases none : buckets.length = 0
  · -- no bucket holds a node
    have zero : tab.len = 0 := by simp [len, List.length_eq_zero_iff.mp none]
    refine ⟨[], List.nil_subperm, by simp [zero], ?_⟩
    rw [if_pos none, if_pos zero]
    simp
  · rw [if_neg none]
    have perm := shuffle_perm rand (buckets.length - 1) buckets
    have nonempty : ∀ b ∈ shuffle rand (buckets.length - 1) buckets, b ≠ [] := by
      intro b mem
      have pos := (List.mem_filter.mp (perm.subset mem)).2
      simp only [gt_iff_lt, decide_eq_true_eq] at pos
      exact List.ne_nil_of_length_pos pos
    have cursor : 0 < (shuffle rand (buckets.length - 1) buckets).length := by
      rw [perm.length_eq]; omega
    -- the shuffle moves buckets, not nodes
    have nodes : (shuffle rand (buckets.length - 1) buckets).flatten.length = tab.len := by
      rw [perm.flatten.length_eq, len]
    obtain ⟨first, rest, atJ⟩ := exists_head nonempty cursor
    have pos := (take_head atJ nonempty).1.length_eq
    obtain ⟨w, sub, length, eq⟩ := fill_spec buf _ _ 0 [] rfl (Nat.zero_le _) nonempty cursor
    simp only [List.map_nil, List.nil_append, List.length_nil, List.drop_zero, Nat.zero_add,
      nodes] at eq length
    refine ⟨w, sub.trans (perm.flatten.trans (flat ▸ List.Perm.refl _)).subperm, length, ?_⟩
    rw [eq, Option.map_some]
    simp only [List.length_cons, nodes] at pos
    simp only [Option.some.injEq, Prod.mk.injEq, and_true]
    split_ifs <;> omega

/-- In a valid table whose nodes carry the hash of their ID, no two nodes have one ID: the hash
fixes the bucket, and a bucket holds distinct IDs. -/
theorem Table.Valid.nodup_ids {tab : Table} (valid : tab.Valid) {keccak : List UInt8 → List UInt8}
    (hashed : ∀ x ∈ tab.nodes, x.sha = keccak x.id) : (tab.nodes.map Node.id).Nodup := by
  unfold Table.nodes at hashed ⊢
  rw [List.map_flatMap, List.nodup_flatMap]
  refine ⟨fun i _ => (valid i).distinct, ?_⟩
  refine List.nodup_range.pairwise_of_forall_ne fun i inI j inJ ne => ?_
  rw [Function.onFun, List.disjoint_left]
  intro id idI idJ
  obtain ⟨x, atI, rfl⟩ := List.mem_map.mp idI
  obtain ⟨y, atJ, same⟩ := List.mem_map.mp idJ
  have shaEq : y.sha = x.sha := by
    rw [hashed x (List.mem_flatMap.mpr ⟨i, inI, atI⟩), hashed y (List.mem_flatMap.mpr ⟨j, inJ, atJ⟩),
      same]
  exact ne (((valid i).placed x atI).symm.trans (shaEq ▸ (valid j).placed y atJ))

/-- `ReadRandomNodes` writes `min(len buf, len())` table nodes with distinct IDs into the front
of `buf`, but returns `len buf + 1` whenever `buf` is shorter than the table, an empty `buf`
included: the loop leaves through its condition with `i = len buf` and the function returns
`i + 1`. -/
theorem readRandomNodes_overcounts_short_buffer (tab : Table) (valid : tab.Valid)
    (keccak : List UInt8 → List UInt8) (hashed : ∀ x ∈ tab.nodes, x.sha = keccak x.id)
    (rand : Nat → UInt32) (buf : List (Option Node)) :
    ∃ w : List Node, (∀ x ∈ w, x ∈ tab.nodes) ∧ (w.map Node.id).Nodup ∧
      w.length = min buf.length tab.len ∧
      tab.readRandomNodes rand buf =
        some (if tab.len = 0 then 0 else if buf.length < tab.len then buf.length + 1 else tab.len,
          w.map some ++ buf.drop w.length) := by
  obtain ⟨w, sub, length, eq⟩ := tab.readRandomNodes_spec rand buf
  obtain ⟨l, perm, sublist⟩ := sub
  have ids : (l.map Node.id).Nodup := (valid.nodup_ids hashed).sublist (sublist.map _)
  exact ⟨w, fun x mem => sublist.subset (perm.mem_iff.mpr mem), (perm.map _).nodup_iff.mp ids,
    length, eq⟩

/-- One node in the table and an empty buffer: `ReadRandomNodes` writes nothing and returns 1. -/
theorem readRandomNodes_overcounts_empty_buffer :
    let tab := ((State.init (newNode id [0])).run id [.add (newNode id [1])]).tab
    (tab.readRandomNodes (fun _ => 0) []).map Prod.fst = some 1 := by
  intro tab
  have valid : tab.Valid := ((State.Valid.init _).run id _ (by
    intro new mem
    simp only [List.mem_cons, Op.add.injEq, List.not_mem_nil, or_false] at mem
    subst mem
    decide)).table
  obtain ⟨w, -, -, -, eq⟩ :=
    readRandomNodes_overcounts_short_buffer tab valid id (by decide +kernel) (fun _ => 0) []
  have one : tab.len = 1 := by decide +kernel
  rw [eq, one]
  rfl

end Mjoy.Discover
