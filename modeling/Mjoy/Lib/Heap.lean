import Mathlib

/-!
Go's `container/heap` over a slice whose `Less` is `<`, whose `Swap` exchanges two entries, and
whose `Push` and `Pop` methods append an entry and take the last one. `up` and `down` are the
package's two sift loops; `init`, `push`, `pop` and `remove` are its operations.

The heap order is stated one parent-child pair at a time (`Below`), with `parent c = (c - 1) / 2`
as `up` computes it. The sift loops are carried by `UpInv` and `SinkInv`: the entry at the
moving position is the only one that may be out of order, and the pairs around it are what
each round settles. Each operation then keeps the heap order and the entries, and `pop` and
`remove` return the entry they were asked for.
-/

namespace Heap

variable {α : Type}

/-- The position `up` compares position `c` with. -/
def parent (c : Nat) : Nat := (c - 1) / 2

-- Equation lemmas of the definitions above, made once here rather than by the proofs below
-- that unfold them in parallel.
section
attribute [local simp] parent
end

theorem parent_lt {c : Nat} (pos : 0 < c) : parent c < c := by
  unfold parent; omega

theorem parent_eq_iff {c p : Nat} (pos : 0 < c) : parent c = p ↔ c = 2 * p + 1 ∨ c = 2 * p + 2 := by
  unfold parent; omega

/-- `Swap(i, j)`: the two entries exchange places. -/
def swap (h : List α) (i j : Nat) : List α :=
  match h[i]?, h[j]? with
  | some a, some b => (h.set i b).set j a
  | _, _ => h

section
attribute [local simp] swap
end

@[simp] theorem length_swap (h : List α) (i j : Nat) : (swap h i j).length = h.length := by
  unfold swap
  split <;> simp

/-- The position `swap h i j` takes the entry at `k` from. -/
def swapIndex (i j k : Nat) : Nat :=
  if k = j then i else if k = i then j else k

section
attribute [local simp] swapIndex
end

theorem getElem?_swap {h : List α} {i j : Nat} (hi : i < h.length) (hj : j < h.length) (k : Nat) :
    (swap h i j)[k]? = h[swapIndex i j k]? := by
  simp only [swap, List.getElem?_eq_getElem hi, List.getElem?_eq_getElem hj, List.getElem?_set,
    List.length_set, swapIndex]
  by_cases kj : k = j
  · subst kj; simp [hi, hj]
  · by_cases ki : k = i
    · subst ki; simp [Ne.symm kj, kj, hi]
    · simp [Ne.symm kj, Ne.symm ki, kj, ki]

theorem getElem?_swap_of_ne {h : List α} {i j k : Nat} (ki : k ≠ i) (kj : k ≠ j) :
    (swap h i j)[k]? = h[k]? := by
  unfold swap
  split
  · simp [Ne.symm ki, Ne.symm kj]
  · rfl

theorem swap_perm (h : List α) (i j : Nat) : (swap h i j).Perm h := by
  unfold swap
  split
  · next a b atI atJ =>
      obtain ⟨hi, rfl⟩ := List.getElem?_eq_some_iff.mp atI
      obtain ⟨hj, rfl⟩ := List.getElem?_eq_some_iff.mp atJ
      exact List.set_set_perm hi hj
  · exact List.Perm.refl h

/-- The slice's own `Pop` method: its last entry, and the slice without it. -/
def popLast (h : List α) : Option (α × List α) :=
  h.getLast?.map fun x => (x, h.dropLast)

variable [LinearOrder α]

/-- `Less(i, j)`. -/
def less (h : List α) (i j : Nat) : Bool :=
  match h[i]?, h[j]? with
  | some a, some b => decide (a < b)
  | _, _ => false

/-- `up(h, j)`: the entry at `j` moves towards the root while it is less than its parent. -/
def up (h : List α) (j : Nat) : List α :=
  if parent j = j then h
  else if less h j (parent j) then up (swap h (parent j) j) (parent j)
  else h
termination_by j
decreasing_by unfold parent at *; omega

/-- The child `down` compares position `i` with: the right one where it is among the first `n`
entries and less than the left one, and the left one otherwise. -/
def minChild (h : List α) (i n : Nat) : Nat :=
  if 2 * i + 2 < n ∧ less h (2 * i + 2) (2 * i + 1) = true then 2 * i + 2 else 2 * i + 1

section
attribute [local simp] popLast less up minChild
end

theorem minChild_cases (h : List α) (i n : Nat) :
    minChild h i n = 2 * i + 1 ∨ (minChild h i n = 2 * i + 2 ∧ 2 * i + 2 < n) := by
  unfold minChild
  split
  · next right => exact .inr ⟨rfl, right.1⟩
  · exact .inl rfl

/-- The loop of `down(h, i0, n)`, from position `i`: the slice after it, and the position where
the moving entry stopped. Go's check that `2 * i + 1` did not overflow has no counterpart. -/
def sink (h : List α) (i n : Nat) : List α × Nat :=
  if 2 * i + 1 < n then
    if less h (minChild h i n) i then sink (swap h i (minChild h i n)) (minChild h i n) n
    else (h, i)
  else (h, i)
termination_by n - i
decreasing_by rcases minChild_cases h i n with picked | ⟨picked, _⟩ <;> omega

/-- `down(h, i0, n)`: the slice after it, and whether the entry at `i0` moved. -/
def down (h : List α) (i0 n : Nat) : List α × Bool :=
  let r := sink h i0 n
  (r.1, decide (i0 < r.2))

/-- `Init(h)`: `down` from every position that has a child, the last one first. -/
def init (h : List α) : List α :=
  (List.range (h.length / 2)).foldr (fun i h' => (down h' i h.length).1) h

/-- `Push(h, x)`: the slice's `Push` appends, then the new entry moves up. -/
def push (h : List α) (x : α) : List α :=
  up (h ++ [x]) h.length

/-- `Pop(h)`: the least entry and the heap without it; `none` where Go panics, on an empty
heap. -/
def pop (h : List α) : Option (α × List α) :=
  popLast (down (swap h 0 (h.length - 1)) 0 (h.length - 1)).1

/-- `Remove(h, i)`: the entry at `i` and the heap without it; `none` where Go's `Swap` panics,
on a position out of range. -/
def remove (h : List α) (i : Nat) : Option (α × List α) :=
  if i < h.length then
    let n := h.length - 1
    if n ≠ i then
      let moved := down (swap h i n) i n
      popLast (if moved.2 then moved.1 else up moved.1 i)
    else popLast h
  else none

section
attribute [local simp] sink down init push pop remove
end

/-! ### Positions and comparisons -/

theorem parent_minChild (h : List α) (i n : Nat) : parent (minChild h i n) = i := by
  rcases minChild_cases h i n with picked | ⟨picked, _⟩ <;> rw [picked] <;> unfold parent <;> omega

theorem lt_minChild (h : List α) (i n : Nat) : i < minChild h i n := by
  rcases minChild_cases h i n with picked | ⟨picked, _⟩ <;> omega

theorem minChild_lt {h : List α} {i n : Nat} (hn : 2 * i + 1 < n) : minChild h i n < n := by
  rcases minChild_cases h i n with picked | ⟨picked, _⟩ <;> omega

theorem less_iff {h : List α} {i j : Nat} :
    less h i j = true ↔ ∃ a b, h[i]? = some a ∧ h[j]? = some b ∧ a < b := by
  unfold less
  split <;> simp_all

theorem less_bounds {h : List α} {i j : Nat} (lt : less h i j = true) : i < h.length ∧ j < h.length := by
  obtain ⟨a, b, atI, atJ, -⟩ := less_iff.mp lt
  exact ⟨(List.getElem?_eq_some_iff.mp atI).1, (List.getElem?_eq_some_iff.mp atJ).1⟩

/-! ### The order of one pair -/

/-- The entry at `p` is at most the entry at `c`, where both are in the slice. -/
def Below (h : List α) (p c : Nat) : Prop :=
  ∀ a b, h[p]? = some a → h[c]? = some b → a ≤ b

section
attribute [local simp] Below
end

theorem below_refl (h : List α) (k : Nat) : Below h k k := by
  intro a b atA atB
  rw [atA, Option.some.injEq] at atB
  exact le_of_eq atB

theorem below_swap {h : List α} {i j : Nat} (hi : i < h.length) (hj : j < h.length) (p c : Nat) :
    Below (swap h i j) p c ↔ Below h (swapIndex i j p) (swapIndex i j c) := by
  simp only [Below, getElem?_swap hi hj]

theorem Below.trans {h : List α} {a b c : Nat} (ab : Below h a b) (bc : Below h b c) (hb : b < h.length) :
    Below h a c := by
  intro x z atA atC
  have atB : h[b]? = some h[b] := List.getElem?_eq_getElem hb
  exact le_trans (ab x h[b] atA atB) (bc h[b] z atB atC)

theorem below_of_less {h : List α} {a b : Nat} (lt : less h a b = true) : Below h a b := by
  obtain ⟨x, z, atA, atB, xz⟩ := less_iff.mp lt
  intro x' z' atA' atB'
  rw [atA, Option.some.injEq] at atA'
  rw [atB, Option.some.injEq] at atB'
  exact atA' ▸ atB' ▸ le_of_lt xz

theorem below_of_not_less {h : List α} {a b : Nat} (nlt : less h a b = false) : Below h b a := by
  intro z x atB atA
  by_contra gt
  have : less h a b = true := less_iff.mpr ⟨x, z, atA, atB, lt_of_not_ge gt⟩
  simp [this] at nlt

/-- The child `down` picks is at most each child of `i` among the first `n` entries. -/
theorem below_minChild {h : List α} {i n c : Nat} (pos : 0 < c) (child : parent c = i) (cn : c < n) :
    Below h (minChild h i n) c := by
  have sides := (parent_eq_iff pos).mp child
  unfold minChild
  split
  · next right =>
      rcases sides with rfl | rfl
      · exact below_of_less right.2
      · exact below_refl h _
  · next left =>
      rcases sides with rfl | rfl
      · exact below_refl h _
      · have nlt : less h (2 * i + 2) (2 * i + 1) = false := by
          simpa [cn] using left
        exact below_of_not_less nlt

/-- The heap order on the first `n` entries: no child is less than its parent. -/
def Ordered (h : List α) (n : Nat) : Prop :=
  ∀ c, 0 < c → c < n → Below h (parent c) c

/-- A slice in heap order. -/
def IsHeap (h : List α) : Prop :=
  Ordered h h.length

section
attribute [local simp] IsHeap
end

/-- The root is at most every entry of the ordered part. -/
theorem Ordered.root_below {h : List α} {n : Nat} (ord : Ordered h n) (len : n ≤ h.length) :
    ∀ k, k < n → Below h 0 k := by
  intro k
  induction k using Nat.strongRecOn with
  | ind k ih =>
      intro kn
      rcases Nat.eq_zero_or_pos k with rfl | pos
      · exact below_refl h 0
      · -- through the parent, which is nearer the root
        have up := parent_lt pos
        exact (ih (parent k) up (by omega)).trans (ord k pos kn) (by omega)

theorem IsHeap.head_le {a : α} {t : List α} (heap : IsHeap (a :: t)) : ∀ x ∈ t, a ≤ x := by
  intro x mem
  obtain ⟨k, kt, rfl⟩ := List.getElem_of_mem mem
  exact heap.root_below (Nat.le_refl _) (k + 1) (by simp [kt]) a t[k] rfl (by simp)

/-! ### `up` -/

/-- What holds at each round of `up`'s loop: the entry at `j` is the one moving, every pair
whose child is not at `j` is in order, and the children of `j` are not less than its parent. -/
structure UpInv (h : List α) (j n : Nat) : Prop where
  except : ∀ c, 0 < c → c < n → c ≠ j → Below h (parent c) c
  grand : 0 < j → ∀ c, 0 < c → parent c = j → c < n → Below h (parent j) c

theorem UpInv.move {h : List α} {j n : Nat} (inv : UpInv h j n) (jn : j < n) (len : n ≤ h.length)
    (pos : 0 < j) (lt : less h j (parent j) = true) : UpInv (swap h (parent j) j) (parent j) n := by
  have pj := parent_lt pos
  have pj' : parent j ≠ j := Nat.ne_of_lt pj
  have hp : parent j < h.length := by omega
  have hj : j < h.length := by omega
  constructor
  · intro c cpos cn cp
    rw [below_swap hp hj]
    by_cases cj : c = j
    · -- the parent's entry moved down to `j`
      subst cj
      simpa [swapIndex, pj'] using below_of_less lt
    · by_cases pcj : parent c = j
      · simpa [swapIndex, cj, pcj, cp] using inv.grand pos c cpos pcj cn
      · by_cases pcp : parent c = parent j
        · -- a sibling of `j`: the moving entry is less than the parent, which is at most it
          have sibling : Below h (parent j) c := pcp ▸ inv.except c cpos cn cj
          simpa [swapIndex, cj, cp, pcp, pj'] using (below_of_less lt).trans sibling hp
        · simpa [swapIndex, cj, cp, pcj, pcp] using inv.except c cpos cn cj
  · intro ppos c cpos child cn
    have pp := parent_lt ppos
    have grandJ : parent (parent j) ≠ j := by omega
    have grandP : parent (parent j) ≠ parent j := Nat.ne_of_lt pp
    have aboveP : Below h (parent (parent j)) (parent j) := inv.except _ ppos (by omega) pj'
    rw [below_swap hp hj]
    by_cases cj : c = j
    · subst cj; simpa [swapIndex, grandJ, grandP] using aboveP
    · have cp : c ≠ parent j := by have := parent_lt cpos; omega
      have belowC : Below h (parent j) c := child ▸ inv.except c cpos cn cj
      simpa [swapIndex, cj, cp, grandJ, grandP] using aboveP.trans belowC hp

theorem UpInv.finish {h : List α} {j n : Nat} (inv : UpInv h j n) (stop : less h j (parent j) = false) :
    Ordered h n := by
  intro c pos cn
  by_cases cj : c = j
  · subst cj; exact below_of_not_less stop
  · exact inv.except c pos cn cj

theorem up_ordered {h : List α} {j n : Nat} (inv : UpInv h j n) (jn : j < n) (len : n ≤ h.length) :
    Ordered (up h j) n := by
  fun_induction up h j with
  | case1 h j root =>
      -- at the root every pair is off `j`
      intro c pos cn
      have : c ≠ j := by unfold parent at root; omega
      exact inv.except c pos cn this
  | case2 h j notRoot lt ih =>
      have pos : 0 < j := by unfold parent at notRoot; omega
      exact ih (inv.move jn len pos lt) (by have := parent_lt pos; omega) (by simpa using len)
  | case3 h j notRoot stop => exact inv.finish (by simpa using stop)

theorem up_perm (h : List α) (j : Nat) : (up h j).Perm h := by
  fun_induction up h j with
  | case1 => exact List.Perm.refl _
  | case2 h j _ _ ih => exact ih.trans (swap_perm h _ _)
  | case3 => exact List.Perm.refl _

@[simp] theorem length_up (h : List α) (j : Nat) : (up h j).length = h.length :=
  (up_perm h j).length_eq

/-- `up` leaves the entries after its start where they are. -/
theorem getElem?_up_of_lt {h : List α} {j k : Nat} (jk : j < k) : (up h j)[k]? = h[k]? := by
  fun_induction up h j with
  | case1 => rfl
  | case2 h j notRoot _ ih =>
      have pj : parent j < j := by unfold parent at *; omega
      rw [ih (by omega), getElem?_swap_of_ne (by omega) (by omega)]
  | case3 => rfl

/-! ### `down` -/

/-- What holds at each round of `down`'s loop, started at `i0` and with the pairs whose parent
is before `lo` left out: the entry at `j` is the one moving, every pair that does not touch `j`
is in order, the children of `j` are not less than its parent, and once the entry has moved,
its new parent is not greater than it. -/
structure SinkInv (h : List α) (lo i0 j n : Nat) : Prop where
  start : i0 ≤ j
  low : lo ≤ j
  except : ∀ c, 0 < c → c < n → lo ≤ parent c → c ≠ j → parent c ≠ j → Below h (parent c) c
  grand : 0 < j → lo ≤ parent j → ∀ c, 0 < c → parent c = j → c < n → Below h (parent j) c
  above : i0 < j → Below h (parent j) j

theorem SinkInv.move {h : List α} {lo i0 j n : Nat} (inv : SinkInv h lo i0 j n) (len : n ≤ h.length)
    (hn : 2 * j + 1 < n) (lt : less h (minChild h j n) j = true) :
    SinkInv (swap h j (minChild h j n)) lo i0 (minChild h j n) n := by
  have jm := lt_minChild h j n
  have mn := minChild_lt (h := h) hn
  have pm := parent_minChild h j n
  have least : ∀ c, 0 < c → parent c = j → c < n → Below h (minChild h j n) c :=
    fun c pos child cn => below_minChild pos child cn
  generalize minChild h j n = m at jm mn pm lt least
  have jm' : j ≠ m := Nat.ne_of_lt jm
  have hj : j < h.length := by omega
  have hm : m < h.length := by omega
  refine ⟨by have := inv.start; omega, by have := inv.low; omega, ?_, ?_, ?_⟩
  · intro c pos cn low cm pcm
    rw [below_swap hj hm]
    by_cases cj : c = j
    · -- the smaller child's entry moved up to `j`, under `j`'s parent
      subst cj
      have pc := parent_lt pos
      have pcj : parent c ≠ c := Nat.ne_of_lt pc
      simpa [swapIndex, pcj, pcm, cm] using inv.grand pos low m (by omega) pm mn
    · by_cases pcj : parent c = j
      · -- a sibling of the smaller child
        simpa [swapIndex, cj, cm, pcj, jm'] using least c pos pcj cn
      · simpa [swapIndex, cj, cm, pcj, pcm] using inv.except c pos cn low cj pcj
  · intro _ _ c pos child cn
    have mc : m < c := child ▸ parent_lt pos
    have belowC : Below h m c :=
      child ▸ inv.except c pos cn (by rw [child]; have := inv.low; omega) (by omega) (by omega)
    rw [below_swap hj hm, pm]
    simpa [swapIndex, (show c ≠ m by omega), (show c ≠ j by omega), jm'] using belowC
  · intro _
    rw [below_swap hj hm, pm]
    simpa [swapIndex, jm'] using below_of_less lt

theorem SinkInv.finish {h : List α} {lo i0 j n : Nat} (inv : SinkInv h lo i0 j n) (len : n ≤ h.length)
    (stop : ¬ 2 * j + 1 < n ∨ less h (minChild h j n) j = false) :
    ∀ c, 0 < c → c < n → lo ≤ parent c → (c ≠ i0 ∨ i0 < j) → Below h (parent c) c := by
  intro c pos cn low moved
  by_cases cj : c = j
  · subst cj
    exact inv.above (by have := inv.start; omega)
  · by_cases pcj : parent c = j
    · -- the entry stopped: it is at most the smaller child, which is at most every child
      have hn : 2 * j + 1 < n := by have := (parent_eq_iff pos).mp pcj; omega
      have nlt : less h (minChild h j n) j = false := by simpa [hn] using stop
      have mn := minChild_lt (h := h) hn
      have below := below_of_not_less nlt
      rw [pcj]
      exact below.trans (below_minChild pos pcj cn) (by omega)
    · exact inv.except c pos cn low cj pcj

theorem sink_ordered {h : List α} {lo i0 j n : Nat} (inv : SinkInv h lo i0 j n) (len : n ≤ h.length) :
    ∀ c, 0 < c → c < n → lo ≤ parent c → (c ≠ i0 ∨ i0 < (sink h j n).2) →
      Below (sink h j n).1 (parent c) c := by
  fun_induction sink h j n with
  | case1 h j hn lt ih => exact ih (inv.move len hn lt) (by simpa using len)
  | case2 h j hn stop => exact inv.finish len (.inr (by simpa using stop))
  | case3 h j hn => exact inv.finish len (.inl hn)

theorem sink_perm (h : List α) (j n : Nat) : (sink h j n).1.Perm h := by
  fun_induction sink h j n with
  | case1 h j _ _ ih => exact ih.trans (swap_perm h _ _)
  | case2 => exact List.Perm.refl _
  | case3 => exact List.Perm.refl _

@[simp] theorem length_sink (h : List α) (j n : Nat) : (sink h j n).1.length = h.length :=
  (sink_perm h j n).length_eq

theorem le_sink (h : List α) (j n : Nat) : j ≤ (sink h j n).2 := by
  fun_induction sink h j n with
  | case1 h j _ _ ih => exact Nat.le_of_lt (Nat.lt_of_lt_of_le (lt_minChild h j n) ih)
  | case2 => exact Nat.le_refl _
  | case3 => exact Nat.le_refl _

/-- Where the entry did not move, `down` changed nothing. -/
theorem sink_of_stay {h : List α} {j n : Nat} (stay : (sink h j n).2 = j) : (sink h j n).1 = h := by
  fun_induction sink h j n with
  | case1 h j _ _ _ =>
      have further := le_sink (swap h j (minChild h j n)) (minChild h j n) n
      have := lt_minChild h j n
      omega
  | case2 => rfl
  | case3 => rfl

/-- `down` leaves the entries from `n` on where they are. -/
theorem getElem?_sink_of_le {h : List α} {j n k : Nat} (nk : n ≤ k) : (sink h j n).1[k]? = h[k]? := by
  fun_induction sink h j n with
  | case1 h j hn _ ih =>
      have := minChild_lt (h := h) hn
      have := lt_minChild h j n
      rw [ih, getElem?_swap_of_ne (by omega) (by omega)]
  | case2 => rfl
  | case3 => rfl

/-! ### `Init` -/

/-- The heap order on the pairs whose parent is at `lo` or after, among the first `n` entries. -/
def OrderedFrom (h : List α) (lo n : Nat) : Prop :=
  ∀ c, 0 < c → c < n → lo ≤ parent c → Below h (parent c) c

/-- One round of `Init`: `down` from `i` orders the pairs under `i` as well. -/
theorem down_orderedFrom {h : List α} {i n : Nat} (ord : OrderedFrom h (i + 1) n) (len : n ≤ h.length) :
    OrderedFrom (down h i n).1 i n := by
  have inv : SinkInv h i i i n :=
    { start := Nat.le_refl i
      low := Nat.le_refl i
      except := fun c pos cn low _ other => ord c pos cn (by omega)
      grand := fun pos low => absurd low (by have := parent_lt pos; omega)
      above := fun lt => absurd lt (Nat.lt_irrefl i) }
  intro c pos cn low
  have ci : c ≠ i := by
    rintro rfl
    have := parent_lt pos
    omega
  exact sink_ordered inv len c pos cn low (.inl ci)

theorem foldr_down_perm (n : Nat) (l : List Nat) (h : List α) :
    (l.foldr (fun i h' => (down h' i n).1) h).Perm h := by
  induction l with
  | nil => exact List.Perm.refl h
  | cons i l ih => exact (sink_perm _ i n).trans ih

/-- `Init`'s loop, from position `k - 1` down to the root. -/
theorem foldr_down_ordered {n : Nat} (k : Nat) (h : List α) (len : h.length = n) (ord : OrderedFrom h k n) :
    Ordered ((List.range k).foldr (fun i h' => (down h' i n).1) h) n := by
  induction k generalizing h with
  | zero => exact fun c pos cn => ord c pos cn (Nat.zero_le _)
  | succ k ih =>
      rw [List.range_succ, List.foldr_append, List.foldr_cons, List.foldr_nil]
      exact ih _ (by simp [down, len]) (down_orderedFrom ord (by omega))

theorem init_perm (h : List α) : (init h).Perm h :=
  foldr_down_perm _ _ h

theorem init_isHeap (h : List α) : IsHeap (init h) := by
  -- no pair has its parent at `h.length / 2` or after
  have none : OrderedFrom h (h.length / 2) h.length := by
    intro c pos cn low
    unfold parent at low
    omega
  unfold IsHeap
  rw [(init_perm h).length_eq]
  exact foldr_down_ordered _ h rfl none

/-! ### `Push`, `Pop` and `Remove` -/

theorem below_append {h : List α} {p c : Nat} (t : List α) (hp : p < h.length) (hc : c < h.length) :
    Below (h ++ t) p c ↔ Below h p c := by
  simp only [Below, List.getElem?_append_left hp, List.getElem?_append_left hc]

theorem push_perm (h : List α) (x : α) : (push h x).Perm (h ++ [x]) :=
  up_perm _ _

theorem push_isHeap {h : List α} (heap : IsHeap h) (x : α) : IsHeap (push h x) := by
  have inv : UpInv (h ++ [x]) h.length (h.length + 1) :=
    { except := fun c pos cn last => by
        have := parent_lt pos
        exact (below_append [x] (by omega) (by omega)).mpr (heap c pos (by omega))
      -- the new entry has no children yet
      grand := fun _ c pos child cn => absurd ((parent_eq_iff pos).mp child) (by omega) }
  unfold IsHeap push
  rw [length_up, List.length_append, List.length_singleton]
  exact up_ordered inv (by omega) (by simp)

/-- Taking the last entry off a slice whose other entries are in heap order. -/
theorem popLast_of_ordered {r h : List α} {x : α} {n : Nat} (ord : Ordered r n) (len : r.length = n + 1)
    (last : r[n]? = some x) (perm : r.Perm h) :
    popLast r = some (x, r.dropLast) ∧ IsHeap r.dropLast ∧ (x :: r.dropLast).Perm h := by
  have getLast : r.getLast? = some x := by rw [List.getLast?_eq_getElem?, len]; exact last
  refine ⟨by simp [popLast, getLast], ?_, ?_⟩
  · intro c pos cn
    have cn' : c < n := by simpa [len] using cn
    have pc := parent_lt pos
    intro u v atP atC
    rw [List.getElem?_dropLast, if_pos (by omega)] at atP atC
    exact ord c pos cn' u v atP atC
  · have split := List.dropLast_append_getLast? x getLast
    rw [← split] at perm
    exact (List.perm_append_singleton x r.dropLast).symm.trans perm

theorem length_pop {h rest : List α} {x : α} (found : pop h = some (x, rest)) :
    rest.length + 1 = h.length := by
  simp only [pop, down, popLast, Option.map_eq_some_iff, Prod.mk.injEq] at found
  obtain ⟨_, last, -, rfl⟩ := found
  have nonempty := List.getLast?_eq_some_iff.mp last
  have len := length_sink (swap h 0 (h.length - 1)) 0 (h.length - 1)
  obtain ⟨front, split⟩ := nonempty
  have positive : 0 < (sink (swap h 0 (h.length - 1)) 0 (h.length - 1)).1.length := by
    rw [split]; simp
  rw [len, length_swap] at positive
  rw [List.length_dropLast, len, length_swap]
  omega

/-- The last entry put in the place of the entry at `i`: the slice before the last entry is
ordered everywhere but at `i`, where the sift down starts. -/
theorem sinkInv_swapLast {h : List α} {i : Nat} (heap : IsHeap h) (hi : i < h.length) :
    SinkInv (swap h i (h.length - 1)) 0 i i (h.length - 1) where
  start := Nat.le_refl i
  low := Nat.zero_le i
  except c pos cn _ ci other := by
    have hn : h.length - 1 < h.length := by omega
    have notLast : parent c ≠ h.length - 1 := by have := parent_lt pos; omega
    rw [below_swap hi hn]
    simpa [swapIndex, ci, other, notLast, Nat.ne_of_lt cn] using heap c pos (by omega)
  grand pos _ c cpos child cn := by
    have hn : h.length - 1 < h.length := by omega
    have pi := parent_lt pos
    have notLast : parent i ≠ h.length - 1 := by omega
    have ic : i < c := child ▸ parent_lt cpos
    rw [below_swap hi hn]
    simpa [swapIndex, Nat.ne_of_lt pi, notLast, Nat.ne_of_gt ic, Nat.ne_of_lt cn]
      using (heap i pos hi).trans (child ▸ heap c cpos (by omega)) hi
  above lt := absurd lt (Nat.lt_irrefl i)

theorem pop_spec {a : α} {t : List α} (heap : IsHeap (a :: t)) :
    ∃ rest, pop (a :: t) = some (a, rest) ∧ IsHeap rest ∧ rest.Perm t := by
  have h0 : 0 < (a :: t).length := by simp
  have hn : t.length < (a :: t).length := by simp
  -- the last entry is put at the root and moves down
  have inv : SinkInv (swap (a :: t) 0 t.length) 0 0 0 t.length := by
    simpa using sinkInv_swapLast heap h0
  have ord := sink_ordered inv (by simp)
  obtain ⟨found, rest, perm⟩ := popLast_of_ordered (x := a)
    (fun c pos cn => ord c pos cn (Nat.zero_le _) (.inl (Nat.ne_of_gt pos))) (by simp)
    (by rw [getElem?_sink_of_le (Nat.le_refl _), getElem?_swap h0 hn]; simp [swapIndex])
    ((sink_perm _ 0 t.length).trans (swap_perm _ 0 t.length))
  exact ⟨_, by simpa [pop, down] using found, rest, perm.cons_inv⟩

theorem remove_spec {h : List α} {i : Nat} (heap : IsHeap h) (hi : i < h.length) :
    ∃ rest, remove h i = some (h[i], rest) ∧ IsHeap rest ∧ (h[i] :: rest).Perm h := by
  unfold remove
  rw [if_pos hi]
  by_cases atLast : h.length - 1 = i
  · -- the last entry is taken off as it is
    obtain ⟨found, rest, perm⟩ := popLast_of_ordered (n := i) (x := h[i])
      (fun c pos cn => heap c pos (by omega)) (by omega) (List.getElem?_eq_getElem hi) (List.Perm.refl h)
    exact ⟨_, by simpa [atLast] using found, rest, perm⟩
  · -- the last entry takes the place of `i` and moves down, or else up
    have hn : h.length - 1 < h.length := by omega
    have inv := sinkInv_swapLast heap hi
    have ord := sink_ordered inv (by simp)
    have len : (sink (swap h i (h.length - 1)) i (h.length - 1)).1.length = h.length - 1 + 1 := by
      simp; omega
    have lastEntry : (sink (swap h i (h.length - 1)) i (h.length - 1)).1[h.length - 1]? = some h[i] := by
      rw [getElem?_sink_of_le (Nat.le_refl _), getElem?_swap hi hn]
      simp [swapIndex, List.getElem?_eq_getElem hi]
    have perm := (sink_perm _ i (h.length - 1)).trans (swap_perm h i (h.length - 1))
    by_cases moved : i < (sink (swap h i (h.length - 1)) i (h.length - 1)).2
    · obtain ⟨found, rest, perm⟩ := popLast_of_ordered
        (fun c pos cn => ord c pos cn (Nat.zero_le _) (.inr moved)) len lastEntry perm
      exact ⟨_, by simpa [down, atLast, moved] using found, rest, perm⟩
    · -- `down` left the slice as it was, and the entry at `i` moves up
      have stay := sink_of_stay (Nat.le_antisymm (Nat.not_lt.mp moved) (le_sink _ i _))
      rw [stay] at ord lastEntry perm
      have upInv : UpInv (swap h i (h.length - 1)) i (h.length - 1) :=
        { except := fun c pos cn ci => ord c pos cn (Nat.zero_le _) (.inl ci)
          grand := fun pos => inv.grand pos (Nat.zero_le _) }
      obtain ⟨found, rest, perm⟩ := popLast_of_ordered
        (up_ordered upInv (by omega) (by simp)) (by simp; omega)
        (by rw [getElem?_up_of_lt (by omega)]; exact lastEntry) ((up_perm _ i).trans perm)
      exact ⟨_, by simpa [down, atLast, moved, stay] using found, rest, perm⟩

end Heap
