import Mjoy.Lib.Heap

/-!
`container/heap` over a slice of records whose `Less(i, j)` compares one field of the two
entries, a key. The operations are the plain heap's with `less` reading the keys, so they make
the same swaps on the entries as the plain heap makes on the slice of keys: the keys of the
result are the plain heap's result, and the entries are a permutation of those put in. The plain
heap's order and `pop` lemmas carry over through `map key`.
-/

namespace Heap

variable {α β γ : Type}

theorem swap_map (f : α → γ) (h : List α) (i j : Nat) : (swap h i j).map f = swap (h.map f) i j := by
  unfold swap
  simp only [List.getElem?_map]
  cases h[i]? <;> cases h[j]? <;> simp [List.map_set]

theorem popLast_map (f : α → γ) (h : List α) :
    popLast (h.map f) = (popLast h).map fun p => (f p.1, p.2.map f) := by
  simp only [popLast, List.getLast?_map, Option.map_map, ← List.map_dropLast]
  rfl

theorem popLast_perm {h rest : List α} {x : α} (found : popLast h = some (x, rest)) :
    (x :: rest).Perm h := by
  simp only [popLast, Option.map_eq_some_iff, Prod.mk.injEq] at found
  obtain ⟨y, last, rfl, rfl⟩ := found
  have split := List.dropLast_append_getLast? y last
  calc (y :: h.dropLast).Perm (h.dropLast ++ [y]) := (List.perm_append_singleton y _).symm
    _ = h := split

variable [LinearOrder β] (key : α → β)

/-- `Less(i, j)` on the keys of the entries at `i` and `j`. -/
def lessBy (h : List α) (i j : Nat) : Bool :=
  match h[i]?, h[j]? with
  | some a, some b => decide (key a < key b)
  | _, _ => false

def upBy (h : List α) (j : Nat) : List α :=
  if parent j = j then h
  else if lessBy key h j (parent j) then upBy (swap h (parent j) j) (parent j)
  else h
termination_by j
decreasing_by unfold parent at *; omega

def minChildBy (h : List α) (i n : Nat) : Nat :=
  if 2 * i + 2 < n ∧ lessBy key h (2 * i + 2) (2 * i + 1) = true then 2 * i + 2 else 2 * i + 1

def sinkBy (h : List α) (i n : Nat) : List α × Nat :=
  if 2 * i + 1 < n then
    if lessBy key h (minChildBy key h i n) i then sinkBy (swap h i (minChildBy key h i n)) (minChildBy key h i n) n
    else (h, i)
  else (h, i)
termination_by n - i
decreasing_by unfold minChildBy; split <;> omega

def downBy (h : List α) (i0 n : Nat) : List α × Bool :=
  let r := sinkBy key h i0 n
  (r.1, decide (i0 < r.2))

/-- `Push(h, x)` on the keyed slice. -/
def pushBy (h : List α) (x : α) : List α :=
  upBy key (h ++ [x]) h.length

/-- `Pop(h)` on the keyed slice; `none` on an empty one, where Go panics. -/
def popBy (h : List α) : Option (α × List α) :=
  popLast (downBy key (swap h 0 (h.length - 1)) 0 (h.length - 1)).1

/-- The keys are in heap order. -/
def IsHeapBy (h : List α) : Prop :=
  IsHeap (h.map key)

-- Equation lemmas of the definitions above, made once here rather than by the proofs below
-- that unfold them in parallel.
section
attribute [local simp] lessBy upBy minChildBy sinkBy downBy pushBy popBy IsHeapBy
end

theorem isHeapBy_nil : IsHeapBy key ([] : List α) := by
  intro c _ lt
  simp at lt

theorem lessBy_eq (h : List α) (i j : Nat) : lessBy key h i j = less (h.map key) i j := by
  unfold lessBy less
  simp only [List.getElem?_map]
  cases h[i]? <;> cases h[j]? <;> rfl

theorem minChildBy_eq (h : List α) (i n : Nat) : minChildBy key h i n = minChild (h.map key) i n := by
  simp only [minChildBy, minChild, lessBy_eq]

theorem map_upBy (h : List α) (j : Nat) : (upBy key h j).map key = up (h.map key) j := by
  rw [upBy, up]
  by_cases top : parent j = j
  · rw [if_pos top, if_pos top]
  · rw [if_neg top, if_neg top, lessBy_eq]
    split
    · rw [← swap_map]
      exact map_upBy (swap h (parent j) j) (parent j)
    · rfl
termination_by j
decreasing_by unfold parent at *; omega

theorem upBy_perm (h : List α) (j : Nat) : (upBy key h j).Perm h := by
  rw [upBy]
  split
  · exact List.Perm.refl h
  · split
    · exact (upBy_perm _ _).trans (swap_perm h _ _)
    · exact List.Perm.refl h
termination_by j
decreasing_by unfold parent at *; omega

theorem map_sinkBy (h : List α) (i n : Nat) :
    (sinkBy key h i n).1.map key = (sink (h.map key) i n).1 ∧ (sinkBy key h i n).2 = (sink (h.map key) i n).2 := by
  rw [sinkBy, sink, minChildBy_eq, lessBy_eq]
  by_cases room : 2 * i + 1 < n
  · rw [if_pos room, if_pos room]
    split
    · rw [← swap_map]
      exact map_sinkBy (swap h i (minChild (h.map key) i n)) (minChild (h.map key) i n) n
    · exact ⟨rfl, rfl⟩
  · rw [if_neg room, if_neg room]
    exact ⟨rfl, rfl⟩
termination_by n - i
decreasing_by rcases minChild_cases (h.map key) i n with picked | ⟨picked, _⟩ <;> omega

theorem sinkBy_perm (h : List α) (i n : Nat) : (sinkBy key h i n).1.Perm h := by
  rw [sinkBy]
  split
  · split
    · exact (sinkBy_perm _ _ _).trans (swap_perm h _ _)
    · exact List.Perm.refl h
  · exact List.Perm.refl h
termination_by n - i
decreasing_by unfold minChildBy; split <;> omega

theorem popBy_perm {h rest : List α} {x : α} (found : popBy key h = some (x, rest)) : (x :: rest).Perm h :=
  (popLast_perm found).trans ((sinkBy_perm key _ 0 _).trans (swap_perm h 0 _))

theorem map_pushBy (h : List α) (x : α) : (pushBy key h x).map key = push (h.map key) (key x) := by
  rw [pushBy, push, map_upBy, List.map_append, List.length_map, List.map_singleton]

theorem pushBy_perm (h : List α) (x : α) : (pushBy key h x).Perm (h ++ [x]) :=
  upBy_perm key _ _

theorem IsHeapBy.pushBy {h : List α} (heap : IsHeapBy key h) (x : α) : IsHeapBy key (pushBy key h x) := by
  unfold IsHeapBy
  rw [map_pushBy]
  exact push_isHeap heap (key x)

/-- The root's key is at most every other key. -/
theorem IsHeapBy.head_le {a : α} {t : List α} (heap : IsHeapBy key (a :: t)) : ∀ x ∈ t, key a ≤ key x := by
  intro x mem
  exact IsHeap.head_le heap (key x) (List.mem_map_of_mem mem)

/-- `Pop` of a non-empty heap: an entry whose key is the least, and the rest, still a heap. -/
theorem popBy_spec {a : α} {t : List α} (heap : IsHeapBy key (a :: t)) :
    ∃ x rest, popBy key (a :: t) = some (x, rest) ∧ key x = key a ∧ (x :: rest).Perm (a :: t) ∧
      IsHeapBy key rest := by
  obtain ⟨rest', plain, restHeap, -⟩ := pop_spec (a := key a) (t := t.map key) heap
  have sunk := map_sinkBy key (swap (a :: t) 0 t.length) 0 t.length
  rw [swap_map] at sunk
  -- the keyed pop is the plain pop on the keys
  have mapped : (popBy key (a :: t)).map (fun p => (key p.1, p.2.map key)) = some (key a, rest') := by
    rw [popBy, ← popLast_map, downBy]
    simp only [List.length_cons, Nat.add_sub_cancel]
    rw [sunk.1]
    simpa [pop, down] using plain
  obtain ⟨⟨x, rest⟩, found, same⟩ := Option.map_eq_some_iff.mp mapped
  simp only [Prod.mk.injEq] at same
  refine ⟨x, rest, found, same.1, ?_, ?_⟩
  · exact popBy_perm key found
  · unfold IsHeapBy
    rw [same.2]
    exact restHeap

end Heap
