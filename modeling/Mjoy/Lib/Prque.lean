import Mathlib.Data.List.Perm.Basic

/-!
A priority queue as the list of its items with their priorities: `push` adds an item, `pop`
takes an item of the highest priority. A heap leaves the order among items of equal priority
unspecified; here the first one pushed is taken. What leaves the queue is counted by
`List.Perm`: popping takes one item out and keeps the others.
-/

/-- The items of a priority queue, in the order they were pushed. -/
structure Prque (α : Type) where
  items : List (α × Int)

namespace Prque

variable {α : Type}

def empty : Prque α := ⟨[]⟩

def push (q : Prque α) (x : α) (priority : Int) : Prque α := ⟨q.items ++ [(x, priority)]⟩

def size (q : Prque α) : Nat := q.items.length

-- Equation lemmas of the definitions above, made once here rather than by the proofs below
-- that unfold them in parallel.
section
attribute [local simp] empty push size
end

@[simp] theorem push_items (q : Prque α) (x : α) (priority : Int) :
    (q.push x priority).items = q.items ++ [(x, priority)] := rfl

/-- The first item of the highest priority. -/
def best : List (α × Int) → Option (α × Int)
  | [] => none
  | e :: rest =>
      match best rest with
      | some b => if e.2 < b.2 then some b else some e
      | none => some e

section
attribute [local simp] best
end

/-! ### What `pop` takes -/

theorem best_mem {l : List (α × Int)} {e : α × Int} (found : best l = some e) : e ∈ l := by
  induction l generalizing e with
  | nil => simp [best] at found
  | cons x rest ih =>
      simp only [best] at found
      split at found
      · next b rested =>
          split at found
          · cases found
            exact List.mem_cons_of_mem _ (ih rested)
          · cases found
            exact List.mem_cons_self
      · cases found
        exact List.mem_cons_self

theorem best_eq_none {l : List (α × Int)} : best l = none ↔ l = [] := by
  cases l with
  | nil => simp [best]
  | cons x rest =>
      simp only [best, reduceCtorEq, iff_false]
      split
      · split <;> simp
      · simp

theorem best_max {l : List (α × Int)} {e : α × Int} (found : best l = some e) :
    ∀ x ∈ l, x.2 ≤ e.2 := by
  induction l generalizing e with
  | nil => simp [best] at found
  | cons y rest ih =>
      simp only [best] at found
      intro x mem
      split at found
      · next b rested =>
          have below := ih rested
          split at found
          · next lower =>
              cases found
              rcases List.mem_cons.mp mem with rfl | later
              · exact Int.le_of_lt lower
              · exact below x later
          · next notLower =>
              cases found
              rcases List.mem_cons.mp mem with rfl | later
              · exact Int.le_refl _
              · exact Int.le_trans (below x later) (Int.not_lt.mp notLower)
      · next noBest =>
          cases found
          rcases List.mem_cons.mp mem with rfl | later
          · exact Int.le_refl _
          · rw [best_eq_none.mp noBest] at later
            simp at later

variable [DecidableEq α]

/-- `Pop`: an item of the highest priority, and the queue without it. -/
def pop (q : Prque α) : Option ((α × Int) × Prque α) :=
  (best q.items).map fun e => (e, ⟨q.items.erase e⟩)

section
attribute [local simp] pop
end

theorem pop_eq_none {q : Prque α} : q.pop = none ↔ q.items = [] := by
  simp [pop, best_eq_none]

/-- Popping takes out one item of the highest priority and keeps the others. -/
theorem pop_spec {q q' : Prque α} {e : α × Int} (popped : q.pop = some (e, q')) :
    q.items.Perm (e :: q'.items) ∧ ∀ x ∈ q.items, x.2 ≤ e.2 := by
  simp only [pop, Option.map_eq_some_iff, Prod.mk.injEq] at popped
  obtain ⟨b, found, rfl, rfl⟩ := popped
  exact ⟨List.perm_cons_erase (best_mem found), best_max found⟩

end Prque
