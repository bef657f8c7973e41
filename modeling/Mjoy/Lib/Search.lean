import Mathlib.Data.Nat.Basic

/-!
Go's `sort.Search(n, f)`: the binary search for the least index in `[0, n)` at which `f` holds,
or `n`, for a predicate that, once it holds, holds from there on.
-/

namespace Search

/-- The halving loop of `sort.Search`, between `i` and `j`. -/
def loop (f : Nat → Bool) (i j : Nat) : Nat :=
  if i < j then
    let h := (i + j) / 2
    if !f h then loop f (h + 1) j else loop f i h
  else i
termination_by j - i

/-- `sort.Search(n, f)`. -/
def search (n : Nat) (f : Nat → Bool) : Nat :=
  loop f 0 n

variable {f : Nat → Bool} {n : Nat}

-- Equation lemmas of the definitions above, made once here rather than by the proofs below
-- that unfold them in parallel.
section
attribute [local simp] loop
end

/-- The loop stays within its bounds, whatever `f` is. -/
theorem loop_le (f : Nat → Bool) (i j : Nat) (ordered : i ≤ j) : loop f i j ≤ j := by
  induction i, j using loop.induct f with
  | case1 i j lt h _ ih =>
      rw [loop, if_pos lt, if_pos ‹_›]
      exact ih (by omega)
  | case2 i j lt h _ ih =>
      rw [loop, if_pos lt, if_neg ‹_›]
      exact Nat.le_trans (ih (by omega)) (by omega)
  | case3 i j stop =>
      rw [loop, if_neg stop]
      exact ordered

theorem search_le (n : Nat) (f : Nat → Bool) : search n f ≤ n :=
  loop_le f 0 n (Nat.zero_le n)

/-- The invariants of the loop: `f` fails below `i` and holds from `j` to `n`. -/
theorem loop_spec (mono : ∀ a b, a ≤ b → b < n → f a = true → f b = true) :
    ∀ i j, i ≤ j → j ≤ n → (∀ m < i, f m = false) → (∀ m, j ≤ m → m < n → f m = true) →
      let k := loop f i j
      k ≤ n ∧ (∀ m < k, f m = false) ∧ ∀ m, k ≤ m → m < n → f m = true := by
  intro i j
  induction i, j using loop.induct f with
  | case1 i j lt h fails ih =>
      -- `f` fails at the middle, so it fails at and below it
      intro _ bound below _
      rw [loop, if_pos lt, if_pos fails]
      refine ih (by omega) bound (fun m lt' => ?_) ‹_›
      rcases Nat.lt_or_ge m i with low | high
      · exact below m low
      · cases at_m : f m with
        | false => rfl
        | true =>
            have := mono m h (by omega) (by omega) at_m
            simp_all
  | case2 i j lt h holds ih =>
      -- `f` holds at the middle, so it holds from there on
      intro _ bound below above
      rw [loop, if_pos lt, if_neg holds]
      refine ih (by omega) (by omega) below fun m low high => ?_
      rcases Nat.lt_or_ge m j with inside | outside
      · exact mono h m low high (by simpa using holds)
      · exact above m outside high
  | case3 i j stop =>
      intro ordered bound below above
      rw [loop, if_neg stop]
      exact ⟨by omega, below, fun m low high => above m (by omega) high⟩

/-- For a predicate that keeps holding once it holds, `sort.Search` answers the least index in
`[0, n)` at which it holds, and `n` when there is none. -/
theorem search_spec (mono : ∀ a b, a ≤ b → b < n → f a = true → f b = true) :
    search n f ≤ n ∧ (∀ m < search n f, f m = false) ∧
      ∀ m, search n f ≤ m → m < n → f m = true :=
  loop_spec mono 0 n (Nat.zero_le n) (Nat.le_refl n) (fun m lt => absurd lt (Nat.not_lt_zero m))
    (fun m low high => absurd high (by omega))

end Search
