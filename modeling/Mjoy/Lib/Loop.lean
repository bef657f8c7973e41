import Mathlib.Data.List.Basic

/-!
An invariant rule for a loop written as `List.foldlM` in `Except`. The invariant reads the
elements done so far and the accumulator; a step may use where its element stands in the
list. When every step keeps the invariant and succeeds, the loop succeeds and the
invariant holds of the whole list.
-/

namespace Loop

variable {ε α β : Type}

/-- A step of a `do` block after a call that succeeded. -/
@[simp] theorem ok_bind (a : α) (f : α → Except ε β) : (Except.ok a >>= f) = f a :=
  rfl

/-- A `do` block returns the error of the first call that fails. -/
@[simp] theorem error_bind (e : ε) (f : α → Except ε β) : (Except.error e >>= f) = .error e :=
  rfl

@[simp] theorem pure_eq_ok (a : α) : (pure a : Except ε α) = .ok a :=
  rfl

/-- A `do` block that succeeded: its first call succeeded, and the rest did on its result. -/
theorem bind_eq_ok {x : Except ε α} {f : α → Except ε β} {b : β} :
    (x >>= f) = .ok b ↔ ∃ a, x = .ok a ∧ f a = .ok b := by
  cases x with
  | error e => simp [error_bind]
  | ok a => simp [ok_bind]

@[simp] theorem map_ok (f : α → β) (a : α) : (f <$> (Except.ok a : Except ε α)) = .ok (f a) :=
  rfl

@[simp] theorem mapError_ok {ε' : Type} (f : ε → ε') (a : α) : (Except.ok a : Except ε α).mapError f = .ok a :=
  rfl

@[simp] theorem mapError_error {ε' : Type} (f : ε → ε') (e : ε) : (Except.error e : Except ε α).mapError f = .error (f e) :=
  rfl

theorem foldlM_invariant_from (f : β → α → Except ε β) (I : List α → β → Prop) (xs : List α)
    (step : ∀ done x rest acc, done ++ x :: rest = xs → I done acc →
      ∃ acc', f acc x = .ok acc' ∧ I (done ++ [x]) acc') :
    ∀ (rest done : List α) (acc : β), done ++ rest = xs → I done acc →
      ∃ result, rest.foldlM f acc = .ok result ∧ I xs result := by
  intro rest
  induction rest with
  | nil =>
      intro done acc whole holds
      rw [List.append_nil] at whole
      subst whole
      exact ⟨acc, rfl, holds⟩
  | cons x rest ih =>
      intro done acc whole holds
      obtain ⟨acc', run, holds'⟩ := step done x rest acc whole holds
      obtain ⟨result, loop, final⟩ := ih (done ++ [x]) acc' (by simpa using whole) holds'
      refine ⟨result, ?_, final⟩
      simp only [List.foldlM_cons, run]
      exact loop

/-- The invariant rule: a loop whose steps keep `I` ends with `I` of the whole list. -/
theorem foldlM_invariant (f : β → α → Except ε β) (I : List α → β → Prop) (xs : List α)
    (step : ∀ done x rest acc, done ++ x :: rest = xs → I done acc →
      ∃ acc', f acc x = .ok acc' ∧ I (done ++ [x]) acc')
    {init : β} (start : I [] init) :
    ∃ result, xs.foldlM f init = .ok result ∧ I xs result :=
  foldlM_invariant_from f I xs step xs [] init rfl start

theorem foldl_invariant_from (f : β → α → β) (I : List α → β → Prop) (xs : List α)
    (step : ∀ done x rest acc, done ++ x :: rest = xs → I done acc → I (done ++ [x]) (f acc x)) :
    ∀ (rest done : List α) (acc : β), done ++ rest = xs → I done acc → I xs (rest.foldl f acc) := by
  intro rest
  induction rest with
  | nil =>
      intro done acc whole holds
      rw [List.append_nil] at whole
      subst whole
      exact holds
  | cons x rest ih =>
      intro done acc whole holds
      exact ih (done ++ [x]) (f acc x) (by simpa using whole) (step done x rest acc whole holds)

/-- The invariant rule for a loop that cannot fail. -/
theorem foldl_invariant (f : β → α → β) (I : List α → β → Prop) (xs : List α)
    (step : ∀ done x rest acc, done ++ x :: rest = xs → I done acc → I (done ++ [x]) (f acc x))
    {init : β} (start : I [] init) : I xs (xs.foldl f init) :=
  foldl_invariant_from f I xs step xs [] init rfl start

/-- Two loops over one list agree when their steps agree wherever an invariant of the rest of
the list holds, and the invariant carries over to the next step. -/
theorem foldl_congr_invariant (f g : β → α → β) (I : List α → β → Prop)
    (step : ∀ x rest acc, I (x :: rest) acc → f acc x = g acc x ∧ I rest (f acc x)) :
    ∀ (xs : List α) (acc : β), I xs acc → xs.foldl f acc = xs.foldl g acc
  | [], _, _ => rfl
  | x :: rest, acc, holds => by
      obtain ⟨same, next⟩ := step x rest acc holds
      rw [List.foldl_cons, List.foldl_cons, ← same]
      exact foldl_congr_invariant f g I step rest (f acc x) next

/-- Read the other way: whatever a loop that succeeded returns has every property the steps
keep, with the elements done so far. -/
theorem foldlM_ok_invariant (f : β → α → Except ε β) (I : List α → β → Prop)
    (step : ∀ done x acc acc', I done acc → f acc x = .ok acc' → I (done ++ [x]) acc') :
    ∀ (xs done : List α) {acc result : β}, I done acc → xs.foldlM f acc = .ok result →
      I (done ++ xs) result
  | [], done, acc, result, holds, run => by
      rw [List.foldlM_nil, pure_eq_ok, Except.ok.injEq] at run
      subst run
      simpa using holds
  | x :: xs, done, acc, result, holds, run => by
      rw [List.foldlM_cons, bind_eq_ok] at run
      obtain ⟨acc', first, rest⟩ := run
      simpa using foldlM_ok_invariant f I step xs (done ++ [x]) (step done x acc acc' holds first) rest

/-- A `for i := 0; i < n; i++` loop that returns on the first error: it succeeds when every
call does. -/
theorem mapM_range_ok (f : Nat → Except ε β) :
    ∀ n, (∀ i < n, ∃ b, f i = .ok b) → ∃ bs, (List.range n).mapM f = .ok bs ∧ bs.length = n := by
  intro n
  induction n with
  | zero =>
      intro _
      exact ⟨[], rfl, rfl⟩
  | succ n ih =>
      intro calls
      obtain ⟨bs, run, length⟩ := ih fun i lt => calls i (by omega)
      obtain ⟨b, last⟩ := calls n (by omega)
      refine ⟨bs ++ [b], ?_, by simp [length]⟩
      rw [List.range_succ, List.mapM_append, run]
      simp [last]

/-- The same loop returns the error of the first call that fails. -/
theorem mapM_range_error (f : Nat → Except ε β) {n k : Nat} (lt : k < n)
    (before : ∀ i < k, ∃ b, f i = .ok b) {e : ε} (fails : f k = .error e) :
    (List.range n).mapM f = .error e := by
  obtain ⟨r, rfl⟩ : ∃ r, n = k + (r + 1) := ⟨n - k - 1, by omega⟩
  obtain ⟨bs, run, _⟩ := mapM_range_ok f k before
  rw [List.range_add, List.mapM_append, run, List.range_succ_eq_map]
  simp [fails]

/-- A `for i := 0; i < m + 1; i++` loop is the loop to `m` followed by round `m`. -/
theorem foldlM_range_succ (f : β → Nat → Except ε β) (init : β) (m : Nat) :
    (List.range (m + 1)).foldlM f init = (List.range m).foldlM f init >>= fun acc => f acc m := by
  rw [List.range_succ, List.foldlM_append]
  cases (List.range m).foldlM f init with
  | error e => rfl
  | ok acc =>
      show (f acc m >>= fun b => .ok b) = f acc m
      cases f acc m <;> rfl

end Loop
