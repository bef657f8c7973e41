import Mjoy.Lib.Loop

/-!
Revisions of an undo journal, as a `Snapshot`/`RevertToSnapshot` pair keeps them. A revision
records the length of the journal when it was taken. Reverting to it undoes the entries
added since, newest first, cuts the journal back to that length, and forgets the revisions
taken after it. The journal's entries and the state they undo are parameters.
-/

namespace Journal

structure Revision where
  id : Nat
  journalIndex : Nat
deriving DecidableEq, Repr

/-- `sort.Search(n, f)`: bisection for the first index of `[0, n)` at which `f` holds, `n` when
there is none, for an `f` that is false and then true. Each round shrinks `[i, j)`, so `n`
rounds are enough; the fuel keeps the recursion structural. -/
def sortSearch (n : Nat) (f : Nat → Bool) : Nat :=
  go n 0 n
where
  go : Nat → Nat → Nat → Nat
    | 0, i, _ => i
    | fuel + 1, i, j =>
        if i < j then
          if f ((i + j) / 2) then go fuel i ((i + j) / 2) else go fuel ((i + j) / 2 + 1) j
        else i

/-- The revision `revid` names, found as `RevertToSnapshot` finds it: its position in the
list and the journal length it recorded. `none` is the panic on an unknown id. -/
def findRevision (revisions : List Revision) (revid : Nat) : Option (Nat × Nat) :=
  let idx := sortSearch revisions.length fun i => decide ((revisions.getD i ⟨0, 0⟩).id ≥ revid)
  match revisions[idx]? with
  | some r => if r.id = revid then some (idx, r.journalIndex) else none
  | none => none

variable {σ ε : Type}

/-- The undo loop: every entry from the last down to the first, each on the state the
later ones left. -/
def replay (undo : ε → σ → Except String σ) (entries : List ε) (s : σ) : Except String σ :=
  entries.foldrM undo s

-- Equation lemmas of the definitions above, made once here rather than by the proofs below
-- that unfold them in parallel.
section
attribute [local simp] replay
end

theorem replay_append (undo : ε → σ → Except String σ) (older newer : List ε) (s : σ) :
    replay undo (older ++ newer) s = (replay undo newer s).bind (replay undo older) := by
  unfold replay
  rw [List.foldrM_append]
  rfl

end Journal
