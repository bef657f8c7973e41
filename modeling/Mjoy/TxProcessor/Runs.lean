import Mjoy.TxProcessor.SortedMap

/-!
Sequences of calls on a `txSortedMap`. A call is one of `Put`, `Forward`, `Filter`, `Cap`,
`Remove`, `Ready` and `Flatten` with its arguments; `run` makes them one after another from a
map, and stops at a panic. `Cap` with a negative threshold always panics (`cap_of_neg`), so the
callers' contract is a threshold that is not negative. Under it every call keeps `Valid`, and
on every map a run reaches, each call answers what `Behaves` says.
-/

namespace Mjoy.TxProcessor

open Mjoy.Transaction

/-- One call on a `txSortedMap`, with its arguments. -/
inductive Op where
  | put (tx : Transaction)
  | forward (threshold : UInt64)
  | filter (filter : Transaction → Bool)
  | cap (threshold : Int)
  | remove (nonce : UInt64)
  | ready (start : UInt64)
  | flatten

/-- The callers' contract: a `Cap` threshold is not negative. -/
def Op.Allowed : Op → Prop
  | .cap threshold => 0 ≤ threshold
  | _ => True

-- Equation lemmas of the definitions above, made once here rather than by the proofs below
-- that unfold them in parallel.
section
attribute [local simp] Op.Allowed
end

namespace TxSortedMap

/-- The map after one call; `none` where the call panics. -/
def step (m : TxSortedMap) : Op → Option TxSortedMap
  | .put tx => some (m.put tx)
  | .forward threshold => (m.forward threshold).map Prod.snd
  | .filter filter => some (m.filter filter).2
  | .cap threshold => (m.cap threshold).map Prod.snd
  | .remove nonce => some (m.remove nonce).2
  | .ready start => some (m.ready start).2
  | .flatten => some m.flatten.2

/-- The map after a sequence of calls; `none` where one of them panics. -/
def run (m : TxSortedMap) : List Op → Option TxSortedMap
  | [] => some m
  | op :: ops => (m.step op).bind fun next => next.run ops

/-- What `Flatten`, `Forward`, `Cap` and `Ready` answer on a map, and what they leave, in terms of
its transactions in nonce order. -/
structure Behaves (m : TxSortedMap) : Prop where
  flatten : m.flatten.1 = byNonce m.items ∧ Increasing m.flatten.1
  forward : ∀ threshold, ∃ m', m.forward threshold =
      some (((byNonce m.items).filter fun tx => tx.nonce < threshold).map some, m') ∧
    byNonce m'.items = (byNonce m.items).filter fun tx => threshold ≤ tx.nonce
  cap : ∀ threshold : Nat, ∃ m', m.cap threshold =
      some (((byNonce m.items).drop threshold).reverse.map some, m') ∧
    byNonce m'.items = (byNonce m.items).take threshold
  ready : ∀ start, (m.ready start).1 = (readyRun (byNonce m.items) start).map some ∧
    byNonce (m.ready start).2.items = (byNonce m.items).drop (readyRun (byNonce m.items) start).length

section
attribute [local simp] step run
end

theorem Valid.behaves {m : TxSortedMap} (valid : m.Valid) : m.Behaves where
  flatten := ⟨(flatten_spec valid).1, (flatten_spec valid).2.1⟩
  forward threshold := by
    obtain ⟨m', answer, -, left⟩ := forward_spec valid threshold
    exact ⟨m', answer, left⟩
  cap threshold := by
    obtain ⟨m', answer, -, kept⟩ := cap_spec valid threshold
    exact ⟨m', answer, kept⟩
  ready start := ⟨(ready_spec valid start).1, (ready_spec valid start).2.2⟩

/-- One call within the contract does not panic, and keeps the invariant. -/
theorem step_valid {m : TxSortedMap} (valid : m.Valid) (op : Op) (allowed : op.Allowed) :
    ∃ m', m.step op = some m' ∧ m'.Valid := by
  cases op with
  | put tx => exact ⟨_, rfl, put_valid valid tx⟩
  | forward threshold =>
      obtain ⟨m', answer, after, -⟩ := forward_spec valid threshold
      exact ⟨m', by simp [step, answer], after⟩
  | filter filter => exact ⟨_, rfl, (filter_spec valid filter).2.1⟩
  | cap threshold =>
      -- a threshold that is not negative is a count
      obtain ⟨count, rfl⟩ := Int.eq_ofNat_of_zero_le (show 0 ≤ threshold from allowed)
      obtain ⟨m', answer, after, -⟩ := cap_spec valid count
      exact ⟨m', by simp [step, answer], after⟩
  | remove nonce => exact ⟨_, rfl, (remove_spec valid nonce).2.1⟩
  | ready start => exact ⟨_, rfl, (ready_spec valid start).2.1⟩
  | flatten => exact ⟨_, rfl, (flatten_spec valid).2.2.1⟩

theorem run_valid (ops : List Op) {m : TxSortedMap} (valid : m.Valid) (allowed : ∀ op ∈ ops, op.Allowed) :
    ∃ m', m.run ops = some m' ∧ m'.Valid := by
  induction ops generalizing m with
  | nil => exact ⟨m, rfl, valid⟩
  | cons op ops ih =>
      obtain ⟨next, stepped, nextValid⟩ := step_valid valid op (allowed op List.mem_cons_self)
      obtain ⟨m', ran, after⟩ := ih nextValid fun op mem => allowed op (List.mem_cons_of_mem _ mem)
      exact ⟨m', by simp [run, stepped, ran], after⟩

end TxSortedMap

/-- Every sequence of calls within the contract, from a new map, runs without a panic to a map
whose heap holds each nonce of its transactions once and in heap order, whose transactions are
filed under their nonces, whose cache (if any) is the nonce order, and on which `Flatten`,
`Forward`, `Cap` and `Ready` answer as `Behaves` says. -/
theorem txSortedMap_invariant (ops : List Op) (allowed : ∀ op ∈ ops, op.Allowed) :
    ∃ m, newTxSortedMap.run ops = some m ∧ m.Valid ∧ m.Behaves := by
  obtain ⟨m, ran, valid⟩ := TxSortedMap.run_valid ops TxSortedMap.valid_newTxSortedMap allowed
  exact ⟨m, ran, valid, valid.behaves⟩

/-- A transfer of nothing with nonce `n`. -/
def txAt (n : UInt64) : Transaction :=
  { data := { accountNonce := n, recipient := none, amount := 0, payload := [] }, v := 0, r := 0, s := 0 }

/-- Three transactions put out of nonce order, then `Flatten`, `Cap(2)` and `Ready(0)`. -/
def threeCalls : List Op :=
  [.put (txAt 2), .put (txAt 0), .put (txAt 1), .flatten, .cap 2, .ready 0]

section
attribute [local simp] threeCalls
end

theorem txSortedMap_invariant_three :
    (∀ op ∈ threeCalls, op.Allowed) ∧
      ∃ m, newTxSortedMap.run threeCalls = some m ∧ m.Valid ∧ m.Behaves := by
  have allowed : ∀ op ∈ threeCalls, op.Allowed := by
    simp [threeCalls, Op.Allowed]
  exact ⟨allowed, txSortedMap_invariant threeCalls allowed⟩

end Mjoy.TxProcessor
