import Mjoy.State.Commit
import Mjoy.State.Frame

/-!
Applying a message to the state (`core/stateprocessor/statetransition.go`): `preCheck` of the
sender's nonce, then the value transfer of `TransitionDb`, the only kind of message the code
runs, with the test fee `max(1, value / 1000)` paid to the coinbase. `ApplyTransaction` and
`StateProcessor.Process` pass every transaction of a block through it, and nothing on that path
looks at the sign of the value.

`transitionDb_transfer` is what a transfer between three distinct addresses does to the
accounts they show, from the write lemmas of `Mjoy.State.Frame`.
-/

namespace Mjoy.State

open KeyValue

/-- `Message`, as `AsMessage` fills it from a transaction; `sender` is `From()` and
`recipient` is `To()`. -/
structure Message where
  sender : Address
  recipient : Option Address
  value : Int
  nonce : UInt64
  checkNonce : Bool
  data : List UInt8

/-- The errors of `TransitionDb`; a panic of the state database is kept with its text. -/
inductive TransitionError where
  /-- `core.ErrNonceTooHigh`, "nonce too high". -/
  | nonceTooHigh
  /-- `core.ErrNonceTooLow`, "nonce too low". -/
  | nonceTooLow
  /-- "Not support create contraction." -/
  | createNotSupported
  /-- "Insufficient balance(addr: %x).", with the sender. -/
  | insufficientBalance (addr : Address)
  | panicked (msg : String)
  deriving DecidableEq

namespace StateTransition

/-- `from()`: the sender, whose account is created when it does not exist. -/
def from' (s : StateDB) (msg : Message) : Address × StateDB :=
  let f := msg.sender
  let (found, s) := s.exist f
  (f, if found then s else s.createAccount f)

/-- `preCheck()`: with `CheckNonce()`, the sender's nonce must be the message's. -/
def preCheck (s : StateDB) (msg : Message) : Option TransitionError × StateDB :=
  let (sender, s) := from' s msg
  if msg.checkNonce then
    let (nonce, s) := s.getNonce sender
    if nonce < msg.nonce then (some .nonceTooHigh, s)
    else if nonce > msg.nonce then (some .nonceTooLow, s)
    else (none, s)
  else (none, s)

/-- The fee of `TransitionDb`: `value / 1000` by `big.Int.Div`, which is Euclidean division,
and 1 when that is below 1. -/
def fee (value : Int) : Int :=
  let fee := value / 1000
  if fee < 1 then 1 else fee

/-- `TransitionDb()`: `ret` is always nil and left out; the flag is `failed`, which the caller
reads only when there is no error. -/
def transitionDb (s : StateDB) (msg : Message) (coinBase : Address) : Except TransitionError Bool × StateDB :=
  match preCheck s msg with
  | (some err, s) => (.error err, s)
  | (none, s) =>
      let (sender, s) := from' s msg
      let (revid, s) := s.snapshot
      match msg.recipient with
      | none =>
          -- contract creation is reverted and refused
          match s.revertToSnapshot revid with
          | .ok s => (.error .createNotSupported, s)
          | .error e => (.error (.panicked e), s)
      | some recipient =>
          let (nonce, s) := s.getNonce sender
          let s := s.setNonce sender (nonce + 1)
          let (balance, s) := s.getBalance sender
          if balance < fee msg.value + msg.value then
            match s.revertToSnapshot revid with
            | .ok s => (.error (.insufficientBalance sender), s)
            | .error e => (.error (.panicked e), s)
          else
            let s := s.addBalance recipient msg.value
            let s := s.addBalance coinBase (fee msg.value)
            (.ok false, s.subBalance sender (fee msg.value + msg.value))

-- Equation lemmas of the definitions above, made once here rather than by the proofs below
-- that unfold them in parallel.
section
attribute [local simp] from' preCheck fee transitionDb
end

end StateTransition

/-- `ApplyMessage(statedb, msg, coinBase)`. -/
def applyMessage (s : StateDB) (msg : Message) (coinBase : Address) : Except TransitionError Bool × StateDB :=
  StateTransition.transitionDb s msg coinBase

namespace StateTransition

open StateDB

theorem fee_of_neg {value : Int} (negative : value < 0) : fee value = 1 := by
  have below : value / 1000 < 1 := by omega
  simp [fee, below]

theorem from'_fst (s : StateDB) (msg : Message) : (from' s msg).1 = msg.sender := by
  simp [from']

/-- `from()` changes what no address shows: an absent sender gets a new account, which is
what it showed before. -/
theorem writes_from {s : StateDB} (keyed : s.WellKeyed) (msg : Message) :
    Writes msg.sender (s.shown msg.sender) s (from' s msg).2 := by
  have loaded := writes_getStateObject keyed msg.sender
  have exists_iff := exist_fst s msg.sender
  unfold from'
  dsimp only
  rcases checked : s.exist msg.sender with ⟨_ | _, t⟩
  · -- the account is created
    rw [checked] at exists_iff
    have loaded : Writes msg.sender (s.shown msg.sender) s t := by
      simpa [← exist_snd, checked] using loaded
    have absent : s.shown msg.sender = Account.new := by
      cases found : s.account msg.sender with
      | none => simp [shown, found]
      | some _ => simp [found] at exists_iff
    have created := writes_createAccount loaded.keyed msg.sender
    rw [loaded.shown, absent] at created
    rw [absent]
    exact loaded.trans created
  · simpa [← exist_snd, checked] using loaded

theorem preCheck_ok {s : StateDB} {msg : Message} (keyed : s.WellKeyed)
    (nonceOk : msg.checkNonce = true → (s.shown msg.sender).nonce = msg.nonce) :
    ∃ t, preCheck s msg = (none, t) ∧ Writes msg.sender (s.shown msg.sender) s t := by
  have created := writes_from keyed msg
  have sender := from'_fst s msg
  unfold preCheck
  rcases made : from' s msg with ⟨f, t⟩
  rw [made] at created sender
  subst sender
  cases checks : msg.checkNonce
  · exact ⟨t, rfl, created⟩
  · have same : (t.getNonce msg.sender).1 = msg.nonce := by
      rw [getNonce_fst, created.shown, nonceOk checks]
    exact ⟨(t.getStateObject msg.sender).2, by simp [same],
      created.trans_keep (writes_getStateObject created.keyed msg.sender)⟩

section Transfer

variable {s : StateDB} {msg : Message} {coinBase recipient : Address}

/-- A transfer between three distinct addresses whose sender can pay the value and the fee:
the sender's nonce grows by one and the sender pays both, the recipient gets the value and the
coinbase the fee. Every other address shows what it showed. -/
theorem transitionDb_transfer (keyed : s.WellKeyed) (sends : msg.recipient = some recipient)
    (roles : msg.sender ≠ recipient ∧ msg.sender ≠ coinBase ∧ recipient ≠ coinBase)
    (nonceOk : msg.checkNonce = true → (s.shown msg.sender).nonce = msg.nonce)
    (funded : fee msg.value + msg.value ≤ (s.shown msg.sender).balance) :
    ∃ t, transitionDb s msg coinBase = (.ok false, t) ∧ t.WellKeyed ∧ ∀ a, t.shown a =
      if a = msg.sender then
        { s.shown a with nonce := (s.shown a).nonce + 1,
                         balance := (s.shown a).balance - (fee msg.value + msg.value) }
      else if a = recipient then { s.shown a with balance := (s.shown a).balance + msg.value }
      else if a = coinBase then { s.shown a with balance := (s.shown a).balance + fee msg.value }
      else s.shown a := by
  obtain ⟨s1, pre, checked⟩ := preCheck_ok keyed nonceOk
  -- up to the balance check only the sender's live object is touched, and only its nonce set
  have loaded : Writes msg.sender (s.shown msg.sender) s
      (((from' s1 msg).2.snapshot.2.getStateObject msg.sender).2) :=
    ((checked.trans_keep (writes_from checked.keyed msg)).trans_keep
      (writes_snapshot (writes_from checked.keyed msg).keyed msg.sender)).trans_keep
      (writes_getStateObject (writes_snapshot (writes_from checked.keyed msg).keyed msg.sender).keyed _)
  have counted := loaded.trans (writes_setNonce loaded.keyed msg.sender ((s.shown msg.sender).nonce + 1))
  rw [loaded.shown] at counted
  have read := counted.trans_keep (writes_getStateObject counted.keyed msg.sender)
  set s6 := (((((from' s1 msg).2.snapshot.2.getStateObject msg.sender).2).setNonce msg.sender
    ((s.shown msg.sender).nonce + 1)).getStateObject msg.sender).2
  -- the three balance changes
  have credited := writes_addBalance read.keyed recipient msg.value
  have paid := writes_addBalance credited.keyed coinBase (fee msg.value)
  have charged := writes_subBalance paid.keyed msg.sender (fee msg.value + msg.value)
  refine ⟨_, ?_, charged.keyed, fun a => ?_⟩
  · have counted_nonce := congrArg Account.nonce loaded.shown
    have counted_balance := congrArg Account.balance counted.shown
    simp only [shown_getStateObject_snd] at counted_nonce
    unfold transitionDb
    rw [pre]
    simp [from'_fst, sends, getNonce_fst, getBalance_fst, counted_nonce, counted_balance, not_lt.mpr funded]
    rfl
  · obtain ⟨ne_recipient, ne_coinBase, recipient_ne_coinBase⟩ := roles
    simp only [charged.shown_eq, paid.shown_eq, credited.shown_eq, read.shown_eq]
    by_cases isSender : a = msg.sender
    · -- its nonce was set before the check, and it is charged last
      subst isSender
      simp [ne_recipient, ne_coinBase]
    · by_cases isRecipient : a = recipient
      · subst isRecipient
        simp [isSender, recipient_ne_coinBase]
      · by_cases isCoinBase : a = coinBase
        · subst isCoinBase
          simp [isSender, isRecipient]
        · simp [isSender, isRecipient, isCoinBase]

end Transfer

end StateTransition

open StateDB

section NegativeValue

variable {s : StateDB} {msg : Message} {coinBase recipient : Address}

/-- A message of negative value, as a block may carry one: its fee is 1, so a sender whose
balance is not negative passes the balance check, and `AddBalance(to, value)` then takes the
value's magnitude from the recipient. -/
theorem applyMessage_negative_value_debits_recipient (keyed : s.WellKeyed)
    (sends : msg.recipient = some recipient) (negative : msg.value < 0)
    (roles : msg.sender ≠ recipient ∧ msg.sender ≠ coinBase ∧ recipient ≠ coinBase)
    (nonceOk : msg.checkNonce = true → (s.getNonce msg.sender).1 = msg.nonce)
    (solvent : 0 ≤ (s.getBalance msg.sender).1) :
    ∃ t, applyMessage s msg coinBase = (.ok false, t) ∧
      (t.getBalance recipient).1 = (s.getBalance recipient).1 + msg.value := by
  have funded : StateTransition.fee msg.value + msg.value ≤ (s.shown msg.sender).balance := by
    rw [StateTransition.fee_of_neg negative, ← getBalance_fst]
    omega
  have sameNonce : msg.checkNonce = true → (s.shown msg.sender).nonce = msg.nonce := by
    intro checks
    rw [← getNonce_fst]
    exact nonceOk checks
  obtain ⟨t, run, -, shows⟩ := StateTransition.transitionDb_transfer keyed sends roles sameNonce funded
  refine ⟨t, run, ?_⟩
  rw [getBalance_fst, getBalance_fst, shows, if_neg roles.1.symm, if_pos rfl]

/-- Two more addresses of the runs. -/
def bob : Address := List.replicate 19 0 ++ [0x0b]

def carol : Address := List.replicate 19 0 ++ [0x0c]

/-- Alice, whose empty account `emptyAccountTrie` holds, sends a value of -1 to bob. -/
def negativeTransfer : Message :=
  { sender := alice, recipient := some bob, value := -1, nonce := 0, checkNonce := true, data := [] }

/-- From a state where every balance is zero, the transfer leaves bob at -1. -/
theorem applyMessage_negative_value_debits_recipient_minus_one :
    ∃ t, applyMessage (StateDB.new noCode emptyAccountTrie) negativeTransfer carol = (.ok false, t) ∧
      (t.getBalance bob).1 = -1 := by
  obtain ⟨t, run, credited⟩ := @applyMessage_negative_value_debits_recipient
    (StateDB.new noCode emptyAccountTrie) negativeTransfer carol bob
    (wellKeyed_new noCode emptyAccountTrie) rfl (by decide) (by decide) (fun _ => by decide) (by decide)
  exact ⟨t, run, by rw [credited]; decide⟩

end NegativeValue

end Mjoy.State
