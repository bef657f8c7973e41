import Mjoy.Lib.HeapBy
import Mjoy.Lib.Loop
import Mjoy.Lib.Table

/-!
The dial scheduler of `p2p/dial.go`. One call of `newTasks` expires the history, dials the
static nodes that pass `checkDial`, then as many dynamic candidates as the need allows (a
bootnode, random nodes of the table, lookup results), launches a lookup when candidates run
short and sets a timer when nothing else would wake the loop. `taskDone` records an ended dial
in the history and an ended lookup's results in the buffer.

The peer map, the time, the table's answer to `ReadRandomNodes` and the results of a discovery
lookup are inputs of the steps, any values at all. A table is its `Self()` ID (`none` for a nil
table) and the whitelist is its `Contains`. Times and durations are nanoseconds. What `Do` does
to a dial task (resolving its destination, which keeps its ID) is left out: a dial task is
reported done as it was returned. Go maps are `Table`s, iterated in list order, and the dial
history's heap orders entries by expiry, as its `Less` does.
-/

namespace Mjoy.P2p

abbrev NodeID := List UInt8

/-- Times and durations, in nanoseconds. -/
abbrev Time := Int

def second : Int := 1000000000

/-- The time spent waiting between redials of a node. -/
def dialHistoryExpiration : Int := 30 * second

/-- If no peers are found for this long, the bootnodes are dialed. -/
def fallbackInterval : Int := 20 * second

def maxActiveDialTasks : Nat := 16

/-- `connFlag`, a set of bits. -/
abbrev ConnFlag := Nat

def dynDialedConn : ConnFlag := 1
def staticDialedConn : ConnFlag := 2

/-- `f&flag != 0`, as `conn.is` and the count of dynamic dials test it. -/
def hasFlag (f flag : ConnFlag) : Bool := f &&& flag != 0

/-- The fields of `discover.Node` the dialer reads. -/
structure Node where
  ip : List UInt8
  id : NodeID
deriving DecidableEq, Repr

structure DialTask where
  flags : ConnFlag
  dest : Node
deriving DecidableEq, Repr

inductive Task where
  | dial (t : DialTask)
  /-- `discoverTask`; `Do` fills the results of its lookup. -/
  | discover (results : List Node)
  | waitExpire (d : Int)
deriving DecidableEq, Repr

-- Equation lemmas of the definitions above, made once here rather than by the proofs below
-- that unfold them in parallel.
section
attribute [local simp] second maxActiveDialTasks dynDialedConn staticDialedConn hasFlag
end

namespace Task

/-- The entry of `dialing` a task stands for: the node and flags of a dial. -/
def dialEntry : Task → Option (NodeID × ConnFlag)
  | .dial t => some (t.dest.id, t.flags)
  | _ => none

def isDiscover : Task → Bool
  | .discover _ => true
  | _ => false

section
attribute [local simp] dialEntry isDiscover
end

end Task

structure PastDial where
  id : NodeID
  exp : Time
deriving DecidableEq, Repr

/-- `dialHistory`: a heap whose `Less` compares expiry times. -/
abbrev DialHistory := List PastDial

def DialHistory.add (h : DialHistory) (id : NodeID) (exp : Time) : DialHistory :=
  Heap.pushBy PastDial.exp h ⟨id, exp⟩

def DialHistory.contains (h : DialHistory) (id : NodeID) : Bool :=
  h.any fun v => v.id == id

/-- `expire(now)`: the least entry is popped while it expired before `now`. -/
def DialHistory.expire (now : Time) (h : DialHistory) : DialHistory :=
  match h with
  | [] => []
  | first :: rest =>
      if first.exp < now then
        match popped : Heap.popBy PastDial.exp (first :: rest) with
        | some (_, h') => DialHistory.expire now h'
        | none => first :: rest
      else first :: rest
termination_by h.length
decreasing_by
  have := (Heap.popBy_perm PastDial.exp popped).length_eq
  simp only [List.length_cons] at this ⊢
  omega

inductive DialError where
  | alreadyDialing
  | alreadyConnected
  | self
  | notWhitelisted
  | recentlyDialed
deriving DecidableEq, Repr

/-- The panics of `newTasks`: `ReadRandomNodes` on a nil table, and a random candidate read from
outside the buffer or nil. -/
inductive DialPanic where
  | nilTable
  | indexOutOfRange
  | nilNode
deriving DecidableEq, Repr

structure DialState where
  maxDynDials : Nat
  /-- `ntab`: `none` for a nil table, or the ID of its `Self()`. -/
  self : Option NodeID
  /-- `netrestrict`: `none` for a nil whitelist, or its `Contains`. -/
  netrestrict : Option (List UInt8 → Bool)
  lookupRunning : Bool
  dialing : Table NodeID ConnFlag
  lookupBuf : List Node
  randomNodes : List (Option Node)
  static : Table NodeID DialTask
  hist : DialHistory
  /-- `start`; `none` is the zero time. -/
  start : Option Time
  bootnodes : List Node

section
attribute [local simp] DialHistory.contains DialHistory.expire
end

namespace DialState

/-- `addStatic(n)`: a new task replaces the old one, which lets users force a resolve. -/
def addStatic (s : DialState) (n : Node) : DialState :=
  { s with static := s.static.set n.id ⟨staticDialedConn, n⟩ }

def removeStatic (s : DialState) (n : Node) : DialState :=
  { s with static := s.static.remove n.id }

/-- `netrestrict == nil || netrestrict.Contains(n.IP)`. -/
def whitelisted (s : DialState) (n : Node) : Bool :=
  match s.netrestrict with
  | some contains => contains n.ip
  | none => true

section
attribute [local simp] addStatic whitelisted
end

end DialState

/-- `newDialState(static, bootnodes, ntab, maxdyn, netrestrict)`. -/
def newDialState (static bootnodes : List Node) (self : Option NodeID) (maxdyn : Nat)
    (netrestrict : Option (List UInt8 → Bool)) : DialState :=
  static.foldl DialState.addStatic
    { maxDynDials := maxdyn, self, netrestrict, lookupRunning := false, dialing := [], lookupBuf := [],
      randomNodes := List.replicate (maxdyn / 2) none, static := [], hist := [], start := none, bootnodes }

/-- The locals of `newTasks` its loops update: the dial state, `newtasks` and `needDynDials`. -/
structure Round where
  state : DialState
  newtasks : List Task
  needDynDials : Int

section
attribute [local simp] newDialState
end

namespace DialState

variable (peers : Table NodeID ConnFlag)

def checkDial (s : DialState) (n : Node) : Option DialError :=
  if s.dialing.contains n.id then some .alreadyDialing
  else if peers.contains n.id then some .alreadyConnected
  else if s.self = some n.id then some .self
  else if !s.whitelisted n then some .notWhitelisted
  else if s.hist.contains n.id then some .recentlyDialed
  else none

/-- `addDial(flag, n)`: whether the dial was added, and the round after it. -/
def addDial (flag : ConnFlag) (n : Node) (r : Round) : Bool × Round :=
  match r.state.checkDial peers n with
  | none =>
      (true, { r with state := { r.state with dialing := r.state.dialing.set n.id flag },
                      newtasks := r.newtasks ++ [.dial ⟨flag, n⟩] })
  | some _ => (false, r)

/-- A dynamic candidate: `if addDial(dynDialedConn, n) { needDynDials-- }`. -/
def dynDial (r : Round) (n : Node) : Round :=
  let added := addDial peers dynDialedConn n r
  if added.1 then { added.2 with needDynDials := added.2.needDynDials - 1 } else added.2

/-- The entries of a map whose flags hold `dynDialedConn`. -/
def dynCount (t : Table NodeID ConnFlag) : Nat :=
  (t.filter fun e => hasFlag e.2 dynDialedConn).length

/-- The number of dynamic dials necessary at this point. -/
def dynNeed (s : DialState) : Int :=
  (s.maxDynDials : Int) - dynCount peers - dynCount s.dialing

def startAt (s : DialState) (now : Time) : DialState :=
  if s.start.isNone then { s with start := some now } else s

/-- One round of `for id, t := range s.static`: a node that is the local one or off the whitelist
is dropped, one that passes is dialed with its task. -/
def staticDial (r : Round) (e : NodeID × DialTask) : Round :=
  match r.state.checkDial peers e.2.dest with
  | some .notWhitelisted | some .self => { r with state := { r.state with static := r.state.static.remove e.2.dest.id } }
  | none => { r with state := { r.state with dialing := r.state.dialing.set e.1 e.2.flags }, newtasks := r.newtasks ++ [.dial e.2] }
  | some _ => r

/-- `now.Sub(s.start) > fallbackInterval`; the zero time is longer ago than any interval. -/
def fallbackDue (s : DialState) (now : Time) : Bool :=
  match s.start with
  | some start => decide (fallbackInterval < now - start)
  | none => true

/-- Without any peer, the first bootnode is dialed and moved to the end of the list. -/
def bootDial (now : Time) (r : Round) : Round :=
  match r.state.bootnodes with
  | bootnode :: rest =>
      if peers.length = 0 ∧ 0 < r.needDynDials ∧ r.state.fallbackDue now = true then
        dynDial peers { r with state := { r.state with bootnodes := rest ++ [bootnode] } } bootnode
      else r
  | [] => r

/-- Round `i` of the loop over the random nodes read from the table. -/
def randomDial (buf : List (Option Node)) (r : Round) (i : Nat) : Except DialPanic Round :=
  match buf[i]? with
  | some (some n) => pure (dynDial peers r n)
  | some none => throw .nilNode
  | none => throw .indexOutOfRange

/-- Random nodes of the table for half of the dynamic dials still needed. -/
def randomDials (readRandomNodes : List (Option Node) → Nat × List (Option Node)) (r : Round) :
    Except DialPanic Round :=
  let randomCandidates := r.needDynDials.tdiv 2
  if 0 < randomCandidates then
    match r.state.self with
    | none => throw .nilTable
    | some _ =>
        let read := readRandomNodes r.state.randomNodes
        (List.range (min randomCandidates.toNat read.1)).foldlM (randomDial peers read.2)
          { r with state := { r.state with randomNodes := read.2 } }
  else pure r

/-- The loop over the lookup results while dials are needed: how many results it tried, and the
round after it. -/
def lookupLoop : List Node → Round → Nat × Round
  | [], r => (0, r)
  | n :: rest, r =>
      if 0 < r.needDynDials then
        let tried := lookupLoop rest (dynDial peers r n)
        (tried.1 + 1, tried.2)
      else (0, r)

/-- Dynamic dials from the lookup results, and the tried results removed from the buffer. -/
def lookupDials (r : Round) : Round :=
  let tried := lookupLoop peers r.state.lookupBuf r
  { tried.2 with state := { tried.2.state with lookupBuf := tried.2.state.lookupBuf.drop tried.1 } }

/-- A discovery lookup is launched if more candidates are needed and none runs. -/
def discoverStep (r : Round) : Round :=
  if (r.state.lookupBuf.length : Int) < r.needDynDials ∧ r.state.lookupRunning = false then
    { r with state := { r.state with lookupRunning := true }, newtasks := r.newtasks ++ [.discover []] }
  else r

/-- A timer for the next expiry when nothing else would tick the loop. -/
def waitStep (nRunning : Nat) (now : Time) (r : Round) : List Task :=
  match r.state.hist with
  | first :: _ =>
      if nRunning = 0 ∧ r.newtasks = [] then r.newtasks ++ [.waitExpire (first.exp - now)] else r.newtasks
  | [] => r.newtasks

/-- `newTasks(nRunning, peers, now)`, with the table's answer to `ReadRandomNodes(buf)`: the count it
returns and the buffer it leaves. -/
def newTasks (s : DialState) (nRunning : Nat) (now : Time)
    (readRandomNodes : List (Option Node) → Nat × List (Option Node)) :
    Except DialPanic (DialState × List Task) := do
  let s := s.startAt now
  let r := s.static.foldl (staticDial peers) ⟨{ s with hist := s.hist.expire now }, [], s.dynNeed peers⟩
  let r ← randomDials peers readRandomNodes (bootDial peers now r)
  let r := discoverStep (lookupDials peers r)
  pure (r.state, waitStep nRunning now r)

/-- `taskDone(t, now)`: a dial enters the history and leaves `dialing`; a lookup's results join
the buffer. -/
def taskDone (s : DialState) (t : Task) (now : Time) : DialState :=
  match t with
  | .dial t =>
      { s with hist := s.hist.add t.dest.id (now + dialHistoryExpiration), dialing := s.dialing.remove t.dest.id }
  | .discover results => { s with lookupRunning := false, lookupBuf := s.lookupBuf ++ results }
  | .waitExpire _ => s

section
attribute [local simp] checkDial addDial dynDial dynCount dynNeed startAt staticDial bootDial randomDial randomDials lookupLoop lookupDials discoverStep waitStep newTasks
end

end DialState

/-! ### The dial history -/

namespace DialHistory

/-- With the entries in heap order, `expire` drops exactly those that expired before `now`, and
leaves the rest in heap order. -/
theorem expire_spec (now : Time) : ∀ {h : DialHistory}, Heap.IsHeapBy PastDial.exp h →
    Heap.IsHeapBy PastDial.exp (h.expire now) ∧ (h.expire now).Perm (h.filter fun v => decide (now ≤ v.exp))
  | [], _ => by simp [expire, Heap.isHeapBy_nil]
  | first :: rest, heap => by
      rw [expire]
      split_ifs with early
      · -- the least entry has expired: it is popped and the rest expires
        obtain ⟨x, rest', popped, least, perm, heap'⟩ := Heap.popBy_spec PastDial.exp heap
        have shorter : rest'.length < rest.length + 1 := by
          have := perm.length_eq
          simp only [List.length_cons] at this
          omega
        obtain ⟨heapAfter, permAfter⟩ := expire_spec now heap'
        split
        case h_2 none => simp [popped] at none
        rename_i y h'' again
        rw [popped, Option.some.injEq, Prod.mk.injEq] at again
        obtain ⟨-, rfl⟩ := again
        refine ⟨heapAfter, ?_⟩
        have gone : decide (now ≤ x.exp) = false := by simp only [least, decide_eq_false_iff_not, not_le, early]
        calc (expire now rest').Perm (rest'.filter fun v => decide (now ≤ v.exp)) := permAfter
          _ = (x :: rest').filter fun v => decide (now ≤ v.exp) := by rw [List.filter_cons, gone, if_neg (by simp)]
          List.Perm _ ((first :: rest).filter fun v => decide (now ≤ v.exp)) := perm.filter _
      · -- the least entry is still live, so every entry is
        refine ⟨heap, ?_⟩
        have live : ∀ v ∈ first :: rest, decide (now ≤ v.exp) = true := by
          intro v mem
          rcases List.mem_cons.mp mem with rfl | later
          · simpa using early
          · have := Heap.IsHeapBy.head_le PastDial.exp heap v later
            simpa using le_trans (not_lt.mp early) this
        rw [List.filter_eq_self.mpr live]
termination_by h => h.length
decreasing_by simpa using shorter

end DialHistory

/-! ### One call of `newTasks`

The rounds of a call only append dials: each passed `checkDial` against the state the rounds
start from, and `dialing` grows by their entries. `Fits` says so of a round, and every round
function keeps it. -/

/-- A later round of the same call: tasks are only appended, and the static map is left alone. -/
structure Round.Grows (r r' : Round) : Prop where
  newtasks : r.newtasks <+: r'.newtasks
  static : r'.state.static = r.state.static

theorem Round.Grows.refl (r : Round) : Round.Grows r r :=
  ⟨List.prefix_refl _, rfl⟩

theorem Round.Grows.trans {r₁ r₂ r₃ : Round} (a : Round.Grows r₁ r₂) (b : Round.Grows r₂ r₃) :
    Round.Grows r₁ r₃ :=
  ⟨a.newtasks.trans b.newtasks, b.static.trans a.static⟩

namespace DialState

variable (peers : Table NodeID ConnFlag)

theorem checkDial_eq_none {s : DialState} {n : Node} :
    s.checkDial peers n = none ↔
      s.dialing.contains n.id = false ∧ peers.contains n.id = false ∧ s.self ≠ some n.id ∧
        s.whitelisted n = true ∧ s.hist.contains n.id = false := by
  unfold checkDial
  split_ifs <;> simp_all

theorem checkDial_eq_some {s : DialState} {n : Node} {err : DialError} (failed : s.checkDial peers n = some err) :
    (err = .alreadyDialing ∧ s.dialing.contains n.id = true) ∨
      (err = .alreadyConnected ∧ peers.contains n.id = true) ∨
      (err = .self ∧ s.self = some n.id) ∨
      (err = .notWhitelisted ∧ s.whitelisted n = false) ∨
      (err = .recentlyDialed ∧ s.hist.contains n.id = true) := by
  unfold checkDial at failed
  split_ifs at failed <;> simp_all

theorem dynCount_append (t : Table NodeID ConnFlag) (k : NodeID) (f : ConnFlag) :
    dynCount (t ++ [(k, f)]) = dynCount t + if hasFlag f dynDialedConn then 1 else 0 := by
  unfold dynCount
  by_cases dyn : hasFlag f dynDialedConn = true <;> simp [List.filter_append, dyn]

/-- What the rounds of one call keep, against the state `s₀` they start from and the need `need₀`
computed there: every task so far is a dial that passed `checkDial` in `s₀`; `dialing` is that of
`s₀` followed by their entries; and the dynamic dials came out of the need, which never went
below zero to pay for one. -/
structure Fits (s₀ : DialState) (need₀ : Int) (r : Round) : Prop where
  dials : ∀ t ∈ r.newtasks, ∃ d, t = .dial d ∧ s₀.checkDial peers d.dest = none
  dialing : r.state.dialing = s₀.dialing ++ r.newtasks.filterMap Task.dialEntry
  nodup : r.state.dialing.keys.Nodup
  hist : r.state.hist = s₀.hist
  self : r.state.self = s₀.self
  netrestrict : r.state.netrestrict = s₀.netrestrict
  lookupRunning : r.state.lookupRunning = s₀.lookupRunning
  maxDynDials : r.state.maxDynDials = s₀.maxDynDials
  static : r.state.static.Sublist s₀.static
  budget : (dynCount r.state.dialing : Int) + r.needDynDials = dynCount s₀.dialing + need₀
  floor : min 0 need₀ ≤ r.needDynDials

variable {peers} {s₀ : DialState} {need₀ : Int} {r : Round}

theorem Fits.init (nodup : s₀.dialing.keys.Nodup) : Fits peers s₀ need₀ ⟨s₀, [], need₀⟩ where
  dials := by simp
  dialing := by simp
  nodup := nodup
  hist := rfl
  self := rfl
  netrestrict := rfl
  lookupRunning := rfl
  maxDynDials := rfl
  static := List.Sublist.refl _
  budget := rfl
  floor := min_le_right 0 need₀

/-- The buffers a round reads candidates from are no part of its facts, and the static map only
has to shrink. -/
theorem Fits.frame (fits : Fits peers s₀ need₀ r) (bootnodes lookupBuf : List Node) (randomNodes : List (Option Node))
    {static : Table NodeID DialTask} (shrunk : static.Sublist r.state.static) :
    Fits peers s₀ need₀
      { r with state := { r.state with bootnodes, randomNodes, lookupBuf, static } } :=
  ⟨fits.dials, fits.dialing, fits.nodup, fits.hist, fits.self, fits.netrestrict, fits.lookupRunning,
    fits.maxDynDials, shrunk.trans fits.static, fits.budget, fits.floor⟩

theorem whitelisted_congr {s s' : DialState} (same : s'.netrestrict = s.netrestrict) (n : Node) :
    s'.whitelisted n = s.whitelisted n := by
  unfold whitelisted
  rw [same]

/-- A node that passes `checkDial` in a round passed it in `s₀`, whose `dialing` is smaller. -/
theorem Fits.checkDial (fits : Fits peers s₀ need₀ r) {n : Node} (pass : r.state.checkDial peers n = none) :
    s₀.checkDial peers n = none := by
  rw [checkDial_eq_none] at pass ⊢
  obtain ⟨notDialing, notPeer, notSelf, listed, notRecent⟩ := pass
  rw [fits.dialing, Table.contains_append, Bool.or_eq_false_iff] at notDialing
  refine ⟨notDialing.1, notPeer, fits.self ▸ notSelf, ?_, fits.hist ▸ notRecent⟩
  rwa [← whitelisted_congr fits.netrestrict]

/-- A dial that passed `checkDial` keeps the facts, when the need pays for it if it is dynamic. -/
theorem Fits.push (fits : Fits peers s₀ need₀ r) {n : Node} (pass : r.state.checkDial peers n = none)
    (flag : ConnFlag) {need : Int} (spent : (if hasFlag flag dynDialedConn then 1 else 0) + need = r.needDynDials)
    (floor : min 0 need₀ ≤ need) :
    Fits peers s₀ need₀
      ⟨{ r.state with dialing := r.state.dialing.set n.id flag }, r.newtasks ++ [.dial ⟨flag, n⟩], need⟩ := by
  have absent : r.state.dialing.get n.id = none := by
    have notDialing := ((checkDial_eq_none peers).mp pass).1
    simpa [Table.contains] using notDialing
  have appended := Table.set_of_get_eq_none absent flag
  refine ⟨?_, ?_, Table.nodup_keys_set fits.nodup _ _, fits.hist, fits.self, fits.netrestrict, fits.lookupRunning,
    fits.maxDynDials, fits.static, ?_, floor⟩
  · intro t mem
    rcases List.mem_append.mp mem with old | new
    · exact fits.dials t old
    · exact ⟨_, List.mem_singleton.mp new, fits.checkDial pass⟩
  · show r.state.dialing.set n.id flag = _
    rw [appended, fits.dialing]
    simp [Task.dialEntry]
  · have budget := fits.budget
    simp only [appended, dynCount_append]
    by_cases dyn : hasFlag flag dynDialedConn = true
    · simp only [dyn, if_true] at spent ⊢
      push_cast
      omega
    · simp only [dyn, if_false, Bool.false_eq_true] at spent ⊢
      push_cast
      omega

theorem fits_dynDial (fits : Fits peers s₀ need₀ r) (pos : 0 < r.needDynDials) (n : Node) :
    Fits peers s₀ need₀ (dynDial peers r n) ∧ Round.Grows r (dynDial peers r n) ∧
      r.needDynDials - 1 ≤ (dynDial peers r n).needDynDials := by
  cases pass : r.state.checkDial peers n with
  | none =>
      have step : dynDial peers r n =
          ⟨{ r.state with dialing := r.state.dialing.set n.id dynDialedConn },
            r.newtasks ++ [.dial ⟨dynDialedConn, n⟩], r.needDynDials - 1⟩ := by
        simp [dynDial, addDial, pass]
      have spent : (if hasFlag dynDialedConn dynDialedConn then 1 else 0) + (r.needDynDials - 1) = r.needDynDials := by
        rw [show hasFlag dynDialedConn dynDialedConn = true by decide, if_pos rfl]
        omega
      rw [step]
      exact ⟨fits.push pass dynDialedConn spent (by omega), ⟨List.prefix_append _ _, rfl⟩, le_refl _⟩
  | some err =>
      have step : dynDial peers r n = r := by simp [dynDial, addDial, pass]
      rw [step]
      exact ⟨fits, Round.Grows.refl r, by omega⟩

theorem fits_bootDial (fits : Fits peers s₀ need₀ r) (now : Time) :
    Fits peers s₀ need₀ (bootDial peers now r) ∧ Round.Grows r (bootDial peers now r) := by
  unfold bootDial
  split
  · next bootnode rest _ =>
    split
    · next due =>
      have moved := fits.frame (rest ++ [bootnode]) r.state.lookupBuf r.state.randomNodes (List.Sublist.refl _)
      obtain ⟨fits', grows, -⟩ := fits_dynDial moved due.2.1 bootnode
      exact ⟨fits', grows.newtasks, grows.static⟩
    · exact ⟨fits, Round.Grows.refl r⟩
  · exact ⟨fits, Round.Grows.refl r⟩

/-- Go's `needDynDials / 2` is positive only for a positive need, where it is the floor. -/
theorem tdiv_two_of_pos {need : Int} (pos : 0 < need.tdiv 2) : 0 ≤ need ∧ need.tdiv 2 = need / 2 := by
  by_cases nonneg : 0 ≤ need
  · exact ⟨nonneg, Int.tdiv_eq_ediv_of_nonneg nonneg⟩
  · have flipped : need.tdiv 2 = -((-need).tdiv 2) := by rw [Int.neg_tdiv, Int.neg_neg]
    rw [flipped, Int.tdiv_eq_ediv_of_nonneg (by omega)] at pos
    omega

/-- The first `m` rounds over the random nodes, for `m` at most the need: each dial is paid for. -/
theorem fits_randomLoop (buf : List (Option Node)) :
    ∀ (m : Nat) {r r' : Round}, Fits peers s₀ need₀ r → (m : Int) ≤ r.needDynDials →
      (List.range m).foldlM (randomDial peers buf) r = .ok r' →
      Fits peers s₀ need₀ r' ∧ Round.Grows r r' ∧ r.needDynDials - m ≤ r'.needDynDials
  | 0, r, r', fits, _, run => by
      rw [List.range_zero, List.foldlM_nil, Loop.pure_eq_ok, Except.ok.injEq] at run
      subst run
      exact ⟨fits, Round.Grows.refl r, by omega⟩
  | m + 1, r, r', fits, room, run => by
      rw [Loop.foldlM_range_succ, Loop.bind_eq_ok] at run
      obtain ⟨a, loop, last⟩ := run
      obtain ⟨fitsA, growsA, needA⟩ := fits_randomLoop buf m fits (by omega) loop
      unfold randomDial at last
      split at last
      · next n _ =>
        rw [Loop.pure_eq_ok, Except.ok.injEq] at last
        subst last
        obtain ⟨fits', grows', need'⟩ := fits_dynDial fitsA (by omega) n
        exact ⟨fits', growsA.trans grows', by omega⟩
      · cases last
      · cases last

theorem fits_randomDials (fits : Fits peers s₀ need₀ r)
    {readRandomNodes : List (Option Node) → Nat × List (Option Node)} {r' : Round}
    (run : randomDials peers readRandomNodes r = .ok r') :
    Fits peers s₀ need₀ r' ∧ Round.Grows r r' := by
  dsimp only [randomDials] at run
  split_ifs at run with some
  · split at run
    · cases run
    · obtain ⟨-, half⟩ := tdiv_two_of_pos some
      have room : ((min (r.needDynDials.tdiv 2).toNat (readRandomNodes r.state.randomNodes).1 : Nat) : Int) ≤
          r.needDynDials := by
        omega
      have read := fits.frame r.state.bootnodes r.state.lookupBuf (readRandomNodes r.state.randomNodes).2
        (List.Sublist.refl _)
      obtain ⟨fits', grows', -⟩ := fits_randomLoop _ _ read room run
      exact ⟨fits', grows'.newtasks, grows'.static⟩
  · rw [Loop.pure_eq_ok, Except.ok.injEq] at run
    subst run
    exact ⟨fits, Round.Grows.refl r⟩

theorem fits_lookupLoop : ∀ (ns : List Node) {r : Round}, Fits peers s₀ need₀ r →
    Fits peers s₀ need₀ (lookupLoop peers ns r).2 ∧ Round.Grows r (lookupLoop peers ns r).2
  | [], r, fits => ⟨fits, Round.Grows.refl r⟩
  | n :: rest, r, fits => by
      rw [lookupLoop]
      split
      · next pos =>
        obtain ⟨fits', grows', -⟩ := fits_dynDial fits pos n
        obtain ⟨fits'', grows''⟩ := fits_lookupLoop rest fits'
        exact ⟨fits'', grows'.trans grows''⟩
      · exact ⟨fits, Round.Grows.refl r⟩

theorem fits_lookupDials (fits : Fits peers s₀ need₀ r) :
    Fits peers s₀ need₀ (lookupDials peers r) ∧ Round.Grows r (lookupDials peers r) := by
  obtain ⟨fits', grows'⟩ := fits_lookupLoop r.state.lookupBuf fits
  refine ⟨fits'.frame _ _ _ (List.Sublist.refl _), grows'.newtasks, grows'.static⟩

/-! The static round. Every entry of the static map is dialed, kept or dropped by its own
`checkDial`; a Go map has one entry per key, and `addStatic` keys a task by its node. -/

/-- The static map as `addStatic` and `removeStatic` leave it. -/
structure StaticWF (s : DialState) : Prop where
  keyed : ∀ e ∈ s.static, e.2.dest.id = e.1 ∧ e.2.flags = staticDialedConn
  nodup : s.static.keys.Nodup

theorem StaticWF.of_sublist {s s' : DialState} (wf : s.StaticWF) (sub : s'.static.Sublist s.static) : s'.StaticWF :=
  ⟨fun e mem => wf.keyed e (sub.subset mem), wf.nodup.sublist (sub.map Prod.fst)⟩

theorem StaticWF.addStatic {s : DialState} (wf : s.StaticWF) (n : Node) : (s.addStatic n).StaticWF := by
  refine ⟨fun e mem => ?_, Table.nodup_keys_set wf.nodup _ _⟩
  simp only [DialState.addStatic, Table.set, List.concat_eq_append, List.mem_append, List.mem_singleton] at mem
  rcases mem with old | rfl
  · exact wf.keyed e (List.mem_filter.mp old).1
  · exact ⟨rfl, rfl⟩

theorem StaticWF.removeStatic {s : DialState} (wf : s.StaticWF) (n : Node) : (s.removeStatic n).StaticWF :=
  wf.of_sublist List.filter_sublist

theorem staticWF_newDialState (static bootnodes : List Node) (self : Option NodeID) (maxdyn : Nat)
    (netrestrict : Option (List UInt8 → Bool)) : (newDialState static bootnodes self maxdyn netrestrict).StaticWF := by
  refine Loop.foldl_invariant DialState.addStatic (fun _ (s : DialState) => s.StaticWF) static ?_ ?_
  · intro _ n _ s _ wf
    exact wf.addStatic n
  · exact ⟨fun _ mem => absurd mem List.not_mem_nil, List.nodup_nil⟩

variable (peers) in
/-- Where a static entry stands after its round: still in the map and connected, being dialed or
recently dialed; or dropped, being the local node or off the whitelist. -/
def StaticFate (s₀ s : DialState) (e : NodeID × DialTask) : Prop :=
  (e ∈ s.static ∧ (s.dialing.contains e.1 = true ∨ peers.contains e.1 = true ∨ s.hist.contains e.1 = true)) ∨
    (e ∉ s.static ∧ (s₀.self = some e.1 ∨ s₀.whitelisted e.2.dest = false))

variable (peers) in
theorem staticDial_cases (r : Round) (e : NodeID × DialTask) :
    (staticDial peers r e = { r with state := { r.state with static := r.state.static.remove e.2.dest.id } } ∧
        (r.state.checkDial peers e.2.dest = some .notWhitelisted ∨ r.state.checkDial peers e.2.dest = some .self)) ∨
      (staticDial peers r e =
          { r with state := { r.state with dialing := r.state.dialing.set e.1 e.2.flags }, newtasks := r.newtasks ++ [.dial e.2] } ∧
        r.state.checkDial peers e.2.dest = none) ∨
      (staticDial peers r e = r ∧ ∃ err, r.state.checkDial peers e.2.dest = some err ∧ err ≠ .notWhitelisted ∧ err ≠ .self) := by
  unfold staticDial
  split
  · next failed => exact Or.inl ⟨rfl, Or.inl failed⟩
  · next failed => exact Or.inl ⟨rfl, Or.inr failed⟩
  · next pass => exact Or.inr (Or.inl ⟨rfl, pass⟩)
  · next err notListed notSelf failed => exact Or.inr (Or.inr ⟨rfl, err, failed, notListed, notSelf⟩)

/-- A dial or a frame step keeps the fate of an entry kept before. -/
theorem StaticFate.grow {s₀ s s' : DialState} {e : NodeID × DialTask} (fate : StaticFate peers s₀ s e)
    (kept : e ∈ s.static → e ∈ s'.static) (dropped : e ∉ s.static → e ∉ s'.static)
    (dialing : ∀ id, s.dialing.contains id = true → s'.dialing.contains id = true)
    (hist : s'.hist = s.hist) : StaticFate peers s₀ s' e := by
  rcases fate with ⟨mem, covered⟩ | ⟨gone, why⟩
  · refine Or.inl ⟨kept mem, ?_⟩
    rw [hist]
    rcases covered with dialed | connected | recent
    · exact Or.inl (dialing _ dialed)
    · exact Or.inr (Or.inl connected)
    · exact Or.inr (Or.inr recent)
  · exact Or.inr ⟨dropped gone, why⟩

/-- Round of entry `x` of the static map: the facts hold on, `x` gets its fate, and the entries
after it are still in the map. -/
theorem fits_staticDial (wf : s₀.StaticWF) (fits : Fits peers s₀ need₀ r) {done rest : Table NodeID DialTask}
    {x : NodeID × DialTask} (whole : done ++ x :: rest = s₀.static)
    (fates : ∀ e ∈ done, StaticFate peers s₀ r.state e) (pending : ∀ e ∈ s₀.static, e ∉ done → e ∈ r.state.static) :
    Fits peers s₀ need₀ (staticDial peers r x) ∧ (∀ e ∈ done ++ [x], StaticFate peers s₀ (staticDial peers r x).state e) ∧
      ∀ e ∈ s₀.static, e ∉ done ++ [x] → e ∈ (staticDial peers r x).state.static := by
  have xMem : x ∈ s₀.static := whole ▸ List.mem_append_right done List.mem_cons_self
  obtain ⟨xKey, xFlags⟩ := wf.keyed x xMem
  have entries : (done ++ x :: rest).Nodup := whole ▸ wf.nodup.of_map Prod.fst
  have xFresh : x ∉ done := fun mem => (List.nodup_append.mp entries).2.2 x mem x List.mem_cons_self rfl
  have xIn : x ∈ r.state.static := pending x xMem xFresh
  -- with one entry per key, an entry other than `x` has another key
  have otherKey : ∀ e ∈ s₀.static, e ≠ x → e.1 ≠ x.2.dest.id := fun e mem other same =>
    other (List.inj_on_of_nodup_map wf.nodup mem xMem (same.trans xKey))
  have doneMem : ∀ e ∈ done, e ∈ s₀.static := fun e mem => whole ▸ List.mem_append_left _ mem
  rcases staticDial_cases peers r x with ⟨step, why⟩ | ⟨step, pass⟩ | ⟨step, err, failed, notListed, notSelf⟩ <;>
    rw [step]
  · -- the entry is removed from the map
    have kept : ∀ e ∈ s₀.static, e ≠ x → e ∈ r.state.static → e ∈ r.state.static.remove x.2.dest.id :=
      fun e mem other inMap => List.mem_filter.mpr ⟨inMap, by simpa using otherKey e mem other⟩
    have shrunk : (r.state.static.remove x.2.dest.id).Sublist r.state.static := List.filter_sublist
    refine ⟨fits.frame _ _ _ shrunk, ?_, ?_⟩
    · intro e mem
      rcases List.mem_append.mp mem with old | new
      · have other : e ≠ x := fun same => xFresh (same ▸ old)
        exact (fates e old).grow (kept e (doneMem e old) other) (fun gone inMap => gone (shrunk.subset inMap))
          (fun _ dialed => dialed) rfl
      · rw [List.mem_singleton] at new
        subst new
        refine Or.inr ⟨fun inMap => ?_, ?_⟩
        · have := (List.mem_filter.mp inMap).2
          simp [xKey] at this
        · rcases why with listed | isSelf
          · have unlisted : r.state.whitelisted e.2.dest = false := by simpa using checkDial_eq_some peers listed
            exact Or.inr (whitelisted_congr fits.netrestrict e.2.dest ▸ unlisted)
          · have sameSelf : r.state.self = some e.2.dest.id := by simpa using checkDial_eq_some peers isSelf
            rw [← xKey, ← fits.self]
            exact Or.inl sameSelf
    · intro e mem notDone
      have other : e ≠ x := by
        rintro rfl
        exact notDone (List.mem_append_right _ (List.mem_singleton_self e))
      exact kept e mem other (pending e mem fun old => notDone (List.mem_append_left _ old))
  · -- the entry is dialed with its own task
    have spent : (if hasFlag x.2.flags dynDialedConn then 1 else 0) + r.needDynDials = r.needDynDials := by
      rw [xFlags, show hasFlag staticDialedConn dynDialedConn = false by decide]
      simp
    have pushed := fits.push pass x.2.flags spent fits.floor
    rw [xKey] at pushed
    refine ⟨pushed, ?_, ?_⟩
    · have grows : ∀ id, r.state.dialing.contains id = true → (r.state.dialing.set x.1 x.2.flags).contains id = true := by
        intro id dialed
        simp [dialed]
      intro e mem
      rcases List.mem_append.mp mem with old | new
      · exact (fates e old).grow id id grows rfl
      · rw [List.mem_singleton] at new
        subst new
        exact Or.inl ⟨xIn, Or.inl (by simp)⟩
    · intro e mem notDone
      exact pending e mem fun old => notDone (List.mem_append_left _ old)
  · -- the entry is skipped: it is dialing, connected or recently dialed
    refine ⟨fits, ?_, fun e mem notDone => pending e mem fun old => notDone (List.mem_append_left _ old)⟩
    intro e mem
    rcases List.mem_append.mp mem with old | new
    · exact fates e old
    · rw [List.mem_singleton] at new
      subst new
      refine Or.inl ⟨xIn, ?_⟩
      rw [← xKey]
      rcases checkDial_eq_some peers failed with ⟨-, dialed⟩ | ⟨-, connected⟩ | ⟨rfl, -⟩ | ⟨rfl, -⟩ | ⟨-, recent⟩
      · exact Or.inl dialed
      · exact Or.inr (Or.inl connected)
      · exact absurd rfl notSelf
      · exact absurd rfl notListed
      · exact Or.inr (Or.inr recent)

/-- The whole static round, by the loop's invariant: every entry it went past has its fate, and
every entry still ahead is in the map. -/
theorem fits_staticDials (wf : s₀.StaticWF) (fits : Fits peers s₀ need₀ r) (start : r.state.static = s₀.static) :
    Fits peers s₀ need₀ (s₀.static.foldl (staticDial peers) r) ∧
      ∀ e ∈ s₀.static, StaticFate peers s₀ (s₀.static.foldl (staticDial peers) r).state e := by
  let I : Table NodeID DialTask → Round → Prop := fun done r =>
    Fits peers s₀ need₀ r ∧ (∀ e ∈ done, StaticFate peers s₀ r.state e) ∧ ∀ e ∈ s₀.static, e ∉ done → e ∈ r.state.static
  have loop : I s₀.static (s₀.static.foldl (staticDial peers) r) := by
    apply Loop.foldl_invariant
    · intro done x rest r whole ⟨fits, fates, pending⟩
      exact fits_staticDial wf fits whole fates pending
    · exact ⟨fits, by simp, fun e mem _ => start ▸ mem⟩
  exact ⟨loop.1, loop.2.1⟩

theorem discoverStep_cases (r : Round) :
    discoverStep r = r ∨
      (r.state.lookupRunning = false ∧
        discoverStep r = { r with state := { r.state with lookupRunning := true }, newtasks := r.newtasks ++ [.discover []] }) := by
  unfold discoverStep
  split_ifs with launch
  · exact Or.inr ⟨launch.2, rfl⟩
  · exact Or.inl rfl

theorem waitStep_cases (nRunning : Nat) (now : Time) (r : Round) :
    waitStep nRunning now r = r.newtasks ∨ (r.newtasks = [] ∧ ∃ d, waitStep nRunning now r = [.waitExpire d]) := by
  unfold waitStep
  split
  · split_ifs with idle
    · exact Or.inr ⟨idle.2, _, by rw [idle.2, List.nil_append]⟩
    · exact Or.inl rfl
  · exact Or.inl rfl

variable (peers) in
/-- A call that returned: the static round, the bootnode, the random nodes and the lookup results
ran from the state with its history expired, then a lookup may be launched and a timer added. -/
theorem newTasks_cases {s s' : DialState} {nRunning : Nat} {now : Time}
    {readRandomNodes : List (Option Node) → Nat × List (Option Node)} {nt : List Task}
    (run : s.newTasks peers nRunning now readRandomNodes = .ok (s', nt)) :
    ∃ r, randomDials peers readRandomNodes
          (bootDial peers now ((s.startAt now).static.foldl (staticDial peers)
            ⟨{ s.startAt now with hist := (s.startAt now).hist.expire now }, [], (s.startAt now).dynNeed peers⟩)) = .ok r ∧
        s' = (discoverStep (lookupDials peers r)).state ∧ nt = waitStep nRunning now (discoverStep (lookupDials peers r)) := by
  unfold newTasks at run
  rw [Loop.bind_eq_ok] at run
  obtain ⟨r, random, rest⟩ := run
  rw [Loop.pure_eq_ok, Except.ok.injEq, Prod.mk.injEq] at rest
  exact ⟨r, random, rest.1.symm, rest.2.symm⟩

theorem startAt_eq (s : DialState) (now : Time) : s.startAt now = { s with start := some (s.start.getD now) } := by
  rcases s with ⟨_, _, _, _, _, _, _, _, _, _ | start, _⟩ <;> rfl

/-- `dialing` only grows over the rounds of a call. -/
theorem Fits.contains_grow {r' : Round} {need₀' : Int} (fits : Fits peers s₀ need₀ r) (fits' : Fits peers s₀ need₀' r')
    (grows : Round.Grows r r') {id : NodeID} (dialed : r.state.dialing.contains id = true) :
    r'.state.dialing.contains id = true := by
  obtain ⟨more, appended⟩ := grows.newtasks
  rw [fits.dialing] at dialed
  rw [fits'.dialing, ← appended, List.filterMap_append, ← List.append_assoc, Table.contains_append, dialed,
    Bool.true_or]

theorem discoverStep_frame (r : Round) :
    (discoverStep r).state.dialing = r.state.dialing ∧ (discoverStep r).state.hist = r.state.hist ∧
      (discoverStep r).state.static = r.state.static ∧ (discoverStep r).state.maxDynDials = r.state.maxDynDials ∧
      (discoverStep r).state.self = r.state.self ∧ (discoverStep r).state.netrestrict = r.state.netrestrict := by
  rcases discoverStep_cases r with step | ⟨-, step⟩ <;> rw [step] <;> exact ⟨rfl, rfl, rfl, rfl, rfl, rfl⟩

/-- The tasks a call returns: those of its dial rounds, a lookup and a timer. -/
theorem mem_finish {r : Round} {nRunning : Nat} {now : Time} {t : Task}
    (mem : t ∈ waitStep nRunning now (discoverStep r)) :
    t ∈ r.newtasks ∨ t = .discover [] ∨ ∃ d, t = .waitExpire d := by
  have launched : t ∈ (discoverStep r).newtasks → t ∈ r.newtasks ∨ t = .discover [] := by
    rcases discoverStep_cases r with step | ⟨-, step⟩ <;> rw [step] <;> intro found
    · exact Or.inl found
    · simpa using found
  rcases waitStep_cases nRunning now (discoverStep r) with same | ⟨-, d, timer⟩
  · rw [same] at mem
    exact (launched mem).elim Or.inl (Or.inr ∘ Or.inl)
  · rw [timer, List.mem_singleton] at mem
    exact Or.inr (Or.inr ⟨d, mem⟩)

theorem finish_dialEntries (r : Round) (nRunning : Nat) (now : Time) :
    (waitStep nRunning now (discoverStep r)).filterMap Task.dialEntry = r.newtasks.filterMap Task.dialEntry := by
  have launched : (discoverStep r).newtasks.filterMap Task.dialEntry = r.newtasks.filterMap Task.dialEntry := by
    rcases discoverStep_cases r with step | ⟨-, step⟩ <;> rw [step]
    simp [Task.dialEntry]
  rcases waitStep_cases nRunning now (discoverStep r) with same | ⟨none, d, timer⟩
  · rw [same, launched]
  · rw [timer, ← launched, none]
    rfl

/-- A lookup task is returned exactly when one is launched. -/
theorem finish_lookup (fits : Fits peers s₀ need₀ r) (nRunning : Nat) (now : Time) :
    (if (discoverStep r).state.lookupRunning then 1 else 0) =
      (if s₀.lookupRunning then 1 else 0) + (waitStep nRunning now (discoverStep r)).countP Task.isDiscover := by
  have noLookup : r.newtasks.countP Task.isDiscover = 0 := by
    rw [List.countP_eq_zero]
    intro t mem
    obtain ⟨d, rfl, -⟩ := fits.dials t mem
    simp [Task.isDiscover]
  have timers : (waitStep nRunning now (discoverStep r)).countP Task.isDiscover =
      (discoverStep r).newtasks.countP Task.isDiscover := by
    rcases waitStep_cases nRunning now (discoverStep r) with same | ⟨none, d, timer⟩
    · rw [same]
    · rw [timer, none]
      rfl
  rw [timers, ← fits.lookupRunning]
  rcases discoverStep_cases r with step | ⟨idle, step⟩ <;> rw [step]
  · rw [noLookup, Nat.add_zero]
  · simp [idle, noLookup, Task.isDiscover]

variable (peers) in
/-- What one call of `newTasks` does. -/
structure Outcome (s : DialState) (now : Time) (s' : DialState) (nt : List Task) : Prop where
  dialing : s'.dialing = s.dialing ++ nt.filterMap Task.dialEntry
  nodup : s'.dialing.keys.Nodup
  dials : ∀ d, .dial d ∈ nt →
    s.dialing.contains d.dest.id = false ∧ peers.contains d.dest.id = false ∧ s.self ≠ some d.dest.id ∧
      s.whitelisted d.dest = true ∧ (s.hist.expire now).contains d.dest.id = false
  hist : s'.hist = s.hist.expire now
  lookup : (if s'.lookupRunning then 1 else 0) = (if s.lookupRunning then 1 else 0) + nt.countP Task.isDiscover
  maxDynDials : s'.maxDynDials = s.maxDynDials
  self : s'.self = s.self
  netrestrict : s'.netrestrict = s.netrestrict
  static : s'.static.Sublist s.static
  fates : ∀ e ∈ s.static, StaticFate peers s s' e
  dynamic : (dynCount s'.dialing : Int) ≤ max (dynCount s.dialing : Int) ((s.maxDynDials : Int) - dynCount peers)

/-- One call of `newTasks` from a state whose maps are well formed, round by round. -/
theorem newTasks_outcome {s s' : DialState} {nRunning : Nat} {now : Time}
    {readRandomNodes : List (Option Node) → Nat × List (Option Node)} {nt : List Task}
    (wf : s.StaticWF) (nodup : s.dialing.keys.Nodup) (run : s.newTasks peers nRunning now readRandomNodes = .ok (s', nt)) :
    Outcome peers s now s' nt := by
  obtain ⟨r, random, rfl, rfl⟩ := newTasks_cases peers run
  simp only [startAt_eq] at random ⊢
  -- the rounds start from the state with its history expired
  set s₀ : DialState := { s with start := some (s.start.getD now), hist := s.hist.expire now }
  set need₀ := s₀.dynNeed peers
  have wf₀ : s₀.StaticWF := ⟨wf.keyed, wf.nodup⟩
  have fits₀ : Fits peers s₀ need₀ ⟨s₀, [], need₀⟩ := Fits.init nodup
  obtain ⟨fits₁, fates₁⟩ := fits_staticDials wf₀ fits₀ rfl
  obtain ⟨fits₂, grows₂⟩ := fits_bootDial fits₁ now
  obtain ⟨fits₃, grows₃⟩ := fits_randomDials fits₂ random
  obtain ⟨fits₄, grows₄⟩ := fits_lookupDials fits₃
  have grows := grows₂.trans (grows₃.trans grows₄)
  obtain ⟨dialing, hist, static, maxDyn, self, netrestrict⟩ := discoverStep_frame (lookupDials peers r)
  refine ⟨?_, ?_, ?_, ?_, ?_, ?_, ?_, ?_, ?_, ?_, ?_⟩
  · rw [dialing, fits₄.dialing, finish_dialEntries]
  · rw [dialing]
    exact fits₄.nodup
  · intro d mem
    have dialed : Task.dial d ∈ (lookupDials peers r).newtasks := by
      rcases mem_finish mem with found | other | ⟨_, other⟩
      · exact found
      · cases other
      · cases other
    obtain ⟨d', same, pass⟩ := fits₄.dials _ dialed
    cases same
    exact (checkDial_eq_none peers).mp pass
  · rw [hist, fits₄.hist]
  · exact finish_lookup fits₄ nRunning now
  · rw [maxDyn, fits₄.maxDynDials]
  · rw [self, fits₄.self]
  · rw [netrestrict, fits₄.netrestrict]
  · rw [static]
    exact fits₄.static
  · intro e mem
    refine (fates₁ e mem).grow ?_ ?_ (fun _ dialed => ?_) ?_
    · rw [static, grows.static]
      exact id
    · rw [static, grows.static]
      exact id
    · rw [dialing]
      exact fits₁.contains_grow fits₄ grows dialed
    · rw [hist, fits₄.hist, fits₁.hist]
  · have budget := fits₄.budget
    have floor := fits₄.floor
    have need : need₀ = (s.maxDynDials : Int) - dynCount peers - dynCount s.dialing := rfl
    have before : dynCount s₀.dialing = dynCount s.dialing := rfl
    rw [dialing]
    rw [before] at budget
    omega

/-! ### When `newTasks` panics

It reads random nodes from the table only for a need of two or more, and a nil table panics
there; the buffer it reads is what the table filled. -/

/-- `ReadRandomNodes` as the table answers it: the count it returns is of entries at the start of
the buffer that hold nodes. -/
def Fills (readRandomNodes : List (Option Node) → Nat × List (Option Node)) : Prop :=
  ∀ buf, ∀ i < (readRandomNodes buf).1, ∃ n, (readRandomNodes buf).2[i]? = some (some n)

/-- The rounds before the random one leave the table alone and never raise the need. -/
theorem staticDial_frame (r : Round) (e : NodeID × DialTask) :
    (staticDial peers r e).state.self = r.state.self ∧ (staticDial peers r e).needDynDials = r.needDynDials := by
  rcases staticDial_cases peers r e with ⟨step, -⟩ | ⟨step, -⟩ | ⟨step, -⟩ <;> rw [step] <;> exact ⟨rfl, rfl⟩

theorem dynDial_frame (r : Round) (n : Node) :
    (dynDial peers r n).state.self = r.state.self ∧ (dynDial peers r n).needDynDials ≤ r.needDynDials := by
  unfold dynDial addDial
  split <;> simp

theorem bootDial_frame (now : Time) (r : Round) :
    (bootDial peers now r).state.self = r.state.self ∧ (bootDial peers now r).needDynDials ≤ r.needDynDials := by
  unfold bootDial
  split
  · split
    · exact dynDial_frame ..
    · exact ⟨rfl, le_refl _⟩
  · exact ⟨rfl, le_refl _⟩

variable (peers) in
theorem randomDials_ok {r : Round} {readRandomNodes : List (Option Node) → Nat × List (Option Node)}
    (table : r.state.self.isSome = true ∨ r.needDynDials < 2) (fills : Fills readRandomNodes) :
    ∃ r', randomDials peers readRandomNodes r = .ok r' := by
  dsimp only [randomDials]
  split_ifs with pos
  · obtain ⟨-, half⟩ := tdiv_two_of_pos pos
    split
    · next none =>
      rw [none] at table
      simp only [Option.isSome_none, Bool.false_eq_true, false_or] at table
      omega
    · apply Loop.foldlM_invariant _ (fun _ _ => True) _ _ trivial |>.imp fun _ found => found.1
      intro done i rest acc whole _
      have inRange : i ∈ List.range _ := whole ▸ List.mem_append_right done List.mem_cons_self
      rw [List.mem_range] at inRange
      obtain ⟨n, read⟩ := fills _ i (lt_of_lt_of_le inRange (min_le_right _ _))
      exact ⟨dynDial peers acc n, by simp [randomDial, read], trivial⟩
  · exact ⟨r, rfl⟩

section Call

variable {s s' : DialState} {nRunning : Nat} {now : Time}
  {readRandomNodes : List (Option Node) → Nat × List (Option Node)} {nt : List Task}

/-- A dialer with nothing to dial and one node in its history sets a timer for the node's expiry. -/
theorem newTasks_waiting :
    { newDialState [] [] none 0 none with hist := [⟨[1], 100⟩] }.newTasks [] 0 5 (fun buf => (0, buf)) =
      .ok ({ newDialState [] [] none 0 none with hist := [⟨[1], 100⟩], start := some 5 }, [.waitExpire 95]) := by
  simp [newTasks, newDialState, DialHistory.expire, startAt, randomDials, bootDial, lookupDials, lookupLoop,
    discoverStep, waitStep, dynNeed, dynCount]

theorem waiting_staticWF : StaticWF { newDialState [] [] none 0 none with hist := [⟨[1], 100⟩] } :=
  ⟨fun _ mem => absurd mem List.not_mem_nil, List.nodup_nil⟩

/-- The first call of a dialer with one static node dials it. -/
theorem newTasks_static_node :
    (newDialState [⟨[10], [3]⟩] [] (some [1]) 0 none).newTasks [] 0 5 (fun buf => (0, buf)) =
      .ok ({ newDialState [⟨[10], [3]⟩] [] (some [1]) 0 none with dialing := [([3], 2)], start := some 5 },
        [.dial ⟨2, ⟨[10], [3]⟩⟩]) := by
  simp [newTasks, newDialState, DialHistory.expire, startAt, randomDials, bootDial, lookupDials, lookupLoop,
    discoverStep, waitStep, dynNeed, dynCount, addStatic, staticDial, checkDial, Table.set, Table.contains, Table.get,
    whitelisted, DialHistory.contains, staticDialedConn]

/-- Every dial a call returns is to a node that is not being dialed, not connected, not the local
node, on the whitelist and not in the history once it expired; `dialing` gains one entry for
each, and still has one entry per node. -/
theorem newTasks_dials_checked (wf : s.StaticWF) (nodup : s.dialing.keys.Nodup)
    (run : s.newTasks peers nRunning now readRandomNodes = .ok (s', nt)) :
    (∀ d, .dial d ∈ nt →
        s.dialing.contains d.dest.id = false ∧ peers.contains d.dest.id = false ∧ s.self ≠ some d.dest.id ∧
          s.whitelisted d.dest = true ∧ (s.hist.expire now).contains d.dest.id = false) ∧
      s'.dialing = s.dialing ++ nt.filterMap Task.dialEntry ∧ s'.dialing.keys.Nodup := by
  have out := newTasks_outcome wf nodup run
  exact ⟨out.dials, out.dialing, out.nodup⟩

theorem newTasks_dials_checked_static :
    let s : DialState := newDialState [⟨[10], [3]⟩] [] (some [1]) 0 none
    let s' : DialState := { s with dialing := [([3], 2)], start := some 5 }
    (∀ d, .dial d ∈ [Task.dial ⟨2, ⟨[10], [3]⟩⟩] →
        s.dialing.contains d.dest.id = false ∧ Table.contains ([] : Table NodeID ConnFlag) d.dest.id = false ∧
          s.self ≠ some d.dest.id ∧ s.whitelisted d.dest = true ∧ (s.hist.expire 5).contains d.dest.id = false) ∧
      s'.dialing = s.dialing ++ [Task.dial ⟨2, ⟨[10], [3]⟩⟩].filterMap Task.dialEntry ∧ s'.dialing.keys.Nodup :=
  newTasks_dials_checked (staticWF_newDialState [⟨[10], [3]⟩] [] (some [1]) 0 none) List.nodup_nil
    newTasks_static_node

/-- A static node after a call is still configured and connected, being dialed or recently
dialed; or it has been dropped, and it is the local node or off the whitelist. -/
theorem newTasks_static_fate (wf : s.StaticWF) (nodup : s.dialing.keys.Nodup)
    (run : s.newTasks peers nRunning now readRandomNodes = .ok (s', nt)) :
    ∀ e ∈ s.static,
      (e ∈ s'.static ∧ (s'.dialing.contains e.1 = true ∨ peers.contains e.1 = true ∨ s'.hist.contains e.1 = true)) ∨
        (e ∉ s'.static ∧ (s.self = some e.1 ∨ s.whitelisted e.2.dest = false)) :=
  (newTasks_outcome wf nodup run).fates

theorem newTasks_static_fate_static :
    let s : DialState := newDialState [⟨[10], [3]⟩] [] (some [1]) 0 none
    let s' : DialState := { s with dialing := [([3], 2)], start := some 5 }
    let e : NodeID × DialTask := ([3], ⟨2, ⟨[10], [3]⟩⟩)
    (e ∈ s'.static ∧ (s'.dialing.contains e.1 = true ∨ Table.contains ([] : Table NodeID ConnFlag) e.1 = true ∨
          s'.hist.contains e.1 = true)) ∨
        (e ∉ s'.static ∧ (s.self = some e.1 ∨ s.whitelisted e.2.dest = false)) :=
  newTasks_static_fate (staticWF_newDialState [⟨[10], [3]⟩] [] (some [1]) 0 none) List.nodup_nil
    newTasks_static_node _ (by decide)

end Call

end DialState

end Mjoy.P2p
