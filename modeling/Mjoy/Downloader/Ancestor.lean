import Mathlib.Data.Nat.Log
import Mjoy.Downloader.Queue

/-!
`Downloader.findAncestor` (`node/services/mjoy/downloader/downloader.go`): the search for the
block where the local chain and a peer's chain part. A head sweep asks for every 16th header
from `head - MaxHeaderFetch` on and takes the last one known locally; when there is none, a
binary search over the local chain between the floor and the head asks for one header at a
time.

Each request is answered by the peer `peer`, a function of the request: `findAncestor` never
asks the same thing twice, so every behaviour of a peer, lying or not, is one such function.
A wait ends with the sync cancelled, the peer's headers, or the timeout; packets of other
peers and late body or receipt deliveries are dropped while waiting, as in the source. The
run returns the requests it made with its result. The `int64` conversions of block numbers
are exact here: numbers stay below `2^63`.
-/

namespace Mjoy.Downloader

/-- Amount of block headers to be fetched per retrieval request. -/
def maxHeaderFetch : Nat := 192

/-- `params.EpochDuration`. -/
def epochDuration : Nat := 30000

/-- Maximum chain reorganisation. -/
def maxForkAncestry : Nat := 3 * epochDuration

def errBadPeer : String := "action from bad peer ignored"
def errStallingPeer : String := "peer is stalling"
def errTimeout : String := "timeout"
def errEmptyHeaderSet : String := "empty header set by peer"
def errInvalidAncestor : String := "retrieved ancestor is invalid"
def errCancelHeaderFetch : String := "block header download canceled (requested)"

/-- The panic of `header.Number` when `GetHeaderByHash` finds no header. -/
def errNilHeader : String := "runtime error: invalid memory address or nil pointer dereference"

/-- `RequestHeadersByNumber(origin, amount, skip, reverse)`. -/
structure Request where
  origin : Nat
  amount : Nat
  skip : Nat
  reverse : Bool
deriving DecidableEq, Repr

/-- How a wait for the origin peer's headers ends. -/
inductive Answer where
  | cancelled
  | headers (hs : List Header)
  | timedOut

/-- What `findAncestor` reads of the local node: the sync mode, the heads of the header chain
and of the block chain, and the lookups it makes. -/
structure Local where
  mode : SyncMode
  currentHeader : Nat
  currentBlock : Nat
  currentFastBlock : Nat
  hasBlockAndState : Hash → Bool
  hasHeader : Hash → Nat → Bool
  getHeaderByHash : Hash → Option Header

-- Equation lemmas of the definitions above, made once here rather than by the proofs below
-- that unfold them in parallel.
section
attribute [local simp] maxHeaderFetch
end

namespace Local

/-- The local head for the sync mode. -/
def ceil (l : Local) : Nat :=
  match l.mode with
  | .fullSync => l.currentBlock
  | .fastSync => l.currentFastBlock
  | .lightSync => l.currentHeader

/-- The lowest block an ancestor may not be, to prevent rewrite attacks: `-1` while the chain is
shorter than `MaxForkAncestry`. -/
def floor (l : Local) : Int :=
  if maxForkAncestry ≤ l.ceil then ((l.ceil - maxForkAncestry : Nat) : Int) else -1

/-- A full sync knows a header by its block and state, the other modes by the header itself. -/
def knows (l : Local) (h : Header) : Bool :=
  match l.mode with
  | .fullSync => l.hasBlockAndState h.hash
  | _ => l.hasHeader h.hash h.number

/-- `head`: the local head, or the peer's when it is lower. -/
def head (l : Local) (height : Nat) : Nat :=
  min l.ceil height

/-- `from`: `MaxHeaderFetch` below the head, or the genesis. -/
def sweepFrom (l : Local) (height : Nat) : Nat :=
  l.head height - maxHeaderFetch

/-- `limit`: the head sweep spans twice `MaxHeaderFetch` in steps of 16. -/
def sweepLimit : Nat := 2 * maxHeaderFetch / 16

/-- `count`: every 16th header from `from` up to the local head, at most `limit` of them. -/
def sweepCount (l : Local) (height : Nat) : Nat :=
  min (1 + (l.ceil - l.sweepFrom height) / 16) sweepLimit

/-- The loop of the head sweep, `for i := len(headers) - 1; i >= 0; i--`, from `i - 1` down: the
first header in the requested range that is known locally, with its index. -/
def scanKnown (l : Local) (fromN : Nat) (headers : List Header) : Nat → Option (Header × Nat)
  | 0 => none
  | i + 1 =>
      match headers[i]? with
      | none => none
      | some h =>
          if h.number < fromN ∨ l.ceil < h.number then l.scanKnown fromN headers i
          else if l.knows h then some (h, i)
          else l.scanKnown fromN headers i

section
attribute [local simp] floor knows head sweepFrom scanKnown
end

end Local

/-- The binary search, `for start+1 < end`: a known header at `check` moves `start` up to it, an
unknown one moves the end down. -/
def bisect (l : Local) (peer : Request → Answer) (start stop : Nat) : List Request × Except String Nat :=
  if start + 1 < stop then
    let check := (start + stop) / 2
    let req : Request := ⟨check, 1, 0, false⟩
    match peer req with
    | .cancelled => ([req], .error errCancelHeaderFetch)
    | .timedOut => ([req], .error errTimeout)
    | .headers [h] =>
        if !l.knows h then
          let (reqs, found) := bisect l peer start check
          (req :: reqs, found)
        else
          match l.getHeaderByHash h.hash with
          | none => ([req], .error errNilHeader)
          | some header =>
              if header.number ≠ check then ([req], .error errBadPeer)
              else
                let (reqs, found) := bisect l peer check stop
                (req :: reqs, found)
    | .headers _ => ([req], .error errBadPeer)
  else ([], .ok start)
termination_by stop - start
decreasing_by all_goals omega

/-- The binary search from the floor, or the genesis, to the head, and the check that the
ancestor it finds is above the floor. -/
def searchAncestor (l : Local) (peer : Request → Answer) (height : Nat) : List Request × Except String Nat :=
  let start := if 0 < l.floor then l.floor.toNat else 0
  let (reqs, found) := bisect l peer start (l.head height)
  (reqs, found.bind fun start => if (start : Int) ≤ l.floor then .error errInvalidAncestor else .ok start)

/-- `findAncestor(p, height)`: the requests made to the peer, and the common ancestor found or
the error. -/
def findAncestor (l : Local) (peer : Request → Answer) (height : Nat) : List Request × Except String Nat :=
  let fromN := l.sweepFrom height
  let req : Request := ⟨fromN, l.sweepCount height, 15, false⟩
  match peer req with
  | .cancelled => ([req], .error errCancelHeaderFetch)
  | .timedOut => ([req], .error errTimeout)
  | .headers headers =>
      if headers = [] then ([req], .error errEmptyHeaderSet)
      else if ¬ ∀ i (lt : i < headers.length), headers[i].number = fromN + i * 16 then
        ([req], .error errInvalidChain)
      else
        match l.scanKnown fromN headers headers.length with
        | some (h, i) =>
            -- every header known, even one past the head the peer reported: it lied
            if height < h.number ∧ i = Local.sweepLimit - 1 then ([req], .error errStallingPeer)
            else if h.hash ≠ zeroHash then
              ([req], if (h.number : Int) ≤ l.floor then .error errInvalidAncestor else .ok h.number)
            else
              let (reqs, found) := searchAncestor l peer height
              (req :: reqs, found)
        | none =>
            let (reqs, found) := searchAncestor l peer height
            (req :: reqs, found)


/-- A peer that answers every request by number from its chain of height `height`, as the
`GetBlockHeadersMsg` handler does: the header at `origin`, then every `skip + 1`-th one on, up or
down, for as long as the chain has them. -/
def honest (chain : Nat → Header) (height : Nat) (req : Request) : Answer :=
  if req.reverse then
    let available := if req.origin ≤ height then req.origin / (req.skip + 1) + 1 else 0
    .headers ((List.range (min req.amount available)).map fun i => chain (req.origin - i * (req.skip + 1)))
  else
    let available := if req.origin ≤ height then (height - req.origin) / (req.skip + 1) + 1 else 0
    .headers ((List.range (min req.amount available)).map fun i => chain (req.origin + i * (req.skip + 1)))

section
attribute [local simp] bisect searchAncestor findAncestor honest
end

/-! ### The binary search -/

theorem clog_two_of_half {width w : Nat} (wide : 2 ≤ width) (half : w ≤ (width + 1) / 2) :
    Nat.clog 2 w + 1 ≤ Nat.clog 2 width := by
  have recurrence : Nat.clog 2 width = Nat.clog 2 ((width + 1) / 2) + 1 := by
    simpa using Nat.clog_of_two_le (b := 2) (n := width) (by decide) wide
  rw [recurrence]
  exact Nat.add_le_add_right (Nat.clog_mono_right 2 half) 1

section Search

variable (l : Local) (peer : Request → Answer)

/-- One round of the binary search: it asks for the header at `check`, and fails, or goes on
below `check` after an unknown header, or above it after a known one that the local chain has
at `check`. -/
theorem bisect_round {start stop : Nat} (wide : start + 1 < stop) :
    (∃ e, bisect l peer start stop = ([⟨(start + stop) / 2, 1, 0, false⟩], .error e)) ∨
    (∃ h, peer ⟨(start + stop) / 2, 1, 0, false⟩ = .headers [h] ∧ l.knows h = false ∧
      bisect l peer start stop = (⟨(start + stop) / 2, 1, 0, false⟩ :: (bisect l peer start ((start + stop) / 2)).1,
        (bisect l peer start ((start + stop) / 2)).2)) ∨
    (∃ h header, peer ⟨(start + stop) / 2, 1, 0, false⟩ = .headers [h] ∧ l.knows h = true ∧
      l.getHeaderByHash h.hash = some header ∧ header.number = (start + stop) / 2 ∧
      bisect l peer start stop = (⟨(start + stop) / 2, 1, 0, false⟩ :: (bisect l peer ((start + stop) / 2) stop).1,
        (bisect l peer ((start + stop) / 2) stop).2)) := by
  rw [bisect, if_pos wide]
  dsimp only
  split
  · exact .inl ⟨_, rfl⟩
  · exact .inl ⟨_, rfl⟩
  · rename_i h answer
    by_cases known : l.knows h = true
    · rw [if_neg (by simp [known])]
      split
      · exact .inl ⟨_, rfl⟩
      · rename_i header found
        split_ifs with numbered
        · exact .inl ⟨_, rfl⟩
        · exact .inr (.inr ⟨h, header, answer, known, found, by simpa using numbered, rfl⟩)
    · rw [if_pos (by simpa using known)]
      exact .inr (.inl ⟨h, answer, by simpa using known, rfl⟩)
  · exact .inl ⟨_, rfl⟩

theorem bisect_stop {start stop : Nat} (narrow : ¬ start + 1 < stop) : bisect l peer start stop = ([], .ok start) := by
  rw [bisect, if_neg narrow]

/-- A round that gets an unknown header goes on below `check`. -/
theorem bisect_below {start stop : Nat} (wide : start + 1 < stop) {h : Header}
    (answer : peer ⟨(start + stop) / 2, 1, 0, false⟩ = .headers [h]) (unknown : l.knows h = false) :
    bisect l peer start stop = (⟨(start + stop) / 2, 1, 0, false⟩ :: (bisect l peer start ((start + stop) / 2)).1,
      (bisect l peer start ((start + stop) / 2)).2) := by
  rw [bisect, if_pos wide]
  simp only [answer, unknown, Bool.not_false, if_true]

/-- A round that gets a known header, held locally at `check`, goes on above it. -/
theorem bisect_above {start stop : Nat} (wide : start + 1 < stop) {h header : Header}
    (answer : peer ⟨(start + stop) / 2, 1, 0, false⟩ = .headers [h]) (known : l.knows h = true)
    (held : l.getHeaderByHash h.hash = some header) (atCheck : header.number = (start + stop) / 2) :
    bisect l peer start stop = (⟨(start + stop) / 2, 1, 0, false⟩ :: (bisect l peer ((start + stop) / 2) stop).1,
      (bisect l peer ((start + stop) / 2) stop).2) := by
  rw [bisect, if_pos wide]
  simp only [answer, known, held, atCheck, Bool.not_true, Bool.false_eq_true, ne_eq, not_true_eq_false, if_false]

/-- Each round at least halves the interval, so the search asks at most `⌈log₂ (end - start)⌉`
times. -/
theorem bisect_length (start stop : Nat) : (bisect l peer start stop).1.length ≤ Nat.clog 2 (stop - start) := by
  induction hwidth : stop - start using Nat.strong_induction_on generalizing start stop with
  | h width ih =>
      by_cases wide : start + 1 < stop
      · rcases bisect_round l peer wide with ⟨e, ended⟩ | ⟨h, -, -, below⟩ | ⟨h, header, -, -, -, -, above⟩
        · rw [ended]
          simpa using clog_two_of_half (w := 0) (by omega) (Nat.zero_le _)
        · rw [below, List.length_cons]
          have rest := ih _ (by omega) start ((start + stop) / 2) rfl
          exact (Nat.add_le_add_right rest 1).trans (clog_two_of_half (by omega) (by omega))
        · rw [above, List.length_cons]
          have rest := ih _ (by omega) ((start + stop) / 2) stop rfl
          exact (Nat.add_le_add_right rest 1).trans (clog_two_of_half (by omega) (by omega))
      · rw [bisect_stop l peer wide]
        exact Nat.zero_le _

/-- Whatever the peer answers, the search ends where it started, or on a block inside the interval
that the peer sent a header for and that the local chain holds at that number. -/
theorem bisect_found (start stop : Nat) {r : Nat} (found : (bisect l peer start stop).2 = .ok r) :
    r = start ∨ start < r ∧ r < stop ∧ ∃ req ∈ (bisect l peer start stop).1, ∃ h header,
      peer req = .headers [h] ∧ l.knows h = true ∧ l.getHeaderByHash h.hash = some header ∧ header.number = r := by
  induction hwidth : stop - start using Nat.strong_induction_on generalizing start stop with
  | h width ih =>
      by_cases wide : start + 1 < stop
      · rcases bisect_round l peer wide with ⟨e, ended⟩ | ⟨h, -, -, below⟩ | ⟨h, header, answer, known, held, atCheck, above⟩
        · rw [ended] at found
          cases found
        · -- an unknown header: the search goes on below `check`
          rw [below] at found ⊢
          rcases ih _ (by omega) start ((start + stop) / 2) found rfl with same | ⟨lower, upper, req, member, rest⟩
          · exact .inl same
          · exact .inr ⟨lower, by omega, req, List.mem_cons_of_mem _ member, rest⟩
        · -- a known header at `check`: the search goes on above it
          rw [above] at found ⊢
          rcases ih _ (by omega) ((start + stop) / 2) stop found rfl with same | ⟨lower, upper, req, member, rest⟩
          · subst same
            exact .inr ⟨by omega, by omega, _, List.mem_cons_self, h, header, answer, known, held, atCheck⟩
          · exact .inr ⟨by omega, upper, req, List.mem_cons_of_mem _ member, rest⟩
      · rw [bisect_stop l peer wide] at found
        cases found
        exact .inl rfl

end Search


/-! ### The head sweep -/

/-- The scan finds only a header of the reply, in the requested range and known locally. -/
theorem scanKnown_some (l : Local) {fromN : Nat} {headers : List Header} :
    ∀ {j : Nat} {h : Header} {i : Nat}, l.scanKnown fromN headers j = some (h, i) →
      headers[i]? = some h ∧ fromN ≤ h.number ∧ h.number ≤ l.ceil ∧ l.knows h = true
  | 0, _, _, found => by cases found
  | j + 1, h, i, found => by
      simp only [Local.scanKnown] at found
      split at found
      · cases found
      · rename_i g entry
        split_ifs at found with outside known
        · exact scanKnown_some l found
        · simp only [Option.some.injEq, Prod.mk.injEq] at found
          obtain ⟨rfl, rfl⟩ := found
          exact ⟨entry, by omega, by omega, known⟩
        · exact scanKnown_some l found

/-- The scan over the probes `from + 16 i` that a peer known up to `a` returns: from index `j - 1`
down, the last probe at or below `a`. -/
theorem scanKnown_probes (l : Local) (chain : Nat → Header) {fromN k a : Nat}
    (numbered : ∀ n, (chain n).number = n) (inRange : ∀ i < k, fromN + i * 16 ≤ l.ceil)
    (knowsProbe : ∀ i < k, l.knows (chain (fromN + i * 16)) = decide (fromN + i * 16 ≤ a)) :
    ∀ j ≤ k, l.scanKnown fromN ((List.range k).map fun i => chain (fromN + i * 16)) j =
      if fromN ≤ a ∧ 0 < j then
        some (chain (fromN + min (j - 1) ((a - fromN) / 16) * 16), min (j - 1) ((a - fromN) / 16))
      else none
  | 0, _ => by simp [Local.scanKnown]
  | j + 1, bound => by
      have entry : ((List.range k).map fun i => chain (fromN + i * 16))[j]? = some (chain (fromN + j * 16)) := by
        simp [List.getElem?_range (by omega : j < k)]
      have inside := inRange j (by omega)
      simp only [Local.scanKnown, entry, numbered]
      rw [if_neg (by omega)]
      by_cases probeKnown : fromN + j * 16 ≤ a
      · -- the probe is known: the scan stops here
        rw [if_pos (by rw [knowsProbe j (by omega)]; simpa using probeKnown), if_pos ⟨by omega, by omega⟩]
        have last : min (j + 1 - 1) ((a - fromN) / 16) = j := by omega
        rw [last]
      · -- the probe is past `a`: the scan goes on below it
        rw [if_neg (by rw [knowsProbe j (by omega)]; simpa using probeKnown),
          scanKnown_probes l chain numbered inRange knowsProbe j (by omega)]
        by_cases reached : fromN ≤ a
        · have same : min (j - 1) ((a - fromN) / 16) = min (j + 1 - 1) ((a - fromN) / 16) := by omega
          rw [if_pos ⟨reached, by omega⟩, if_pos ⟨reached, by omega⟩, same]
        · rw [if_neg (by omega), if_neg (by omega)]

/-! ### Whatever the peer answers -/

section AnyPeer

variable (l : Local) (peer : Request → Answer) (height : Nat)

/-- `start`: the floor, or the genesis while the floor is not above it. -/
theorem searchStart_eq : (if 0 < l.floor then l.floor.toNat else 0) + maxForkAncestry ≥ l.ceil := by
  unfold Local.floor
  split_ifs <;> omega

theorem searchAncestor_length : (searchAncestor l peer height).1.length ≤ Nat.clog 2 (maxForkAncestry + 1) := by
  have searched := bisect_length l peer (if 0 < l.floor then l.floor.toNat else 0) (l.head height)
  have wide : l.head height - (if 0 < l.floor then l.floor.toNat else 0) ≤ maxForkAncestry + 1 := by
    have := searchStart_eq l
    unfold Local.head
    omega
  exact searched.trans (Nat.clog_mono_right 2 wide)

/-- The sweep asks once, and the binary search at most `⌈log₂ (MaxForkAncestry + 1)⌉` times. -/
theorem findAncestor_requests : (findAncestor l peer height).1.length ≤ 1 + Nat.clog 2 (maxForkAncestry + 1) := by
  have searched := searchAncestor_length l peer height
  unfold findAncestor
  dsimp only
  generalize peer ⟨l.sweepFrom height, l.sweepCount height, 15, false⟩ = reply
  cases reply with
  | cancelled => simp
  | timedOut => simp
  | headers headers =>
      dsimp only
      by_cases empty : headers = []
      · simp [empty]
      rw [if_neg empty]
      by_cases ordered : ∀ i (lt : i < headers.length), headers[i].number = l.sweepFrom height + i * 16
      · rw [if_neg (not_not.mpr ordered)]
        cases l.scanKnown (l.sweepFrom height) headers headers.length with
        | none =>
            simp only [List.length_cons]
            omega
        | some p =>
            obtain ⟨h, i⟩ := p
            dsimp only
            split_ifs <;> simp only [List.length_cons, List.length_nil] <;> omega
      · simp [ordered]

theorem searchAncestor_found {n : Nat} (found : (searchAncestor l peer height).2 = .ok n) :
    l.floor < n ∧ n ≤ l.ceil ∧
      ((∃ req ∈ (searchAncestor l peer height).1, ∃ h header, peer req = .headers [h] ∧ l.knows h = true ∧
          l.getHeaderByHash h.hash = some header ∧ header.number = n) ∨ (n = 0 ∧ l.floor < 0)) := by
  unfold searchAncestor at found ⊢
  dsimp only at found ⊢
  cases searched : (bisect l peer (if 0 < l.floor then l.floor.toNat else 0) (l.head height)).2 with
  | error e =>
      rw [searched] at found
      cases found
  | ok r =>
      rw [searched] at found
      simp only [Except.bind] at found
      split_ifs at found with below
      rw [Except.ok.injEq] at found
      subst found
      have headBelow : l.head height ≤ l.ceil := Nat.min_le_left _ _
      rcases bisect_found l peer _ _ searched with start | ⟨lower, upper, req, member, rest⟩
      · -- the search never moved: only the genesis is above a floor of `-1`
        refine ⟨by omega, ?_, .inr ?_⟩
        · split_ifs at start <;> omega
        · split_ifs at start with positive
          · omega
          · omega
      · exact ⟨by omega, by omega, .inl ⟨req, member, rest⟩⟩

/-- Whatever the peer answers, a common ancestor that `findAncestor` returns is above the floor
and at most the local head, and it is the number of a header the peer sent that is known
locally, or the genesis when the floor is `-1` and no probe found anything. -/
theorem findAncestor_found {n : Nat} (found : (findAncestor l peer height).2 = .ok n) :
    l.floor < n ∧ n ≤ l.ceil ∧
      ((∃ req ∈ (findAncestor l peer height).1, ∃ hs h, peer req = .headers hs ∧ h ∈ hs ∧ l.knows h = true ∧
          (h.number = n ∨ (l.getHeaderByHash h.hash).map Header.number = some n)) ∨ (n = 0 ∧ l.floor < 0)) := by
  -- the binary search's answer, read as one of `findAncestor`'s
  have searched : (searchAncestor l peer height).2 = .ok n → l.floor < n ∧ n ≤ l.ceil ∧
      ((∃ req ∈ (searchAncestor l peer height).1, ∃ hs h, peer req = .headers hs ∧ h ∈ hs ∧ l.knows h = true ∧
          (h.number = n ∨ (l.getHeaderByHash h.hash).map Header.number = some n)) ∨ (n = 0 ∧ l.floor < 0)) := by
    intro ok
    obtain ⟨above, below, sent | genesis⟩ := searchAncestor_found l peer height ok
    · obtain ⟨req, member, h, header, answer, known, held, atN⟩ := sent
      exact ⟨above, below, .inl ⟨req, member, [h], h, answer, List.mem_singleton_self h, known,
        .inr (by rw [held, Option.map_some, atN])⟩⟩
    · exact ⟨above, below, .inr genesis⟩
  unfold findAncestor at found ⊢
  dsimp only at found ⊢
  generalize answer : peer ⟨l.sweepFrom height, l.sweepCount height, 15, false⟩ = reply at found ⊢
  cases reply with
  | cancelled => cases found
  | timedOut => cases found
  | headers headers =>
      dsimp only at found ⊢
      by_cases empty : headers = []
      · rw [if_pos empty] at found
        cases found
      rw [if_neg empty] at found ⊢
      by_cases ordered : ∀ i (lt : i < headers.length), headers[i].number = l.sweepFrom height + i * 16
      · rw [if_neg (not_not.mpr ordered)] at found ⊢
        cases scan : l.scanKnown (l.sweepFrom height) headers headers.length with
        | none =>
            rw [scan] at found
            dsimp only at found ⊢
            obtain ⟨above, below, sent | genesis⟩ := searched found
            · obtain ⟨req, member, rest⟩ := sent
              exact ⟨above, below, .inl ⟨req, List.mem_cons_of_mem _ member, rest⟩⟩
            · exact ⟨above, below, .inr genesis⟩
        | some p =>
            obtain ⟨h, i⟩ := p
            rw [scan] at found
            dsimp only at found ⊢
            obtain ⟨entry, -, belowCeil, known⟩ := scanKnown_some l scan
            -- a stalling answer and a probe at or below the floor fail, which split_ifs discards
            split_ifs at found ⊢ with stalling nonzero atFloor
            · rw [Except.ok.injEq] at found
              subst found
              exact ⟨by omega, belowCeil, .inl ⟨_, List.mem_singleton_self _, headers, h, answer,
                List.mem_of_getElem? entry, known, .inl rfl⟩⟩
            · obtain ⟨above, below, sent | genesis⟩ := searched found
              · obtain ⟨req, member, rest⟩ := sent
                exact ⟨above, below, .inl ⟨req, List.mem_cons_of_mem _ member, rest⟩⟩
              · exact ⟨above, below, .inr genesis⟩
      · rw [if_pos ordered] at found
        cases found

end AnyPeer

/-! ### An honest peer -/

/-- The honest answer to a request for one header the peer has. -/
theorem honest_single (chain : Nat → Header) {height check : Nat} (has : check ≤ height) :
    honest chain height ⟨check, 1, 0, false⟩ = .headers [chain check] := by
  simp [honest, has]

/-- The honest answer to the head sweep: every 16th header from `fromN`, as far as the chain goes. -/
theorem honest_sweep (chain : Nat → Header) {height fromN : Nat} (count : Nat) (has : fromN ≤ height) :
    honest chain height ⟨fromN, count, 15, false⟩ =
      .headers ((List.range (min count ((height - fromN) / 16 + 1))).map fun i => chain (fromN + i * 16)) := by
  simp [honest, has]

/-- A peer's chain of height `height` that agrees with the local node on the blocks `0..a` and on no
block above: the local node knows a header of it exactly when it is numbered at most `a`, and holds
those headers. -/
structure Agrees (l : Local) (chain : Nat → Header) (height a : Nat) : Prop where
  numbered : ∀ n, (chain n).number = n
  hashed : ∀ n, (chain n).hash ≠ zeroHash
  shared : a ≤ height
  belowHead : a ≤ l.ceil
  knows : ∀ n ≤ height, l.knows (chain n) = decide (n ≤ a)
  lookup : ∀ n ≤ a, l.getHeaderByHash (chain n).hash = some (chain n)

/-- Where an honest peer leads the search when the two chains agree up to `a`: the last probe of the
head sweep at or below `a`, or `a` itself when every probe is above it. -/
def Local.probedAncestor (l : Local) (height a : Nat) : Nat :=
  if l.sweepFrom height ≤ a then l.sweepFrom height + (a - l.sweepFrom height) / 16 * 16 else a

section
attribute [local simp] Local.probedAncestor
end

section Honest

variable {l : Local} {chain : Nat → Header} {height a : Nat}

/-- Against an honest peer the binary search keeps "`start` is common, the end is not", and ends
on the last common block, or on `start` when that is above it. -/
theorem bisect_honest (agrees : Agrees l chain height a) (start stop : Nat) (below : stop ≤ height + 1)
    (reaches : a < stop) : (bisect l (honest chain height) start stop).2 = .ok (max start a) := by
  induction hwidth : stop - start using Nat.strong_induction_on generalizing start stop with
  | h width ih =>
      by_cases wide : start + 1 < stop
      · have answer := honest_single chain (by omega : (start + stop) / 2 ≤ height)
        by_cases common : (start + stop) / 2 ≤ a
        · have known : l.knows (chain ((start + stop) / 2)) = true := by
            rw [agrees.knows _ (by omega)]
            exact decide_eq_true common
          rw [bisect_above l _ wide answer known (agrees.lookup _ common) (agrees.numbered _),
            ih _ (by omega) _ stop below reaches rfl]
          congr 1
          omega
        · have unknown : l.knows (chain ((start + stop) / 2)) = false := by
            rw [agrees.knows _ (by omega)]
            exact decide_eq_false common
          rw [bisect_below l _ wide answer unknown]
          exact ih _ (by omega) start _ (by omega) (by omega) rfl
      · rw [bisect_stop l _ wide, Except.ok.injEq]
        omega

/-- When the head sweep finds nothing, the binary search from the floor ends on `a`, which must
still be above the floor. -/
theorem searchAncestor_honest (agrees : Agrees l chain height a) (reaches : a < l.head height) :
    (searchAncestor l (honest chain height) height).2 =
      if (a : Int) ≤ l.floor then .error errInvalidAncestor else .ok a := by
  have headBelow : l.head height ≤ height := Nat.min_le_right _ _
  unfold searchAncestor
  dsimp only
  rw [bisect_honest agrees _ _ (by omega) reaches]
  simp only [Except.bind]
  -- the search starts on the floor when that is positive, so it ends above the floor just when `a` is
  by_cases low : (a : Int) ≤ l.floor
  · rw [if_pos low, if_pos (by split_ifs <;> omega)]
  · have onA : max (if 0 < l.floor then l.floor.toNat else 0) a = a := by split_ifs <;> omega
    rw [if_neg low, onA, if_neg low]

/-- Against an honest peer `findAncestor` returns the last probe of the head sweep at or below the
last common block `a`, or `a` itself when the sweep finds nothing, and fails when that is not above
the floor. -/
theorem findAncestor_honest (agrees : Agrees l chain height a) :
    (findAncestor l (honest chain height) height).2 =
      if (l.probedAncestor height a : Int) ≤ l.floor then .error errInvalidAncestor
      else .ok (l.probedAncestor height a) := by
  have aHead : a ≤ l.head height := le_min agrees.belowHead agrees.shared
  have headCeil : l.head height ≤ l.ceil := Nat.min_le_left _ _
  have headHeight : l.head height ≤ height := Nat.min_le_right _ _
  -- the sweep starts at most `MaxHeaderFetch` below the head and makes at least one probe, none
  -- past the local head
  have span : l.sweepFrom height ≤ l.head height ∧ l.head height ≤ l.sweepFrom height + 192 := by
    unfold Local.sweepFrom maxHeaderFetch
    omega
  have counted : l.sweepCount height = min (1 + (l.ceil - l.sweepFrom height) / 16) 24 := rfl
  unfold findAncestor Local.probedAncestor
  dsimp only
  rw [honest_sweep chain _ (by omega)]
  dsimp only
  generalize l.sweepFrom height = fromN at *
  generalize kDef : min (l.sweepCount height) ((height - fromN) / 16 + 1) = k
  have inRange : ∀ i < k, fromN + i * 16 ≤ l.ceil := by
    intro i lt
    omega
  have knowsProbe : ∀ i < k, l.knows (chain (fromN + i * 16)) = decide (fromN + i * 16 ≤ a) := by
    intro i lt
    exact agrees.knows _ (by omega)
  have nonempty : (List.range k).map (fun i => chain (fromN + i * 16)) ≠ [] := by
    simp only [ne_eq, List.map_eq_nil_iff, List.range_eq_nil]
    omega
  have ordered : ∀ i (lt : i < ((List.range k).map fun i => chain (fromN + i * 16)).length),
      ((List.range k).map fun i => chain (fromN + i * 16))[i].number = fromN + i * 16 := by
    intro i lt
    simp [agrees.numbered]
  rw [if_neg nonempty, if_neg (not_not.mpr ordered), List.length_map, List.length_range,
    scanKnown_probes l chain agrees.numbered inRange knowsProbe k le_rfl]
  by_cases reached : fromN ≤ a
  · -- the sweep finds the last probe at or below `a`, a header with a hash
    have last : min (k - 1) ((a - fromN) / 16) = (a - fromN) / 16 := by
      omega
    rw [if_pos ⟨reached, by omega⟩, if_pos reached, last]
    dsimp only
    rw [agrees.numbered, if_neg (by omega), if_pos (agrees.hashed _)]
  · -- every probe is past `a`: the binary search finds it
    rw [if_neg (by omega), if_neg reached]
    exact searchAncestor_honest agrees (by omega)

end Honest

/-! ### The search -/

/-- A chain whose block `n` has the hash `n + 1` ones. -/
def sweepChain (n : Nat) : Header := ⟨List.replicate (n + 1) 1, [], n, [], []⟩

/-- A light client at height 200 that holds the blocks `0..100` of `sweepChain`. -/
def sweepLocal : Local where
  mode := .lightSync
  currentHeader := 200
  currentBlock := 0
  currentFastBlock := 0
  hasBlockAndState := fun _ => false
  hasHeader := fun hash number => decide (number ≤ 100 ∧ hash = (sweepChain number).hash)
  getHeaderByHash := fun hash =>
    if 0 < hash.length ∧ hash.length ≤ 101 ∧ hash = List.replicate hash.length 1 then
      some (sweepChain (hash.length - 1))
    else none

section
attribute [local simp] sweepChain sweepLocal
end

theorem sweepLocal_agrees : Agrees sweepLocal sweepChain 200 100 where
  numbered _ := rfl
  hashed n := by
    intro same
    have heads := congrArg List.head? same
    simp [sweepChain, zeroHash, List.replicate_succ] at heads
  shared := by decide
  belowHead := by decide
  knows n _ := by simp [Local.knows, sweepLocal, sweepChain]
  lookup n low := by
    simp [sweepLocal, sweepChain]
    omega

end Mjoy.Downloader
