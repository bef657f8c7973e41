import Mathlib
import Mjoy.Lib.Table

/-!
Sub-protocol multiplexing of a peer connection (`p2p/peer.go`, `p2p/protocol.go`).
`matchProtocols` runs over the remote caps sorted by name and version and gives each matched
name a range of message codes, `[offset, offset + Length)`, above the base protocol's codes;
a later version of a name already matched takes back the range of the earlier one. `handle`
passes a message with a code above the base protocol's to the protocol whose range holds it
(`getProto`), and `protoRW` moves codes into and out of its range.

The loop is modelled over its picks: the protocols it has matched, one a name in name order,
laid out one after another from `baseProtocolLength` (`layout`). Offsets are `uint64` and wrap.
-/

namespace Mjoy.P2p

structure Protocol where
  name : String
  version : Nat
  /-- The number of message codes used by the protocol. -/
  length : UInt64
  deriving DecidableEq, Repr

structure Cap where
  name : String
  version : Nat
  deriving DecidableEq, Repr

def Protocol.cap (p : Protocol) : Cap := { name := p.name, version := p.version }

/-- `capsByNameAndVersion.Less`. -/
def Cap.less (a b : Cap) : Bool :=
  decide (a.name < b.name) || (a.name == b.name && decide (a.version < b.version))

/-- `sort.Sort(capsByNameAndVersion(caps))`. Two caps that are not less one than the other are
equal, so every sort of `caps` is this one. -/
def sortCaps (caps : List Cap) : List Cap := caps.mergeSort fun a b => !b.less a

def baseProtocolLength : UInt64 := 16

def discMsg : UInt64 := 0x01

def pingMsg : UInt64 := 0x02

structure ProtoRW where
  protocol : Protocol
  offset : UInt64
  deriving DecidableEq, Repr

/-- The inner loop of `matchProtocols`: the first protocol with the cap's name and version. -/
def findProto (protocols : List Protocol) (cap : Cap) : Option Protocol :=
  protocols.find? fun proto => proto.name == cap.name && proto.version == cap.version

/-- One cap of the outer loop of `matchProtocols`, on the offset and the result map. -/
def matchCap (protocols : List Protocol) (acc : UInt64 × Table String ProtoRW) (cap : Cap) :
    UInt64 × Table String ProtoRW :=
  match findProto protocols cap with
  | none => acc
  | some proto =>
      -- if an old protocol version matched, revert it
      let offset := match acc.2.get cap.name with
        | some old => acc.1 - old.protocol.length
        | none => acc.1
      (offset + proto.length, acc.2.set cap.name { protocol := proto, offset })

/-- `matchProtocols(protocols, caps, rw)`. -/
def matchProtocols (protocols : List Protocol) (caps : List Cap) : Table String ProtoRW :=
  ((sortCaps caps).foldl (matchCap protocols) (baseProtocolLength, Table.empty)).2

/-- `errInvalidMsgCode` and `errInvalidMsg`. -/
inductive PeerErrorCode
  | invalidMsgCode
  | invalidMsg
  deriving DecidableEq, Repr

/-- `errorToString`. -/
def PeerErrorCode.desc : PeerErrorCode → String
  | .invalidMsgCode => "invalid message code"
  | .invalidMsg => "invalid message"

structure PeerError where
  code : PeerErrorCode
  message : String
  deriving DecidableEq, Repr

/-- `newPeerError(code, format, v...)`, with the formatted text. -/
def newPeerError (code : PeerErrorCode) (text : String) : PeerError :=
  { code, message := if text = "" then code.desc else code.desc ++ ": " ++ text }

/-- `code >= proto.offset && code < proto.offset+proto.Length`. -/
def ProtoRW.contains (rw : ProtoRW) (code : UInt64) : Bool :=
  code >= rw.offset && code < rw.offset + rw.protocol.length

/-- `getProto(code)` over the running protocols, in the order the map iteration takes. -/
def getProto (running : List ProtoRW) (code : UInt64) : Except PeerError ProtoRW :=
  match running.find? (·.contains code) with
  | some proto => .ok proto
  | none => .error (newPeerError .invalidMsgCode (toString code))

/-- `protoRW.WriteMsg`: the code the message goes out with. -/
def ProtoRW.writeMsg (rw : ProtoRW) (code : UInt64) : Except PeerError UInt64 :=
  if code >= rw.protocol.length then .error (newPeerError .invalidMsgCode "not handled")
  else .ok (code + rw.offset)

/-- `protoRW.ReadMsg`: the code the protocol reads. -/
def ProtoRW.readMsg (rw : ProtoRW) (code : UInt64) : UInt64 := code - rw.offset

inductive Handled
  /-- `go SendItems(p.rw, pongMsg)` -/
  | pong
  /-- other base protocol messages are discarded -/
  | ignored
  /-- `proto.in <- msg` -/
  | delivered (proto : ProtoRW) (code : UInt64)
  deriving DecidableEq, Repr

inductive HandleError
  /-- the `DiscReason` of a `discMsg`; its decoding is left out -/
  | disconnect
  | other (message : String)
  deriving DecidableEq, Repr

/-- `Peer.handle(msg)` for a message with code `code`. -/
def handle (running : List ProtoRW) (code : UInt64) : Except HandleError Handled :=
  if code = pingMsg then .ok .pong
  else if code = discMsg then .error .disconnect
  else if code < baseProtocolLength then .ok .ignored
  else
    match getProto running code with
    | .error _ => .error (.other ("msg code out of range: " ++ toString code))
    | .ok proto => .ok (.delivered proto code)

-- Equation lemmas of the definitions above, made once here rather than by the proofs below
-- that unfold them in parallel.
section
attribute [local simp] Protocol.cap Cap.less sortCaps baseProtocolLength findProto matchCap matchProtocols ProtoRW.contains getProto ProtoRW.writeMsg ProtoRW.readMsg handle
end

/-! ### The layout of the picked protocols -/

/-- The table of the picked protocols, each at the offset where the one before it ends. -/
def layout (offset : UInt64) : List Protocol → Table String ProtoRW
  | [] => []
  | p :: rest => (p.name, { protocol := p, offset }) :: layout (offset + p.length) rest

/-- The sum of the lengths, in `uint64`. -/
def totalLength (picks : List Protocol) : UInt64 := (picks.map Protocol.length).sum

section
attribute [local simp] layout totalLength
end

@[simp] theorem totalLength_append (picks : List Protocol) (p : Protocol) :
    totalLength (picks ++ [p]) = totalLength picks + p.length := by
  simp [totalLength]

theorem layout_append (offset : UInt64) (picks : List Protocol) (p : Protocol) :
    layout offset (picks ++ [p]) =
      layout offset picks ++ [(p.name, { protocol := p, offset := offset + totalLength picks })] := by
  induction picks generalizing offset with
  | nil => simp [layout, totalLength]
  | cons q rest ih =>
      simp only [List.cons_append, layout, ih, totalLength, List.map_cons, List.sum_cons,
        UInt64.add_assoc]

@[simp] theorem keys_layout (offset : UInt64) (picks : List Protocol) :
    (layout offset picks).keys = picks.map Protocol.name := by
  induction picks generalizing offset with
  | nil => rfl
  | cons p rest ih => simp [layout, Table.keys, ← ih (offset + p.length)]

theorem mem_layout {offset : UInt64} {picks : List Protocol} {e : String × ProtoRW}
    (mem : e ∈ layout offset picks) : e.2.protocol ∈ picks ∧ e.1 = e.2.protocol.name := by
  induction picks generalizing offset with
  | nil => simp [layout] at mem
  | cons p rest ih =>
      rcases List.mem_cons.mp mem with rfl | later
      · exact ⟨List.mem_cons_self, rfl⟩
      · obtain ⟨inRest, key⟩ := ih later
        exact ⟨List.mem_cons_of_mem p inRest, key⟩

/-- The view of an entry two peers compare: the name, the picked protocol's cap and length, and
the offset. -/
def view (e : String × ProtoRW) : String × Cap × UInt64 × UInt64 :=
  (e.1, e.2.protocol.cap, e.2.protocol.length, e.2.offset)

section
attribute [local simp] view
end

/-- Picks with the same caps and lengths, one by one, are laid out alike. -/
theorem layout_view {offset : UInt64} {picks picks' : List Protocol}
    (same : List.Forall₂ (fun p q => p.cap = q.cap ∧ p.length = q.length) picks picks') :
    (layout offset picks).map view = (layout offset picks').map view := by
  induction same generalizing offset with
  | nil => rfl
  | cons heads _ ih =>
      obtain ⟨cap, length⟩ := heads
      have name := congrArg Cap.name cap
      simp only [Protocol.cap] at name
      simp only [layout, List.map_cons, view, cap, length, name, ih]

/-- Laid out without wrapping, every range starts at or above `offset` and ends before the next
one starts. -/
theorem layout_ranges {offset : UInt64} {picks : List Protocol}
    (bounded : offset.toNat + (picks.map fun p => p.length.toNat).sum < 2 ^ 64) :
    (∀ e ∈ layout offset picks, offset.toNat ≤ e.2.offset.toNat ∧
      e.2.offset.toNat + e.2.protocol.length.toNat ≤ offset.toNat + (picks.map fun p => p.length.toNat).sum) ∧
    (layout offset picks).Pairwise fun e e' =>
      e.2.offset.toNat + e.2.protocol.length.toNat ≤ e'.2.offset.toNat := by
  induction picks generalizing offset with
  | nil => simp [layout]
  | cons p rest ih =>
      simp only [List.map_cons, List.sum_cons] at bounded
      have next : (offset + p.length).toNat = offset.toNat + p.length.toNat := by
        rw [UInt64.toNat_add]
        exact Nat.mod_eq_of_lt (by omega)
      obtain ⟨inside, ordered⟩ := @ih (offset + p.length) (by rw [next]; omega)
      rw [next] at inside
      refine ⟨fun e mem => ?_, List.pairwise_cons.mpr ⟨fun e' mem => (inside e' mem).1, ordered⟩⟩
      rcases List.mem_cons.mp mem with rfl | later
      · simp only [List.map_cons, List.sum_cons]
        omega
      · have := inside e later
        simp only [List.map_cons, List.sum_cons]
        omega

/-! ### The loop of `matchProtocols` -/

theorem findProto_some {protocols : List Protocol} {cap : Cap} {proto : Protocol}
    (found : findProto protocols cap = some proto) : proto ∈ protocols ∧ proto.cap = cap := by
  have holds := List.find?_some found
  simp only [Bool.and_eq_true, beq_iff_eq] at holds
  refine ⟨List.mem_of_find?_eq_some found, ?_⟩
  cases cap
  simp [Protocol.cap, holds.1, holds.2]

theorem findProto_isSome {protocols : List Protocol} {cap : Cap} :
    (findProto protocols cap).isSome ↔ cap ∈ protocols.map Protocol.cap := by
  cases cap
  simp [findProto, List.find?_isSome, Protocol.cap, and_comm]

/-- A cap's place in the sort: its name, then its version. -/
def Cap.key (c : Cap) : String ×ₗ Nat := toLex (c.name, c.version)

section
attribute [local simp] Cap.key
end

theorem Cap.not_less_iff {a b : Cap} : (!b.less a) = true ↔ a.key ≤ b.key := by
  rw [Cap.key, Cap.key, Prod.Lex.toLex_le_toLex]
  unfold Cap.less
  rcases lt_trichotomy a.name b.name with lt | eq | gt
  · simp [lt, lt.ne', not_lt.mpr lt.le]
  · simp [eq]
  · simp [gt, gt.ne', not_lt.mpr gt.le]

/-- The sorted caps, each no later in the order than the ones after it. -/
theorem sortCaps_pairwise (caps : List Cap) : (sortCaps caps).Pairwise fun a b => a.key ≤ b.key := by
  have sorted := @List.pairwise_mergeSort Cap (fun a b => !b.less a)
    (fun a b c ab bc => Cap.not_less_iff.mpr ((Cap.not_less_iff.mp ab).trans (Cap.not_less_iff.mp bc)))
    (fun a b => by
      rcases le_total a.key b.key with ab | ba
      · simp [Cap.not_less_iff.mpr ab]
      · simp [Cap.not_less_iff.mpr ba])
    caps
  exact sorted.imp Cap.not_less_iff.mp

/-- Caps already in order are left as they are. -/
theorem sortCaps_of_pairwise {caps : List Cap} (sorted : caps.Pairwise fun a b => (!b.less a) = true) :
    sortCaps caps = caps :=
  List.mergeSort_of_pairwise sorted

/-- What the loop has built after the caps `seen`: the layout of its picks, one protocol a name
in name order, each a protocol matching a cap seen; and for each matched cap seen, a pick of its
name with a version no lower. -/
structure Picked (protocols : List Protocol) (seen : List Cap) (acc : UInt64 × Table String ProtoRW)
    (picks : List Protocol) : Prop where
  table : acc.2 = layout baseProtocolLength picks
  offset : acc.1 = baseProtocolLength + totalLength picks
  sorted : picks.Pairwise fun p q => p.name < q.name
  matched : ∀ p ∈ picks, p ∈ protocols ∧ p.cap ∈ seen
  covers : ∀ c ∈ seen, c ∈ protocols.map Protocol.cap →
    ∃ p ∈ picks, p.name = c.name ∧ c.version ≤ p.version

theorem Picked.init (protocols : List Protocol) :
    Picked protocols [] (baseProtocolLength, Table.empty) [] where
  table := rfl
  offset := by simp [totalLength]
  sorted := List.Pairwise.nil
  matched := by simp
  covers := by simp

/-- Taking back the range of the last pick. -/
theorem offset_give_back (base total length : UInt64) :
    base + (total + length) - length = base + total := by
  rw [← UInt64.add_assoc, UInt64.add_sub_cancel]

section Step

variable {protocols : List Protocol} {seen : List Cap} {acc : UInt64 × Table String ProtoRW}
  {picks : List Protocol} {next : Cap}

/-- The cap's name has a pick already: the pick is the last one, since no name seen is after
the cap's. -/
theorem Picked.last (picked : Picked protocols seen acc picks) (later : ∀ c ∈ seen, c.key ≤ next.key)
    {q : Protocol} (mem : q ∈ picks) (named : q.name = next.name) :
    ∃ pre, picks = pre ++ [q] ∧ ∀ p ∈ pre, p.name < next.name := by
  obtain ⟨pre, post, rfl⟩ := List.append_of_mem mem
  have sorted := List.pairwise_append.mp picked.sorted
  have before : ∀ p ∈ pre, p.name < next.name := fun p inPre =>
    named ▸ sorted.2.2 p inPre q List.mem_cons_self
  cases post with
  | nil => exact ⟨pre, rfl, before⟩
  | cons r rest =>
      -- `r` comes after `q` in name order, but its cap was seen before `next`
      exfalso
      have after : q.name < r.name := (List.pairwise_cons.mp sorted.2.1).1 r List.mem_cons_self
      have seenR := (picked.matched r (by simp)).2
      have atMost := Prod.Lex.toLex_le_toLex.mp (later r.cap seenR)
      simp only [Protocol.cap] at atMost
      rw [← named] at atMost
      rcases atMost with lt | ⟨eq, -⟩
      · exact lt_asymm after lt
      · exact after.ne' eq

/-- One cap of the loop: a cap no protocol has changes nothing; a cap with a new name adds a
pick at the end; a cap with the name of the last pick replaces it, and gives back its range. -/
theorem Picked.step (picked : Picked protocols seen acc picks)
    (later : ∀ c ∈ seen, c.key ≤ next.key) :
    ∃ picks', Picked protocols (seen ++ [next]) (matchCap protocols acc next) picks' := by
  unfold matchCap
  cases found : findProto protocols next with
  | none =>
      refine ⟨picks, picked.table, picked.offset, picked.sorted,
        fun p mem => ⟨(picked.matched p mem).1, List.mem_append_left _ (picked.matched p mem).2⟩, ?_⟩
      intro c mem has
      rcases List.mem_append.mp mem with old | new
      · exact picked.covers c old has
      · rw [List.mem_singleton.mp new, ← findProto_isSome, found] at has
        cases has
  | some proto =>
      obtain ⟨inProtocols, capEq⟩ := findProto_some found
      have name : proto.name = next.name := congrArg Cap.name capEq
      have version : proto.version = next.version := congrArg Cap.version capEq
      dsimp only
      cases old : acc.2.get next.name with
      | none =>
          -- a new name: it comes after every pick
          have notKey : next.name ∉ picks.map Protocol.name := by
            rw [← keys_layout baseProtocolLength, ← picked.table]
            exact Table.get_eq_none_iff.mp old
          refine ⟨picks ++ [proto], ?_, ?_, ?_, ?_, ?_⟩
          · dsimp only
            rw [Table.set_of_get_eq_none old, picked.table, picked.offset, layout_append, name]
          · simp [picked.offset, UInt64.add_assoc]
          · refine List.pairwise_append.mpr ⟨picked.sorted, by simp, fun p mem q isProto => ?_⟩
            rw [List.mem_singleton.mp isProto, name]
            have atMost := Prod.Lex.toLex_le_toLex.mp (later p.cap (picked.matched p mem).2)
            simp only [Protocol.cap] at atMost
            rcases atMost with lt | ⟨eq, -⟩
            · exact lt
            · exact absurd (List.mem_map.mpr ⟨p, mem, eq⟩) notKey
          · intro p mem
            rcases List.mem_append.mp mem with old | new
            · exact ⟨(picked.matched p old).1, List.mem_append_left _ (picked.matched p old).2⟩
            · rw [List.mem_singleton.mp new]
              exact ⟨inProtocols, by simp [capEq]⟩
          · intro c mem has
            rcases List.mem_append.mp mem with old | new
            · obtain ⟨p, inPicks, same, le⟩ := picked.covers c old has
              exact ⟨p, List.mem_append_left _ inPicks, same, le⟩
            · rw [List.mem_singleton.mp new]
              exact ⟨proto, by simp, name, version.ge⟩
      | some oldRW =>
          -- the name of the last pick: its range is given back and the new version takes it
          obtain ⟨q, inPicks, qName, rfl⟩ : ∃ q ∈ picks, q.name = next.name ∧ oldRW.protocol = q := by
            have entry := mem_layout (picked.table ▸ Table.mem_of_get old)
            exact ⟨oldRW.protocol, entry.1, entry.2.symm, rfl⟩
          obtain ⟨pre, rfl, before⟩ := picked.last later inPicks qName
          have notKey : next.name ∉ (layout baseProtocolLength pre).keys := by
            rw [keys_layout]
            intro mem
            obtain ⟨p, inPre, same⟩ := List.mem_map.mp mem
            exact (before p inPre).ne same
          refine ⟨pre ++ [proto], ?_, ?_, ?_, ?_, ?_⟩
          · dsimp only
            rw [picked.table, picked.offset, layout_append, qName, Table.set_append_self notKey,
              layout_append, name, totalLength_append, offset_give_back]
          · dsimp only
            rw [picked.offset, totalLength_append, totalLength_append, offset_give_back,
              UInt64.add_assoc]
          · refine List.pairwise_append.mpr ⟨(List.pairwise_append.mp picked.sorted).1, by simp,
              fun p mem r isProto => ?_⟩
            rw [List.mem_singleton.mp isProto, name]
            exact before p mem
          · intro p mem
            rcases List.mem_append.mp mem with old | new
            · have := picked.matched p (List.mem_append_left _ old)
              exact ⟨this.1, List.mem_append_left _ this.2⟩
            · rw [List.mem_singleton.mp new]
              exact ⟨inProtocols, by simp [capEq]⟩
          · intro c mem has
            rcases List.mem_append.mp mem with old | new
            · obtain ⟨p, inPicks, same, le⟩ := picked.covers c old has
              rcases List.mem_append.mp inPicks with inPre | isQ
              · exact ⟨p, List.mem_append_left _ inPre, same, le⟩
              · -- the replaced pick was seen before `next`, so its version is no higher
                rw [List.mem_singleton.mp isQ] at same le
                have atMost := Prod.Lex.toLex_le_toLex.mp
                  (later oldRW.protocol.cap (picked.matched _ (by simp)).2)
                simp only [Protocol.cap, qName, lt_irrefl, false_or, true_and] at atMost
                exact ⟨proto, by simp, name.trans (qName.symm.trans same), by omega⟩
            · rw [List.mem_singleton.mp new]
              exact ⟨proto, by simp, name, version.ge⟩

end Step

/-- A run of the loop over caps in sort order: induction on the caps still to come, one step
a cap. -/
theorem Picked.run (protocols : List Protocol) (rest : List Cap) :
    ∀ (seen : List Cap) (acc : UInt64 × Table String ProtoRW) (picks : List Protocol),
      Picked protocols seen acc picks → (seen ++ rest).Pairwise (fun a b => a.key ≤ b.key) →
      ∃ picks', Picked protocols (seen ++ rest) (rest.foldl (matchCap protocols) acc) picks' := by
  induction rest with
  | nil =>
      intro seen acc picks picked _
      exact ⟨picks, by simpa using picked⟩
  | cons next rest ih =>
      intro seen acc picks picked sorted
      have later : ∀ c ∈ seen, c.key ≤ next.key := fun c mem =>
        (List.pairwise_append.mp sorted).2.2 c mem next List.mem_cons_self
      obtain ⟨picks', stepped⟩ := picked.step later
      obtain ⟨final, done⟩ := ih (seen ++ [next]) _ picks' stepped (by simpa using sorted)
      exact ⟨final, by simpa using done⟩

/-- `matchProtocols` lays out the picks of its loop over the sorted caps. -/
theorem matchProtocols_picked (protocols : List Protocol) (caps : List Cap) :
    ∃ picks, Picked protocols (sortCaps caps)
      ((sortCaps caps).foldl (matchCap protocols) (baseProtocolLength, Table.empty)) picks ∧
      matchProtocols protocols caps = layout baseProtocolLength picks := by
  obtain ⟨picks, picked⟩ := Picked.run protocols (sortCaps caps) [] _ [] (Picked.init protocols)
    (by simpa using sortCaps_pairwise caps)
  rw [List.nil_append] at picked
  exact ⟨picks, picked, picked.table⟩

section Picks

variable {protocols : List Protocol} {seen : List Cap} {acc : UInt64 × Table String ProtoRW}
  {picks : List Protocol}

theorem Picked.nodup_names (picked : Picked protocols seen acc picks) :
    (picks.map Protocol.name).Nodup :=
  (List.pairwise_map.mpr picked.sorted).imp ne_of_lt

/-- The caps of the picks are the caps seen that a protocol has, each at the highest version
of its name among those. -/
theorem Picked.mem_caps (picked : Picked protocols seen acc picks) (c : Cap) :
    c ∈ picks.map Protocol.cap ↔ c ∈ seen ∧ c ∈ protocols.map Protocol.cap ∧
      ∀ d ∈ seen, d ∈ protocols.map Protocol.cap → d.name = c.name → d.version ≤ c.version := by
  constructor
  · intro mem
    obtain ⟨p, inPicks, rfl⟩ := List.mem_map.mp mem
    obtain ⟨inProtocols, seenP⟩ := picked.matched p inPicks
    refine ⟨seenP, List.mem_map.mpr ⟨p, inProtocols, rfl⟩, fun d seenD has same => ?_⟩
    obtain ⟨q, inQ, qName, le⟩ := picked.covers d seenD has
    -- one pick a name
    have : q = p := List.inj_on_of_nodup_map picked.nodup_names inQ inPicks (qName.trans same)
    exact this ▸ le
  · rintro ⟨seenC, has, highest⟩
    obtain ⟨p, inPicks, pName, le⟩ := picked.covers c seenC has
    obtain ⟨inProtocols, seenP⟩ := picked.matched p inPicks
    have ge := highest p.cap seenP (List.mem_map.mpr ⟨p, inProtocols, rfl⟩) pName
    have same : p.cap = c := by
      cases c
      simp only [Protocol.cap] at pName ge ⊢
      rw [pName, Nat.le_antisymm ge le]
    exact List.mem_map.mpr ⟨p, inPicks, same⟩

/-- The picks' caps in name order. -/
theorem Picked.pairwise_caps (picked : Picked protocols seen acc picks) :
    (picks.map Protocol.cap).Pairwise fun a b => a.name < b.name :=
  List.pairwise_map.mpr picked.sorted

/-- The picks are protocols of `protocols`, each once, so their lengths sum to no more. -/
theorem Picked.length_le (picked : Picked protocols seen acc picks) :
    (picks.map fun p => p.length.toNat).sum ≤ (protocols.map fun p => p.length.toNat).sum := by
  have nodup : picks.Nodup := List.Nodup.of_map _ picked.nodup_names
  obtain ⟨l, perm, sub⟩ := List.Nodup.subperm nodup fun p mem => (picked.matched p mem).1
  rw [← (perm.map _).sum_eq]
  exact (sub.map _).sum_le_sum fun _ _ => Nat.zero_le _

end Picks

/-! ### Two peers -/

/-- What a peer's entry for a name holds that the other can compare. -/
def rwView (rw : ProtoRW) : Cap × UInt64 × UInt64 := (rw.protocol.cap, rw.protocol.length, rw.offset)

section
attribute [local simp] rwView
end

theorem view_eq (e : String × ProtoRW) : view e = (e.1, rwView e.2) := rfl

/-- Tables with the same views read the same views at every name. -/
theorem get_rwView {t t' : Table String ProtoRW} (same : t.map view = t'.map view) (n : String) :
    (t.get n).map rwView = (t'.get n).map rwView := by
  have found := congrArg (List.find? fun v => decide (v.1 = n)) same
  simp only [List.find?_map] at found
  unfold Table.get
  simp only [Option.map_map]
  have viewed : ∀ o : Option (String × ProtoRW), o.map (rwView ∘ Prod.snd) =
      (o.map view).map Prod.snd := by
    intro o
    cases o <;> rfl
  rw [viewed, viewed]
  exact congrArg (Option.map Prod.snd) found

/-- Picks with the same caps take the same lengths from two peers that agree on them. -/
theorem forall₂_of_caps {picks picks' : List Protocol} {PA PB : List Protocol}
    (inA : ∀ p ∈ picks, p ∈ PA) (inB : ∀ q ∈ picks', q ∈ PB)
    (lengths : ∀ p ∈ PA, ∀ q ∈ PB, p.cap = q.cap → p.length = q.length)
    (same : picks.map Protocol.cap = picks'.map Protocol.cap) :
    List.Forall₂ (fun p q => p.cap = q.cap ∧ p.length = q.length) picks picks' := by
  induction picks generalizing picks' with
  | nil =>
      cases picks' with
      | nil => exact List.Forall₂.nil
      | cons _ _ => cases same
  | cons p rest ih =>
      cases picks' with
      | nil => cases same
      | cons q rest' =>
          simp only [List.map_cons, List.cons.injEq] at same
          exact List.Forall₂.cons ⟨same.1, lengths p (inA p (by simp)) q (inB q (by simp)) same.1⟩
            (ih (fun p mem => inA p (by simp [mem])) (fun q mem => inB q (by simp [mem])) same.2)

/-- Both peers pick the same caps: the caps both have, each at the highest version of its name
they share. -/
theorem picks_agree {PA PB : List Protocol} {accA accB : UInt64 × Table String ProtoRW}
    {picksA picksB : List Protocol}
    (pickedA : Picked PA (sortCaps (PB.map Protocol.cap)) accA picksA)
    (pickedB : Picked PB (sortCaps (PA.map Protocol.cap)) accB picksB) :
    picksA.map Protocol.cap = picksB.map Protocol.cap := by
  have members : ∀ c, c ∈ picksA.map Protocol.cap ↔ c ∈ picksB.map Protocol.cap := by
    intro c
    rw [pickedA.mem_caps, pickedB.mem_caps]
    simp only [sortCaps, List.mem_mergeSort]
    constructor
    · rintro ⟨inB, inA, highest⟩
      exact ⟨inA, inB, fun d dA dB same => highest d dB dA same⟩
    · rintro ⟨inA, inB, highest⟩
      exact ⟨inB, inA, fun d dB dA same => highest d dA dB same⟩
  have nodupA : (picksA.map Protocol.cap).Nodup :=
    pickedA.pairwise_caps.imp fun lt same => lt.ne (congrArg Cap.name same)
  have nodupB : (picksB.map Protocol.cap).Nodup :=
    pickedB.pairwise_caps.imp fun lt same => lt.ne (congrArg Cap.name same)
  exact List.Perm.eq_of_pairwise (fun a b _ _ ab ba => absurd ba (lt_asymm ab))
    pickedA.pairwise_caps pickedB.pairwise_caps
    ((List.perm_ext_iff_of_nodup nodupA nodupB).mpr members)

/-! ### Dispatch -/

/-- Code ranges laid out without wrapping: above the base protocol's codes, each below `2^64`,
each ending before the next one starts. -/
structure Ranges (t : Table String ProtoRW) : Prop where
  above : ∀ e ∈ t, baseProtocolLength.toNat ≤ e.2.offset.toNat
  noWrap : ∀ e ∈ t, e.2.offset.toNat + e.2.protocol.length.toNat < 2 ^ 64
  ordered : t.Pairwise fun e e' => e.2.offset.toNat + e.2.protocol.length.toNat ≤ e'.2.offset.toNat

theorem Ranges.layout {picks : List Protocol}
    (bounded : baseProtocolLength.toNat + (picks.map fun p => p.length.toNat).sum < 2 ^ 64) :
    Ranges (layout baseProtocolLength picks) := by
  obtain ⟨inside, ordered⟩ := layout_ranges bounded
  exact ⟨fun e mem => (inside e mem).1, fun e mem => by have := (inside e mem).2; omega, ordered⟩

/-- The ranges are a matter of the views: a table with the same views has the same ranges. -/
theorem Ranges.of_view {t t' : Table String ProtoRW} (ranges : Ranges t) (same : t.map view = t'.map view) :
    Ranges t' := by
  have lookup : ∀ e' ∈ t', ∃ e ∈ t, e.2.offset = e'.2.offset ∧ e.2.protocol.length = e'.2.protocol.length := by
    intro e' mem
    have viewed : view e' ∈ t.map view := same ▸ List.mem_map_of_mem mem
    obtain ⟨e, inT, eq⟩ := List.mem_map.mp viewed
    simp only [view, Prod.mk.injEq] at eq
    exact ⟨e, inT, eq.2.2.2, eq.2.2.1⟩
  refine ⟨fun e' mem => ?_, fun e' mem => ?_, ?_⟩
  · obtain ⟨e, inT, offset, -⟩ := lookup e' mem
    exact offset ▸ ranges.above e inT
  · obtain ⟨e, inT, offset, length⟩ := lookup e' mem
    exact offset ▸ length ▸ ranges.noWrap e inT
  · have ordered : (t.map view).Pairwise fun v v' => v.2.2.2.toNat + v.2.2.1.toNat ≤ v'.2.2.2.toNat :=
      List.pairwise_map.mpr ranges.ordered
    rw [same] at ordered
    exact List.pairwise_map.mp ordered

/-- Without wrapping, `contains` is membership of the code in the range. -/
theorem ProtoRW.contains_iff {rw : ProtoRW} (noWrap : rw.offset.toNat + rw.protocol.length.toNat < 2 ^ 64)
    (code : UInt64) :
    rw.contains code = true ↔
      rw.offset.toNat ≤ code.toNat ∧ code.toNat < rw.offset.toNat + rw.protocol.length.toNat := by
  have sum : (rw.offset + rw.protocol.length).toNat = rw.offset.toNat + rw.protocol.length.toNat := by
    rw [UInt64.toNat_add]
    exact Nat.mod_eq_of_lt noWrap
  simp only [ProtoRW.contains, Bool.and_eq_true, decide_eq_true_eq, ge_iff_le, UInt64.le_iff_toNat_le,
    UInt64.lt_iff_toNat_lt, sum]

/-- A code is in the range of at most one entry. -/
theorem Ranges.unique {t : Table String ProtoRW} (ranges : Ranges t) {e e' : String × ProtoRW}
    (mem : e ∈ t) (mem' : e' ∈ t) {code : UInt64} (holds : e.2.contains code = true)
    (holds' : e'.2.contains code = true) : e = e' := by
  rw [ProtoRW.contains_iff (ranges.noWrap e mem)] at holds
  rw [ProtoRW.contains_iff (ranges.noWrap e' mem')] at holds'
  obtain ⟨i, hi, rfl⟩ := List.getElem_of_mem mem
  obtain ⟨j, hj, rfl⟩ := List.getElem_of_mem mem'
  have ordered := List.pairwise_iff_getElem.mp ranges.ordered
  -- two different entries are ordered one way or the other, and their ranges do not meet
  rcases lt_trichotomy i j with lt | rfl | gt
  · have := ordered i j hi hj lt
    omega
  · rfl
  · have := ordered j i hj hi gt
    omega

theorem contains_of_find? {running : List ProtoRW} {code : UInt64} {x : ProtoRW}
    (found : running.find? (·.contains code) = some x) : x.contains code = true := by
  simpa using List.find?_some found

/-- `getProto`, in any order of the map, answers the one protocol whose range holds the code. -/
theorem Ranges.getProto_eq {t : Table String ProtoRW} (ranges : Ranges t) {running : List ProtoRW}
    (perm : running.Perm (t.map Prod.snd)) {e : String × ProtoRW} (mem : e ∈ t) {code : UInt64}
    (holds : e.2.contains code = true) : getProto running code = .ok e.2 := by
  have isSome : (running.find? (·.contains code)).isSome :=
    List.find?_isSome.mpr ⟨e.2, perm.mem_iff.mpr (List.mem_map_of_mem mem), holds⟩
  obtain ⟨x, found⟩ := Option.isSome_iff_exists.mp isSome
  obtain ⟨e', mem', rfl⟩ := List.mem_map.mp (perm.mem_iff.mp (List.mem_of_find?_eq_some found))
  have same := ranges.unique mem' mem (contains_of_find? found) holds
  unfold getProto
  rw [found, same]

/-- `handle` delivers a message only to a running protocol whose range holds its code. -/
theorem handle_delivered {running : List ProtoRW} {code w : UInt64} {rw : ProtoRW}
    (delivered : handle running code = .ok (.delivered rw w)) :
    w = code ∧ rw ∈ running ∧ rw.contains code = true := by
  unfold handle at delivered
  -- the pong and the ignored base protocol messages are not deliveries
  split_ifs at delivered with ping disc low
  · simp at delivered
  · simp at delivered
  unfold getProto at delivered
  cases found : running.find? (·.contains code) with
  | none => simp [found] at delivered
  | some x =>
      simp only [found, Except.ok.injEq, Handled.delivered.injEq] at delivered
      obtain ⟨rfl, rfl⟩ := delivered
      exact ⟨rfl, List.mem_of_find?_eq_some found, contains_of_find? found⟩

/-- A code above the base protocol's that no range holds is rejected. -/
theorem handle_out_of_range {running : List ProtoRW} {code : UInt64} (above : baseProtocolLength ≤ code)
    (outside : ∀ rw ∈ running, rw.contains code = false) :
    handle running code = .error (.other ("msg code out of range: " ++ toString code)) := by
  have none : running.find? (·.contains code) = none := List.find?_eq_none.mpr fun rw mem => by
    simp [outside rw mem]
  have notPing : code ≠ pingMsg := fun same => by
    rw [same] at above
    exact absurd above (by decide)
  have notDisc : code ≠ discMsg := fun same => by
    rw [same] at above
    exact absurd above (by decide)
  have notLow : ¬code < baseProtocolLength := fun low => by
    rw [UInt64.lt_iff_toNat_lt] at low
    rw [UInt64.le_iff_toNat_le] at above
    omega
  unfold handle getProto
  rw [if_neg notPing, if_neg notDisc, if_neg notLow, none]

/-- A message written through a protocol's `protoRW` reaches the peer's entry with the same
range, which reads back its code. -/
theorem Ranges.deliver {t : Table String ProtoRW} (ranges : Ranges t) {running : List ProtoRW}
    (perm : running.Perm (t.map Prod.snd)) {n : String} {rwA rwB : ProtoRW} (mem : (n, rwB) ∈ t)
    (same : rwView rwA = rwView rwB) {c : UInt64} (lt : c < rwA.protocol.length) :
    rwA.writeMsg c = .ok (c + rwA.offset) ∧
      handle running (c + rwA.offset) = .ok (.delivered rwB (c + rwA.offset)) ∧
      rwB.readMsg (c + rwA.offset) = c := by
  simp only [rwView, Prod.mk.injEq] at same
  obtain ⟨-, length, offset⟩ := same
  have noWrap := ranges.noWrap _ mem
  have above := ranges.above _ mem
  simp only [← length, ← offset] at noWrap above
  have ltNat := UInt64.lt_iff_toNat_lt.mp lt
  have sum : (c + rwA.offset).toNat = c.toNat + rwA.offset.toNat := by
    rw [UInt64.toNat_add]
    exact Nat.mod_eq_of_lt (by omega)
  have base : baseProtocolLength ≤ c + rwA.offset := by
    rw [UInt64.le_iff_toNat_le, sum]
    omega
  have notLow : ¬c + rwA.offset < baseProtocolLength := fun low => by
    rw [UInt64.lt_iff_toNat_lt, sum] at low
    omega
  have notBig : ¬c ≥ rwA.protocol.length := fun big => by
    rw [ge_iff_le, UInt64.le_iff_toNat_le] at big
    omega
  have holds : rwB.contains (c + rwA.offset) = true := by
    rw [ProtoRW.contains_iff (ranges.noWrap _ mem), sum, ← length, ← offset]
    omega
  have notPing : c + rwA.offset ≠ pingMsg := fun eq => absurd (eq ▸ base) (by decide)
  have notDisc : c + rwA.offset ≠ discMsg := fun eq => absurd (eq ▸ base) (by decide)
  refine ⟨by rw [ProtoRW.writeMsg, if_neg notBig], ?_, ?_⟩
  · unfold handle
    rw [if_neg notPing, if_neg notDisc, if_neg notLow, ranges.getProto_eq perm mem holds]
  · rw [ProtoRW.readMsg, ← offset, UInt64.add_sub_cancel]

/-! ### The two peers' matchings -/

/-- A runs `PA` and B runs `PB`, equal caps having equal Lengths, and A's Lengths with the base
protocol's codes stay below `2^64`. Each matches its protocols against the other's caps. Then
both pick, per name, the same protocol at the same offset: the highest version both have. The
ranges lie above the base protocol's codes and do not meet. A message A writes through a
picked protocol reaches B's `protoRW` for it, whatever order B's map takes, with its code.
Every message B delivers goes to the one protocol whose range holds its code, and a code above
the base protocol's outside every range is rejected. -/
theorem matched_protocols_agree (PA PB : List Protocol)
    (lengths : ∀ p ∈ PA, ∀ q ∈ PB, p.cap = q.cap → p.length = q.length)
    (bounded : baseProtocolLength.toNat + (PA.map fun p => p.length.toNat).sum < 2 ^ 64) :
    let capsA := PA.map Protocol.cap
    let capsB := PB.map Protocol.cap
    let resA := matchProtocols PA capsB
    let resB := matchProtocols PB capsA
    (∀ n, (resA.get n).map rwView = (resB.get n).map rwView) ∧
    (∀ n rw, resA.get n = some rw → rw.protocol.name = n ∧ rw.protocol.cap ∈ capsA ∧
      rw.protocol.cap ∈ capsB ∧ ∀ v, ⟨n, v⟩ ∈ capsA → ⟨n, v⟩ ∈ capsB → v ≤ rw.protocol.version) ∧
    (∀ n, resA.get n = none → ∀ v, ⟨n, v⟩ ∈ capsA → ⟨n, v⟩ ∉ capsB) ∧
    (∀ e ∈ resA, baseProtocolLength.toNat ≤ e.2.offset.toNat ∧
      e.2.offset.toNat + e.2.protocol.length.toNat < 2 ^ 64) ∧
    resA.Pairwise (fun e e' => e.2.offset.toNat + e.2.protocol.length.toNat ≤ e'.2.offset.toNat) ∧
    (∀ n rwA rwB, resA.get n = some rwA → resB.get n = some rwB →
      ∀ running : List ProtoRW, running.Perm (resB.map Prod.snd) →
      ∀ c < rwA.protocol.length, rwA.writeMsg c = .ok (c + rwA.offset) ∧
        handle running (c + rwA.offset) = .ok (.delivered rwB (c + rwA.offset)) ∧
        rwB.readMsg (c + rwA.offset) = c) ∧
    (∀ running : List ProtoRW, running.Perm (resB.map Prod.snd) → ∀ code,
      (∀ rw w, handle running code = .ok (.delivered rw w) →
        w = code ∧ rw ∈ running ∧ ∀ rw' ∈ running, rw'.contains code = true → rw' = rw) ∧
      (baseProtocolLength ≤ code → (∀ rw ∈ running, rw.contains code = false) →
        handle running code = .error (.other ("msg code out of range: " ++ toString code)))) := by
  intro capsA capsB resA resB
  obtain ⟨picksA, pickedA, eqA⟩ := matchProtocols_picked PA capsB
  obtain ⟨picksB, pickedB, eqB⟩ := matchProtocols_picked PB capsA
  replace eqA : resA = layout baseProtocolLength picksA := eqA
  replace eqB : resB = layout baseProtocolLength picksB := eqB
  have views : resA.map view = resB.map view := by
    rw [eqA, eqB]
    exact layout_view (forall₂_of_caps (fun p mem => (pickedA.matched p mem).1)
      (fun q mem => (pickedB.matched q mem).1) lengths (picks_agree pickedA pickedB))
  have rangesA : Ranges resA := eqA ▸ Ranges.layout (by have := pickedA.length_le; omega)
  have rangesB : Ranges resB := rangesA.of_view views
  refine ⟨get_rwView views, ?_, ?_, fun e mem => ⟨rangesA.above e mem, rangesA.noWrap e mem⟩,
    rangesA.ordered, ?_, ?_⟩
  · -- A's pick for a name is the highest version both have
    intro n rw found
    have entry := Table.mem_of_get found
    rw [eqA] at entry
    obtain ⟨inPicks, key⟩ := mem_layout entry
    obtain ⟨inB, inA, highest⟩ := (pickedA.mem_caps rw.protocol.cap).mp (List.mem_map_of_mem inPicks)
    rw [sortCaps, List.mem_mergeSort] at inB
    refine ⟨key.symm, inA, inB, fun v vA vB => ?_⟩
    have := highest ⟨n, v⟩ (by rw [sortCaps, List.mem_mergeSort]; exact vB) vA key
    exact this
  · -- no pick: no cap both have
    intro n absent v vA vB
    obtain ⟨p, inPicks, pName, -⟩ :=
      pickedA.covers ⟨n, v⟩ (by rw [sortCaps, List.mem_mergeSort]; exact vB) vA
    have notKey := Table.get_eq_none_iff.mp absent
    rw [eqA, keys_layout] at notKey
    exact notKey (List.mem_map.mpr ⟨p, inPicks, pName⟩)
  · intro n rwA rwB foundA foundB running perm c lt
    have same := get_rwView views n
    rw [foundA, foundB] at same
    exact rangesB.deliver perm (Table.mem_of_get foundB) (Option.some.inj same) lt
  · intro running perm code
    refine ⟨fun rw w delivered => ?_, handle_out_of_range⟩
    obtain ⟨rfl, mem, holds⟩ := handle_delivered delivered
    refine ⟨rfl, mem, fun rw' mem' holds' => ?_⟩
    -- both are entries of B's table, and one range holds the code
    obtain ⟨e, inB, rfl⟩ := List.mem_map.mp (perm.mem_iff.mp mem)
    obtain ⟨e', inB', rfl⟩ := List.mem_map.mp (perm.mem_iff.mp mem')
    rw [rangesB.unique inB' inB holds' holds]

/-- Two versions of `eth` on both sides and a protocol each of its own: A picks `eth/62` and
then takes its range back for `eth/63`, at offset 16, and B picks the same. -/
theorem matched_protocols_agree_eth :
    let PA : List Protocol := [⟨"eth", 62, 8⟩, ⟨"eth", 63, 17⟩, ⟨"shh", 2, 10⟩]
    let PB : List Protocol := [⟨"eth", 62, 8⟩, ⟨"eth", 63, 17⟩, ⟨"les", 1, 15⟩]
    (matchProtocols PA (PB.map Protocol.cap)).get "eth" = some ⟨⟨"eth", 63, 17⟩, 16⟩ ∧
      ((matchProtocols PA (PB.map Protocol.cap)).get "eth").map rwView =
        ((matchProtocols PB (PA.map Protocol.cap)).get "eth").map rwView := by
  intro PA PB
  refine ⟨?_, (matched_protocols_agree PA PB (by decide) (by decide)).1 "eth"⟩
  rw [matchProtocols, sortCaps_of_pairwise (by decide)]
  decide

/-- With Lengths summing past `2^64` the offsets wrap: `b` gets offset 0, below the base
protocol's codes, and the message A writes through it with code 0 is taken by B for a base
protocol message and dropped. -/
theorem matchProtocols_offset_wraps :
    let P : List Protocol := [⟨"a", 1, 0xfffffffffffffff0⟩, ⟨"b", 1, 1⟩]
    (matchProtocols P (P.map Protocol.cap)).get "b" = some ⟨⟨"b", 1, 1⟩, 0⟩ ∧
      (⟨⟨"b", 1, 1⟩, 0⟩ : ProtoRW).writeMsg 0 = .ok 0 ∧
      ∀ running, handle running 0 = .ok .ignored := by
  intro P
  refine ⟨?_, by decide, fun running => ?_⟩
  · rw [matchProtocols, sortCaps_of_pairwise (by decide)]
    decide
  · unfold handle
    rfl

end Mjoy.P2p
