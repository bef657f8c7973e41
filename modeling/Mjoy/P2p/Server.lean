import Mjoy.P2p.Dial

/-!
The dial loop of `Server.run` (`p2p/server.go`). `scheduleTasks` starts queued tasks while fewer
than `maxActiveDialTasks` run, then asks the dialer for new ones; a task that ends is handed to
`taskDone` and leaves the running list; `AddPeer` and `RemovePeer` add and remove static nodes.
The steps come in any order, and a round of scheduling sees any peer map, time and answer of the
table.

Over every run from `newDialState`, `Loop.Valid` holds: `dialing` is exactly the outstanding
dials, one for each node; a lookup runs exactly when `lookupRunning` says so; no node of the
history is being dialed; no outstanding dial is to the local node or off the whitelist; and the
dynamic dials and the running tasks stay within their bounds.
-/

namespace Mjoy.P2p

structure Loop where
  dialer : DialState
  running : List Task
  queued : List Task

/-- `startTasks(ts)`: tasks start while fewer than `maxActiveDialTasks` run; the running list and
the rest. -/
def startTasks (running : List Task) : List Task → List Task × List Task
  | [] => (running, [])
  | t :: ts => if running.length < maxActiveDialTasks then startTasks (running ++ [t]) ts else (running, t :: ts)

/-- `scheduleTasks()`: the queue first, then new tasks while a slot is free. -/
def Loop.scheduleTasks (l : Loop) (peers : Table NodeID ConnFlag) (now : Time)
    (readRandomNodes : List (Option Node) → Nat × List (Option Node)) : Except DialPanic Loop := do
  let started := startTasks l.running l.queued
  if started.1.length < maxActiveDialTasks then
    let (dialer, nt) ← l.dialer.newTasks peers (started.1.length + started.2.length) now readRandomNodes
    let more := startTasks started.1 nt
    pure ⟨dialer, more.1, started.2 ++ more.2⟩
  else pure ⟨l.dialer, started.1, started.2⟩

/-- The task as `taskdone` hands it back: a lookup carries the results `Do` found. -/
def Task.finished (results : List Node) : Task → Task
  | .discover _ => .discover results
  | t => t

/-- `case t := <-taskdone`: `taskDone`, then `delTask(t)`. -/
def Loop.done (l : Loop) (t : Task) (results : List Node) (now : Time) : Loop :=
  { l with dialer := l.dialer.taskDone (t.finished results) now, running := l.running.erase t }

/-- The loop's steps: a round of scheduling, a running task that ends, and the static node
requests. -/
inductive Loop.Step : Loop → Loop → Prop
  | schedule {l l' : Loop} (peers : Table NodeID ConnFlag) (now : Time)
      (readRandomNodes : List (Option Node) → Nat × List (Option Node)) :
      l.scheduleTasks peers now readRandomNodes = .ok l' → Loop.Step l l'
  | done {l : Loop} {t : Task} (results : List Node) (now : Time) : t ∈ l.running →
      Loop.Step l (l.done t results now)
  | addStatic {l : Loop} (n : Node) : Loop.Step l { l with dialer := l.dialer.addStatic n }
  | removeStatic {l : Loop} (n : Node) : Loop.Step l { l with dialer := l.dialer.removeStatic n }

/-- The loop states a server reaches from `newDialState` with nothing running. -/
inductive Loop.Reachable (init : DialState) : Loop → Prop
  | init : Loop.Reachable init ⟨init, [], []⟩
  | step {l l' : Loop} : Loop.Reachable init l → Loop.Step l l' → Loop.Reachable init l'

-- Equation lemmas of the definitions above, made once here rather than by the proofs below
-- that unfold them in parallel.
section
attribute [local simp] startTasks Loop.scheduleTasks Task.finished Loop.done
end

/-! ### Starting tasks and ending them -/

/-- `startTasks` splits the tasks it is given, in order, and fills the running list no further
than the bound. -/
theorem startTasks_spec : ∀ (running ts : List Task),
    (startTasks running ts).1 ++ (startTasks running ts).2 = running ++ ts ∧
      (startTasks running ts).1.length ≤ max running.length maxActiveDialTasks
  | running, [] => by simp [startTasks]
  | running, t :: ts => by
      rw [startTasks]
      split_ifs with room
      · obtain ⟨split, bound⟩ := startTasks_spec (running ++ [t]) ts
        refine ⟨by simp [split], ?_⟩
        simp only [List.length_append, List.length_singleton] at bound
        omega
      · exact ⟨rfl, le_max_left _ _⟩

namespace DialState

theorem taskDone_dial (s : DialState) (d : DialTask) (now : Time) :
    s.taskDone (.dial d) now =
      { s with hist := s.hist.add d.dest.id (now + dialHistoryExpiration), dialing := s.dialing.remove d.dest.id } :=
  rfl

/-- A lookup or a timer that ends leaves everything but the lookup flag and buffer alone. -/
theorem taskDone_other (s : DialState) {t : Task} (notDial : t.dialEntry = none) (now : Time) :
    (s.taskDone t now).dialing = s.dialing ∧ (s.taskDone t now).hist = s.hist ∧
      (s.taskDone t now).static = s.static ∧ (s.taskDone t now).self = s.self ∧
      (s.taskDone t now).netrestrict = s.netrestrict ∧ (s.taskDone t now).maxDynDials = s.maxDynDials ∧
      (s.taskDone t now).lookupRunning = (!t.isDiscover && s.lookupRunning) := by
  cases t with
  | dial d => cases notDial
  | discover results => exact ⟨rfl, rfl, rfl, rfl, rfl, rfl, rfl⟩
  | waitExpire w => exact ⟨rfl, rfl, rfl, rfl, rfl, rfl, rfl⟩

theorem dynCount_remove_le (t : Table NodeID ConnFlag) (k : NodeID) : dynCount (t.remove k) ≤ dynCount t := by
  unfold dynCount Table.remove
  exact (List.filter_sublist.filter _).length_le

end DialState

/-! ### The loop's invariant -/

open DialState

/-- What holds of the dial loop in every state it reaches. -/
structure Loop.Valid (l : Loop) : Prop where
  /-- `dialing` has exactly one entry for each outstanding dial. -/
  dialing : l.dialer.dialing.Perm ((l.running ++ l.queued).filterMap Task.dialEntry)
  nodup : l.dialer.dialing.keys.Nodup
  /-- A lookup is outstanding exactly when `lookupRunning` is set. -/
  lookup : (l.running ++ l.queued).countP Task.isDiscover = if l.dialer.lookupRunning then 1 else 0
  checked : ∀ d, .dial d ∈ l.running ++ l.queued → l.dialer.self ≠ some d.dest.id ∧ l.dialer.whitelisted d.dest = true
  static : l.dialer.StaticWF
  heap : Heap.IsHeapBy PastDial.exp l.dialer.hist
  histNodup : (l.dialer.hist.map PastDial.id).Nodup
  /-- No node of the history is being dialed. -/
  fresh : ∀ v ∈ l.dialer.hist, l.dialer.dialing.contains v.id = false
  dynamic : dynCount l.dialer.dialing ≤ l.dialer.maxDynDials
  slots : l.running.length ≤ maxActiveDialTasks

/-- What the server configures the dialer with, which no step changes. -/
def DialState.config (s : DialState) : Nat × Option NodeID × Option (List UInt8 → Bool) :=
  (s.maxDynDials, s.self, s.netrestrict)

section
attribute [local simp] DialState.config
end

theorem newDialState_valid (static bootnodes : List Node) (self : Option NodeID) (maxdyn : Nat)
    (netrestrict : Option (List UInt8 → Bool)) :
    Loop.Valid ⟨newDialState static bootnodes self maxdyn netrestrict, [], []⟩ ∧
      (newDialState static bootnodes self maxdyn netrestrict).config = (maxdyn, self, netrestrict) := by
  -- the static nodes only fill the static map
  have added : let s := newDialState static bootnodes self maxdyn netrestrict
      s.dialing = [] ∧ s.hist = [] ∧ s.lookupRunning = false ∧ s.StaticWF ∧ s.config = (maxdyn, self, netrestrict) := by
    refine Loop.foldl_invariant DialState.addStatic
      (fun _ (s : DialState) => s.dialing = [] ∧ s.hist = [] ∧ s.lookupRunning = false ∧ s.StaticWF ∧
        s.config = (maxdyn, self, netrestrict)) static ?_ ?_
    · intro _ n _ s _ ⟨dialing, hist, lookup, wf, config⟩
      exact ⟨dialing, hist, lookup, wf.addStatic n, config⟩
    · exact ⟨rfl, rfl, rfl, ⟨fun _ mem => absurd mem List.not_mem_nil, List.nodup_nil⟩, rfl⟩
  obtain ⟨dialing, hist, lookup, wf, config⟩ := added
  refine ⟨?_, config⟩
  refine ⟨?_, ?_, ?_, ?_, wf, ?_, ?_, ?_, ?_, Nat.zero_le _⟩ <;> simp only [dialing, hist, lookup]
  · rfl
  · exact List.nodup_nil
  · rfl
  · simp
  · exact Heap.isHeapBy_nil PastDial.exp
  · exact List.nodup_nil
  · simp
  · simp [dynCount]

/-- Tasks reordered or handed over between the running list and the queue: the dialer's facts
stand. -/
theorem Loop.Valid.reorder {l l' : Loop} (valid : l.Valid) (dialer : l'.dialer = l.dialer)
    (perm : (l'.running ++ l'.queued).Perm (l.running ++ l.queued)) (slots : l'.running.length ≤ maxActiveDialTasks) :
    l'.Valid := by
  obtain ⟨d', running, queued⟩ := l'
  subst dialer
  exact ⟨(valid.dialing.trans (perm.filterMap _).symm), valid.nodup, (perm.countP_eq _).trans valid.lookup,
    fun d mem => valid.checked d (perm.subset mem), valid.static, valid.heap, valid.histNodup, valid.fresh,
    valid.dynamic, slots⟩

/-- A round of `newTasks` keeps the facts, with its tasks among the outstanding ones. -/
theorem Loop.Valid.newTasks {l : Loop} {peers : Table NodeID ConnFlag} {now : Time} {dialer : DialState}
    {nt running queued : List Task} (valid : l.Valid) (out : Outcome peers l.dialer now dialer nt)
    (perm : (running ++ queued).Perm (l.running ++ l.queued ++ nt)) (slots : running.length ≤ maxActiveDialTasks) :
    Loop.Valid ⟨dialer, running, queued⟩ := by
  obtain ⟨heap', expired⟩ := DialHistory.expire_spec now valid.heap
  have kept : ∀ v ∈ dialer.hist, v ∈ l.dialer.hist := by
    intro v mem
    rw [out.hist] at mem
    exact (List.mem_filter.mp (expired.subset mem)).1
  refine ⟨?_, out.nodup, ?_, ?_, valid.static.of_sublist out.static, out.hist ▸ heap', ?_, ?_, ?_, slots⟩
  · rw [out.dialing]
    refine (valid.dialing.append_right _).trans ?_
    rw [← List.filterMap_append]
    exact (perm.filterMap _).symm
  · rw [perm.countP_eq, List.countP_append, valid.lookup]
    exact out.lookup.symm
  · intro d mem
    rw [out.self, whitelisted_congr out.netrestrict]
    rcases List.mem_append.mp (perm.subset mem) with old | new
    · exact valid.checked d old
    · obtain ⟨-, -, notSelf, listed, -⟩ := out.dials d new
      exact ⟨notSelf, listed⟩
  · rw [out.hist]
    have ids := (expired.map PastDial.id).nodup_iff.mpr (valid.histNodup.sublist (List.filter_sublist.map _))
    exact ids
  · intro v mem
    rw [out.dialing, Table.contains_append, valid.fresh v (kept v mem), Bool.false_or]
    -- a new dial is to a node the expired history does not hold, and `v` is in it
    rw [Bool.eq_false_iff]
    intro dialed
    obtain ⟨⟨id, flag⟩, entry, same⟩ := List.mem_map.mp (Table.contains_iff_mem_keys.mp dialed)
    obtain ⟨t, mem', found⟩ := List.mem_filterMap.mp entry
    cases t with
    | dial d =>
        simp only [Task.dialEntry, Option.some.injEq, Prod.mk.injEq] at found
        obtain ⟨-, -, -, -, notRecent⟩ := out.dials d mem'
        have recent : (l.dialer.hist.expire now).contains d.dest.id = true := by
          rw [← out.hist]
          exact List.any_eq_true.mpr ⟨v, mem, by simp [found.1, ← same]⟩
        rw [recent] at notRecent
        cases notRecent
    | discover _ => cases found
    | waitExpire _ => cases found
  · show dynCount dialer.dialing ≤ dialer.maxDynDials
    have bound := out.dynamic
    have before := valid.dynamic
    rw [out.maxDynDials]
    omega

/-- Tasks split into those that start and the rest, twice over: the running list and the queue
after both hold the tasks before and the new ones. -/
theorem perm_of_splits {old nt started queued running rest : List Task} (first : started ++ queued = old)
    (second : running ++ rest = started ++ nt) : (running ++ (queued ++ rest)).Perm (old ++ nt) := by
  calc List.Perm (running ++ (queued ++ rest)) (running ++ (rest ++ queued)) := List.perm_append_comm.append_left running
    _ = started ++ nt ++ queued := by rw [← List.append_assoc, second]
    List.Perm _ (started ++ queued ++ nt) := by
      rw [List.append_assoc, List.append_assoc]
      exact List.perm_append_comm.append_left started
    _ = old ++ nt := by rw [first]

theorem Loop.Valid.schedule {l l' : Loop} {peers : Table NodeID ConnFlag} {now : Time}
    {readRandomNodes : List (Option Node) → Nat × List (Option Node)} (valid : l.Valid)
    (run : l.scheduleTasks peers now readRandomNodes = .ok l') : l'.Valid ∧ l'.dialer.config = l.dialer.config := by
  dsimp only [Loop.scheduleTasks] at run
  obtain ⟨split₁, bound₁⟩ := startTasks_spec l.running l.queued
  have slots₁ : (startTasks l.running l.queued).1.length ≤ maxActiveDialTasks := by
    have := valid.slots
    omega
  split_ifs at run with room
  · rw [Loop.bind_eq_ok] at run
    obtain ⟨⟨dialer, nt⟩, calls, rest⟩ := run
    rw [Loop.pure_eq_ok, Except.ok.injEq] at rest
    subst rest
    obtain ⟨split₂, bound₂⟩ := startTasks_spec (startTasks l.running l.queued).1 nt
    have out := DialState.newTasks_outcome valid.static valid.nodup calls
    dsimp only
    refine ⟨valid.newTasks out (perm_of_splits split₁ split₂) (by omega), ?_⟩
    simp only [DialState.config, out.maxDynDials, out.self, out.netrestrict]
  · rw [Loop.pure_eq_ok, Except.ok.injEq] at run
    subst run
    exact ⟨valid.reorder rfl (by rw [split₁]) slots₁, rfl⟩

/-- A dial that ends: its node leaves `dialing` and enters the history, where no other entry
has it. -/
theorem Loop.Valid.doneDial {l : Loop} {d : DialTask} (valid : l.Valid) (mem : .dial d ∈ l.running)
    (results : List Node) (now : Time) : (l.done (.dial d) results now).Valid := by
  have split : (l.running ++ l.queued).Perm (.dial d :: (l.running.erase (.dial d) ++ l.queued)) :=
    (List.perm_cons_erase mem).append_right _
  have entries : l.dialer.dialing.Perm ((d.dest.id, d.flags) :: (l.running.erase (.dial d) ++ l.queued).filterMap Task.dialEntry) :=
    valid.dialing.trans (split.filterMap _)
  have dialing : l.dialer.dialing.contains d.dest.id = true :=
    Table.contains_iff_mem_keys.mpr (List.mem_map.mpr ⟨_, entries.symm.subset List.mem_cons_self, rfl⟩)
  have pushed := Heap.pushBy_perm PastDial.exp l.dialer.hist ⟨d.dest.id, now + dialHistoryExpiration⟩
  have later : ∀ t ∈ l.running.erase (.dial d) ++ l.queued, t ∈ l.running ++ l.queued := fun t found =>
    split.symm.subset (List.mem_cons_of_mem _ found)
  simp only [Loop.done, Task.finished, taskDone_dial]
  refine ⟨Table.perm_remove_of_perm_cons valid.nodup entries, Table.nodup_keys_remove valid.nodup _, ?_,
    fun d' found => valid.checked d' (later _ found), valid.static.of_sublist (List.Sublist.refl _),
    valid.heap.pushBy _ _, ?_, ?_, ?_, ?_⟩
  · have := split.countP_eq Task.isDiscover
    simp only [List.countP_cons, Task.isDiscover] at this
    rw [← valid.lookup, this]
    rfl
  · -- the node was being dialed, so the history had no entry of it
    have absent : d.dest.id ∉ l.dialer.hist.map PastDial.id := by
      intro found
      obtain ⟨v, inHist, same⟩ := List.mem_map.mp found
      have := valid.fresh v inHist
      rw [same, dialing] at this
      cases this
    refine (pushed.map PastDial.id).nodup_iff.mpr ?_
    rw [List.map_append, List.nodup_append]
    exact ⟨valid.histNodup, List.nodup_singleton _, fun a inHist b isNew same => absent (by simp_all)⟩
  · intro v inHist
    rw [Table.contains_remove, Bool.and_eq_false_iff]
    rcases List.mem_append.mp (pushed.subset inHist) with old | new
    · exact Or.inr (valid.fresh v old)
    · rw [List.mem_singleton] at new
      simp [new]
  · exact (dynCount_remove_le _ _).trans valid.dynamic
  · exact List.length_erase_le.trans valid.slots

/-- A lookup or a timer that ends: only the lookup flag changes, as its task leaves. -/
theorem Loop.Valid.doneOther {l : Loop} {t : Task} (valid : l.Valid) (mem : t ∈ l.running) (notDial : t.dialEntry = none)
    (results : List Node) (now : Time) : (l.done t results now).Valid := by
  have split : (l.running ++ l.queued).Perm (t :: (l.running.erase t ++ l.queued)) :=
    (List.perm_cons_erase mem).append_right _
  have finished : (t.finished results).dialEntry = none ∧ (t.finished results).isDiscover = t.isDiscover := by
    cases t <;> first | exact ⟨rfl, rfl⟩ | cases notDial
  obtain ⟨dialing, hist, static, self, netrestrict, maxDyn, lookup⟩ := taskDone_other l.dialer finished.1 now
  have later : ∀ t' ∈ l.running.erase t ++ l.queued, t' ∈ l.running ++ l.queued := fun t' found =>
    split.symm.subset (List.mem_cons_of_mem _ found)
  simp only [Loop.done]
  refine ⟨?_, dialing ▸ valid.nodup, ?_, ?_, valid.static.of_sublist (by rw [static]), hist ▸ valid.heap,
    hist ▸ valid.histNodup, ?_, dialing ▸ maxDyn ▸ valid.dynamic, List.length_erase_le.trans valid.slots⟩
  · have := split.filterMap Task.dialEntry
    rw [List.filterMap_cons, notDial] at this
    rw [dialing]
    exact valid.dialing.trans this
  · -- a lookup that ends was the one outstanding, as `lookupRunning` was set
    have counted := (split.countP_eq Task.isDiscover).symm.trans valid.lookup
    rw [List.countP_cons, lookup, finished.2] at *
    cases discover : t.isDiscover <;> cases running : l.dialer.lookupRunning <;> simp_all
  · intro d found
    rw [self, whitelisted_congr netrestrict]
    exact valid.checked d (later _ found)
  · intro v inHist
    rw [dialing]
    exact valid.fresh v (hist ▸ inHist)

/-- Every step keeps the invariant and the configuration. -/
theorem Loop.Valid.step {l l' : Loop} (valid : l.Valid) (step : Loop.Step l l') :
    l'.Valid ∧ l'.dialer.config = l.dialer.config := by
  cases step with
  | schedule peers now readRandomNodes run => exact valid.schedule run
  | @done t results now mem =>
      cases t with
      | dial d => exact ⟨valid.doneDial mem results now, rfl⟩
      | discover found =>
          obtain ⟨-, -, -, self, netrestrict, maxDyn, -⟩ := taskDone_other l.dialer (t := .discover results) rfl now
          exact ⟨valid.doneOther mem rfl results now, by simp only [Loop.done, Task.finished, DialState.config, self,
            netrestrict, maxDyn]⟩
      | waitExpire w => exact ⟨valid.doneOther mem rfl results now, rfl⟩
  | addStatic n =>
      exact ⟨⟨valid.dialing, valid.nodup, valid.lookup, valid.checked, valid.static.addStatic n, valid.heap,
        valid.histNodup, valid.fresh, valid.dynamic, valid.slots⟩, rfl⟩
  | removeStatic n =>
      exact ⟨⟨valid.dialing, valid.nodup, valid.lookup, valid.checked, valid.static.removeStatic n, valid.heap,
        valid.histNodup, valid.fresh, valid.dynamic, valid.slots⟩, rfl⟩

/-- The invariant of the dial loop holds in every state it reaches, under the configuration the
dialer was made with. -/
theorem Loop.Reachable.valid {static bootnodes : List Node} {self : Option NodeID} {maxdyn : Nat}
    {netrestrict : Option (List UInt8 → Bool)} {l : Loop}
    (reach : Loop.Reachable (newDialState static bootnodes self maxdyn netrestrict) l) :
    l.Valid ∧ l.dialer.config = (maxdyn, self, netrestrict) := by
  induction reach with
  | init => exact newDialState_valid static bootnodes self maxdyn netrestrict
  | step _ step holds =>
      obtain ⟨valid, config⟩ := holds
      obtain ⟨valid', same⟩ := valid.step step
      exact ⟨valid', same.trans config⟩

/-! ### What holds over every run -/

section Runs

variable {static bootnodes : List Node} {self : Option NodeID} {maxdyn : Nat}
  {netrestrict : Option (List UInt8 → Bool)} {l : Loop}

/-- No outstanding dial is to the server's own node or to a node off its whitelist. -/
theorem never_dials_self_or_unlisted
    (reach : Loop.Reachable (newDialState static bootnodes self maxdyn netrestrict) l) :
    ∀ d, .dial d ∈ l.running ++ l.queued →
      self ≠ some d.dest.id ∧ ∀ contains, netrestrict = some contains → contains d.dest.ip = true := by
  obtain ⟨valid, config⟩ := reach.valid
  simp only [DialState.config, Prod.mk.injEq] at config
  obtain ⟨-, sameSelf, sameRestrict⟩ := config
  intro d mem
  obtain ⟨notSelf, listed⟩ := valid.checked d mem
  refine ⟨sameSelf ▸ notSelf, fun contains restricted => ?_⟩
  rw [whitelisted, sameRestrict, restricted] at listed
  exact listed

theorem never_dials_self_or_unlisted_static :
    some [1] ≠ some ([3] : NodeID) ∧ ∀ contains, (none : Option (List UInt8 → Bool)) = some contains → contains [10] = true := by
  -- the first round of a server with one static node dials it
  have scheduled : (Loop.mk (newDialState [⟨[10], [3]⟩] [] (some [1]) 0 none) [] []).scheduleTasks [] 5 (fun buf => (0, buf)) =
      .ok ⟨{ newDialState [⟨[10], [3]⟩] [] (some [1]) 0 none with dialing := [([3], 2)], start := some 5 },
        [.dial ⟨2, ⟨[10], [3]⟩⟩], []⟩ := by
    simp [Loop.scheduleTasks, startTasks, maxActiveDialTasks, DialState.newTasks, newDialState, DialHistory.expire,
      DialState.startAt, DialState.randomDials, DialState.bootDial, DialState.lookupDials, DialState.lookupLoop,
      DialState.discoverStep, DialState.waitStep, DialState.dynNeed, DialState.dynCount, DialState.addStatic,
      DialState.staticDial, DialState.checkDial, Table.set, Table.contains, Table.get, DialState.whitelisted,
      DialHistory.contains, staticDialedConn]
  exact never_dials_self_or_unlisted (Loop.Reachable.init.step (Loop.Step.schedule [] 5 _ scheduled)) ⟨2, ⟨[10], [3]⟩⟩
    (List.mem_append_left _ (List.mem_singleton_self _))

end Runs

end Mjoy.P2p
