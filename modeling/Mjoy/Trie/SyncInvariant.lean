import Mjoy.Trie.Sync

/-!
The bookkeeping of `TrieSync`. A pending request counts in `deps` the requests that name it among
their parents, and what is named is pending and processed; so a request is committed, its counter
at zero, only when no pending request waits under it, and the commit of a child always finds the
parents it releases. `Counted` states this with the namings still to be booked, which `commit`
and `Process` carry between their steps.
-/

namespace Mjoy.Trie

/-- The parents the pending requests name, once per naming. -/
def parentRefs (requests : Table (List UInt8) Request) : List (List UInt8) :=
  requests.flatMap fun e => e.2.parents

/-- The bookkeeping of the pending requests, `owed` being namings whose counter updates are still
to come: each request is keyed by its hash, a processed one is a node (a raw entry is committed as
soon as it is processed), its counter is the number of namings of it, and whatever is named is
pending and processed. -/
structure Counted (requests : Table (List UInt8) Request) (owed : List (List UInt8)) : Prop where
  nodup : requests.keys.Nodup
  keyed : ∀ {h r}, requests.get h = some r → r.hash = h
  node : ∀ {h r}, requests.get h = some r → r.data.isSome → r.raw = false
  counted : ∀ {h r}, requests.get h = some r → r.deps = ((parentRefs requests ++ owed).count h : Int)
  named : ∀ {p}, 0 < (parentRefs requests ++ owed).count p → ∃ r, requests.get p = some r ∧ r.data.isSome

-- Equation lemmas of the definitions above, made once here rather than by the proofs below
-- that unfold them in parallel.
section
attribute [local simp] parentRefs
end

section Count

variable {t : Table (List UInt8) Request}

theorem count_parentRefs_set (nodup : t.keys.Nodup) {k : List UInt8} {old : Request} (found : t.get k = some old)
    (r : Request) (x : List UInt8) :
    (parentRefs (t.set k r)).count x + old.parents.count x = (parentRefs t).count x + r.parents.count x := by
  unfold parentRefs
  exact Table.count_flatMap_set (fun e => e.2.parents) nodup found r x

theorem count_parentRefs_set_of_get_eq_none {k : List UInt8} (absent : t.get k = none) (r : Request) (x : List UInt8) :
    (parentRefs (t.set k r)).count x = (parentRefs t).count x + r.parents.count x := by
  unfold parentRefs
  exact Table.count_flatMap_set_of_get_eq_none (fun e => e.2.parents) absent r x

theorem count_parentRefs_remove (nodup : t.keys.Nodup) {k : List UInt8} {old : Request} (found : t.get k = some old)
    (x : List UInt8) : (parentRefs t).count x = old.parents.count x + (parentRefs (t.remove k)).count x := by
  unfold parentRefs
  exact Table.count_flatMap_remove (fun e => e.2.parents) nodup found x

theorem get_set_eq_some {k h : List UInt8} {v r : Request} (got : (t.set k v).get h = some r) :
    (h = k ∧ r = v) ∨ (h ≠ k ∧ t.get h = some r) := by
  rw [Table.get_set] at got
  split at got
  · rename_i same
    cases got
    exact .inl ⟨same, rfl⟩
  · rename_i other
    exact .inr ⟨other, got⟩

theorem get_remove_eq_some {k h : List UInt8} {r : Request} (got : (t.remove k).get h = some r) :
    h ≠ k ∧ t.get h = some r := by
  rw [Table.get_remove] at got
  split at got
  · cases got
  · rename_i other
    exact ⟨other, got⟩

end Count

namespace Counted

variable {t : Table (List UInt8) Request} {owed : List (List UInt8)}

/-- Nothing names a request that is not pending, or one not yet processed. -/
theorem count_eq_zero_of_get_eq_none (c : Counted t owed) {p : List UInt8} (absent : t.get p = none) :
    (parentRefs t ++ owed).count p = 0 := by
  by_contra named
  obtain ⟨r, found, -⟩ := c.named (Nat.pos_of_ne_zero named)
  rw [absent] at found
  cases found

theorem count_eq_zero_of_unprocessed (c : Counted t owed) {p : List UInt8} {r : Request}
    (found : t.get p = some r) (unprocessed : r.data = none) : (parentRefs t ++ owed).count p = 0 := by
  by_contra named
  obtain ⟨r', found', processed⟩ := c.named (Nat.pos_of_ne_zero named)
  rw [found] at found'
  cases found'
  simp [unprocessed] at processed

/-- The callback or `Process` raising the counter of a processed request `n` times, the namings
to come. -/
theorem raise (c : Counted t owed) {p : List UInt8} {r : Request} (found : t.get p = some r)
    (processed : r.data.isSome) (n : Nat) :
    Counted (t.set p { r with deps := r.deps + n }) (List.replicate n p ++ owed) := by
  have refs : ∀ x, (parentRefs (t.set p { r with deps := r.deps + n })).count x = (parentRefs t).count x := by
    intro x
    have swapped := count_parentRefs_set c.nodup found { r with deps := r.deps + n } x
    dsimp only at swapped
    omega
  refine ⟨Table.nodup_keys_set c.nodup _ _, ?_, ?_, ?_, ?_⟩
  · intro h r' got
    rcases get_set_eq_some got with ⟨rfl, rfl⟩ | ⟨-, got⟩
    · exact (c.keyed found :)
    · exact c.keyed got
  · intro h r' got
    rcases get_set_eq_some got with ⟨rfl, rfl⟩ | ⟨-, got⟩
    · exact (c.node found :)
    · exact c.node got
  · intro h r' got
    have before := fun {r} (found : t.get h = some r) => c.counted found
    simp only [List.count_append, List.count_replicate, refs] at before ⊢
    rcases get_set_eq_some got with ⟨rfl, rfl⟩ | ⟨other, got⟩
    · simp only [beq_self_eq_true, if_true]
      have := before found
      push_cast
      omega
    · simp only [beq_iff_eq, Ne.symm other, if_false]
      simpa using before got
  · intro x pos
    simp only [List.count_append, List.count_replicate, refs] at pos
    by_cases same : x = p
    · subst same
      exact ⟨{ r with deps := r.deps + n }, by simp, processed⟩
    · have old : 0 < (parentRefs t ++ owed).count x := by
        simp only [beq_iff_eq, Ne.symm same, if_false] at pos
        simpa [List.count_append] using pos
      obtain ⟨r', got, data⟩ := c.named old
      exact ⟨r', by simp [same, got], data⟩

/-- `schedule`, its parents among the namings to come: a fresh request goes in with a zero
counter, which is right since nothing names a request that is not pending. -/
theorem schedule {s : TrieSync} {req : Request} (c : Counted s.requests (req.parents ++ owed))
    (fresh : req.data = none) (zero : req.deps = 0) : Counted (s.schedule req).requests owed := by
  cases found : s.requests.get req.hash with
  | some old =>
      rw [TrieSync.schedule_requests_of_get found]
      have refs : ∀ x, (parentRefs (s.requests.set req.hash { old with parents := old.parents ++ req.parents })).count x =
          (parentRefs s.requests).count x + req.parents.count x := by
        intro x
        have swapped := count_parentRefs_set c.nodup found { old with parents := old.parents ++ req.parents } x
        dsimp only at swapped
        simp only [List.count_append] at swapped
        omega
      have total : ∀ x, (parentRefs (s.requests.set req.hash { old with parents := old.parents ++ req.parents }) ++ owed).count x =
          (parentRefs s.requests ++ (req.parents ++ owed)).count x := by
        intro x
        simp only [List.count_append, refs]
        omega
      refine ⟨Table.nodup_keys_set c.nodup _ _, ?_, ?_, ?_, ?_⟩
      · intro h r' got
        rcases get_set_eq_some got with ⟨rfl, rfl⟩ | ⟨-, got⟩
        · exact (c.keyed found :)
        · exact c.keyed got
      · intro h r' got
        rcases get_set_eq_some got with ⟨rfl, rfl⟩ | ⟨-, got⟩
        · exact (c.node found :)
        · exact c.node got
      · intro h r' got
        rw [total]
        rcases get_set_eq_some got with ⟨rfl, rfl⟩ | ⟨-, got⟩
        · exact (c.counted found :)
        · exact c.counted got
      · intro x pos
        rw [total] at pos
        obtain ⟨r', got, data⟩ := c.named pos
        by_cases same : x = req.hash
        · subst same
          rw [found] at got
          cases got
          exact ⟨{ old with parents := old.parents ++ req.parents }, by simp, data⟩
        · exact ⟨r', by simp [same, got], data⟩
  | none =>
      rw [TrieSync.schedule_requests_of_get_eq_none found]
      have total : ∀ x, (parentRefs (s.requests.set req.hash req) ++ owed).count x =
          (parentRefs s.requests ++ (req.parents ++ owed)).count x := by
        intro x
        simp only [List.count_append, count_parentRefs_set_of_get_eq_none found]
        omega
      refine ⟨Table.nodup_keys_set c.nodup _ _, ?_, ?_, ?_, ?_⟩
      · intro h r' got
        rcases get_set_eq_some got with ⟨rfl, rfl⟩ | ⟨-, got⟩
        · rfl
        · exact c.keyed got
      · intro h r' got
        rcases get_set_eq_some got with ⟨rfl, rfl⟩ | ⟨-, got⟩
        · simp [fresh]
        · exact c.node got
      · intro h r' got
        rw [total]
        rcases get_set_eq_some got with ⟨rfl, rfl⟩ | ⟨-, got⟩
        · rw [c.count_eq_zero_of_get_eq_none found, zero]
          rfl
        · exact c.counted got
      · intro x pos
        rw [total] at pos
        obtain ⟨r', got, data⟩ := c.named pos
        have other : x ≠ req.hash := by
          rintro rfl
          rw [found] at got
          cases got
        exact ⟨r', by simp [other, got], data⟩

/-- `Process` setting the data of the node it processes. -/
theorem setData (c : Counted t owed) {h : List UInt8} {r : Request} (found : t.get h = some r) (node : r.raw = false)
    (d : List UInt8) : Counted (t.set h { r with data := some d }) owed := by
  have total : ∀ x, (parentRefs (t.set h { r with data := some d }) ++ owed).count x = (parentRefs t ++ owed).count x := by
    intro x
    have swapped := count_parentRefs_set c.nodup found { r with data := some d } x
    dsimp only at swapped
    simp only [List.count_append]
    omega
  refine ⟨Table.nodup_keys_set c.nodup _ _, ?_, ?_, ?_, ?_⟩
  · intro k r' got
    rcases get_set_eq_some got with ⟨rfl, rfl⟩ | ⟨-, got⟩
    · exact (c.keyed found :)
    · exact c.keyed got
  · intro k r' got
    rcases get_set_eq_some got with ⟨rfl, rfl⟩ | ⟨-, got⟩
    · exact fun _ => node
    · exact c.node got
  · intro k r' got
    rw [total]
    rcases get_set_eq_some got with ⟨rfl, rfl⟩ | ⟨-, got⟩
    · exact (c.counted found :)
    · exact c.counted got
  · intro x pos
    rw [total] at pos
    obtain ⟨r', got, data⟩ := c.named pos
    by_cases same : x = h
    · subst same
      exact ⟨{ r with data := some d }, by simp, rfl⟩
    · exact ⟨r', by simp [same, got], data⟩

/-- The first lines of `commit`: a request nothing names leaves, its parents among the namings
whose counters are still to be lowered. -/
theorem remove (c : Counted t owed) {k : List UInt8} {r : Request} (found : t.get k = some r)
    (free : (parentRefs t ++ owed).count k = 0) : Counted (t.remove k) (r.parents ++ owed) := by
  have total : ∀ x, (parentRefs (t.remove k) ++ (r.parents ++ owed)).count x = (parentRefs t ++ owed).count x := by
    intro x
    simp only [List.count_append, count_parentRefs_remove c.nodup found x]
    omega
  refine ⟨Table.nodup_keys_remove c.nodup _, ?_, ?_, ?_, ?_⟩
  · intro h r' got
    exact c.keyed (get_remove_eq_some got).2
  · intro h r' got
    exact c.node (get_remove_eq_some got).2
  · intro h r' got
    rw [total]
    exact c.counted (get_remove_eq_some got).2
  · intro x pos
    rw [total] at pos
    obtain ⟨r', got, data⟩ := c.named pos
    have other : x ≠ k := by
      rintro rfl
      omega
    exact ⟨r', by simp [other, got], data⟩

/-- `commit` lowering the counter of one parent it releases. -/
theorem release (c : Counted t (owed)) {p : List UInt8} {rest : List (List UInt8)} (hp : owed = p :: rest)
    {r : Request} (found : t.get p = some r) : Counted (t.set p { r with deps := r.deps - 1 }) rest := by
  subst hp
  have refs : ∀ x, (parentRefs (t.set p { r with deps := r.deps - 1 })).count x = (parentRefs t).count x := by
    intro x
    have swapped := count_parentRefs_set c.nodup found { r with deps := r.deps - 1 } x
    dsimp only at swapped
    omega
  refine ⟨Table.nodup_keys_set c.nodup _ _, ?_, ?_, ?_, ?_⟩
  · intro h r' got
    rcases get_set_eq_some got with ⟨rfl, rfl⟩ | ⟨-, got⟩
    · exact (c.keyed found :)
    · exact c.keyed got
  · intro h r' got
    rcases get_set_eq_some got with ⟨rfl, rfl⟩ | ⟨-, got⟩
    · exact (c.node found :)
    · exact c.node got
  · intro h r' got
    have before := fun {r} (found : t.get h = some r) => c.counted found
    simp only [List.count_append, List.count_cons, refs] at before ⊢
    rcases get_set_eq_some got with ⟨rfl, rfl⟩ | ⟨other, got⟩
    · have := before found
      simp only [beq_self_eq_true, if_true] at this
      push_cast at this ⊢
      omega
    · simpa [Ne.symm other] using before got
  · intro x pos
    have old : 0 < (parentRefs t ++ p :: rest).count x := by
      simp only [List.count_append, List.count_cons, refs] at pos ⊢
      omega
    obtain ⟨r', got, data⟩ := c.named old
    by_cases same : x = p
    · subst same
      rw [found] at got
      cases got
      exact ⟨{ r with deps := r.deps - 1 }, by simp, data⟩
    · exact ⟨r', by simp [same, got], data⟩

/-- The invariant rule of the loop of `commit` over the parents it releases: a property of the
state and the namings to come, which carries the bookkeeping, and which lowering a parent and
committing a processed request nothing names both keep. -/
theorem release_invariant (I : TrieSync → List (List UInt8) → Prop) (commit : TrieSync → Request → TrieSync)
    (counted : ∀ {s owed}, I s owed → Counted s.requests owed)
    (lowered : ∀ {s p rest parent}, I s (p :: rest) → s.requests.get p = some parent →
      I { s with requests := s.requests.set p { parent with deps := parent.deps - 1 } } rest)
    (nested : ∀ {s parent owed}, I s owed → s.requests.get parent.hash = some parent → parent.data.isSome →
      (parentRefs s.requests ++ owed).count parent.hash = 0 → I (commit s parent) owed) :
    ∀ (parents : List (List UInt8)) {s : TrieSync} {owed : List (List UInt8)}, I s (parents ++ owed) →
      I (parents.foldl (TrieSync.releaseWith commit) s) owed
  | [], _, _, holds => holds
  | p :: ps, s, owed, holds => by
      rw [List.foldl_cons]
      apply release_invariant I commit counted lowered nested ps
      unfold TrieSync.releaseWith
      split
      · -- what is named is pending
        rename_i absent
        have named := (counted holds).count_eq_zero_of_get_eq_none absent
        simp at named
      rename_i parent found
      have released := lowered holds found
      simp only [List.append_eq] at released
      have c := counted holds
      dsimp only
      split
      · rename_i zero
        have keyed : parent.hash = p := c.keyed found
        obtain ⟨r, got, processed⟩ := c.named (p := p) (by simp)
        rw [found] at got
        cases got
        have free := (counted released).counted (h := p) (r := { parent with deps := parent.deps - 1 }) (by simp)
        refine nested released (by simp [keyed]) processed ?_
        dsimp only at free zero ⊢
        rw [keyed] at free ⊢
        omega
      · exact released

/-- `commit` over its whole cascade keeps the bookkeeping, a request nothing names leaving it. -/
theorem commitFuel (fuel : Nat) :
    ∀ {s : TrieSync} {req r : Request} {owed : List (List UInt8)}, Counted s.requests owed →
      s.requests.get req.hash = some r → r.parents = req.parents →
      (parentRefs s.requests ++ owed).count req.hash = 0 → Counted (s.commitFuel fuel req).requests owed := by
  induction fuel with
  | zero =>
      intro s req r owed c _ _ _
      exact c
  | succ fuel ih =>
      intro s req r owed c found parents free
      have stored : Counted (s.store req).requests (req.parents ++ owed) := by
        rw [← parents]
        exact c.remove found free
      exact release_invariant (fun s owed => Counted s.requests owed) _ id (fun holds found => holds.release rfl found)
        (fun holds found _ free => ih holds found rfl free) req.parents stored

theorem commit {s : TrieSync} {req r : Request} {owed : List (List UInt8)} (c : Counted s.requests owed)
    (found : s.requests.get req.hash = some r) (parents : r.parents = req.parents)
    (free : (parentRefs s.requests ++ owed).count req.hash = 0) : Counted (s.commit req).requests owed :=
  commitFuel _ c found parents free

/-- `link` under a parent that is the zero hash or pending and processed. -/
theorem link {s s' : TrieSync} {req : Request} {parent : List UInt8} (c : Counted s.requests [])
    (parentOk : parent ≠ zeroHash → ∃ r, s.requests.get parent = some r ∧ r.data.isSome)
    (fresh : req.data = none) (zero : req.deps = 0) (bare : req.parents = []) (linked : s.link req parent = .ok s') :
    Counted s'.requests [] := by
  rcases TrieSync.link_ok linked with ⟨-, rfl⟩ | ⟨ancestor, nonzero, found, rfl⟩
  · exact Counted.schedule (by simpa [bare] using c) fresh zero
  · obtain ⟨r, got, processed⟩ := parentOk nonzero
    rw [found] at got
    cases got
    have raised := c.raise found processed 1
    simp only [Nat.cast_one, List.replicate_one, List.append_nil] at raised
    exact Counted.schedule (by simpa [bare] using raised) fresh zero

variable {env : SyncEnv}

theorem addSubTrie {s s' : TrieSync} {root parent : List UInt8} {depth : Int} {callback : Bool}
    (c : Counted s.requests []) (parentOk : parent ≠ zeroHash → ∃ r, s.requests.get parent = some r ∧ r.data.isSome)
    (added : s.addSubTrie env root depth parent callback = .ok s') : Counted s'.requests [] := by
  rcases TrieSync.addSubTrie_ok added with rfl | ⟨-, -, -, linked⟩
  · exact c
  · exact c.link parentOk rfl rfl rfl linked

theorem addRawEntry {s s' : TrieSync} {hash parent : List UInt8} {depth : Int}
    (c : Counted s.requests []) (parentOk : parent ≠ zeroHash → ∃ r, s.requests.get parent = some r ∧ r.data.isSome)
    (added : s.addRawEntry env hash depth parent = .ok s') : Counted s'.requests [] := by
  rcases TrieSync.addRawEntry_ok added with rfl | ⟨-, -, -, linked⟩
  · exact c
  · exact c.link parentOk rfl rfl rfl linked

theorem attach {s s' : TrieSync} {parent : List UInt8} {a : Attach} (c : Counted s.requests [])
    (parentOk : parent ≠ zeroHash → ∃ r, s.requests.get parent = some r ∧ r.data.isSome)
    (attached : s.attach env parent a = .ok s') : Counted s'.requests [] := by
  cases a with
  | subTrie root depth => exact c.addSubTrie parentOk attached
  | rawEntry hash depth => exact c.addRawEntry parentOk attached

/-- The recursion of `commit` is never cut short: each nested call commits a pending request, so
any fuel above the number of pending requests gives the same result. -/
theorem commitFuel_enough (fuel : Nat) :
    ∀ {s : TrieSync} {req r : Request} {owed : List (List UInt8)}, Counted s.requests owed →
      s.requests.get req.hash = some r → r.parents = req.parents →
      (parentRefs s.requests ++ owed).count req.hash = 0 → ∀ fuel', s.requests.length < fuel →
      s.requests.length < fuel' → s.commitFuel fuel req = s.commitFuel fuel' req := by
  induction fuel with
  | zero =>
      intro s req r owed _ _ _ _ fuel' small _
      omega
  | succ fuel ih =>
      intro s req r owed c found parents free fuel' small small'
      obtain _ | fuel' := fuel'
      · omega
      have stored : Counted (s.store req).requests (req.parents ++ owed) := by
        rw [← parents]
        exact c.remove found free
      have shrunk : (s.store req).requests.length < s.requests.length := Table.length_remove_lt found
      rw [TrieSync.commitFuel, TrieSync.commitFuel]
      -- along the loop: the bookkeeping, and fewer pending requests than either fuel
      refine Loop.foldl_congr_invariant _ _
        (fun rest (acc : TrieSync) => Counted acc.requests (rest ++ owed) ∧ acc.requests.length < s.requests.length)
        ?_ req.parents _ ⟨stored, shrunk⟩
      intro p rest acc ⟨c', bound⟩
      unfold TrieSync.releaseWith
      split
      · rename_i absent
        have named := c'.count_eq_zero_of_get_eq_none absent
        simp at named
      rename_i parent got
      have released : Counted (acc.requests.set p { parent with deps := parent.deps - 1 }) (rest ++ owed) :=
        c'.release rfl got
      have lowered := Table.length_set_le got { parent with deps := parent.deps - 1 }
      dsimp only
      split
      · rename_i zero
        have keyed : parent.hash = p := c'.keyed got
        have counted := released.counted (h := p) (r := { parent with deps := parent.deps - 1 }) (by simp)
        have free' : (parentRefs (acc.requests.set p { parent with deps := parent.deps - 1 }) ++ (rest ++ owed)).count
            parent.hash = 0 := by
          dsimp only at counted zero
          rw [keyed] at counted ⊢
          omega
        have pending : ({ acc with requests := acc.requests.set p { parent with deps := parent.deps - 1 } } : TrieSync).requests.get
            ({ parent with deps := parent.deps - 1 } : Request).hash = some { parent with deps := parent.deps - 1 } := by
          simp [keyed]
        refine ⟨ih released pending rfl free' fuel' (by simp; omega) (by simp; omega), ?_⟩
        exact ⟨Counted.commitFuel fuel released pending rfl free',
          (TrieSync.length_commitFuel_le fuel _ _).trans_lt (by simp; omega)⟩
      · exact ⟨rfl, released, by simp; omega⟩

/-- The callbacks of `children` keep the bookkeeping, under a node that is pending and processed. -/
theorem gather {s : TrieSync} {req r : Request} {acc : List Request} (kids : List (Node × Int))
    (c : Counted s.requests []) (found : s.requests.get req.hash = some r) (processed : r.data.isSome) :
    Counted (TrieSync.gather env req s acc kids).1.requests [] := by
  have kept : Counted (TrieSync.gather env req s acc kids).1.requests [] ∧ TrieSync.Grows s (TrieSync.gather env req s acc kids).1 :=
    TrieSync.gather_invariant (fun s' => Counted s'.requests [] ∧ TrieSync.Grows s s') ?_ kids ⟨c, TrieSync.Grows.refl s⟩
  · exact kept.1
  intro s₁ s₂ child ⟨c₁, grown⟩ notified
  refine TrieSync.notify_invariant (fun s' => Counted s'.requests [] ∧ TrieSync.Grows s s')
    ?_ ⟨c₁, grown⟩ notified
  intro s₁ s₂ a ⟨c₁, grown⟩ attached
  refine ⟨c₁.attach ?_ attached, grown.trans (TrieSync.grows_attach attached)⟩
  intro _
  obtain ⟨r', got, body, -⟩ := grown.extend req.hash r found
  exact ⟨r', got, by rw [Request.data_eq_of_body body]; exact processed⟩

/-- A result `Process` accepts keeps the bookkeeping. -/
theorem processItem {s s' : TrieSync} {item : SyncResult} {b : Bool} (c : Counted s.requests [])
    (processed : s.processItem env item = (s', .ok b)) : Counted s'.requests [] := by
  obtain ⟨r, found, unprocessed, ⟨-, rfl⟩ | ⟨node, s₁, requests, notRaw, -, gathered, finish⟩⟩ :=
    TrieSync.processItem_ok processed
  · have keyed : r.hash = item.hash := c.keyed found
    exact c.commit (r := r) (by simpa [keyed] using found) rfl
      (by simpa [keyed] using c.count_eq_zero_of_unprocessed found unprocessed)
  have keyed : r.hash = item.hash := c.keyed found
  obtain ⟨kids, -, gathered⟩ := TrieSync.children_ok gathered
  let s₀ : TrieSync := { s with requests := s.requests.set item.hash { r with data := some item.data } }
  have found₀ : s₀.requests.get ({ r with data := some item.data } : Request).hash = some { r with data := some item.data } := by
    simp [s₀, keyed]
  have c₁ : Counted s₁.requests [] := by
    have counted : Counted (TrieSync.gather env { r with data := some item.data } s₀ [] kids).1.requests [] :=
      gather kids (c.setData found notRaw item.data) found₀ rfl
    rwa [gathered] at counted
  have grown : TrieSync.Grows s₀ s₁ := by
    have grown : TrieSync.Grows s₀ (TrieSync.gather env { r with data := some item.data } s₀ [] kids).1 :=
      TrieSync.grows_gather kids
    rwa [gathered] at grown
  obtain ⟨r₁, found₁, body₁, -⟩ := grown.extend item.hash { r with data := some item.data } (by simp [s₀])
  rw [found₁] at finish
  dsimp only [Option.getD] at finish
  rcases finish with ⟨-, zero, rfl⟩ | ⟨-, rfl⟩
  · have keyed₁ : r₁.hash = item.hash := c₁.keyed found₁
    refine c₁.commit (r := r₁) (by simpa [keyed₁] using found₁) rfl ?_
    have := c₁.counted found₁
    rw [keyed₁]
    omega
  · -- every child request names the node once, as the raised counter has booked
    have processed₁ : r₁.data.isSome := by
      rw [Request.data_eq_of_body body₁]
      rfl
    have raised := c₁.raise found₁ processed₁ requests.length
    obtain ⟨more, same, fresh⟩ := TrieSync.gather_requests _ gathered
    rw [List.nil_append] at same
    subst same
    rw [show ([] : List (List UInt8)) = List.replicate (requests.length - requests.length) item.hash by simp]
    refine Loop.foldl_invariant TrieSync.schedule
      (fun done (acc : TrieSync) => Counted acc.requests (List.replicate (requests.length - done.length) item.hash)) requests
      ?_ (by simpa using raised)
    intro done q rest acc whole holds
    obtain ⟨qFresh, qZero, qParents⟩ := fresh q (by rw [← whole]; simp)
    have count : requests.length - done.length = (requests.length - (done ++ [q]).length) + 1 := by
      rw [← whole]
      simp
      omega
    rw [count, List.replicate_succ] at holds
    refine Counted.schedule ?_ qFresh qZero
    simpa [qParents, keyed] using holds

end Counted

end Mjoy.Trie
