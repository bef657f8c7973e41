import Mjoy.Trie.Shape

/-!
`insert` and `delete` on a resolved trie of the minimal shape, at a complete key:
both keep the shape, change the value at that key only, and never panic.
-/

namespace Mjoy.Trie

/-! ### Complete key paths -/

theorem terminated_prefix_eq {a b : List UInt8} (left : Terminated a) (right : Terminated b)
    (isPrefix : a <+: b) : a = b := by
  obtain ⟨rest, rfl⟩ := isPrefix
  by_cases empty : rest = []
  · simp [empty]
  · exact (Tree.terminated_not_extended left empty (Or.inr right)).elim

theorem terminated_of_nibbles_append {key rest : List UInt8} (small : Nibbles key)
    (term : Terminated (key ++ rest)) : Terminated rest := by
  obtain ⟨body, bodySmall, bodyEq⟩ := term
  have nonempty : rest ≠ [] := by
    rintro rfl
    have member : terminator ∈ key := by
      rw [List.append_nil] at bodyEq
      simp [bodyEq]
    have tooBig := small terminator member
    simp [terminator] at tooBig
  have sameBody : key ++ rest.dropLast = body := by
    have dropped := congrArg List.dropLast bodyEq
    rwa [List.dropLast_append_of_ne_nil nonempty, List.dropLast_concat] at dropped
  have last : rest.getLast nonempty = terminator := by
    have lastEq := congrArg List.getLast? bodyEq
    rw [List.getLast?_append, List.getLast?_eq_some_getLast nonempty, List.getLast?_concat] at lastEq
    simpa using lastEq
  refine ⟨rest.dropLast, fun x member => bodySmall x ?_, ?_⟩
  · rw [← sameBody]
    exact List.mem_append_right _ member
  · rw [← last, List.dropLast_concat_getLast]

theorem terminated_drop {key path : List UInt8} (small : Nibbles key) (isPrefix : key <+: path)
    (term : Terminated path) : Terminated (path.drop key.length) := by
  obtain ⟨rest, rfl⟩ := isPrefix
  rw [List.drop_left]
  exact terminated_of_nibbles_append small term

/-- The nibbles of a complete key path select slots. -/
theorem terminated_head_slot {b : UInt8} {rest : List UInt8} (term : Terminated (b :: rest)) :
    ∃ i : Fin 17, slot b = some i ∧ i.val.toUInt8 = b ∧ (i.val < 16 → Terminated rest) ∧
      (i.val = 16 → rest = []) := by
  obtain ⟨body, small, bodyEq⟩ := term
  cases body with
  | nil =>
      simp only [List.nil_append, List.cons.injEq] at bodyEq
      obtain ⟨rfl, rfl⟩ := bodyEq
      exact ⟨16, by decide, by decide, by simp, fun _ => rfl⟩
  | cons first others =>
      simp only [List.cons_append, List.cons.injEq] at bodyEq
      obtain ⟨headEq, restEq⟩ := bodyEq
      have lt : b < 16 := headEq ▸ small first (by simp)
      have natLt : b.toNat < 16 := by simpa [UInt8.lt_iff_toNat_lt] using lt
      refine ⟨⟨b.toNat, by omega⟩, Tree.slot_of_lt (by omega), ?_, ?_, ?_⟩
      · simp [Nat.toUInt8]
      · intro _
        exact ⟨others, fun y member => small y (by simp [member]), restEq⟩
      · intro sixteen
        simp only at sixteen
        omega

/-- Slot `i` is selected by exactly one nibble. -/
theorem slot_eq_some_iff {b : UInt8} {i : Fin 17} : slot b = some i ↔ i.val.toUInt8 = b := by
  constructor
  · intro found
    unfold slot at found
    split at found
    · cases found
      simp [Nat.toUInt8]
    · cases found
  · rintro rfl
    exact Tree.slot_toUInt8 i

theorem slot_toUInt8_inj {i j : Fin 17} (same : i.val.toUInt8 = j.val.toUInt8) : i = j := by
  have found := Tree.slot_toUInt8 i
  rw [same, Tree.slot_toUInt8] at found
  exact (Option.some.inj found).symm

theorem prefix_of_prefixLen {key nkey : List UInt8} (matched : prefixLen key nkey = nkey.length) :
    nkey <+: key := by
  rw [List.prefix_iff_eq_take]
  have taken := take_prefixLen key nkey
  rw [matched, List.take_length] at taken
  exact taken.symm

theorem prefixLen_of_prefix {key nkey : List UInt8} (isPrefix : nkey <+: key) :
    prefixLen key nkey = nkey.length := by
  obtain ⟨rest, rfl⟩ := isPrefix
  rw [prefixLen_comm]
  simpa [prefixLen] using prefixLen_append nkey [] rest

namespace Tree

/-- `u` holds what `t` holds at every complete key path, except `result` at `key`. -/
def Updated (t u : Tree) (key : List UInt8) (result : Option (List UInt8)) : Prop :=
  ∀ path, Terminated path → u.get path = if path = key then some result else t.get path

/-! ### Lookup through the nodes `insert` and `delete` build -/

theorem get_short_nil (v : Tree) (path : List UInt8) : get (short [] v) path = get v path := by
  simp [get_short]

theorem get_short_cons (x c : UInt8) (key rest : List UInt8) (v : Tree) :
    get (short (x :: key) v) (c :: rest) = if x = c then get (short key v) rest else some none := by
  by_cases same : x = c
  · subst same
    simp [get_short]
  · simp [get_short, same]

theorem get_short_append_left (pre key rest : List UInt8) (v : Tree) :
    get (short (pre ++ key) v) (pre ++ rest) = get (short key v) rest := by
  simp only [get_short, List.prefix_append_right_inj, List.length_append, List.drop_length_add_append]

/-- Merging a short node into its short child, as `delete` does, keeps every lookup. -/
theorem get_short_short (key inner : List UInt8) (v : Tree) (path : List UInt8) :
    get (short (key ++ inner) v) path = get (short key (short inner v)) path := by
  by_cases isPrefix : key <+: path
  · obtain ⟨rest, rfl⟩ := isPrefix
    rw [get_short_append_left, get_short_append]
  · have notLonger : ¬key ++ inner <+: path := fun longer => isPrefix ((List.prefix_append _ _).trans longer)
    simp [get_short, isPrefix, notLonger]

theorem get_leaf (key : List UInt8) (v : Tree) (path : List UInt8) :
    get (leaf key v) path = get (short key v) path := by
  by_cases empty : key = []
  · subst empty
    simp [leaf, get_short_nil]
  · simp [leaf, empty]

theorem get_collapse (pos : Fin 17) (child : Tree) (c : UInt8) (rest : List UInt8) :
    get (collapse pos child) (c :: rest) = if pos.val.toUInt8 = c then get child rest else some none := by
  unfold collapse
  split
  · split
    · rw [get_short_cons]
    · rw [get_short_cons, get_short_nil]
  · rw [get_short_cons, get_short_nil]

/-! ### Updates below short and full nodes -/

theorem updated_short {nkey rest : List UInt8} {nval nn : Tree} {result : Option (List UInt8)}
    (small : Nibbles nkey) (below : Updated nval nn rest result) :
    Updated (short nkey nval) (short nkey nn) (nkey ++ rest) result := by
  intro path term
  by_cases isPrefix : nkey <+: path
  · obtain ⟨q, rfl⟩ := isPrefix
    rw [get_short_append, get_short_append, below q (terminated_of_nibbles_append small term)]
    simp
  · have other : path ≠ nkey ++ rest := by
      rintro rfl
      exact isPrefix (List.prefix_append _ _)
    simp [get_short, isPrefix, other]

theorem updated_short_terminal {nkey : List UInt8} {nval nn : Tree} {result : Option (List UInt8)}
    (term : Terminated nkey) (found : nn.get [] = some result) :
    Updated (short nkey nval) (short nkey nn) nkey result := by
  intro path pathTerm
  by_cases isPrefix : nkey <+: path
  · have same := terminated_prefix_eq term pathTerm isPrefix
    subst same
    simpa [get_short] using found
  · have other : path ≠ nkey := by
      rintro rfl
      exact isPrefix (List.prefix_refl _)
    simp [get_short, isPrefix, other]

/-- The update of slot `i` of a full node, given what it does below that slot. -/
theorem updated_full {children : Fin 17 → Tree} {i : Fin 17} {nn : Tree} {rest : List UInt8}
    {result : Option (List UInt8)}
    (below : ∀ q, (i.val < 16 → Terminated q) → (i.val = 16 → q = []) →
      nn.get q = if q = rest then some result else (children i).get q) :
    Updated (full children) (full (Function.update children i nn)) (i.val.toUInt8 :: rest) result := by
  intro path term
  obtain ⟨c, q, rfl⟩ := List.exists_cons_of_ne_nil (terminated_ne_nil term)
  obtain ⟨k, _, kByte, qTerm, qEmpty⟩ := terminated_head_slot term
  subst kByte
  rw [get_full_cons, get_full_cons]
  by_cases same : k = i
  · subst same
    rw [Function.update_self, below q qTerm qEmpty]
    simp
  · have other : k.val.toUInt8 ≠ i.val.toUInt8 := fun byteEq => same (slot_toUInt8_inj byteEq)
    simp [Function.update_of_ne same, other]

/-- A full node with a single remaining child reads like the node `collapse` makes of it. -/
theorem get_collapse_single {children : Fin 17 → Tree} {pos : Fin 17}
    (single : ∀ k, k ≠ pos → children k = nil) {path : List UInt8} (term : Terminated path) :
    get (collapse pos (children pos)) path = get (full children) path := by
  obtain ⟨c, q, rfl⟩ := List.exists_cons_of_ne_nil (terminated_ne_nil term)
  obtain ⟨k, _, kByte, -, -⟩ := terminated_head_slot term
  subst kByte
  rw [get_collapse, get_full_cons]
  by_cases same : k = pos
  · subst same
    simp
  · have other : pos.val.toUInt8 ≠ k.val.toUInt8 := fun byteEq => same (slot_toUInt8_inj byteEq).symm
    simp [other, single k same]

end Tree

/-! ### The loop of `delete` that looks for the one remaining child -/

theorem foldl_posStep_stuck (present : Fin 17 → Bool) (l : List (Fin 17)) :
    l.foldl (posStep present) (-2) = -2 := by
  induction l with
  | nil => rfl
  | cons i l ih => simpa [posStep] using ih

theorem foldl_posStep_none (present : Fin 17 → Bool) (l : List (Fin 17))
    (absent : ∀ k ∈ l, present k = false) : l.foldl (posStep present) (-1) = -1 := by
  induction l with
  | nil => rfl
  | cons k l ih =>
      have step : posStep present (-1) k = -1 := by simp [posStep, absent k List.mem_cons_self]
      rw [List.foldl_cons, step]
      exact ih fun j jIn => absent j (List.mem_cons_of_mem _ jIn)

/-- Once a child is found, the loop ends at it unless it meets a second one. -/
theorem foldl_posStep_found (present : Fin 17 → Bool) (l : List (Fin 17)) {pos : Int} (found : 0 ≤ pos) :
    l.foldl (posStep present) pos = if ∀ k ∈ l, present k = false then pos else -2 := by
  induction l with
  | nil => simp
  | cons k l ih =>
      by_cases here : present k = true
      · have step : posStep present pos k = -2 := by
          simp only [posStep, here, if_true]
          split <;> omega
        simp [step, foldl_posStep_stuck, here]
      · have step : posStep present pos k = pos := by
          simp only [posStep, here]
          split <;> simp_all
        simp only [List.foldl_cons, step, ih, List.mem_cons, forall_eq_or_imp]
        simp [here]

theorem foldl_posStep_single (present : Fin 17 → Bool) {l : List (Fin 17)} (nodup : l.Nodup)
    {pos : Fin 17} (member : pos ∈ l) (here : present pos = true)
    (only : ∀ k ∈ l, present k = true → k = pos) : l.foldl (posStep present) (-1) = pos := by
  induction l with
  | nil => simp at member
  | cons k l ih =>
      obtain ⟨notIn, nodupRest⟩ := List.nodup_cons.mp nodup
      by_cases same : k = pos
      · subst same
        have rest : ∀ j ∈ l, present j = false := by
          intro j jIn
          by_contra jHere
          have := only j (List.mem_cons_of_mem _ jIn) (by simpa using jHere)
          exact notIn (this ▸ jIn)
        have step : posStep present (-1) k = k := by simp [posStep, here]
        rw [List.foldl_cons, step, foldl_posStep_found present l (by omega), if_pos rest]
      · have absent : present k = false := by
          by_contra kHere
          exact same (only k List.mem_cons_self (by simpa using kHere))
        have step : posStep present (-1) k = -1 := by simp [posStep, absent]
        rw [List.foldl_cons, step]
        exact ih nodupRest ((List.mem_cons.mp member).resolve_left (Ne.symm same))
          fun j jIn => only j (List.mem_cons_of_mem _ jIn)

theorem foldl_posStep_two (present : Fin 17 → Bool) {l : List (Fin 17)} {i j : Fin 17}
    (iIn : i ∈ l) (jIn : j ∈ l) (different : i ≠ j) (iHere : present i = true)
    (jHere : present j = true) : l.foldl (posStep present) (-1) = -2 := by
  induction l with
  | nil => simp at iIn
  | cons k l ih =>
      by_cases kHere : present k = true
      · -- the first present child is found here; the other of `i` and `j` comes later
        have step : posStep present (-1) k = k := by simp [posStep, kHere]
        have later : ∃ other ∈ l, present other = true := by
          by_cases isI : k = i
          · subst isI
            exact ⟨j, (List.mem_cons.mp jIn).resolve_left (Ne.symm different), jHere⟩
          · exact ⟨i, (List.mem_cons.mp iIn).resolve_left (Ne.symm isI), iHere⟩
        obtain ⟨other, otherIn, otherHere⟩ := later
        rw [List.foldl_cons, step, foldl_posStep_found present l (by omega)]
        have notAll : ¬∀ k ∈ l, present k = false := fun all => by simp [all other otherIn] at otherHere
        simp [notAll]
      · have step : posStep present (-1) k = -1 := by simp [posStep, kHere]
        have iRest : i ∈ l := (List.mem_cons.mp iIn).resolve_left fun same => kHere (same ▸ iHere)
        have jRest : j ∈ l := (List.mem_cons.mp jIn).resolve_left fun same => kHere (same ▸ jHere)
        rw [List.foldl_cons, step]
        exact ih iRest jRest

theorem remainingPos_single {present : Fin 17 → Bool} {pos : Fin 17} (here : present pos = true)
    (only : ∀ k, present k = true → k = pos) : remainingPos present = pos :=
  foldl_posStep_single present (List.nodup_finRange 17) (List.mem_finRange pos) here
    fun k _ => only k

theorem remainingPos_two {present : Fin 17 → Bool} {i j : Fin 17} (different : i ≠ j)
    (iHere : present i = true) (jHere : present j = true) : remainingPos present = -2 :=
  foldl_posStep_two present (List.mem_finRange i) (List.mem_finRange j) different iHere jHere

namespace Tree

@[simp] theorem isNil_iff (t : Tree) : t.isNil = true ↔ t = nil := by
  cases t <;> simp [isNil]

@[simp] theorem isNil_eq_false_iff (t : Tree) : t.isNil = false ↔ t ≠ nil := by
  cases t <;> simp [isNil]

theorem reduce_single {children : Fin 17 → Tree} {pos : Fin 17} (present : children pos ≠ nil)
    (single : ∀ k, k ≠ pos → children k = nil) : reduce children = collapse pos (children pos) := by
  have found : remainingPos (fun i => !(children i).isNil) = pos := by
    refine remainingPos_single (by simpa using present) fun k kHere => ?_
    by_contra other
    simp [single k other] at kHere
  simp [reduce, found]

theorem reduce_two {children : Fin 17 → Tree} {i j : Fin 17} (different : i ≠ j)
    (iPresent : children i ≠ nil) (jPresent : children j ≠ nil) : reduce children = full children := by
  have many : remainingPos (fun i => !(children i).isNil) = -2 :=
    remainingPos_two different (by simpa using iPresent) (by simpa using jPresent)
  simp [reduce, many]

/-- `reduce` never changes what a full node holds. -/
theorem get_reduce (children : Fin 17 → Tree) {path : List UInt8} (term : Terminated path) :
    get (reduce children) path = get (full children) path := by
  by_cases some : ∃ pos, children pos ≠ nil
  · obtain ⟨pos, present⟩ := some
    by_cases more : ∃ k, k ≠ pos ∧ children k ≠ nil
    · obtain ⟨k, different, kPresent⟩ := more
      rw [reduce_two different kPresent present]
    · push Not at more
      rw [reduce_single present more, get_collapse_single more term]
  · push Not at some
    have none : remainingPos (fun i => !(children i).isNil) = -1 := by
      exact foldl_posStep_none _ _ fun k _ => by simp [some k]
    simp [reduce, none]

end Tree

namespace Tree

/-! ### The shape of what `insert` and `delete` build -/

theorem two_le_childCount {children : Fin 17 → Tree} {i j : Fin 17} (different : i ≠ j)
    (iPresent : children i ≠ nil) (jPresent : children j ≠ nil) : 2 ≤ childCount children := by
  have many : 1 < (Finset.univ.filter fun k => (children k).isNil = false).card :=
    Finset.one_lt_card.mpr ⟨i, by simpa using iPresent, j, by simpa using jPresent, different⟩
  exact many

/-- Setting a non-nil child of a full node of the minimal shape keeps the shape. -/
theorem full_update_compact {children : Fin 17 → Tree} {i : Fin 17} {nn : Tree}
    (compact : (full children).Compact) (present : nn ≠ nil) (inner : i.val < 16 → nn.Compact)
    (terminal : i.val = 16 → nn.IsValue) : (full (Function.update children i nn)).Compact := by
  obtain ⟨two, innerShape, terminalShape⟩ := compact
  obtain ⟨a, b, different, aPresent, bPresent⟩ := childCount_two two
  -- one of the two children that were there is not the one replaced
  have other : ∃ k, k ≠ i ∧ children k ≠ nil := by
    by_cases isA : a = i
    · exact ⟨b, fun isB => different (isA.trans isB.symm), bPresent⟩
    · exact ⟨a, isA, aPresent⟩
  obtain ⟨k, notI, kPresent⟩ := other
  refine ⟨two_le_childCount (Ne.symm notI) (by simpa using present)
    (by rwa [Function.update_of_ne notI]), fun j small => ?_, ?_⟩
  · by_cases same : j = i
    · subst same
      exact Or.inr (by simpa using inner small)
    · simpa [Function.update_of_ne same] using innerShape j small
  · by_cases same : (16 : Fin 17) = i
    · subst same
      exact Or.inr (by simpa using terminal rfl)
    · simpa [Function.update_of_ne same] using terminalShape

theorem collapse_compact {pos : Fin 17} {child : Tree} (inner : pos.val < 16 → child.Compact)
    (terminal : pos.val = 16 → child.IsValue) : (collapse pos child).Compact := by
  by_cases small : pos.val < 16
  · have notLast : pos.val ≠ 16 := by omega
    have nibble := slot_nibble_lt pos small
    cases child with
    | nil => exact (inner small).elim
    | value _ => exact (inner small).elim
    | short ckey cval =>
        have merged : collapse pos (short ckey cval) = short (pos.val.toUInt8 :: ckey) cval := by
          simp [collapse, notLast]
        rw [merged]
        obtain ⟨_, ⟨keySmall, isFull, valCompact⟩ | ⟨keyTerm, isValue⟩⟩ := inner small
        · refine ⟨by simp, Or.inl ⟨?_, isFull, valCompact⟩⟩
          simpa using nibbles_append (a := [pos.val.toUInt8]) (by simpa [Nibbles] using nibble) keySmall
        · exact ⟨by simp, Or.inr ⟨terminated_cons nibble keyTerm, isValue⟩⟩
    | full children =>
        exact ⟨by simp, Or.inl ⟨by simpa [Nibbles] using nibble, rfl, inner small⟩⟩
  · have last : pos = 16 := by ext; simp; omega
    subst last
    obtain ⟨v, rfl, nonempty⟩ := terminal rfl
    exact ⟨by simp, Or.inr ⟨by rw [terminal_slot_path]; exact terminated_single, v, rfl, nonempty⟩⟩

/-- `reduce` turns a full node of the minimal shape, one child of which may have gone,
back into a node of that shape. -/
theorem reduce_compact {children : Fin 17 → Tree} {j : Fin 17}
    (inner : ∀ i : Fin 17, i.val < 16 → children i = nil ∨ (children i).Compact)
    (terminal : children 16 = nil ∨ (children 16).IsValue) (present : children j ≠ nil) :
    (reduce children).Compact := by
  by_cases more : ∃ k, k ≠ j ∧ children k ≠ nil
  · obtain ⟨k, different, kPresent⟩ := more
    rw [reduce_two different kPresent present]
    exact ⟨two_le_childCount different kPresent present, inner, terminal⟩
  · push Not at more
    rw [reduce_single present more]
    refine collapse_compact (fun small => (inner j small).resolve_left present) fun last => ?_
    have isLast : j = 16 := by ext; simpa using last
    subst isLast
    exact terminal.resolve_left present

end Tree

namespace Tree

/-! ### Splitting a short node -/

theorem compact_short_suffix {pre rest : List UInt8} {v : Tree} (nonempty : rest ≠ [])
    (compact : (short (pre ++ rest) v).Compact) : (short rest v).Compact := by
  obtain ⟨_, shape⟩ := compact
  have preSmall : Nibbles pre := by
    intro x member
    refine key_dropLast_lt (shape.imp (fun inner => inner.1) (fun inner => inner.1)) x ?_
    rw [List.dropLast_append_of_ne_nil nonempty]
    exact List.mem_append_left _ member
  rcases shape with ⟨small, isFull, valCompact⟩ | ⟨term, isValue⟩
  · exact ⟨nonempty, Or.inl ⟨fun x member => small x (List.mem_append_right _ member), isFull, valCompact⟩⟩
  · exact ⟨nonempty, Or.inr ⟨terminated_of_nibbles_append preSmall term, isValue⟩⟩

/-- What stands below a slot after a split: the node for the rest of a short node's key. -/
theorem leaf_fits {b : UInt8} {rest : List UInt8} {v : Tree} (compact : (short (b :: rest) v).Compact) :
    ∃ i, slot b = some i ∧ (i.val < 16 → (leaf rest v).Compact) ∧ (i.val = 16 → (leaf rest v).IsValue) := by
  obtain ⟨_, ⟨small, isFull, valCompact⟩ | ⟨term, isValue⟩⟩ := compact
  · have nibble : b < 16 := small b List.mem_cons_self
    have natSmall : b.toNat < 16 := by simpa [UInt8.lt_iff_toNat_lt] using nibble
    refine ⟨⟨b.toNat, by omega⟩, slot_of_lt (by omega), fun _ => ?_, fun last => by simp at last; omega⟩
    by_cases empty : rest = []
    · simpa [leaf, empty] using valCompact
    · simp only [leaf, empty, if_false]
      exact ⟨empty, Or.inl ⟨fun x member => small x (List.mem_cons_of_mem _ member), isFull, valCompact⟩⟩
  · obtain ⟨i, found, _, restTerm, restEmpty⟩ := terminated_head_slot term
    refine ⟨i, found, fun small => ?_, fun last => ?_⟩
    · have restNonempty := terminated_ne_nil (restTerm small)
      simp only [leaf, restNonempty, if_false]
      exact ⟨restNonempty, Or.inr ⟨restTerm small, isValue⟩⟩
    · simpa [leaf, restEmpty last] using isValue

theorem fits_ne_nil {i : Fin 17} {child : Tree} (inner : i.val < 16 → child.Compact)
    (terminal : i.val = 16 → child.IsValue) : child ≠ nil := by
  rintro rfl
  by_cases small : i.val < 16
  · exact inner small
  · obtain ⟨_, isNil, _⟩ := terminal (by omega)
    cases isNil

/-- Each slot of a new full node holds what it may hold in the minimal shape. -/
theorem branch_children_fit {oldIndex newIndex : Fin 17} {oldChild newChild : Tree}
    (oldFits : ∀ k : Fin 17, k = oldIndex → (k.val < 16 → oldChild.Compact) ∧ (k.val = 16 → oldChild.IsValue))
    (newFits : ∀ k : Fin 17, k = newIndex → (k.val < 16 → newChild.Compact) ∧ (k.val = 16 → newChild.IsValue))
    (k : Fin 17) :
    let child := Function.update (Function.update (fun _ => nil) oldIndex oldChild) newIndex newChild k
    (k.val < 16 → child = nil ∨ child.Compact) ∧ (k.val = 16 → child = nil ∨ child.IsValue) := by
  by_cases isNew : k = newIndex
  · subst isNew
    simp only [Function.update_self]
    exact ⟨fun small => Or.inr ((newFits k rfl).1 small), fun last => Or.inr ((newFits k rfl).2 last)⟩
  · by_cases isOld : k = oldIndex
    · subst isOld
      simp only [Function.update_of_ne isNew, Function.update_self]
      exact ⟨fun small => Or.inr ((oldFits k rfl).1 small), fun last => Or.inr ((oldFits k rfl).2 last)⟩
    · simp [Function.update_of_ne isNew, Function.update_of_ne isOld]

theorem branch_compact {oldIndex newIndex : Fin 17} {oldChild newChild : Tree} (different : oldIndex ≠ newIndex)
    (oldInner : oldIndex.val < 16 → oldChild.Compact) (oldTerminal : oldIndex.val = 16 → oldChild.IsValue)
    (newInner : newIndex.val < 16 → newChild.Compact) (newTerminal : newIndex.val = 16 → newChild.IsValue) :
    (branch oldIndex oldChild newIndex newChild).Compact := by
  have fit := @branch_children_fit oldIndex newIndex oldChild newChild
    (fun k same => same ▸ ⟨oldInner, oldTerminal⟩) (fun k same => same ▸ ⟨newInner, newTerminal⟩)
  refine ⟨two_le_childCount different ?_ ?_, fun k small => (fit k).1 small, (fit 16).2 rfl⟩
  · rw [Function.update_of_ne different, Function.update_self]
    exact fits_ne_nil oldInner oldTerminal
  · rw [Function.update_self]
    exact fits_ne_nil newInner newTerminal

end Tree

namespace Tree

/-- Lookups in the node that replaces a short node split where a new key leaves its key. -/
theorem updated_split {pre rest others : List UInt8} {x y : UInt8} {oldIndex newIndex : Fin 17}
    {nval newChild : Tree} {result : Option (List UInt8)} (small : Nibbles pre)
    (oldByte : oldIndex.val.toUInt8 = x) (newByte : newIndex.val.toUInt8 = y) (differ : x ≠ y)
    (newFound : ∀ q, (newIndex.val < 16 → Terminated q) → (newIndex.val = 16 → q = []) →
      newChild.get q = if q = others then some result else some none) :
    Updated (short (pre ++ x :: rest) nval)
      (short pre (branch oldIndex (leaf rest nval) newIndex newChild)) (pre ++ y :: others) result := by
  intro path term
  by_cases isPrefix : pre <+: path
  · obtain ⟨q, rfl⟩ := isPrefix
    have qTerm := terminated_of_nibbles_append small term
    obtain ⟨c, q', rfl⟩ := List.exists_cons_of_ne_nil (terminated_ne_nil qTerm)
    obtain ⟨k, _, kByte, q'Term, q'Empty⟩ := terminated_head_slot qTerm
    subst kByte
    rw [get_short_append, get_short_append_left, get_short_cons, branch, get_full_cons]
    by_cases isNew : k = newIndex
    · -- the path leaves the old key where the new key does
      subst isNew
      rw [Function.update_self, newFound q' q'Term q'Empty]
      simp [newByte, differ]
    · have notKey : pre ++ k.val.toUInt8 :: q' ≠ pre ++ y :: others := by
        intro same
        simp only [List.append_cancel_left_eq, List.cons.injEq] at same
        exact isNew (slot_toUInt8_inj (same.1.trans newByte.symm))
      rw [Function.update_of_ne isNew, if_neg notKey]
      by_cases isOld : k = oldIndex
      · subst isOld
        rw [Function.update_self, get_leaf, if_pos oldByte.symm]
      · have notX : x ≠ k.val.toUInt8 := fun same => isOld (slot_toUInt8_inj (oldByte.trans same)).symm
        rw [Function.update_of_ne isOld, if_neg notX]
        rfl
  · have notKey : path ≠ pre ++ y :: others := by
      rintro rfl
      exact isPrefix (List.prefix_append _ _)
    have notOld : ¬pre ++ x :: rest <+: path := fun longer => isPrefix ((List.prefix_append _ _).trans longer)
    simp [get_short, isPrefix, notOld, notKey]

end Tree

namespace Tree

/-! ### `insert`, branch by branch -/

theorem insert_nil {key : List UInt8} (nonempty : key ≠ []) (val : Tree) :
    nil.insert key val = some (true, short key val) := by
  obtain ⟨b, rest, rfl⟩ := List.exists_cons_of_ne_nil nonempty
  rfl

theorem insert_terminal {t : Tree} (shape : t = nil ∨ t.IsValue) (w : List UInt8) :
    ∃ dirty, t.insert [] (value w) = some (dirty, value w) ∧ (dirty = false → value w = t) := by
  rcases shape with rfl | ⟨v, rfl, _⟩
  · exact ⟨true, rfl, nofun⟩
  · refine ⟨v != w, rfl, fun same => ?_⟩
    simp only [bne_eq_false_iff_eq] at same
    rw [same]

theorem insert_short_of_prefix {nkey key : List UInt8} {nval val nn : Tree} {dirty : Bool}
    (nonempty : key ≠ []) (isPrefix : nkey <+: key)
    (below : nval.insert (key.drop nkey.length) val = some (dirty, nn)) (clean : dirty = false → nn = nval) :
    (short nkey nval).insert key val = some (dirty, short nkey nn) := by
  obtain ⟨b, rest, rfl⟩ := List.exists_cons_of_ne_nil nonempty
  have matched := prefixLen_of_prefix isPrefix
  cases dirty with
  | false => simp [insert, matched, below, clean rfl]
  | true => simp [insert, matched, below]

theorem insert_short_split {nkey key : List UInt8} {nval val : Tree} {oldIndex newIndex : Fin 17}
    (nonempty : key ≠ []) (differ : prefixLen key nkey ≠ nkey.length)
    (oldSlot : nkey[prefixLen key nkey]?.bind slot = some oldIndex)
    (newSlot : key[prefixLen key nkey]?.bind slot = some newIndex) :
    (short nkey nval).insert key val =
      some (true, if prefixLen key nkey = 0 then
          branch oldIndex (leaf (nkey.drop (prefixLen key nkey + 1)) nval)
            newIndex (leaf (key.drop (prefixLen key nkey + 1)) val)
        else short (key.take (prefixLen key nkey))
          (branch oldIndex (leaf (nkey.drop (prefixLen key nkey + 1)) nval)
            newIndex (leaf (key.drop (prefixLen key nkey + 1)) val))) := by
  obtain ⟨b, rest, rfl⟩ := List.exists_cons_of_ne_nil nonempty
  simp only [insert, differ, if_false, oldSlot, newSlot]
  split <;> rfl

theorem insert_full {children : Fin 17 → Tree} {b : UInt8} {rest : List UInt8} {i : Fin 17}
    {val nn : Tree} {dirty : Bool} (found : slot b = some i)
    (below : (children i).insert rest val = some (dirty, nn)) (clean : dirty = false → nn = children i) :
    (full children).insert (b :: rest) val = some (dirty, full (Function.update children i nn)) := by
  cases dirty with
  | false => simp [insert, found, below, clean rfl]
  | true => simp [insert, found, below]

end Tree

namespace Tree

theorem nibbles_of_append {pre rest : List UInt8}
    (shape : Nibbles (pre ++ rest) ∨ Terminated (pre ++ rest)) (nonempty : rest ≠ []) : Nibbles pre := by
  intro x member
  refine key_dropLast_lt shape x ?_
  rw [List.dropLast_append_of_ne_nil nonempty]
  exact List.mem_append_left _ member

/-- The value a split stores below its new slot is found at the new key only. -/
theorem get_leaf_value {others q w : List UInt8}
    (shape : (Terminated others ∧ Terminated q) ∨ (others = [] ∧ q = [])) :
    (leaf others (value w)).get q = if q = others then some (some w) else some none := by
  rw [get_leaf, get_short]
  rcases shape with ⟨othersTerm, qTerm⟩ | ⟨rfl, rfl⟩
  · by_cases same : q = others
    · subst same
      simp
    · have notPrefix : ¬others <+: q := fun isPrefix => same (terminated_prefix_eq othersTerm qTerm isPrefix).symm
      simp [same, notPrefix]
  · simp

/-- `insert` at a key that leaves a short node's key: the split. -/
theorem insert_split_spec {nkey key w : List UInt8} {nval : Tree} (nonempty : w ≠ [])
    (compact : (short nkey nval).Compact) (term : Terminated key) (notPrefix : ¬nkey <+: key) :
    ∃ u, (short nkey nval).insert key (value w) = some (true, u) ∧ u.Compact ∧
      Updated (short nkey nval) u key (some w) := by
  have shortKey : prefixLen key nkey < nkey.length :=
    lt_of_le_of_ne (prefixLen_le_right key nkey) fun matched => notPrefix (prefix_of_prefixLen matched)
  have nkeyShape : Nibbles nkey ∨ Terminated nkey :=
    compact.2.imp (fun inner => inner.1) (fun inner => inner.1)
  -- the new key does not end inside the old one: one ends in the terminator, the other has none before its end
  have inKey : prefixLen key nkey < key.length := by
    by_contra tooLong
    have whole : prefixLen key nkey = key.length := le_antisymm (prefixLen_le_left key nkey) (by omega)
    have keyPrefix : key <+: nkey := by
      have taken := take_prefixLen key nkey
      rw [whole, List.take_length] at taken
      rw [taken]
      exact List.take_prefix _ _
    rcases nkeyShape with small | nkeyTerm
    · obtain ⟨body, -, rfl⟩ := term
      have tooBig := small terminator (keyPrefix.subset (by simp))
      simp [terminator] at tooBig
    · exact notPrefix (by rw [terminated_prefix_eq term nkeyTerm keyPrefix])
  set m := prefixLen key nkey with mEq
  set pre := key.take m
  set x := nkey[m]
  set y := key[m]
  set rest := nkey.drop (m + 1)
  set others := key.drop (m + 1)
  have keySplit : key = pre ++ y :: others := by
    rw [← List.drop_eq_getElem_cons inKey, List.take_append_drop]
  have nkeySplit : nkey = pre ++ x :: rest := by
    have taken : pre = nkey.take m := take_prefixLen key nkey
    rw [taken, ← List.drop_eq_getElem_cons shortKey, List.take_append_drop]
  have differ : x ≠ y := (getElem_prefixLen_ne key nkey inKey shortKey).symm
  have preSmall : Nibbles pre := nibbles_of_append (by rw [← keySplit]; exact Or.inr term) (by simp)
  have newTerm : Terminated (y :: others) := terminated_of_nibbles_append preSmall (keySplit ▸ term)
  have oldCompact : (short (x :: rest) nval).Compact := compact_short_suffix (by simp) (nkeySplit ▸ compact)
  have newCompact : (short (y :: others) (value w)).Compact := ⟨by simp, Or.inr ⟨newTerm, w, rfl, nonempty⟩⟩
  obtain ⟨oldIndex, oldSlot, oldInner, oldTerminal⟩ := leaf_fits oldCompact
  obtain ⟨newIndex, newSlot, newInner, newTerminal⟩ := leaf_fits newCompact
  have oldByte := slot_eq_some_iff.mp oldSlot
  have newByte := slot_eq_some_iff.mp newSlot
  have different : oldIndex ≠ newIndex := by
    rintro rfl
    exact differ (oldByte.symm.trans newByte)
  have nodeCompact := branch_compact different oldInner oldTerminal newInner newTerminal
  set node := branch oldIndex (leaf rest nval) newIndex (leaf others (value w))
  refine ⟨if m = 0 then node else short pre node, ?_, ?_, ?_⟩
  · refine insert_short_split (terminated_ne_nil term) (by omega) ?_ ?_
    · rw [← mEq, List.getElem?_eq_getElem shortKey]
      exact oldSlot
    · rw [← mEq, List.getElem?_eq_getElem inKey]
      exact newSlot
  · by_cases atStart : m = 0
    · simpa [atStart] using nodeCompact
    · have preNonempty : pre ≠ [] := by simp [pre, List.take_eq_nil_iff, atStart, terminated_ne_nil term]
      rw [if_neg atStart]
      exact ⟨preNonempty, Or.inl ⟨preSmall, rfl, nodeCompact⟩⟩
  · obtain ⟨i, found, _, othersTerm, othersEmpty⟩ := terminated_head_slot newTerm
    have same : i = newIndex := Option.some.inj (found.symm.trans newSlot)
    subst same
    have updated : Updated (short (pre ++ x :: rest) nval) (short pre node) (pre ++ y :: others) (some w) :=
      updated_split preSmall oldByte newByte differ fun q qTerm qEmpty => get_leaf_value (by
        by_cases small : i.val < 16
        · exact Or.inl ⟨othersTerm small, qTerm small⟩
        · exact Or.inr ⟨othersEmpty (by omega), qEmpty (by omega)⟩)
    rw [← nkeySplit, ← keySplit] at updated
    intro path pathTerm
    rw [← updated path pathTerm]
    by_cases atStart : m = 0
    · have preEmpty : pre = [] := by simp [pre, atStart]
      simp [atStart, preEmpty, get_short_nil]
    · simp [atStart]

end Tree

namespace Tree

theorem Updated.congr_left {t t' u : Tree} {key : List UInt8} {result : Option (List UInt8)}
    (agree : Agree t t') (updated : Updated t u key result) : Updated t' u key result := by
  intro path term
  rw [updated path term, agree path term]

theorem Updated.congr_right {t u u' : Tree} {key : List UInt8} {result : Option (List UInt8)}
    (agree : Agree u u') (updated : Updated t u key result) : Updated t u' key result := by
  intro path term
  rw [← agree path term, updated path term]

theorem updated_nil_short {key : List UInt8} {v : Tree} {result : Option (List UInt8)}
    (term : Terminated key) (found : v.get [] = some result) : Updated nil (short key v) key result := by
  refine (@updated_short_terminal key nil v result term found).congr_left fun path _ => ?_
  by_cases isPrefix : key <+: path <;> simp [get_short, isPrefix]

/-- `insert` of a non-empty value at a complete key, into a trie of the minimal shape:
it does not panic, keeps the shape, stores the value at that key and changes nothing else. -/
theorem insert_spec {w : List UInt8} (nonempty : w ≠ []) (t : Tree) :
    ∀ key, Canonical t → Terminated key → ∃ dirty u, t.insert key (value w) = some (dirty, u) ∧
      (dirty = false → u = t) ∧ u.Compact ∧ (t.isFull = true → u.isFull = true) ∧
      Updated t u key (some w) := by
  induction t with
  | nil =>
      intro key _ term
      have keyNonempty := terminated_ne_nil term
      exact ⟨true, short key (value w), insert_nil keyNonempty _, nofun,
        ⟨keyNonempty, Or.inr ⟨term, w, rfl, nonempty⟩⟩, nofun, updated_nil_short term (by simp)⟩
  | value _ =>
      intro key canonical
      exact (canonical_value_elim canonical).elim
  | short nkey nval ih =>
      intro key canonical term
      have compact : (short nkey nval).Compact := canonical.resolve_left nofun
      by_cases isPrefix : nkey <+: key
      · obtain ⟨nkeyNonempty, ⟨small, valFull, valCompact⟩ | ⟨nkeyTerm, valValue⟩⟩ := compact
        · -- the key goes on into the full node below
          obtain ⟨dirty, nn, inserted, clean, nnCompact, keepsFull, updated⟩ :=
            ih (key.drop nkey.length) (Or.inr valCompact) (terminated_drop small isPrefix term)
          refine ⟨dirty, short nkey nn, insert_short_of_prefix (terminated_ne_nil term) isPrefix inserted clean,
            fun unchanged => by rw [clean unchanged], ⟨nkeyNonempty, Or.inl ⟨small, keepsFull valFull, nnCompact⟩⟩,
            nofun, ?_⟩
          obtain ⟨rest, rfl⟩ := isPrefix
          simpa using updated_short small updated
        · -- the key is the short node's own key: the value below it is replaced
          have same := terminated_prefix_eq nkeyTerm term isPrefix
          subst same
          obtain ⟨dirty, inserted, clean⟩ := insert_terminal (Or.inr valValue) w
          exact ⟨dirty, short nkey (value w),
            insert_short_of_prefix (terminated_ne_nil term) isPrefix (by simpa using inserted) clean,
            fun unchanged => by rw [← clean unchanged], ⟨nkeyNonempty, Or.inr ⟨nkeyTerm, w, rfl, nonempty⟩⟩,
            nofun, updated_short_terminal nkeyTerm (by simp)⟩
      · obtain ⟨u, inserted, uCompact, updated⟩ := insert_split_spec nonempty compact term isPrefix
        exact ⟨true, u, inserted, nofun, uCompact, nofun, updated⟩
  | full children ih =>
      intro key canonical term
      have compact : (full children).Compact := canonical.resolve_left nofun
      obtain ⟨b, rest, rfl⟩ := List.exists_cons_of_ne_nil (terminated_ne_nil term)
      obtain ⟨i, found, iByte, restTerm, restEmpty⟩ := terminated_head_slot term
      subst iByte
      by_cases small : i.val < 16
      · obtain ⟨dirty, nn, inserted, clean, nnCompact, -, updated⟩ :=
          ih i rest (compact.2.1 i small) (restTerm small)
        have present : nn ≠ nil := by
          rintro rfl
          exact nnCompact
        exact ⟨dirty, full (Function.update children i nn), insert_full found inserted clean,
          fun unchanged => by rw [clean unchanged, Function.update_eq_self],
          full_update_compact compact present (fun _ => nnCompact) (fun last => absurd last (by omega)),
          fun _ => rfl, updated_full fun q qTerm _ => updated q (qTerm small)⟩
      · -- slot 16: the key ends here and the value is stored in the full node itself
        have last : i = 16 := by ext; simp; omega
        subst last
        have restNil := restEmpty rfl
        subst restNil
        obtain ⟨dirty, inserted, clean⟩ := insert_terminal compact.2.2 w
        refine ⟨dirty, full (Function.update children 16 (value w)), insert_full found inserted clean,
          fun unchanged => by rw [clean unchanged, Function.update_eq_self],
          full_update_compact compact nofun (fun small => absurd small (by omega)) (fun _ => ⟨w, rfl, nonempty⟩),
          fun _ => rfl, updated_full fun q _ qEmpty => ?_⟩
        rw [qEmpty rfl]
        simp

end Tree

namespace Tree

/-! ### `delete`, branch by branch -/

def isShort : Tree → Bool
  | short _ _ => true
  | _ => false

theorem delete_short_mismatch {nkey key : List UInt8} (nval : Tree) (notPrefix : ¬nkey <+: key) :
    (short nkey nval).delete key = some (false, short nkey nval) := by
  have shortKey : prefixLen key nkey < nkey.length :=
    lt_of_le_of_ne (prefixLen_le_right key nkey) fun matched => notPrefix (prefix_of_prefixLen matched)
  simp [delete, shortKey]

theorem delete_short_self (key : List UInt8) (nval : Tree) :
    (short key nval).delete key = some (true, nil) := by
  simp [delete, prefixLen_self]

/-- `delete` below a short node: the new node is the short node over the new child, merged with
it when that child is a short node itself (`concat` in the source). -/
theorem delete_short_below {nkey key : List UInt8} {nval child : Tree} {dirty : Bool}
    (isPrefix : nkey <+: key) (longer : nkey.length ≠ key.length)
    (below : nval.delete (key.drop nkey.length) = some (dirty, child)) :
    ∃ u, (short nkey nval).delete key = some (dirty, u) ∧ (dirty = false → u = short nkey nval) ∧
      (dirty = true → Agree u (short nkey child) ∧
        ((child.isShort = false ∧ u = short nkey child) ∨
          ∃ ckey cval, child = short ckey cval ∧ u = short (nkey ++ ckey) cval)) := by
  have matched := prefixLen_of_prefix isPrefix
  cases dirty with
  | false => exact ⟨short nkey nval, by simp [delete, matched, longer, below], fun _ => rfl, nofun⟩
  | true =>
      cases child with
      | short ckey cval =>
          exact ⟨short (nkey ++ ckey) cval, by simp [delete, matched, longer, below], nofun,
            fun _ => ⟨fun path _ => get_short_short nkey ckey cval path, Or.inr ⟨ckey, cval, rfl, rfl⟩⟩⟩
      | nil => exact ⟨short nkey nil, by simp [delete, matched, longer, below], nofun,
          fun _ => ⟨fun _ _ => rfl, Or.inl ⟨rfl, rfl⟩⟩⟩
      | value v => exact ⟨short nkey (value v), by simp [delete, matched, longer, below], nofun,
          fun _ => ⟨fun _ _ => rfl, Or.inl ⟨rfl, rfl⟩⟩⟩
      | full children => exact ⟨short nkey (full children), by simp [delete, matched, longer, below], nofun,
          fun _ => ⟨fun _ _ => rfl, Or.inl ⟨rfl, rfl⟩⟩⟩

theorem delete_full {children : Fin 17 → Tree} {b : UInt8} {rest : List UInt8} {i : Fin 17}
    {nn : Tree} {dirty : Bool} (found : slot b = some i)
    (below : (children i).delete rest = some (dirty, nn)) :
    (full children).delete (b :: rest) =
      some (dirty, if dirty then reduce (Function.update children i nn) else full children) := by
  cases dirty <;> simp [delete, found, below]

theorem delete_terminal {t : Tree} (shape : t = nil ∨ t.IsValue) :
    ∃ dirty, t.delete [] = some (dirty, nil) ∧ (dirty = false → t = nil) := by
  rcases shape with rfl | ⟨v, rfl, _⟩
  · exact ⟨false, rfl, fun _ => rfl⟩
  · exact ⟨true, rfl, nofun⟩

/-! ### `delete` keeps the shape and removes one key -/

theorem updated_short_remove {key : List UInt8} {nval : Tree} (term : Terminated key) :
    Updated (short key nval) nil key none := by
  intro path pathTerm
  by_cases same : path = key
  · simp [same]
  · have notPrefix : ¬key <+: path := fun isPrefix => same (terminated_prefix_eq term pathTerm isPrefix).symm
    simp [get_short, same, notPrefix]

theorem updated_absent {t : Tree} {key : List UInt8} (absent : t.get key = some none) :
    Updated t t key none := by
  intro path _
  by_cases same : path = key
  · simp [same, absent]
  · simp [same]

/-- What `delete` does below one slot of a full node of the minimal shape. -/
theorem delete_slot_spec {children : Fin 17 → Tree} {i : Fin 17} {rest : List UInt8}
    (compact : (full children).Compact) (slotTerm : i.val < 16 → Terminated rest) (slotEmpty : i.val = 16 → rest = [])
    (ih : i.val < 16 → ∃ dirty u, (children i).delete rest = some (dirty, u) ∧ (dirty = false → u = children i) ∧
      Canonical u ∧ Updated (children i) u rest none) :
    ∃ dirty nn, (children i).delete rest = some (dirty, nn) ∧ (dirty = false → nn = children i) ∧
      (i.val < 16 → Canonical nn) ∧ (i.val = 16 → nn = nil) ∧
      ∀ q, (i.val < 16 → Terminated q) → (i.val = 16 → q = []) →
        nn.get q = if q = rest then some none else (children i).get q := by
  by_cases small : i.val < 16
  · obtain ⟨dirty, nn, deleted, clean, nnCanonical, updated⟩ := ih small
    exact ⟨dirty, nn, deleted, clean, fun _ => nnCanonical, fun last => absurd last (by omega),
      fun q qTerm _ => updated q (qTerm small)⟩
  · have last : i = 16 := by ext; simp; omega
    subst last
    have restNil := slotEmpty rfl
    subst restNil
    obtain ⟨dirty, deleted, clean⟩ := delete_terminal compact.2.2
    refine ⟨dirty, nil, deleted, fun unchanged => (clean unchanged).symm, fun small' => absurd small' small,
      fun _ => rfl, fun q _ qEmpty => ?_⟩
    simp [qEmpty rfl]

/-- `delete` at a complete key, in a trie of the minimal shape: it does not panic, keeps the
shape (a full node never becomes empty), and removes the value at that key only. -/
theorem delete_spec (t : Tree) :
    ∀ key, Canonical t → Terminated key → ∃ dirty u, t.delete key = some (dirty, u) ∧
      (dirty = false → u = t) ∧ Canonical u ∧ (t.isFull = true → u.Compact) ∧ Updated t u key none := by
  induction t with
  | nil =>
      intro key _ _
      exact ⟨false, nil, rfl, fun _ => rfl, Or.inl rfl, nofun, updated_absent (get_nil key)⟩
  | value _ =>
      intro key canonical
      exact (canonical_value_elim canonical).elim
  | short nkey nval ih =>
      intro key canonical term
      have compact : (short nkey nval).Compact := canonical.resolve_left nofun
      by_cases isPrefix : nkey <+: key
      · obtain ⟨nkeyNonempty, ⟨small, valFull, valCompact⟩ | ⟨nkeyTerm, _⟩⟩ := compact
        · -- a nibble key is a proper prefix of a complete key: go on below
          have longer : nkey.length ≠ key.length := by
            intro sameLength
            have same : nkey = key := isPrefix.eq_of_length sameLength
            exact terminated_not_nibbles term (same ▸ small)
          obtain ⟨dirty, child, deleted, clean, _, childCompact, updated⟩ :=
            ih (key.drop nkey.length) (Or.inr valCompact) (terminated_drop small isPrefix term)
          have childShape := childCompact valFull
          obtain ⟨u, result, unchanged, changed⟩ := delete_short_below isPrefix longer deleted
          obtain ⟨rest, rfl⟩ := isPrefix
          have below : Updated (short nkey nval) (short nkey child) (nkey ++ rest) none := by
            simpa using updated_short small updated
          cases dirty with
          | false =>
              refine ⟨false, u, result, unchanged, ?_, nofun, ?_⟩
              · rw [unchanged rfl]
                exact canonical
              · rw [clean rfl] at below
                rw [unchanged rfl]
                exact below
          | true =>
              obtain ⟨agree, shape⟩ := changed rfl
              refine ⟨true, u, result, nofun, Or.inr ?_, nofun, below.congr_right agree.symm⟩
              rcases shape with ⟨notShort, rfl⟩ | ⟨ckey, cval, rfl, rfl⟩
              · cases child with
                | full _ => exact ⟨nkeyNonempty, Or.inl ⟨small, rfl, childShape⟩⟩
                | short _ _ => cases notShort
                | _ => exact childShape.elim
              · obtain ⟨_, ⟨cSmall, cFull, cCompact⟩ | ⟨cTerm, cValue⟩⟩ := childShape
                · exact ⟨by simp [nkeyNonempty], Or.inl ⟨nibbles_append small cSmall, cFull, cCompact⟩⟩
                · exact ⟨by simp [nkeyNonempty], Or.inr ⟨terminated_nibble_append small cTerm, cValue⟩⟩
        · -- a complete key that has a complete key as prefix is that key
          have same := terminated_prefix_eq nkeyTerm term isPrefix
          subst same
          exact ⟨true, nil, delete_short_self nkey nval, nofun, Or.inl rfl, nofun,
            updated_short_remove nkeyTerm⟩
      · refine ⟨false, short nkey nval, delete_short_mismatch nval isPrefix, fun _ => rfl, canonical, nofun,
          updated_absent ?_⟩
        simp [get_short, isPrefix]
  | full children ih =>
      intro key canonical term
      have compact : (full children).Compact := canonical.resolve_left nofun
      obtain ⟨b, rest, rfl⟩ := List.exists_cons_of_ne_nil (terminated_ne_nil term)
      obtain ⟨i, found, iByte, restTerm, restEmpty⟩ := terminated_head_slot term
      subst iByte
      obtain ⟨dirty, nn, deleted, clean, nnCanonical, nnLast, nnGet⟩ :=
        delete_slot_spec compact restTerm restEmpty fun small =>
          (ih i rest (compact.2.1 i small) (restTerm small)).imp fun _ ⟨u, d, c, can, _, upd⟩ => ⟨u, d, c, can, upd⟩
      have updated : Updated (full children) (full (Function.update children i nn)) (i.val.toUInt8 :: rest) none :=
        updated_full nnGet
      cases dirty with
      | false =>
          have same : Function.update children i nn = children := by
            rw [clean rfl, Function.update_eq_self]
          refine ⟨false, full children, by simpa using delete_full found deleted, fun _ => rfl, canonical,
            fun _ => compact, ?_⟩
          rwa [same] at updated
      | true =>
          -- one of the two children that were there is not the one that changed
          obtain ⟨a, c, different, aPresent, cPresent⟩ := childCount_two compact.1
          have other : ∃ k, k ≠ i ∧ children k ≠ nil := by
            by_cases isA : a = i
            · exact ⟨c, fun isC => different (isA.trans isC.symm), cPresent⟩
            · exact ⟨a, isA, aPresent⟩
          obtain ⟨k, notI, kPresent⟩ := other
          have reduced : (reduce (Function.update children i nn)).Compact := by
            refine reduce_compact (j := k) (fun j small => ?_) ?_ (by rwa [Function.update_of_ne notI])
            · by_cases same : j = i
              · subst same
                rw [Function.update_self]
                exact nnCanonical small
              · simpa [Function.update_of_ne same] using compact.2.1 j small
            · by_cases same : (16 : Fin 17) = i
              · subst same
                simp [nnLast rfl]
              · simpa [Function.update_of_ne same] using compact.2.2
          refine ⟨true, _, by simpa using delete_full found deleted, nofun, Or.inr reduced, fun _ => reduced,
            updated.congr_right fun path pathTerm => (get_reduce _ pathTerm).symm⟩

end Tree

end Mjoy.Trie
