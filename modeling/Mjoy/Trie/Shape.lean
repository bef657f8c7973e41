import Mjoy.Trie.Tree

/-!
The minimal shape the trie code keeps: short nodes with non-empty keys that lead
either to a value (after the terminator) or to a full node, and full nodes with at
least two children, values only in slot 16. A trie of this shape is determined by
the values it holds (`Tree.eq_of_agree`), which is what makes its root hash a
function of its contents.
-/

namespace Mjoy.Trie

namespace Tree

def isFull : Tree → Bool
  | full _ => true
  | _ => false

/-- A value node that `insert` can have stored: `TryUpdate` deletes instead of
storing an empty value. -/
def IsValue (t : Tree) : Prop :=
  ∃ v, t = value v ∧ v ≠ []

def childCount (children : Fin 17 → Tree) : Nat :=
  (Finset.univ.filter fun i => (children i).isNil = false).card

def Compact : Tree → Prop
  | short key val =>
      key ≠ [] ∧ ((Nibbles key ∧ val.isFull = true ∧ val.Compact) ∨ (Terminated key ∧ val.IsValue))
  | full children =>
      2 ≤ childCount children ∧ (∀ i : Fin 17, i.val < 16 → children i = nil ∨ (children i).Compact) ∧
        (children 16 = nil ∨ (children 16).IsValue)
  | _ => False

/-- The root of a trie: empty, or a node of the minimal shape. -/
def Canonical (t : Tree) : Prop :=
  t = nil ∨ t.Compact

/-- Two tries agree when they hold the same value at every complete key path. -/
def Agree (t u : Tree) : Prop :=
  ∀ path, Terminated path → t.get path = u.get path

-- Equation lemmas of the definitions above, made once here rather than by the proofs below
-- that unfold them in parallel.
section
attribute [local simp] isFull
end

/-! ### Lookup equations -/

@[simp] theorem get_nil (path : List UInt8) : get nil path = some none := by
  simp [get]

@[simp] theorem get_value (v path : List UInt8) : get (value v) path = some (some v) := by
  simp [get]

theorem short_mismatch_iff (key path : List UInt8) :
    (path.length < key.length ∨ path.take key.length ≠ key) ↔ ¬key <+: path := by
  rw [List.prefix_iff_eq_take]
  constructor
  · rintro (tooShort | differ) same
    · have lengths := congrArg List.length same
      simp only [List.length_take] at lengths
      omega
    · exact differ same.symm
  · intro notPrefix
    exact Or.inr fun same => notPrefix same.symm

theorem get_short (key path : List UInt8) (val : Tree) :
    get (short key val) path = if key <+: path then get val (path.drop key.length) else some none := by
  simp only [get, short_mismatch_iff, ite_not]

theorem get_short_append (key rest : List UInt8) (val : Tree) :
    get (short key val) (key ++ rest) = get val rest := by
  simp [get_short]

theorem slot_of_lt {b : UInt8} (small : b.toNat < 17) : slot b = some ⟨b.toNat, small⟩ := by
  simp [slot, small]

theorem slot_toUInt8 (i : Fin 17) : slot i.val.toUInt8 = some i := by
  revert i
  decide

theorem get_full_cons (children : Fin 17 → Tree) (i : Fin 17) (rest : List UInt8) :
    get (full children) (i.val.toUInt8 :: rest) = get (children i) rest := by
  simp [get, slot_toUInt8]

theorem get_some_short {key path : List UInt8} {val : Tree} {found : List UInt8}
    (present : get (short key val) path = some (some found)) : key <+: path := by
  rw [get_short] at present
  by_contra notPrefix
  simp [notPrefix] at present

/-! ### Counting the children of a full node -/

theorem childCount_two {children : Fin 17 → Tree} (two : 2 ≤ childCount children) :
    ∃ i j, i ≠ j ∧ children i ≠ nil ∧ children j ≠ nil := by
  have many : 1 < (Finset.univ.filter fun i => (children i).isNil = false).card := two
  obtain ⟨i, iIn, j, jIn, different⟩ := Finset.one_lt_card.mp many
  simp only [Finset.mem_filter, Finset.mem_univ, true_and] at iIn jIn
  refine ⟨i, j, different, ?_, ?_⟩
  · intro isNil
    simp [isNil, Tree.isNil] at iIn
  · intro isNil
    simp [isNil, Tree.isNil] at jIn

/-! ### Every node of the minimal shape holds a value -/

theorem terminated_single : Terminated [terminator] :=
  ⟨[], by simp [Nibbles], rfl⟩

theorem slot_nibble_lt (i : Fin 17) (small : i.val < 16) : i.val.toUInt8 < 16 := by
  revert i
  decide

theorem slot_path_terminated {i : Fin 17} (small : i.val < 16) {rest : List UInt8}
    (term : Terminated rest) : Terminated (i.val.toUInt8 :: rest) :=
  terminated_cons (slot_nibble_lt i small) term

theorem terminal_slot_path : (16 : Fin 17).val.toUInt8 :: [] = [terminator] := by
  decide

/-- A non-nil child of a node of the minimal shape holds a value below it. -/
theorem child_value_path {children : Fin 17 → Tree} {i : Fin 17}
    (inner : ∀ i : Fin 17, i.val < 16 → children i = nil ∨ (children i).Compact)
    (terminal : children 16 = nil ∨ (children 16).IsValue) (present : children i ≠ nil)
    (below : ∀ j : Fin 17, (children j).Compact →
      ∃ path found, Terminated path ∧ (children j).get path = some (some found)) :
    ∃ rest found, Terminated (i.val.toUInt8 :: rest) ∧
      (full children).get (i.val.toUInt8 :: rest) = some (some found) := by
  by_cases small : i.val < 16
  · rcases inner i small with isNil | compact
    · exact absurd isNil present
    · obtain ⟨path, found, term, held⟩ := below i compact
      exact ⟨path, found, slot_path_terminated small term, by rw [get_full_cons]; exact held⟩
  · have last : i = 16 := by ext; simp; omega
    subst last
    rcases terminal with isNil | ⟨v, isValue, _⟩
    · exact absurd isNil present
    · refine ⟨[], v, by rw [terminal_slot_path]; exact terminated_single, ?_⟩
      rw [get_full_cons, isValue, get_value]

theorem Compact.exists_value {t : Tree} (compact : t.Compact) :
    ∃ path found, Terminated path ∧ t.get path = some (some found) := by
  induction t with
  | nil => exact compact.elim
  | value _ => exact compact.elim
  | short key val ih =>
      obtain ⟨_, ⟨small, _, valCompact⟩ | ⟨term, v, isValue, _⟩⟩ := compact
      · obtain ⟨rest, found, term, held⟩ := ih valCompact
        exact ⟨key ++ rest, found, terminated_nibble_append small term, by rw [get_short_append]; exact held⟩
      · refine ⟨key, v, term, ?_⟩
        simpa [isValue] using get_short_append key [] (value v)
  | full children ih =>
      obtain ⟨two, inner, terminal⟩ := compact
      obtain ⟨i, _, _, present, _⟩ := childCount_two two
      obtain ⟨rest, found, term, held⟩ :=
        child_value_path inner terminal present fun j compactChild => ih j compactChild
      exact ⟨_, found, term, held⟩

/-! ### A trie of the minimal shape is determined by its values -/

theorem Agree.symm {t u : Tree} (agree : Agree t u) : Agree u t :=
  fun path term => (agree path term).symm

theorem agree_short_children {key : List UInt8} {val other : Tree} (small : Nibbles key)
    (agree : Agree (short key val) (short key other)) : Agree val other := by
  intro path term
  have atPath := agree (key ++ path) (terminated_nibble_append small term)
  rwa [get_short_append, get_short_append] at atPath

theorem agree_full_children {children others : Fin 17 → Tree} (agree : Agree (full children) (full others))
    {i : Fin 17} (small : i.val < 16) : Agree (children i) (others i) := by
  intro path term
  have atPath := agree _ (slot_path_terminated small term)
  rwa [get_full_cons, get_full_cons] at atPath

/-- Below the last position of a short node's key every nibble is below 16. -/
theorem key_dropLast_lt {key : List UInt8} (shape : Nibbles key ∨ Terminated key) :
    ∀ x ∈ key.dropLast, x < 16 := by
  intro x member
  rcases shape with small | ⟨body, small, rfl⟩
  · exact small x (List.dropLast_subset _ member)
  · simp only [List.dropLast_concat] at member
    exact small x member

theorem terminated_not_extended {key rest : List UInt8} (term : Terminated key) (nonempty : rest ≠ [])
    (shape : Nibbles (key ++ rest) ∨ Terminated (key ++ rest)) : False := by
  obtain ⟨body, _, rfl⟩ := term
  have inside : terminator ∈ (body ++ [terminator] ++ rest).dropLast := by
    obtain ⟨first, others, rfl⟩ := List.exists_cons_of_ne_nil nonempty
    rw [List.append_assoc, List.dropLast_append_of_ne_nil (by simp)]
    simp
  have small := key_dropLast_lt shape terminator inside
  simp [terminator] at small

/-- A short node does not agree with a short node whose key strictly extends its own. -/
theorem not_agree_short_extended {key rest : List UInt8} {val other : Tree} (nonempty : rest ≠ [])
    (compact : (short key val).Compact) (otherCompact : (short (key ++ rest) other).Compact)
    (agree : Agree (short key val) (short (key ++ rest) other)) : False := by
  obtain ⟨_, ⟨small, _, valCompact⟩ | ⟨term, _⟩⟩ := compact
  · cases val with
    | full children =>
        obtain ⟨two, inner, terminal⟩ := valCompact
        obtain ⟨i, j, different, iPresent, jPresent⟩ := childCount_two two
        have below := fun k (childCompact : (children k).Compact) => childCompact.exists_value
        obtain ⟨iRest, iFound, iTerm, iHeld⟩ := child_value_path inner terminal iPresent below
        obtain ⟨jRest, jFound, jTerm, jHeld⟩ := child_value_path inner terminal jPresent below
        have iPrefix := get_some_short ((agree _ (terminated_nibble_append small iTerm)).symm.trans
          (by rw [get_short_append]; exact iHeld))
        have jPrefix := get_some_short ((agree _ (terminated_nibble_append small jTerm)).symm.trans
          (by rw [get_short_append]; exact jHeld))
        rw [List.prefix_append_right_inj] at iPrefix jPrefix
        have iHead := iPrefix.head nonempty
        have jHead := jPrefix.head nonempty
        simp only [List.head_cons] at iHead jHead
        have sameSlot : i.val.toUInt8 = j.val.toUInt8 := iHead.symm.trans jHead
        have : slot i.val.toUInt8 = slot j.val.toUInt8 := by rw [sameSlot]
        rw [slot_toUInt8, slot_toUInt8] at this
        exact different (Option.some.inj this)
    | _ => simp [isFull] at *
  · obtain ⟨_, shape⟩ := otherCompact
    exact terminated_not_extended term nonempty
      (shape.elim (fun left => Or.inl left.1) (fun right => Or.inr right.1))

theorem not_agree_short_full {key : List UInt8} {val : Tree} {children : Fin 17 → Tree}
    (compact : (short key val).Compact) (fullCompact : (full children).Compact)
    (agree : Agree (short key val) (full children)) : False := by
  obtain ⟨nonempty, _⟩ := compact
  obtain ⟨two, inner, terminal⟩ := fullCompact
  obtain ⟨i, j, different, iPresent, jPresent⟩ := childCount_two two
  have below := fun k (childCompact : (children k).Compact) => childCompact.exists_value
  obtain ⟨iRest, iFound, iTerm, iHeld⟩ := child_value_path inner terminal iPresent below
  obtain ⟨jRest, jFound, jTerm, jHeld⟩ := child_value_path inner terminal jPresent below
  have iHead := (get_some_short ((agree _ iTerm).trans iHeld)).head nonempty
  have jHead := (get_some_short ((agree _ jTerm).trans jHeld)).head nonempty
  simp only [List.head_cons] at iHead jHead
  have sameSlot : slot i.val.toUInt8 = slot j.val.toUInt8 := by rw [← iHead, ← jHead]
  rw [slot_toUInt8, slot_toUInt8] at sameSlot
  exact different (Option.some.inj sameSlot)

theorem not_agree_nil_compact {t : Tree} (compact : t.Compact) (agree : Agree nil t) : False := by
  obtain ⟨path, found, term, held⟩ := compact.exists_value
  have atPath := agree path term
  rw [held, get_nil] at atPath
  cases atPath

theorem canonical_value_elim {v : List UInt8} (canonical : Canonical (value v)) : False := by
  rcases canonical with isNil | compact
  · cases isNil
  · exact compact

theorem terminal_child_eq {children others : Fin 17 → Tree} (agree : Agree (full children) (full others))
    (terminal : children 16 = nil ∨ (children 16).IsValue) (otherTerminal : others 16 = nil ∨ (others 16).IsValue) :
    children 16 = others 16 := by
  have atPath := agree [terminator] terminated_single
  rw [← terminal_slot_path, get_full_cons, get_full_cons] at atPath
  rcases terminal with isNil | ⟨v, isValue, _⟩ <;> rcases otherTerminal with otherNil | ⟨w, otherValue, _⟩
  · rw [isNil, otherNil]
  · rw [isNil, otherValue] at atPath; simp at atPath
  · rw [isValue, otherNil] at atPath; simp at atPath
  · rw [isValue, otherValue] at atPath ⊢; simpa using atPath

/-- Two tries of the minimal shape that hold the same values are equal. -/
theorem eq_of_agree {t u : Tree} (canonical : Canonical t) (otherCanonical : Canonical u)
    (agree : Agree t u) : t = u := by
  induction t generalizing u with
  | nil =>
      rcases otherCanonical with rfl | compact
      · rfl
      · exact (not_agree_nil_compact compact agree).elim
  | value v => exact (canonical_value_elim canonical).elim
  | short key val ih =>
      have compact : (short key val).Compact := canonical.resolve_left (by simp)
      cases u with
      | nil => exact (not_agree_nil_compact compact agree.symm).elim
      | value w => exact (canonical_value_elim otherCanonical).elim
      | full others =>
          exact (not_agree_short_full compact (otherCanonical.resolve_left (by simp)) agree).elim
      | short otherKey other =>
          have otherCompact : (short otherKey other).Compact := otherCanonical.resolve_left (by simp)
          obtain ⟨path, found, term, held⟩ := compact.exists_value
          have keyPrefix := get_some_short held
          have otherPrefix := get_some_short ((agree path term).symm.trans held)
          have sameKey : key = otherKey := by
            rcases List.prefix_or_prefix_of_prefix keyPrefix otherPrefix with ⟨rest, rfl⟩ | ⟨rest, rfl⟩
            · by_cases nonempty : rest = []
              · simp [nonempty]
              · exact (not_agree_short_extended nonempty compact otherCompact agree).elim
            · by_cases nonempty : rest = []
              · simp [nonempty]
              · exact (not_agree_short_extended nonempty otherCompact compact agree.symm).elim
          subst sameKey
          obtain ⟨_, ⟨small, _, valCompact⟩ | ⟨term, v, rfl, _⟩⟩ := compact
          · have otherFull : Nibbles key ∧ other.isFull = true ∧ other.Compact := by
              rcases otherCompact.2 with left | ⟨otherTerm, _⟩
              · exact left
              · exact absurd small (terminated_not_nibbles otherTerm)
            rw [ih (Or.inr valCompact) (Or.inr otherFull.2.2) (agree_short_children small agree)]
          · rcases otherCompact.2 with ⟨otherSmall, _⟩ | ⟨_, w, rfl, _⟩
            · exact absurd otherSmall (terminated_not_nibbles term)
            · have atKey := agree key term
              have leftValue : get (short key (value v)) key = some (some v) := by
                simpa using get_short_append key [] (value v)
              have rightValue : get (short key (value w)) key = some (some w) := by
                simpa using get_short_append key [] (value w)
              rw [leftValue, rightValue] at atKey
              simp only [Option.some.injEq] at atKey
              rw [atKey]
  | full children ih =>
      have compact : (full children).Compact := canonical.resolve_left (by simp)
      cases u with
      | nil => exact (not_agree_nil_compact compact agree.symm).elim
      | value w => exact (canonical_value_elim otherCanonical).elim
      | short otherKey other =>
          exact (not_agree_short_full (otherCanonical.resolve_left (by simp)) compact agree.symm).elim
      | full others =>
          have otherCompact : (full others).Compact := otherCanonical.resolve_left (by simp)
          obtain ⟨_, inner, terminal⟩ := compact
          obtain ⟨_, otherInner, otherTerminal⟩ := otherCompact
          congr 1
          funext i
          by_cases small : i.val < 16
          · exact ih i (inner i small) (otherInner i small) (agree_full_children agree small)
          · have last : i = 16 := by ext; simp; omega
            subst last
            exact terminal_child_eq agree terminal otherTerminal

end Tree

end Mjoy.Trie
