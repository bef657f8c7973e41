import Mjoy.Lib.Store

/-!
Records linked by hash, as a chain database keeps block headers: each record is stored under
its hash and height and names its parent's hash, one height below. Following parents from a
record gives its ancestor at every lower height. A canonical index, a map from heights to
hashes, belongs to a head when it is that ancestor map: the head's ancestor at every height
up to the head's, and nothing above it.

Also the first highest element of a list: the head a chain keeps when the first record
written wins ties.
-/

namespace Ancestry

open KeyValue

section Ancestor

variable {H α : Type} (parent : α → H) (s : Store (H × Nat) α)

/-- The hash at height `h` on the way down from `hash` at height `number`: `none` above
`number`, or below a record that is missing. -/
def ancestor : H → Nat → Nat → Option H
  | hash, 0, h => if h = 0 then some hash else none
  | hash, n + 1, h =>
      if h = n + 1 then some hash
      else if h ≤ n then (s (hash, n + 1)).bind fun r => ancestor (parent r) n h
      else none

/-- Every stored record above height zero has its parent stored. -/
def Linked : Prop :=
  ∀ hash n r, s (hash, n + 1) = some r → ∃ r', s (parent r, n) = some r'

variable {parent s}

-- Equation lemmas of the definitions above, made once here rather than by the proofs below
-- that unfold them in parallel.
section
attribute [local simp] ancestor
end

@[simp] theorem ancestor_self (hash : H) (n : Nat) : ancestor parent s hash n n = some hash := by
  cases n <;> simp [ancestor]

theorem ancestor_above {hash : H} {n h : Nat} (above : n < h) : ancestor parent s hash n h = none := by
  cases n with
  | zero => simp [ancestor, Nat.pos_iff_ne_zero.mp above]
  | succ n => simp [ancestor, show h ≠ n + 1 by omega, show ¬ h ≤ n by omega]

theorem ancestor_parent {hash : H} {n h : Nat} {r : α} (stored : s (hash, n + 1) = some r)
    (below : h ≤ n) : ancestor parent s hash (n + 1) h = ancestor parent s (parent r) n h := by
  simp [ancestor, stored, below, show h ≠ n + 1 by omega]

/-- Below a record's own height, its ancestors are its parent's. -/
theorem ancestor_of_ne {hash : H} {n h : Nat} {r : α} (stored : s (hash, n + 1) = some r)
    (other : h ≠ n + 1) : ancestor parent s hash (n + 1) h = ancestor parent s (parent r) n h := by
  by_cases below : h ≤ n
  · exact ancestor_parent stored below
  · rw [ancestor_above (by omega), ancestor_above (by omega)]

theorem le_of_ancestor {x y : H} {n h : Nat} (found : ancestor parent s x n h = some y) : h ≤ n := by
  by_contra above
  rw [ancestor_above (by omega)] at found
  cases found

/-- The ancestor of an ancestor is an ancestor. -/
theorem ancestor_trans {x y : H} {n m h : Nat} (found : ancestor parent s x n m = some y)
    (below : h ≤ m) : ancestor parent s x n h = ancestor parent s y m h := by
  induction n generalizing x with
  | zero =>
      have top : m = 0 := le_of_ancestor found |> Nat.le_zero.mp
      subst top
      simp only [ancestor, if_true, Option.some.injEq] at found
      subst found
      rfl
  | succ n ih =>
      by_cases same : m = n + 1
      · subst same
        simp only [ancestor_self, Option.some.injEq] at found
        rw [found]
      · have lower : m ≤ n := by have := le_of_ancestor found; omega
        simp only [ancestor, same, lower, if_false, if_true] at found
        obtain ⟨r, stored, rest⟩ := Option.bind_eq_some_iff.mp found
        rw [ancestor_parent stored (by omega)]
        exact ih rest

/-- Below a stored record of a linked store every ancestor is stored. -/
theorem ancestor_stored (linked : Linked parent s) {x : H} {n : Nat} {r : α}
    (stored : s (x, n) = some r) {h : Nat} (below : h ≤ n) :
    ∃ y r', ancestor parent s x n h = some y ∧ s (y, h) = some r' := by
  induction n generalizing x r with
  | zero =>
      have bottom : h = 0 := by omega
      subst bottom
      exact ⟨x, r, ancestor_self x 0, stored⟩
  | succ n ih =>
      by_cases top : h = n + 1
      · subst top
        exact ⟨x, r, ancestor_self x _, stored⟩
      · obtain ⟨r', parentStored⟩ := linked x n r stored
        rw [ancestor_parent stored (by omega)]
        exact ih parentStored (by omega)

/-- A store that keeps every entry keeps every ancestor. -/
theorem ancestor_extends {s' : Store (H × Nat) α} (ext : s.Extends s') {x y : H} {n h : Nat}
    (found : ancestor parent s x n h = some y) : ancestor parent s' x n h = some y := by
  induction n generalizing x with
  | zero => simpa [ancestor] using found
  | succ n ih =>
      by_cases top : h = n + 1
      · subst top
        simpa using found
      · have lower : h ≤ n := by have := le_of_ancestor found; omega
        simp only [ancestor, top, lower, if_false, if_true] at found
        obtain ⟨r, stored, rest⟩ := Option.bind_eq_some_iff.mp found
        rw [ancestor_parent (ext _ _ stored) lower]
        exact ih rest

/-- Above a stored record of a linked store, a store that extends it has the same ancestors. -/
theorem ancestor_extends_eq {s' : Store (H × Nat) α} (ext : s.Extends s') (linked : Linked parent s)
    {x : H} {n : Nat} {r : α} (stored : s (x, n) = some r) (h : Nat) :
    ancestor parent s' x n h = ancestor parent s x n h := by
  by_cases below : h ≤ n
  · obtain ⟨y, _, found, _⟩ := ancestor_stored linked stored below
    rw [found, ancestor_extends ext found]
  · rw [ancestor_above (by omega), ancestor_above (by omega)]

/-- The ancestors from height `n` read only the entries at heights up to `n`. -/
theorem ancestor_congr {s' : Store (H × Nat) α} {x : H} {n : Nat}
    (agree : ∀ k : H × Nat, k.2 ≤ n → s k = s' k) (h : Nat) :
    ancestor parent s x n h = ancestor parent s' x n h := by
  induction n generalizing x with
  | zero => rfl
  | succ n ih =>
      have lower : ∀ k : H × Nat, k.2 ≤ n → s k = s' k := fun k below => agree k (by omega)
      simp only [ancestor, agree (x, n + 1) le_rfl, fun y => @ih y lower]

/-- Two branches that meet at height `c` have the same ancestors up to it: rewriting the
heights above `c` with the second branch turns the first's ancestor map into the second's. -/
theorem ancestor_rebase {old new z : H} {n m c : Nat} (oldMeets : ancestor parent s old n c = some z)
    (newMeets : ancestor parent s new m c = some z) (higher : n ≤ m) (h : Nat) :
    (if c < h ∧ h ≤ m then ancestor parent s new m h else ancestor parent s old n h) =
      ancestor parent s new m h := by
  split
  · rfl
  · rename_i outside
    by_cases low : h ≤ c
    · rw [ancestor_trans oldMeets low, ancestor_trans newMeets low]
    · rw [ancestor_above (by omega), ancestor_above (by omega)]

end Ancestor

section Covers

variable {H α : Type} (parent : α → H) (s : Store (H × Nat) α)

/-- `L` lists, as hash and height, the ancestors of `top` at the heights of `(low, high]`:
one at least for each height, and nothing else. -/
def Covers (L : List (H × Nat)) (top : H) (high low : Nat) : Prop :=
  (∀ p ∈ L, low < p.2 ∧ p.2 ≤ high ∧ ancestor parent s top high p.2 = some p.1) ∧
    ∀ h, low < h → h ≤ high → ∃ p ∈ L, p.2 = h

variable {parent s}

theorem Covers.nil (top : H) (high : Nat) : Covers parent s [] top high high :=
  ⟨by simp, fun h low high => absurd high (by omega)⟩

/-- A record above its parent's branch extends the list one height up. -/
theorem Covers.cons_top {L : List (H × Nat)} {x : H} {k c : Nat} {r : α}
    (covers : Covers parent s L (parent r) k c) (le : c ≤ k) (stored : s (x, k + 1) = some r) :
    Covers parent s ((x, k + 1) :: L) x (k + 1) c := by
  obtain ⟨inRange, cover⟩ := covers
  constructor
  · intro q mem
    rcases List.mem_cons.mp mem with rfl | old
    · exact ⟨by simp; omega, le_refl _, ancestor_self _ _⟩
    · obtain ⟨low, high, found⟩ := inRange q old
      exact ⟨low, by omega, by rw [ancestor_parent stored high]; exact found⟩
  · intro h low high
    by_cases top : h = k + 1
    · exact ⟨(x, k + 1), List.mem_cons_self, top.symm⟩
    · obtain ⟨q, mem, height⟩ := cover h low (by omega)
      exact ⟨q, List.mem_cons_of_mem _ mem, height⟩

theorem Covers.extend {s' : Store (H × Nat) α} (ext : s.Extends s') {L : List (H × Nat)} {top : H}
    {high low : Nat} (covers : Covers parent s L top high low) : Covers parent s' L top high low := by
  obtain ⟨inRange, cover⟩ := covers
  refine ⟨fun q mem => ?_, cover⟩
  obtain ⟨low, high, found⟩ := inRange q mem
  exact ⟨low, high, ancestor_extends ext found⟩

theorem Covers.reverse {L : List (H × Nat)} {top : H} {high low : Nat} (covers : Covers parent s L top high low) :
    Covers parent s L.reverse top high low := by
  obtain ⟨inRange, cover⟩ := covers
  refine ⟨fun p mem => inRange p (List.mem_reverse.mp mem), fun h low le => ?_⟩
  obtain ⟨p, mem, height⟩ := cover h low le
  exact ⟨p, List.mem_reverse.mpr mem, height⟩

/-- Writing the listed hashes at their heights: the heights of the range get the ancestors. -/
theorem Covers.foldl_put {L : List (H × Nat)} {top : H} {high low : Nat} (covers : Covers parent s L top high low)
    (canon : Store Nat H) (h : Nat) :
    (L.foldl (fun c p => c.put p.2 p.1) canon) h =
      if low < h ∧ h ≤ high then ancestor parent s top high h else canon h := by
  obtain ⟨inRange, cover⟩ := covers
  have written : ∀ (L : List (H × Nat)) (canon : Store Nat H),
      (∀ p ∈ L, ancestor parent s top high p.2 = some p.1) →
      (L.foldl (fun c p => c.put p.2 p.1) canon) h =
        if ∃ p ∈ L, p.2 = h then ancestor parent s top high h else canon h := by
    intro L
    induction L with
    | nil => simp
    | cons p rest ih =>
        intro canon agree
        rw [List.foldl_cons, ih _ (fun q mem => agree q (List.mem_cons_of_mem _ mem))]
        by_cases here : p.2 = h
        · subst here
          simp [Store.put_same, agree p (List.mem_cons_self)]
        · rw [Store.put_other canon p.1 (Ne.symm here)]
          simp only [List.mem_cons, exists_eq_or_imp, here, false_or]
  rw [written L canon (fun p mem => (inRange p mem).2.2)]
  congr 1
  apply propext
  constructor
  · rintro ⟨p, mem, rfl⟩
    exact ⟨(inRange p mem).1, (inRange p mem).2.1⟩
  · rintro ⟨low, le⟩
    exact cover h low le

end Covers

section FirstHighest

variable {β : Type} (height : β → Nat)

/-- `head` is the first element of `written` of the greatest height. -/
def FirstHighest (written : List β) (head : β) : Prop :=
  (∀ x ∈ written, height x ≤ height head) ∧
    ∃ pre post, written = pre ++ head :: post ∧ ∀ x ∈ pre, height x < height head

variable {height}

theorem FirstHighest.singleton (g : β) : FirstHighest height [g] g :=
  ⟨by simp, [], [], rfl, by simp⟩

theorem FirstHighest.mem {written : List β} {head : β} (first : FirstHighest height written head) :
    head ∈ written := by
  obtain ⟨_, pre, post, split, _⟩ := first
  simp [split]

/-- A higher element written next is the new head. -/
theorem FirstHighest.append_higher {written : List β} {head x : β} (first : FirstHighest height written head)
    (higher : height head < height x) : FirstHighest height (written ++ [x]) x := by
  obtain ⟨highest, _⟩ := first
  refine ⟨?_, written, [], rfl, fun y mem => by have := highest y mem; omega⟩
  intro y mem
  rcases List.mem_append.mp mem with old | new
  · have := highest y old
    omega
  · simp only [List.mem_singleton] at new
    subst new
    exact le_refl _

/-- An element written next that is not higher leaves the head. -/
theorem FirstHighest.append_le {written : List β} {head x : β} (first : FirstHighest height written head)
    (notHigher : height x ≤ height head) : FirstHighest height (written ++ [x]) head := by
  obtain ⟨highest, pre, post, split, lower⟩ := first
  refine ⟨?_, pre, post ++ [x], by simp [split], lower⟩
  intro y mem
  rcases List.mem_append.mp mem with old | new
  · exact highest y old
  · simp only [List.mem_singleton] at new
    subst new
    exact notHigher

end FirstHighest

section Runs

variable {H α : Type} (hash parent : α → H) (number : α → Nat)

/-- Every record of `l` after the first has its parent earlier in `l`: a record of the
parent's hash, one height below. -/
def ParentsFirst (l : List α) : Prop :=
  ∀ pre x post, l = pre ++ x :: post → pre ≠ [] →
    ∃ p ∈ pre, hash p = parent x ∧ number p + 1 = number x

/-- Records of `l` with the same hash and height are the same record. -/
def KeysIdentify (l : List α) : Prop :=
  ∀ x ∈ l, ∀ y ∈ l, hash x = hash y → number x = number y → x = y

variable {hash parent number}

section
attribute [local simp] KeysIdentify
end

theorem ParentsFirst.prefix {l r : List α} (parents : ParentsFirst hash parent number (l ++ r)) :
    ParentsFirst hash parent number l := by
  intro pre x post split nonempty
  exact parents pre x (post ++ r) (by simp [split]) nonempty

theorem ParentsFirst.singleton (g : α) : ParentsFirst hash parent number [g] := by
  intro pre x post split nonempty
  cases pre with
  | nil => exact absurd rfl nonempty
  | cons y rest => simp at split

/-- A record whose parent is in the list may be written next. -/
theorem ParentsFirst.append {l : List α} {x : α} (parents : ParentsFirst hash parent number l)
    (parentMem : ∃ p ∈ l, hash p = parent x ∧ number p + 1 = number x) :
    ParentsFirst hash parent number (l ++ [x]) := by
  intro pre y post split nonempty
  rcases List.eq_nil_or_concat post with rfl | ⟨post', z, rfl⟩
  · -- `y` is the record written last
    have same : pre = l ∧ y = x := by simpa using split.symm
    obtain ⟨rfl, rfl⟩ := same
    exact parentMem
  · have earlier : l = pre ++ y :: post' := by
      have lastSplit : l ++ [x] = (pre ++ y :: post') ++ [z] := by
        rw [split, List.concat_eq_append]
        simp
      exact (List.append_inj' lastSplit rfl).1
    exact parents pre y post' earlier nonempty

theorem KeysIdentify.sublist {l l' : List α} (identify : KeysIdentify hash number l') (sub : l.Sublist l') :
    KeysIdentify hash number l :=
  fun x memx y memy => identify x (sub.subset memx) y (sub.subset memy)

end Runs

section Stores

variable {H α : Type} (hash parent : α → H) (number : α → Nat)

/-- `S` holds exactly the records of `written`, each under its hash and height. -/
def Stores (S : Store (H × Nat) α) (written : List α) : Prop :=
  ∀ h n x, S (h, n) = some x ↔ x ∈ written ∧ hash x = h ∧ number x = n

variable {hash parent number} {S : Store (H × Nat) α} {written : List α}

theorem Stores.stored (stores : Stores hash number S written) {x : α} (mem : x ∈ written) :
    S (hash x, number x) = some x :=
  (stores (hash x) (number x) x).mpr ⟨mem, rfl, rfl⟩

theorem Stores.number_eq (stores : Stores hash number S written) {h : H} {n : Nat} {x : α}
    (found : S (h, n) = some x) : number x = n :=
  ((stores h n x).mp found).2.2

variable [DecidableEq H]

/-- Storing a record under its key keeps every entry when no other record has that key. -/
theorem Stores.extends_put (stores : Stores hash number S written) {x : α}
    (identify : KeysIdentify hash number (written ++ [x])) : S.Extends (S.put (hash x, number x) x) := by
  apply Store.put_extends
  cases found : S (hash x, number x) with
  | none => exact .inl rfl
  | some y =>
      obtain ⟨mem, sameHash, sameNumber⟩ := (stores _ _ y).mp found
      rw [identify y (List.mem_append_left _ mem) x (by simp) sameHash sameNumber]
      exact .inr rfl

/-- Storing a record under its key: the store holds the list with the record appended. -/
theorem Stores.put (stores : Stores hash number S written) {x : α}
    (identify : KeysIdentify hash number (written ++ [x])) :
    Stores hash number (S.put (hash x, number x) x) (written ++ [x]) := by
  intro h n y
  by_cases key : (h, n) = (hash x, number x)
  · simp only [Prod.mk.injEq] at key
    obtain ⟨rfl, rfl⟩ := key
    rw [Store.put_same]
    constructor
    · rintro ⟨⟩
      simp
    · rintro ⟨mem, sameHash, sameNumber⟩
      rw [identify y mem x (by simp) sameHash sameNumber]
  · rw [Store.put_other _ _ key, stores, List.mem_append, List.mem_singleton]
    constructor
    · rintro ⟨mem, same⟩
      exact ⟨.inl mem, same⟩
    · rintro ⟨mem | rfl, sameHash, sameNumber⟩
      · exact ⟨mem, sameHash, sameNumber⟩
      · exact absurd (by rw [sameHash, sameNumber]) key

/-- Storing a record whose parent is stored keeps the store linked. -/
theorem Linked.put (linked : Linked parent S) (stores : Stores hash number S written) {x : α}
    (identify : KeysIdentify hash number (written ++ [x]))
    (parentMem : ∃ p ∈ written, hash p = parent x ∧ number p + 1 = number x) :
    Linked parent (S.put (hash x, number x) x) := by
  obtain ⟨p, mem, parentHash, parentNumber⟩ := parentMem
  have ext := stores.extends_put identify
  intro h n r found
  by_cases key : (h, n + 1) = (hash x, number x)
  · rw [key, Store.put_same] at found
    cases found
    refine ⟨p, ext _ _ ?_⟩
    rw [← parentHash, show n = number p by simp only [Prod.mk.injEq] at key; omega]
    exact stores.stored mem
  · rw [Store.put_other _ _ key] at found
    obtain ⟨r', parentStored⟩ := linked h n r found
    exact ⟨r', ext _ _ parentStored⟩

end Stores

section Indexed

variable {H α : Type} (hash parent : α → H) (number : α → Nat)

/-- At most one record of `written` has height zero. -/
def SingleRoot (written : List α) : Prop :=
  ∀ x ∈ written, ∀ y ∈ written, number x = 0 → number y = 0 → x = y

/-- What a chain keeps after writing the records of `written`, the first one at height zero
first: the store holds exactly them, one at height zero, each with its parent stored; the
head is the first highest written, and the canonical index is the head's ancestor map. -/
structure Indexed (S : Store (H × Nat) α) (canonical : Store Nat H) (head : α) (written : List α) :
    Prop where
  stores : Stores hash number S written
  root : SingleRoot number written
  linked : Linked parent S
  highest : FirstHighest number written head
  canonical : ∀ h, canonical h = ancestor parent S (hash head) (number head) h

variable {hash parent number} {S : Store (H × Nat) α} {canon : Store Nat H} {head : α} {written : List α}

section
attribute [local simp] SingleRoot
end

theorem Indexed.headStored (indexed : Indexed hash parent number S canon head written) :
    S (hash head, number head) = some head :=
  indexed.stores.stored indexed.highest.mem

/-- Two stored records of height zero have the same hash. -/
theorem Indexed.root_hash (indexed : Indexed hash parent number S canon head written) {a b : H} {x y : α}
    (storedA : S (a, 0) = some x) (storedB : S (b, 0) = some y) : a = b := by
  obtain ⟨memX, hashX, numberX⟩ := (indexed.stores a 0 x).mp storedA
  obtain ⟨memY, hashY, numberY⟩ := (indexed.stores b 0 y).mp storedB
  rw [← hashX, ← hashY, indexed.root x memX y memY numberX numberY]

/-- The canonical index names at height zero the ancestor there of any stored record. -/
theorem Indexed.canonical_zero (indexed : Indexed hash parent number S canon head written) {y : H} {n : Nat} {r : α}
    (stored : S (y, n) = some r) : canon 0 = ancestor parent S y n 0 := by
  obtain ⟨a, ra, headAt, storedA⟩ := ancestor_stored indexed.linked indexed.headStored (Nat.zero_le _)
  obtain ⟨b, rb, at0, storedB⟩ := ancestor_stored indexed.linked stored (Nat.zero_le _)
  rw [indexed.canonical, headAt, at0, indexed.root_hash storedA storedB]

/-- A record above height zero written next keeps one record at height zero. -/
theorem SingleRoot.append (root : SingleRoot number written) {x : α} (pos : 0 < number x) :
    SingleRoot number (written ++ [x]) := by
  intro y memY z memZ zeroY zeroZ
  simp only [List.mem_append, List.mem_singleton] at memY memZ
  rcases memY with memY | rfl
  · rcases memZ with memZ | rfl
    · exact root y memY z memZ zeroY zeroZ
    · omega
  · omega

variable [DecidableEq H]

/-- The store holding one record of height zero, canonical at zero and the head. -/
theorem Indexed.init (g : α) (zero : number g = 0) :
    Indexed hash parent number (Store.empty.put (hash g, number g) g) (Store.empty.put (number g) (hash g)) g
      [g] where
  stores h n y := by
    by_cases key : (h, n) = (hash g, number g)
    · simp only [Prod.mk.injEq] at key
      obtain ⟨rfl, rfl⟩ := key
      rw [Store.put_same]
      constructor
      · rintro ⟨⟩
        exact ⟨List.mem_singleton_self g, rfl, rfl⟩
      · rintro ⟨mem, -, -⟩
        rw [List.mem_singleton.mp mem]
    · rw [Store.put_other _ _ key]
      simp only [Store.empty, reduceCtorEq, List.mem_singleton, false_iff, not_and]
      rintro rfl rfl rfl
      exact key rfl
  root := by simp [SingleRoot]
  linked h n r found := by
    by_cases key : (h, n + 1) = (hash g, number g)
    · simp only [Prod.mk.injEq] at key
      omega
    · rw [Store.put_other _ _ key] at found
      cases found
  highest := FirstHighest.singleton g
  canonical h := by
    rw [zero]
    by_cases bottom : h = 0
    · subst bottom
      rw [ancestor_self]
      exact Store.put_same _ _ _
    · rw [Store.put_other _ _ bottom]
      simp [Store.empty, ancestor, bottom]

section Write

variable {x : α} (indexed : Indexed hash parent number S canon head written)
  (parentMem : ∃ p ∈ written, hash p = parent x ∧ number p + 1 = number x)
  (identify : KeysIdentify hash number (written ++ [x]))
include indexed parentMem identify

/-- A record written at or below the head's height leaves the head and the index. -/
theorem Indexed.side (notHigher : number x ≤ number head) :
    Indexed hash parent number (S.put (hash x, number x) x) canon head (written ++ [x]) where
  stores := indexed.stores.put identify
  root := indexed.root.append (by obtain ⟨p, _, _, parentNumber⟩ := parentMem; omega)
  linked := indexed.linked.put indexed.stores identify parentMem
  highest := indexed.highest.append_le notHigher
  canonical h := by
    rw [indexed.canonical, ancestor_extends_eq (indexed.stores.extends_put identify) indexed.linked
      indexed.headStored]

/-- A record written one height above the head, whose parent's branch meets the index at
height `c`, becomes the head once the heights above `c` name its ancestors. -/
theorem Indexed.advance (higher : number head < number x) {c : Nat}
    (meets : canon c = ancestor parent (S.put (hash x, number x) x) (parent x) (number head) c)
    (le : c ≤ number head) {canon' : Store Nat H}
    (rewritten : ∀ h, canon' h = if c < h ∧ h ≤ number x then
      ancestor parent (S.put (hash x, number x) x) (hash x) (number x) h else canon h) :
    Indexed hash parent number (S.put (hash x, number x) x) canon' x (written ++ [x]) where
  stores := indexed.stores.put identify
  root := indexed.root.append (by obtain ⟨p, _, _, parentNumber⟩ := parentMem; omega)
  linked := indexed.linked.put indexed.stores identify parentMem
  highest := indexed.highest.append_higher higher
  canonical h := by
    obtain ⟨p, mem, parentHash, parentNumber⟩ := parentMem
    have ext := indexed.stores.extends_put identify
    have headLe : number p ≤ number head := indexed.highest.1 p mem
    have number_x : number x = number head + 1 := by omega
    have storedX : S.put (hash x, number x) x (hash x, number head + 1) = some x := by
      rw [← number_x]
      exact Store.put_same _ _ _
    have parentStored : S.put (hash x, number x) x (parent x, number head) = some p := by
      rw [← parentHash, show number head = number p by omega]
      exact ext _ _ (indexed.stores.stored mem)
    have below : ∀ h, h ≠ number x →
        ancestor parent (S.put (hash x, number x) x) (hash x) (number x) h =
          ancestor parent (S.put (hash x, number x) x) (parent x) (number head) h := by
      intro h other
      rw [show ancestor parent (S.put (hash x, number x) x) (hash x) (number x) h =
          ancestor parent (S.put (hash x, number x) x) (hash x) (number head + 1) h by rw [number_x]]
      exact ancestor_of_ne storedX (by omega)
    -- both branches meet at `c`, where the index names the ancestor they share
    obtain ⟨z, _, newAt, _⟩ := ancestor_stored (indexed.linked.put indexed.stores identify
      ⟨p, mem, parentHash, parentNumber⟩) parentStored le
    have oldAt : ancestor parent (S.put (hash x, number x) x) (hash head) (number head) c = some z := by
      rw [ancestor_extends_eq ext indexed.linked indexed.headStored, ← indexed.canonical]
      exact meets.trans newAt
    rw [rewritten]
    split
    · rfl
    · rename_i outside
      have rebased := ancestor_rebase oldAt newAt (le_refl _) h
      rw [if_neg (by omega)] at rebased
      rw [indexed.canonical h, ← ancestor_extends_eq ext indexed.linked indexed.headStored h, below h (by omega),
        rebased]

end Write

end Indexed

end Ancestry
