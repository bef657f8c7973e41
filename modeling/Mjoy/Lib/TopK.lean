import Mathlib

/-!
Selection of the `k` least elements of a stream by a key, as a bounded list kept in key order:
each element is inserted in front of the first entry with a greater key, and when the list
is full the last entry falls off (or the element itself, when no entry is greater).

`IsTopK key k S r` says what the list holds after the stream `S`: the `k` least elements of
`S` (all of them when there are fewer), in order, and nothing left out has a smaller key than
something kept. `IsTopK.boundedInsert` is the step; a run is an induction over the stream.
-/

namespace TopK

variable {α β : Type*} [LinearOrder β] (key : α → β)

/-- `l` in key order. -/
def Sorted (l : List α) : Prop := l.Pairwise fun a b => key a ≤ key b

/-- `l` with `x` put in front of its entry `ix`. -/
def insertAt (l : List α) (ix : Nat) (x : α) : List α := l.take ix ++ x :: l.drop ix

/-- `ix` is where `x` goes in `l`: the entries before it have no greater key than `x`, those
from it on a greater one. -/
structure Splits (l : List α) (ix : Nat) (x : α) : Prop where
  le_length : ix ≤ l.length
  before : ∀ y ∈ l.take ix, key y ≤ key x
  after : ∀ y ∈ l.drop ix, key x < key y

/-- Insertion at `ix` into a list of at most `k` entries: with room the list grows by one;
full, it loses its last entry, or `x` itself when `x` would be last. -/
def boundedInsert (k : Nat) (l : List α) (ix : Nat) (x : α) : List α :=
  if l.length < k then insertAt l ix x
  else if ix = l.length then l
  else (insertAt l ix x).dropLast

/-- After the stream `S`, `r` holds the `k` least elements of `S` by key, in order. -/
structure IsTopK (k : Nat) (S r : List α) : Prop where
  length_eq : r.length = min k S.length
  subperm : r.Subperm S
  sorted : Sorted key r
  le_of_not_mem : ∀ x ∈ S, x ∉ r → ∀ y ∈ r, key y ≤ key x

variable {key}

-- Equation lemmas of the definitions above, made once here rather than by the proofs below
-- that unfold them in parallel.
section
attribute [local simp] Sorted insertAt boundedInsert
end

theorem insertAt_perm (l : List α) (ix : Nat) (x : α) : (insertAt l ix x).Perm (x :: l) := by
  unfold insertAt
  have moved : List.Perm (l.take ix ++ x :: l.drop ix) (x :: (l.take ix ++ l.drop ix)) :=
    List.perm_middle
  rwa [List.take_append_drop] at moved

@[simp] theorem length_insertAt (l : List α) (ix : Nat) (x : α) :
    (insertAt l ix x).length = l.length + 1 :=
  by simpa using (insertAt_perm l ix x).length_eq

theorem mem_insertAt {l : List α} {ix : Nat} {x y : α} :
    y ∈ insertAt l ix x ↔ y = x ∨ y ∈ l :=
  (insertAt_perm l ix x).mem_iff.trans List.mem_cons

theorem Sorted.insertAt {l : List α} {ix : Nat} {x : α} (sorted : Sorted key l)
    (split : Splits key l ix x) : Sorted key (insertAt l ix x) := by
  have parts := List.take_append_drop ix l
  unfold Sorted at sorted
  rw [← parts, List.pairwise_append] at sorted
  obtain ⟨front, back, across⟩ := sorted
  unfold Sorted TopK.insertAt
  rw [List.pairwise_append, List.pairwise_cons]
  refine ⟨front, ⟨fun y mem => (split.after y mem).le, back⟩, fun a inFront b inRest => ?_⟩
  rcases List.mem_cons.mp inRest with rfl | inBack
  · exact split.before a inFront
  · exact across a inFront b inBack

/-- With `ix` inside `l`, the last entry of `l` is the last of the insertion too, and the
insertion without it keeps `x`. -/
theorem insertAt_dropLast {l : List α} {ix : Nat} {x : α} (inside : ix < l.length) :
    ∃ z, l.drop ix = (l.drop ix).dropLast ++ [z] ∧
      (insertAt l ix x).dropLast = l.take ix ++ x :: (l.drop ix).dropLast := by
  have nonempty : l.drop ix ≠ [] := by simp; omega
  refine ⟨(l.drop ix).getLast nonempty, (List.dropLast_append_getLast nonempty).symm, ?_⟩
  unfold insertAt
  rw [List.dropLast_append_of_ne_nil (List.cons_ne_nil _ _), List.dropLast_cons_of_ne_nil nonempty]

theorem Sorted.boundedInsert {l : List α} {k ix : Nat} {x : α} (sorted : Sorted key l)
    (split : Splits key l ix x) : Sorted key (boundedInsert k l ix x) := by
  unfold TopK.boundedInsert
  split_ifs
  · exact sorted.insertAt split
  · exact sorted
  · exact (sorted.insertAt split).sublist (List.dropLast_sublist _)

theorem length_boundedInsert (k : Nat) (l : List α) (ix : Nat) (x : α) :
    (boundedInsert k l ix x).length = if l.length < k then l.length + 1 else l.length := by
  unfold boundedInsert
  split_ifs <;> simp

theorem boundedInsert_subperm (k : Nat) (l : List α) (ix : Nat) (x : α) :
    (boundedInsert k l ix x).Subperm (x :: l) := by
  unfold boundedInsert
  split_ifs
  · exact (insertAt_perm l ix x).subperm
  · exact (List.sublist_cons_self x l).subperm
  · exact ((List.dropLast_sublist _).subperm).trans (insertAt_perm l ix x).subperm

@[simp] theorem IsTopK.nil (k : Nat) : IsTopK key k [] [] where
  length_eq := by simp
  subperm := List.Subperm.refl []
  sorted := List.Pairwise.nil
  le_of_not_mem := by simp

/-- From a stream without repeats, nothing is kept twice. -/
theorem IsTopK.nodup {k : Nat} {S r : List α} (top : IsTopK key k S r) (nodup : S.Nodup) : r.Nodup := by
  obtain ⟨l, perm, sub⟩ := top.subperm
  exact perm.nodup_iff.mp (nodup.sublist sub)

section Step

variable {k ix : Nat} {S r : List α} {x : α}

/-- With room, every element seen is kept, and so is `x`. -/
theorem IsTopK.boundedInsert_room (top : IsTopK key k S r) (split : Splits key r ix x)
    (room : r.length < k) : IsTopK key k (S ++ [x]) (boundedInsert k r ix x) := by
  have all : r.Perm S := top.subperm.perm_of_length_le (by have := top.length_eq; omega)
  have inserted : boundedInsert k r ix x = insertAt r ix x := if_pos room
  refine ⟨?_, ?_, top.sorted.boundedInsert split, ?_⟩
  · rw [length_boundedInsert, if_pos room, List.length_append, ← all.length_eq]
    have := top.length_eq
    simp only [List.length_singleton]
    omega
  · exact (boundedInsert_subperm k r ix x).trans
      (((all.cons x).trans (List.perm_append_singleton x S).symm).subperm)
  · intro y seen notKept
    rw [inserted, mem_insertAt] at notKept
    rcases List.mem_append.mp seen with old | new
    · exact absurd (Or.inr (all.mem_iff.mpr old)) notKept
    · exact absurd (Or.inl (List.mem_singleton.mp new)) notKept

/-- Full, with `x` past every entry: the list stays, and `x` is left out, no closer than any
entry. -/
theorem IsTopK.boundedInsert_last (top : IsTopK key k S r) (split : Splits key r ix x)
    (full : ¬r.length < k) (last : ix = r.length) :
    IsTopK key k (S ++ [x]) (boundedInsert k r ix x) := by
  have kept : boundedInsert k r ix x = r := by
    unfold boundedInsert
    rw [if_neg full, if_pos last]
  rw [kept]
  refine ⟨?_, top.subperm.trans (List.sublist_append_left S [x]).subperm, top.sorted, ?_⟩
  · have := top.length_eq
    simp only [List.length_append, List.length_singleton]
    omega
  · intro y seen notKept z inR
    rcases List.mem_append.mp seen with old | new
    · exact top.le_of_not_mem y old notKept z inR
    · rw [List.mem_singleton.mp new]
      exact split.before z (by rwa [last, List.take_length])

/-- Full, with `x` before the entry `ix`: `x` goes in and the last entry `z` falls off; `z` is
no closer than anything kept, and `x` is closer than everything left out before. -/
theorem IsTopK.boundedInsert_shift (top : IsTopK key k S r) (split : Splits key r ix x)
    (full : ¬r.length < k) (inside : ix ≠ r.length) :
    IsTopK key k (S ++ [x]) (boundedInsert k r ix x) := by
  have lt : ix < r.length := Nat.lt_of_le_of_ne split.le_length inside
  obtain ⟨z, tail, shifted⟩ := insertAt_dropLast (x := x) lt
  have result : boundedInsert k r ix x = r.take ix ++ x :: (r.drop ix).dropLast := by
    unfold boundedInsert
    rw [if_neg full, if_neg inside, shifted]
  have parts : r = r.take ix ++ ((r.drop ix).dropLast ++ [z]) := by
    rw [← tail, List.take_append_drop]
  have zAfter : key x < key z := split.after z (by rw [tail]; simp)
  -- the entries between `x` and `z` come before `z` in `r`
  have upToZ : ∀ y ∈ (r.drop ix).dropLast, key y ≤ key z := by
    have sortedBack : Sorted key (r.drop ix) := top.sorted.sublist (List.drop_sublist ix r)
    rw [tail, Sorted, List.pairwise_append] at sortedBack
    exact fun y mem => sortedBack.2.2 y mem z (List.mem_singleton_self z)
  refine ⟨?_, ?_, top.sorted.boundedInsert split, ?_⟩
  · rw [length_boundedInsert, if_neg full]
    have := top.length_eq
    simp only [List.length_append, List.length_singleton]
    omega
  · exact (boundedInsert_subperm k r ix x).trans
      (((List.subperm_cons x).mpr top.subperm).trans (List.perm_append_singleton x S).symm.subperm)
  · intro y seen notKept w kept
    rw [result] at notKept kept
    have notX : y ≠ x := fun same => notKept (by simp [same])
    have yOld : y ∈ S := by
      rcases List.mem_append.mp seen with old | new
      · exact old
      · exact absurd (List.mem_singleton.mp new) notX
    by_cases inR : y ∈ r
    · -- what `r` held and the result does not is `z`
      have yz : y = z := by
        rw [parts] at inR
        simp only [List.mem_append, List.mem_cons] at inR notKept
        tauto
      subst yz
      simp only [List.mem_append, List.mem_cons] at kept
      rcases kept with front | rfl | back
      · exact (split.before w front).trans zAfter.le
      · exact zAfter.le
      · exact upToZ w back
    · -- left out before: every kept entry of `r` is no farther, and `x` is closer than `z`
      have zKept : key z ≤ key y := top.le_of_not_mem y yOld inR z (by rw [parts]; simp)
      simp only [List.mem_append, List.mem_cons] at kept
      rcases kept with front | rfl | back
      · exact top.le_of_not_mem y yOld inR w (by rw [parts]; simp [front])
      · exact zAfter.le.trans zKept
      · exact top.le_of_not_mem y yOld inR w (by rw [parts]; simp [back])

/-- One element of the stream: bounded insertion at its place keeps the `k` least. -/
theorem IsTopK.boundedInsert (top : IsTopK key k S r) (split : Splits key r ix x) :
    IsTopK key k (S ++ [x]) (boundedInsert k r ix x) := by
  by_cases room : r.length < k
  · exact top.boundedInsert_room split room
  · by_cases last : ix = r.length
    · exact top.boundedInsert_last split room last
    · exact top.boundedInsert_shift split room last

end Step

end TopK
