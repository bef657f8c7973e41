import Mathlib

/-!
A key-value store as a partial map, written by `put`. One store extends another when it
holds every entry of the other; a list of writes is consistent with a store when no write
replaces a value by a different one. Consistent writes extend the store and are all kept.
-/

namespace KeyValue

/-- A store: a missing key reads as `none`. -/
def Store (κ ν : Type) := κ → Option ν

namespace Store

variable {κ ν : Type}

def empty : Store κ ν := fun _ => none

/-- `s'` holds every entry of `s`. -/
def Extends (s s' : Store κ ν) : Prop :=
  ∀ k v, s k = some v → s' k = some v

-- Equation lemmas of the definitions above, made once here rather than by the proofs below
-- that unfold them in parallel.
section
attribute [local simp] empty
end

theorem Extends.refl (s : Store κ ν) : Extends s s :=
  fun _ _ found => found

theorem Extends.trans {s s' s'' : Store κ ν} (first : Extends s s') (second : Extends s' s'') :
    Extends s s'' :=
  fun k v found => second k v (first k v found)

variable [DecidableEq κ]

def put (s : Store κ ν) (k : κ) (v : ν) : Store κ ν :=
  fun key => if key = k then some v else s key

/-- The store without the key `k`. -/
def erase (s : Store κ ν) (k : κ) : Store κ ν :=
  fun key => if key = k then none else s key

/-- The writes of a list, in order. -/
def putAll (s : Store κ ν) (writes : List (κ × ν)) : Store κ ν :=
  writes.foldl (fun s w => s.put w.1 w.2) s

/-- Every write finds its key free or holding the value it writes. -/
def Consistent : Store κ ν → List (κ × ν) → Prop
  | _, [] => True
  | s, (k, v) :: rest => (s k = none ∨ s k = some v) ∧ Consistent (s.put k v) rest

section
attribute [local simp] put erase putAll Consistent
end

instance decidableConsistent [DecidableEq ν] : (s : Store κ ν) → (writes : List (κ × ν)) →
    Decidable (Consistent s writes)
  | _, [] => isTrue trivial
  | s, (k, v) :: rest =>
      have := decidableConsistent (s.put k v) rest
      inferInstanceAs (Decidable ((s k = none ∨ s k = some v) ∧ Consistent (s.put k v) rest))

@[simp] theorem put_same (s : Store κ ν) (k : κ) (v : ν) : s.put k v k = some v := by
  simp [put]

theorem put_other (s : Store κ ν) {k key : κ} (v : ν) (other : key ≠ k) : s.put k v key = s key := by
  simp [put, other]

@[simp] theorem erase_same (s : Store κ ν) (k : κ) : s.erase k k = none := by
  simp [erase]

theorem erase_other (s : Store κ ν) {k key : κ} (other : key ≠ k) : s.erase k key = s key := by
  simp [erase, other]

@[simp] theorem putAll_nil (s : Store κ ν) : s.putAll [] = s := rfl

@[simp] theorem putAll_cons (s : Store κ ν) (k : κ) (v : ν) (rest : List (κ × ν)) :
    s.putAll ((k, v) :: rest) = (s.put k v).putAll rest := rfl

theorem putAll_append (s : Store κ ν) (first second : List (κ × ν)) :
    s.putAll (first ++ second) = (s.putAll first).putAll second := by
  simp [putAll, List.foldl_append]

theorem put_extends {s : Store κ ν} {k : κ} {v : ν} (fresh : s k = none ∨ s k = some v) :
    Extends s (s.put k v) := by
  intro key value found
  by_cases same : key = k
  · subst same
    rcases fresh with absent | present
    · rw [absent] at found
      cases found
    · rw [present] at found
      rw [put_same, found]
  · rwa [put_other s v same]

theorem consistent_append {s : Store κ ν} {first second : List (κ × ν)} :
    Consistent s (first ++ second) ↔ Consistent s first ∧ Consistent (s.putAll first) second := by
  induction first generalizing s with
  | nil => simp [Consistent]
  | cons w rest ih =>
      obtain ⟨k, v⟩ := w
      simp only [List.cons_append, Consistent, ih, putAll_cons, and_assoc]

theorem putAll_extends {s : Store κ ν} {writes : List (κ × ν)} (consistent : Consistent s writes) :
    Extends s (s.putAll writes) := by
  induction writes generalizing s with
  | nil => exact Extends.refl s
  | cons w rest ih =>
      obtain ⟨k, v⟩ := w
      obtain ⟨fresh, restConsistent⟩ := consistent
      exact (put_extends fresh).trans (ih restConsistent)

/-- After consistent writes the store holds each of them. -/
theorem putAll_holds {s : Store κ ν} {writes : List (κ × ν)} (consistent : Consistent s writes) :
    ∀ w ∈ writes, s.putAll writes w.1 = some w.2 := by
  induction writes generalizing s with
  | nil => simp
  | cons w rest ih =>
      obtain ⟨k, v⟩ := w
      obtain ⟨_, restConsistent⟩ := consistent
      intro written member
      rcases List.mem_cons.mp member with rfl | later
      · exact putAll_extends restConsistent k v (put_same s k v)
      · exact ih restConsistent written later

/-- Writing keys one after another, each with a value given by its key: a key reads its value
if it was written, and its old value otherwise. -/
theorem foldl_put_apply (f : κ → ν) :
    ∀ (keys : List κ) (s : Store κ ν) (k : κ),
      keys.foldl (fun s key => s.put key (f key)) s k = if k ∈ keys then some (f k) else s k
  | [], s, k => by simp
  | key :: rest, s, k => by
      rw [List.foldl_cons, foldl_put_apply f rest]
      by_cases same : k = key
      · subst same
        simp
      · simp [same, put_other s _ same]

end Store

end KeyValue
