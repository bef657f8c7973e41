import Mathlib.Data.List.Nodup

/-!
A finite map kept as a list of entries, for the Go maps a program iterates over. Reading a
key gives the value of its entry; writing a key replaces its entry in place or appends one;
removing a key drops its entry. Iteration visits the entries in list order, one order among
those a Go `range` over a map may take.
-/

/-- A finite map with at most one entry per key, in the order the keys were first written. -/
abbrev Table (κ ν : Type) := List (κ × ν)

namespace Table

variable {κ ν : Type} [DecidableEq κ]

def empty : Table κ ν := []

def get (t : Table κ ν) (k : κ) : Option ν :=
  (List.find? (fun e => decide (e.1 = k)) t).map Prod.snd

/-- Writing a key: its old entry is dropped and the new one goes last. -/
def set (t : Table κ ν) (k : κ) (v : ν) : Table κ ν :=
  List.concat (List.filter (fun e => decide (e.1 ≠ k)) t) (k, v)

def remove (t : Table κ ν) (k : κ) : Table κ ν :=
  List.filter (fun e => decide (e.1 ≠ k)) t

def keys (t : Table κ ν) : List κ :=
  List.map Prod.fst t

def contains (t : Table κ ν) (k : κ) : Bool :=
  (t.get k).isSome

-- Equation lemmas of the definitions above, made once here rather than by the proofs below
-- that unfold them in parallel.
section
attribute [local simp] empty get set remove keys contains
end

@[simp] theorem get_empty (k : κ) : (empty : Table κ ν).get k = none :=
  rfl

@[simp] theorem get_remove (t : Table κ ν) (k key : κ) :
    (t.remove k).get key = if key = k then none else t.get key := by
  unfold remove get
  rw [List.find?_filter]
  by_cases same : key = k
  · subst same
    have never : ∀ e ∈ t, ¬(decide (e.1 ≠ key) && decide (e.1 = key)) = true := by
      intro e _
      by_cases atKey : e.1 = key <;> simp [atKey]
    simp
  · rw [if_neg same]
    congr 2
    funext e
    by_cases atKey : e.1 = key
    · simp [atKey, same]
    · simp [atKey]

theorem get_concat (t : Table κ ν) (k : κ) (v : ν) (key : κ) :
    get (List.concat t (k, v)) key = (t.get key).or (if key = k then some v else none) := by
  unfold get
  rw [List.concat_eq_append, List.find?_append]
  cases List.find? (fun e => decide (e.1 = key)) t with
  | some e => rfl
  | none =>
      by_cases same : key = k
      · simp [same]
      · simp [Ne.symm same, same]

@[simp] theorem get_set (t : Table κ ν) (k : κ) (v : ν) (key : κ) :
    (t.set k v).get key = if key = k then some v else t.get key := by
  have dropped := get_remove t k key
  unfold set
  rw [get_concat]
  unfold remove at dropped
  rw [dropped]
  by_cases same : key = k
  · simp [same]
  · simp only [same, if_false, Option.or_none]

/-! ### Keys -/

theorem get_eq_none_iff {t : Table κ ν} {k : κ} : t.get k = none ↔ k ∉ t.keys := by
  simp only [get, Option.map_eq_none_iff, List.find?_eq_none, decide_eq_true_eq, keys, List.mem_map,
    not_exists, not_and]

theorem contains_iff_mem_keys {t : Table κ ν} {k : κ} : t.contains k = true ↔ k ∈ t.keys := by
  simp [contains, Option.isSome_iff_ne_none, get_eq_none_iff]

@[simp] theorem contains_set (t : Table κ ν) (k : κ) (v : ν) (key : κ) :
    (t.set k v).contains key = (decide (key = k) || t.contains key) := by
  by_cases same : key = k <;> simp [contains, same]

@[simp] theorem contains_remove (t : Table κ ν) (k key : κ) :
    (t.remove k).contains key = (decide (key ≠ k) && t.contains key) := by
  by_cases same : key = k <;> simp [contains, same]

@[simp] theorem contains_append (t u : Table κ ν) (k : κ) : (t ++ u).contains k = (t.contains k || u.contains k) := by
  rw [Bool.eq_iff_iff, Bool.or_eq_true, contains_iff_mem_keys, contains_iff_mem_keys, contains_iff_mem_keys]
  simp [keys]

/-- A key that reads a value has an entry with it. -/
theorem mem_of_get {t : Table κ ν} {k : κ} {v : ν} (found : t.get k = some v) : (k, v) ∈ t := by
  simp only [get, Option.map_eq_some_iff] at found
  obtain ⟨e, first, rfl⟩ := found
  have atKey : e.1 = k := by simpa using List.find?_some first
  rw [← atKey]
  exact List.mem_of_find?_eq_some first

/-- With one entry per key, a key reads the value of its entry. -/
theorem get_of_mem {t : Table κ ν} (nodup : t.keys.Nodup) {k : κ} {v : ν} (mem : (k, v) ∈ t) :
    t.get k = some v := by
  have found : (t.find? fun e => decide (e.1 = k)).isSome :=
    List.find?_isSome.mpr ⟨(k, v), mem, by simp⟩
  obtain ⟨e, first⟩ := Option.isSome_iff_exists.mp found
  have atKey : e.1 = k := by simpa using List.find?_some first
  have same : e = (k, v) := List.inj_on_of_nodup_map nodup (List.mem_of_find?_eq_some first) mem atKey
  simp [get, first, same]

/-- Dropping the entries of a key that has none keeps the table. -/
theorem filter_ne_of_not_mem_keys {t : Table κ ν} {k : κ} (notKey : k ∉ t.keys) :
    t.filter (fun e => decide (e.1 ≠ k)) = t := by
  apply List.filter_eq_self.mpr
  intro e mem
  have : e.1 ≠ k := fun same => notKey (List.mem_map.mpr ⟨e, mem, same⟩)
  simpa using this

/-- Writing a key that is absent appends its entry. -/
theorem set_of_get_eq_none {t : Table κ ν} {k : κ} (absent : t.get k = none) (v : ν) :
    t.set k v = t ++ [(k, v)] := by
  unfold set
  rw [filter_ne_of_not_mem_keys (get_eq_none_iff.mp absent), List.concat_eq_append]

/-- A key written last, and not before, reads its last value. -/
theorem get_append_self {t : Table κ ν} {k : κ} (notKey : k ∉ t.keys) (v : ν) :
    (t ++ [(k, v)]).get k = some v := by
  rw [← List.concat_eq_append, get_concat, get_eq_none_iff.mpr notKey]
  simp

/-- Writing the key of the last entry, absent before it, replaces that entry in place. -/
theorem set_append_self {t : Table κ ν} {k : κ} (notKey : k ∉ t.keys) (w v : ν) :
    (t ++ [(k, w)]).set k v = t ++ [(k, v)] := by
  unfold set
  rw [List.filter_append, filter_ne_of_not_mem_keys notKey, List.concat_eq_append]
  simp

@[simp] theorem keys_set (t : Table κ ν) (k : κ) (v : ν) :
    (t.set k v).keys = t.keys.filter (fun key => decide (key ≠ k)) ++ [k] := by
  simp [set, keys, List.filter_map, Function.comp_def]

@[simp] theorem keys_remove (t : Table κ ν) (k : κ) :
    (t.remove k).keys = t.keys.filter (fun key => decide (key ≠ k)) := by
  simp [remove, keys, List.filter_map, Function.comp_def]

theorem nodup_keys_remove {t : Table κ ν} (nodup : t.keys.Nodup) (k : κ) : (t.remove k).keys.Nodup := by
  rw [keys_remove]
  exact nodup.sublist List.filter_sublist

theorem nodup_keys_set {t : Table κ ν} (nodup : t.keys.Nodup) (k : κ) (v : ν) : (t.set k v).keys.Nodup := by
  rw [keys_set, List.nodup_append]
  refine ⟨nodup.sublist List.filter_sublist, by simp, ?_⟩
  intro a mem b same
  simp only [List.mem_filter, decide_eq_true_eq] at mem
  simp only [List.mem_singleton] at same
  exact same ▸ mem.2

/-- Removing a list of keys, one after another. -/
theorem foldl_remove (ks : List κ) (t : Table κ ν) :
    ks.foldl remove t = t.filter (fun e => decide (e.1 ∉ ks)) := by
  induction ks generalizing t with
  | nil => simp
  | cons k ks ih =>
      rw [List.foldl_cons, ih, remove, List.filter_filter]
      congr 1
      funext e
      simp [Bool.and_comm]

/-- With one entry per key, removing the keys of the entries that satisfy `p` keeps exactly the
others. -/
theorem filter_keys_filter {t : Table κ ν} (nodup : t.keys.Nodup) (p : κ × ν → Bool) :
    t.filter (fun e => decide (e.1 ∉ keys (t.filter p))) = t.filter (fun e => !p e) := by
  apply List.filter_congr
  intro e mem
  have selected : e.1 ∈ keys (t.filter p) ↔ p e = true := by
    constructor
    · intro inKeys
      obtain ⟨e', mem', same⟩ := List.mem_map.mp inKeys
      have kept := List.mem_filter.mp mem'
      have : e' = e := List.inj_on_of_nodup_map nodup kept.1 mem same
      exact this ▸ kept.2
    · intro holds
      exact List.mem_map.mpr ⟨e, List.mem_filter.mpr ⟨mem, holds⟩, rfl⟩
  by_cases holds : p e = true <;> simp [selected, holds]

/-- With one entry per key, a table is the entry of a key it holds and the rest. -/
theorem perm_cons_remove {t : Table κ ν} (nodup : t.keys.Nodup) {k : κ} {v : ν} (found : t.get k = some v) :
    t.Perm ((k, v) :: t.remove k) := by
  induction t with
  | nil => simp [get] at found
  | cons e rest ih =>
      simp only [keys, List.map_cons, List.nodup_cons] at nodup
      by_cases atKey : e.1 = k
      · -- the entry found is the first, and no later entry has its key
        have entry : e = (k, v) := by
          simp only [get, List.find?_cons, atKey, decide_true, Option.map_some, Option.some.injEq] at found
          exact Prod.ext atKey found
        have kept : Table.remove rest k = rest := by
          apply List.filter_eq_self.mpr
          intro x mem
          have : x.1 ≠ k := fun same => nodup.1 (List.mem_map.mpr ⟨x, mem, same.trans atKey.symm⟩)
          simpa using this
        have dropped : Table.remove (e :: rest) k = Table.remove rest k := by
          simp [remove, atKey]
        rw [dropped, kept, entry]
      · have later : Table.get rest k = some v := by
          simpa [get, List.find?_cons, atKey] using found
        have dropped : Table.remove (e :: rest) k = e :: Table.remove rest k := by
          simp [remove, atKey]
        rw [dropped]
        exact ((ih nodup.2 later).cons e).trans (List.Perm.swap _ _ _)

/-- Removing a key from a table that holds an entry of it and the rest leaves the rest. -/
theorem perm_remove_of_perm_cons {t rest : Table κ ν} (nodup : t.keys.Nodup) {k : κ} {v : ν}
    (perm : t.Perm ((k, v) :: rest)) : (t.remove k).Perm rest := by
  have found : t.get k = some v := get_of_mem nodup (perm.symm.subset List.mem_cons_self)
  exact ((perm_cons_remove nodup found).symm.trans perm).cons_inv

theorem set_eq_remove_append (t : Table κ ν) (k : κ) (v : ν) : t.set k v = t.remove k ++ [(k, v)] :=
  List.concat_eq_append

/-! ### Sizes -/

theorem length_remove_le (t : Table κ ν) (k : κ) : (t.remove k).length ≤ t.length :=
  List.length_filter_le _ _

/-- Removing a key that has an entry drops at least that entry. -/
theorem length_remove_lt {t : Table κ ν} {k : κ} {v : ν} (found : t.get k = some v) : (t.remove k).length < t.length := by
  apply List.length_filter_lt_length_iff_exists.mpr
  exact ⟨(k, v), mem_of_get found, by simp⟩

/-- Writing a key that has an entry adds none. -/
theorem length_set_le {t : Table κ ν} {k : κ} {v : ν} (found : t.get k = some v) (w : ν) : (t.set k w).length ≤ t.length := by
  rw [set_eq_remove_append, List.length_append, List.length_singleton]
  exact length_remove_lt found

/-! ### Counting what the entries name -/

section Count

variable {β : Type} [BEq β] (g : κ × ν → List β)

/-- What `g` gives of the entries, counted, is what it gives of one key's entry and of the rest. -/
theorem count_flatMap_remove {t : Table κ ν} (nodup : t.keys.Nodup) {k : κ} {v : ν} (found : t.get k = some v)
    (x : β) : (t.flatMap g).count x = (g (k, v)).count x + ((t.remove k).flatMap g).count x := by
  rw [((perm_cons_remove nodup found).flatMap_right g).count_eq x, List.flatMap_cons, List.count_append]

/-- Writing a key that holds `old` trades what `g` gives of the old entry for the new one. -/
theorem count_flatMap_set [LawfulBEq β] {t : Table κ ν} (nodup : t.keys.Nodup) {k : κ} {old : ν} (found : t.get k = some old)
    (v : ν) (x : β) :
    ((t.set k v).flatMap g).count x + (g (k, old)).count x = (t.flatMap g).count x + (g (k, v)).count x := by
  rw [set_eq_remove_append, List.flatMap_append, List.count_append, count_flatMap_remove g nodup found]
  simp only [List.flatMap_cons, List.flatMap_nil, List.append_nil]
  omega

/-- Writing a key that is absent adds what `g` gives of the new entry. -/
theorem count_flatMap_set_of_get_eq_none {t : Table κ ν} {k : κ} (absent : t.get k = none) (v : ν) (x : β) :
    ((t.set k v).flatMap g).count x = (t.flatMap g).count x + (g (k, v)).count x := by
  rw [set_of_get_eq_none absent, List.flatMap_append, List.count_append]
  simp

end Count

end Table
