import Mjoy.Lib.Heap
import Mjoy.Lib.Table
import Mjoy.Transaction.Signing

/-!
The nonce-sorted transaction map of the transaction pool (`core/txprocessor/tx_list.go`).
`txSortedMap` files the transactions of one account by nonce in `items`, keeps their nonces in
the heap `index` (a `nonceHeap`, whose `Len`, `Less`, `Swap`, `Push` and `Pop` are the slice
methods `Heap` assumes), and caches the sorted slice `Flatten` returns. Each operation is
modelled as the source writes it, with the loops of `Forward`, `Cap` and `Ready` as recursive
functions; where Go would panic the model answers `none`.

`Valid` is the representation invariant: every transaction is filed under its own nonce, the
heap holds the nonces of `items` each once and in heap order, and a cached slice is the
transactions sorted by nonce. Every operation keeps it; on it, `Flatten` answers the
transactions in increasing nonce order, `Forward` takes exactly those below its threshold, `Cap`
keeps the lowest nonces, and `Ready` takes the run of consecutive nonces at the front.
-/

namespace Mjoy.TxProcessor

open Mjoy.Transaction

/-- Go's order on `uint64`, for the heap of nonces. -/
instance nonceOrder : LinearOrder UInt64 where
  le_refl a := by simp
  le_trans a b c := by simp only [UInt64.le_iff_toNat_le]; omega
  le_antisymm a b := by simp only [UInt64.le_iff_toNat_le, ← UInt64.toNat_inj]; omega
  le_total a b := by simp only [UInt64.le_iff_toNat_le]; omega
  lt_iff_le_not_ge a b := by simp only [UInt64.le_iff_toNat_le, UInt64.lt_iff_toNat_lt]; omega
  toDecidableLE := inferInstance
  toDecidableLT := inferInstance
  toDecidableEq := inferInstance
  min_def a b := rfl
  max_def a b := rfl
  compare_eq_compareOfLessAndEq a b := rfl

/-- `txSortedMap`. -/
structure TxSortedMap where
  /-- The transactions by nonce. -/
  items : Table UInt64 Transaction
  /-- The heap of the nonces of `items`. -/
  index : List UInt64
  /-- The sorted slice `Flatten` caches; `none` is Go's nil. -/
  cache : Option (List Transaction)

/-- `sort.Sort(transaction.TxByNonce(txs))`. Go's sort is not stable; on distinct nonces every
sort gives the same slice. -/
def sortByNonce (txs : List Transaction) : List Transaction :=
  txs.mergeSort fun a b => decide (a.nonce ≤ b.nonce)

/-- `newTxSortedMap()`. -/
def newTxSortedMap : TxSortedMap :=
  { items := Table.empty, index := [], cache := none }

-- Equation lemmas of the definitions above, made once here rather than by the proofs below
-- that unfold them in parallel.
section
attribute [local simp] sortByNonce newTxSortedMap
end

namespace TxSortedMap

/-- `Get(nonce)`. -/
def get (m : TxSortedMap) (nonce : UInt64) : Option Transaction :=
  m.items.get nonce

/-- `Put(tx)`: a new nonce goes onto the heap, and the transaction replaces any of its nonce. -/
def put (m : TxSortedMap) (tx : Transaction) : TxSortedMap :=
  let nonce := tx.nonce
  { items := m.items.set nonce tx
    index := if m.items.get nonce = none then Heap.push m.index nonce else m.index
    cache := none }

/-- The loop of `Forward`: while the least nonce of the heap is below `threshold`, pop it and
move its transaction from `items` to `removed`. -/
def forwardLoop (threshold : UInt64) (items : Table UInt64 Transaction) (index : List UInt64)
    (removed : List (Option Transaction)) :
    Table UInt64 Transaction × List UInt64 × List (Option Transaction) :=
  match index[0]? with
  | some first =>
      if first < threshold then
        match _found : Heap.pop index with
        | some (nonce, rest) =>
            forwardLoop threshold (items.remove nonce) rest (removed ++ [items.get nonce])
        -- `Pop` answers on a heap that is not empty
        | none => (items, index, removed)
      else (items, index, removed)
  | none => (items, index, removed)
termination_by index.length
decreasing_by have := Heap.length_pop _found; omega

/-- `Forward(threshold)`: the removed transactions and the map after them; `none` where slicing
the cache panics. -/
def forward (m : TxSortedMap) (threshold : UInt64) :
    Option (List (Option Transaction) × TxSortedMap) :=
  let r := forwardLoop threshold m.items m.index []
  -- If we had a cached order, shift the front
  match m.cache with
  | none => some (r.2.2, { items := r.1, index := r.2.1, cache := none })
  | some cache =>
      if r.2.2.length ≤ cache.length then
        some (r.2.2, { items := r.1, index := r.2.1, cache := some (cache.drop r.2.2.length) })
      else none

/-- `Filter(filter)`: the transactions `filter` selects leave the map, in the order a `range`
over `items` visits them; if any left, the heap is rebuilt from the nonces that remain. -/
def filter (m : TxSortedMap) (filter : Transaction → Bool) : List Transaction × TxSortedMap :=
  let removed := (m.items.filter fun e => filter e.2).map Prod.snd
  let items := m.items.filter fun e => !filter e.2
  if 0 < removed.length then
    (removed, { items, index := Heap.init (Table.keys items), cache := none })
  else (removed, { m with items })

/-- The loop of `Cap`, at `size`: while `size > threshold`, drop the transaction whose nonce is
at `size - 1` in the sorted heap; `none` where the position is out of range. -/
def capLoop (threshold : Int) (sorted : List UInt64) :
    Nat → Table UInt64 Transaction → List (Option Transaction) →
      Option (Table UInt64 Transaction × List (Option Transaction))
  | 0, items, drops => if threshold < 0 then none else some (items, drops)
  | size + 1, items, drops =>
      if threshold < size + 1 then
        match sorted[size]? with
        | some nonce => capLoop threshold sorted size (items.remove nonce) (drops ++ [items.get nonce])
        | none => none
      else some (items, drops)

/-- `Cap(threshold)`: the dropped transactions, highest nonce first, and the map after them;
`none` where Go panics. -/
def cap (m : TxSortedMap) (threshold : Int) : Option (List (Option Transaction) × TxSortedMap) :=
  -- Short circuit if the number of items is under the limit
  if (m.items.length : Int) ≤ threshold then some ([], m)
  else
    let sorted := m.index.mergeSort fun a b => decide (a ≤ b)
    match capLoop threshold sorted m.items.length m.items [] with
    | none => none
    | some (items, drops) =>
        let index := Heap.init (sorted.take threshold.toNat)
        -- If we had a cache, shift the back
        match m.cache with
        | none => some (drops, { items, index, cache := none })
        | some cache =>
            if drops.length ≤ cache.length then
              some (drops, { items, index, cache := some (cache.take (cache.length - drops.length)) })
            else none

/-- `Remove(nonce)`: whether the nonce was there, and the map after; the heap loses the first
position that holds the nonce. -/
def remove (m : TxSortedMap) (nonce : UInt64) : Bool × TxSortedMap :=
  match m.items.get nonce with
  | none => (false, m)
  | some _ =>
      let index :=
        match m.index.idxOf? nonce with
        -- `Remove` answers at a position of the heap
        | some i => ((Heap.remove m.index i).map Prod.snd).getD m.index
        | none => m.index
      (true, { items := m.items.remove nonce, index, cache := none })

/-- The loop of `Ready`: while the least nonce of the heap is `next`, move its transaction from
`items` to `ready`, pop the heap, and go on with `next + 1`. -/
def readyLoop (next : UInt64) (items : Table UInt64 Transaction) (index : List UInt64)
    (ready : List (Option Transaction)) :
    Table UInt64 Transaction × List UInt64 × List (Option Transaction) :=
  match index[0]? with
  | some first =>
      if first = next then
        match _found : Heap.pop index with
        | some (_, rest) => readyLoop (next + 1) (items.remove next) rest (ready ++ [items.get next])
        -- `Pop` answers on a heap that is not empty
        | none => (items, index, ready)
      else (items, index, ready)
  | none => (items, index, ready)
termination_by index.length
decreasing_by have := Heap.length_pop _found; omega

/-- `Ready(start)`: the transactions of consecutive nonces from the least one on, if that one
is at most `start`, and the map after them. -/
def ready (m : TxSortedMap) (start : UInt64) : List (Option Transaction) × TxSortedMap :=
  match m.index with
  | first :: _ =>
      if first > start then ([], m)
      else
        let r := readyLoop first m.items m.index []
        (r.2.2, { items := r.1, index := r.2.1, cache := none })
  | [] => ([], m)

/-- `Len()`. -/
def len (m : TxSortedMap) : Nat :=
  m.items.length

/-- `Flatten()`: the transactions sorted by nonce, sorted once and then cached. -/
def flatten (m : TxSortedMap) : List Transaction × TxSortedMap :=
  match m.cache with
  | some cache => (cache, m)
  | none =>
      let cache := sortByNonce (m.items.map Prod.snd)
      (cache, { m with cache := some cache })

section
attribute [local simp] get put forward filter capLoop cap remove readyLoop ready len flatten
end

end TxSortedMap

/-! ### Nonce order -/

/-- Strictly increasing nonces. -/
def Increasing (txs : List Transaction) : Prop :=
  txs.Pairwise fun a b => a.nonce < b.nonce

section
attribute [local simp] Increasing
end

theorem sortByNonce_perm (txs : List Transaction) : (sortByNonce txs).Perm txs :=
  List.mergeSort_perm _ _

theorem sortByNonce_sorted (txs : List Transaction) :
    (sortByNonce txs).Pairwise fun a b => a.nonce ≤ b.nonce := by
  have sorted := @List.pairwise_mergeSort _ (fun a b : Transaction => decide (a.nonce ≤ b.nonce))
    (fun a b c ab bc => by simp only [decide_eq_true_eq] at *; exact le_trans ab bc)
    (fun a b => by simpa using le_total a.nonce b.nonce) txs
  exact sorted.imp fun le => by simpa using le

theorem Increasing.eq_of_nonce {txs : List Transaction} (inc : Increasing txs) {a b : Transaction}
    (ha : a ∈ txs) (hb : b ∈ txs) (same : a.nonce = b.nonce) : a = b := by
  induction txs with
  | nil => simp at ha
  | cons x rest ih =>
      rw [Increasing, List.pairwise_cons] at inc
      rcases List.mem_cons.mp ha with rfl | ha' <;> rcases List.mem_cons.mp hb with rfl | hb'
      · rfl
      · exact absurd same (ne_of_lt (inc.1 b hb'))
      · exact absurd same.symm (ne_of_lt (inc.1 a ha'))
      · exact ih inc.2 ha' hb'

/-- With distinct nonces, `sortByNonce` puts them in increasing order. -/
theorem sortByNonce_increasing {txs : List Transaction} (distinct : (txs.map Transaction.nonce).Nodup) :
    Increasing (sortByNonce txs) := by
  have apart : (sortByNonce txs).Pairwise fun a b => a.nonce ≠ b.nonce :=
    List.pairwise_map.mp (((sortByNonce_perm txs).map _).nodup_iff.mpr distinct)
  exact ((sortByNonce_sorted txs).and apart).imp fun both => lt_of_le_of_ne both.1 both.2

/-- An increasing order of a list is the one `sortByNonce` gives. -/
theorem sortByNonce_eq {txs s : List Transaction} (inc : Increasing s) (perm : s.Perm txs) :
    sortByNonce txs = s := by
  refine @List.Perm.eq_of_pairwise _ (fun a b => a.nonce ≤ b.nonce) _ _ ?_ (sortByNonce_sorted txs)
    (inc.imp le_of_lt) ((sortByNonce_perm txs).trans perm.symm)
  intro a b ha hb ab ba
  have ha' : a ∈ s := perm.symm.subset ((sortByNonce_perm txs).subset ha)
  exact inc.eq_of_nonce ha' hb (le_antisymm ab ba)

/-- The transactions of a run of consecutive nonces from `next` on, at the front of `txs`. -/
def consecutive : List Transaction → UInt64 → List Transaction
  | tx :: rest, next => if tx.nonce = next then tx :: consecutive rest (next + 1) else []
  | [], _ => []

/-- What `Ready(start)` is for: the run of consecutive nonces from the least one on, if that one
is at most `start`, and nothing otherwise. -/
def readyRun (txs : List Transaction) (start : UInt64) : List Transaction :=
  match txs with
  | tx :: _ => if tx.nonce ≤ start then consecutive txs tx.nonce else []
  | [] => []

section
attribute [local simp] consecutive readyRun
end

/-! ### Tables filed by nonce -/

/-- The transactions of `items` in nonce order: what `Flatten` sorts. -/
def byNonce (items : Table UInt64 Transaction) : List Transaction :=
  sortByNonce (items.map Prod.snd)

/-- Every transaction of `items` is filed under its own nonce, and no nonce is filed twice. -/
structure Filed (items : Table UInt64 Transaction) : Prop where
  keyed : ∀ e ∈ items, e.2.nonce = e.1
  nodup : (Table.keys items).Nodup

section
attribute [local simp] byNonce
end

namespace Filed

variable {items : Table UInt64 Transaction}

theorem sublist (filed : Filed items) {other : Table UInt64 Transaction} (sub : other.Sublist items) :
    Filed other :=
  ⟨fun e mem => filed.keyed e (sub.subset mem), filed.nodup.sublist (sub.map Prod.fst)⟩

theorem nonces (filed : Filed items) : (items.map Prod.snd).map Transaction.nonce = Table.keys items := by
  rw [List.map_map, Table.keys]
  exact List.map_congr_left fun e mem => filed.keyed e mem

theorem increasing (filed : Filed items) : Increasing (byNonce items) :=
  sortByNonce_increasing (filed.nonces ▸ filed.nodup)

theorem mem_byNonce (filed : Filed items) {tx : Transaction} :
    tx ∈ byNonce items ↔ (tx.nonce, tx) ∈ items := by
  rw [byNonce, (sortByNonce_perm _).mem_iff, List.mem_map]
  constructor
  · rintro ⟨e, mem, rfl⟩
    rw [filed.keyed e mem]
    exact mem
  · intro mem
    exact ⟨_, mem, rfl⟩

theorem get_of_mem (filed : Filed items) {tx : Transaction} (mem : tx ∈ byNonce items) :
    items.get tx.nonce = some tx :=
  Table.get_of_mem filed.nodup (filed.mem_byNonce.mp mem)

/-- The nonces in nonce order are the keys. -/
theorem keys_perm (filed : Filed items) : (Table.keys items).Perm ((byNonce items).map Transaction.nonce) := by
  rw [← filed.nonces]
  exact ((sortByNonce_perm _).map _).symm

/-- Taking entries out of a filed table takes the same transactions out of its nonce order. -/
theorem byNonce_filter (filed : Filed items) (p : Transaction → Bool) :
    byNonce (items.filter fun e => p e.2) = (byNonce items).filter p := by
  apply sortByNonce_eq (filed.increasing.filter p)
  have moved : (items.map Prod.snd).filter p = (items.filter fun e => p e.2).map Prod.snd := by
    rw [List.filter_map]
    rfl
  exact moved ▸ (sortByNonce_perm _).filter p

theorem byNonce_remove (filed : Filed items) (nonce : UInt64) :
    byNonce (items.remove nonce) = (byNonce items).filter fun tx => tx.nonce ≠ nonce := by
  have same : items.remove nonce = items.filter fun e => decide (e.2.nonce ≠ nonce) := by
    apply List.filter_congr
    intro e mem
    rw [filed.keyed e mem]
  rw [same]
  exact filed.byNonce_filter fun tx => decide (tx.nonce ≠ nonce)

/-- Removing the transaction with the highest nonce leaves the others in nonce order. -/
theorem byNonce_remove_last (filed : Filed items) {front : List Transaction} {last : Transaction}
    (order : byNonce items = front ++ [last]) : byNonce (items.remove last.nonce) = front := by
  have inc : Increasing (front ++ [last]) := order ▸ filed.increasing
  have lower : ∀ tx ∈ front, tx.nonce ≠ last.nonce := by
    rw [Increasing, List.pairwise_append] at inc
    exact fun tx mem => ne_of_lt (inc.2.2 tx mem _ (List.mem_singleton_self _))
  rw [filed.byNonce_remove, order, List.filter_append,
    List.filter_eq_self.mpr (fun tx mem => by simpa using lower tx mem)]
  simp

end Filed

/-! ### The heap of nonces -/

/-- The heap holds the nonces of `items`, each once, in heap order. -/
structure Indexed (items : Table UInt64 Transaction) (index : List UInt64) : Prop where
  filed : Filed items
  perm : index.Perm (Table.keys items)
  heap : Heap.IsHeap index

theorem eq_cons_of_root {index : List UInt64} {first : UInt64} (root : index[0]? = some first) :
    ∃ tail, index = first :: tail := by
  cases index with
  | nil => simp at root
  | cons x tail => exact ⟨tail, by simpa using root⟩

namespace Indexed

variable {items : Table UInt64 Transaction} {index : List UInt64}

/-- The root of the heap is the least nonce of `items`. -/
theorem least (ix : Indexed items index) {first : UInt64} (root : index[0]? = some first) :
    ∀ k ∈ Table.keys items, first ≤ k := by
  obtain ⟨tail, rfl⟩ := eq_cons_of_root root
  intro k mem
  rcases List.mem_cons.mp (ix.perm.symm.subset mem) with rfl | later
  · exact le_refl k
  · exact ix.heap.head_le k later

/-- Popping the heap takes the least nonce; its transaction is the first in nonce order, and
what remains is indexed. -/
theorem pop (ix : Indexed items index) {first : UInt64} (root : index[0]? = some first) :
    ∃ rest tx, Heap.pop index = some (first, rest) ∧ items.get first = some tx ∧ tx.nonce = first ∧
      Indexed (items.remove first) rest ∧ byNonce items = tx :: byNonce (items.remove first) := by
  have least := ix.least root
  obtain ⟨tail, rfl⟩ := eq_cons_of_root root
  obtain ⟨rest, popped, heap, restPerm⟩ := Heap.pop_spec ix.heap
  have mem : first ∈ Table.keys items := ix.perm.subset List.mem_cons_self
  obtain ⟨tx, found⟩ : ∃ tx, items.get first = some tx :=
    Option.ne_none_iff_exists'.mp fun absent => Table.get_eq_none_iff.mp absent mem
  have filedAt : tx.nonce = first := ix.filed.keyed _ (Table.mem_of_get found)
  have split := Table.perm_cons_remove ix.filed.nodup found
  have restFiled : Filed (items.remove first) := ix.filed.sublist List.filter_sublist
  refine ⟨rest, tx, popped, found, filedAt, ⟨restFiled, ?_, heap⟩, ?_⟩
  · exact restPerm.trans (ix.perm.trans (split.map Prod.fst)).cons_inv
  · -- `tx` goes first: every other nonce is greater than the least one
    apply sortByNonce_eq _ (((sortByNonce_perm _).cons tx).trans (split.map Prod.snd).symm)
    refine List.pairwise_cons.mpr ⟨fun b later => ?_, restFiled.increasing⟩
    have entry := restFiled.mem_byNonce.mp later
    have other : b.nonce ≠ first := by
      have := (List.mem_filter.mp entry).2
      simpa using this
    have atLeast := least b.nonce (List.mem_map.mpr ⟨_, List.mem_of_mem_filter entry, rfl⟩)
    rw [filedAt]
    exact lt_of_le_of_ne atLeast (Ne.symm other)

theorem least_nonce (ix : Indexed items index) {first : UInt64} (root : index[0]? = some first) :
    ∀ tx ∈ byNonce items, first ≤ tx.nonce := fun tx mem =>
  ix.least root tx.nonce (List.mem_map.mpr ⟨_, ix.filed.mem_byNonce.mp mem, rfl⟩)

theorem byNonce_eq_nil (ix : Indexed items index) (empty : index[0]? = none) : byNonce items = [] := by
  have noIndex : index = [] := by simpa using empty
  have noKeys : Table.keys items = [] := List.Perm.eq_nil (noIndex ▸ ix.perm).symm
  have noItems : items = [] := List.map_eq_nil_iff.mp noKeys
  simp [noItems, byNonce, sortByNonce]

end Indexed

namespace TxSortedMap

theorem forwardLoop_spec (threshold : UInt64) {items : Table UInt64 Transaction} {index : List UInt64}
    (removed : List (Option Transaction)) (ix : Indexed items index) :
    let r := forwardLoop threshold items index removed
    Indexed r.1 r.2.1 ∧
      r.2.2 = removed ++ ((byNonce items).filter fun tx => tx.nonce < threshold).map some ∧
      byNonce r.1 = (byNonce items).filter fun tx => threshold ≤ tx.nonce := by
  fun_induction forwardLoop threshold items index removed with
  | case1 items index removed first root below nonce rest popped ih =>
      -- the root is popped: its transaction is the first in nonce order, and below the threshold
      obtain ⟨rest', tx, popped', found, filedAt, ix', order⟩ := ix.pop root
      rw [popped'] at popped
      obtain ⟨rfl, rfl⟩ := Prod.mk.inj (Option.some.inj popped).symm
      obtain ⟨ixAfter, taken, left⟩ := ih ix'
      refine ⟨ixAfter, ?_, ?_⟩
      · rw [taken, order, found]
        simp [filedAt, below]
      · rw [left, order]
        simp [filedAt, not_le.mpr below]
  | case2 items index removed first root below empty =>
      obtain ⟨_, _, popped, -⟩ := ix.pop root
      simp [popped] at empty
  | case3 items index removed first root atLeast =>
      -- every nonce is at least the root, so at least the threshold
      have above : ∀ tx ∈ byNonce items, threshold ≤ tx.nonce := fun tx mem =>
        le_trans (not_lt.mp atLeast) (ix.least_nonce root tx mem)
      refine ⟨ix, ?_, ?_⟩
      · rw [List.filter_eq_nil_iff.mpr fun tx mem => by simpa using above tx mem]
        simp
      · exact (List.filter_eq_self.mpr fun tx mem => by simpa using above tx mem).symm
  | case4 items index removed empty =>
      refine ⟨ix, ?_, ?_⟩ <;> simp [ix.byNonce_eq_nil empty]

theorem readyLoop_spec (next : UInt64) {items : Table UInt64 Transaction} {index : List UInt64}
    (ready : List (Option Transaction)) (ix : Indexed items index) :
    let r := readyLoop next items index ready
    Indexed r.1 r.2.1 ∧
      r.2.2 = ready ++ (consecutive (byNonce items) next).map some ∧
      byNonce r.1 = (byNonce items).drop (consecutive (byNonce items) next).length := by
  fun_induction readyLoop next items index ready with
  | case1 items index ready first root x rest popped ih =>
      -- the root is `next`: its transaction starts the run
      obtain ⟨rest', tx, popped', found, filedAt, ix', order⟩ := ix.pop root
      rw [popped'] at popped
      obtain ⟨_, rfl⟩ := Prod.mk.inj (Option.some.inj popped).symm
      obtain ⟨ixAfter, taken, left⟩ := ih ix'
      have run : consecutive (byNonce items) first = tx :: consecutive (byNonce (items.remove first)) (first + 1) := by
        rw [order, consecutive, if_pos filedAt]
      refine ⟨ixAfter, ?_, ?_⟩
      · rw [taken, run, found]
        simp
      · rw [left, run, order]
        simp
  | case2 items index ready first root empty =>
      obtain ⟨_, _, popped, -⟩ := ix.pop root
      simp [popped] at empty
  | case3 next items index ready first root notNext =>
      -- the least nonce is not `next`: the run is empty
      obtain ⟨_, tx, -, -, filedAt, -, order⟩ := ix.pop root
      have none : consecutive (byNonce items) next = [] := by
        rw [order, consecutive, if_neg (filedAt ▸ notNext)]
      refine ⟨ix, ?_, ?_⟩ <;> simp [none]
  | case4 next items index ready empty =>
      refine ⟨ix, ?_, ?_⟩ <;> simp [ix.byNonce_eq_nil empty, consecutive]

/-- The representation invariant of `txSortedMap`. -/
structure Valid (m : TxSortedMap) : Prop where
  indexed : Indexed m.items m.index
  cached : ∀ cache, m.cache = some cache → cache = byNonce m.items

theorem valid_newTxSortedMap : newTxSortedMap.Valid where
  indexed :=
    { filed := ⟨fun e mem => by simp [newTxSortedMap, Table.empty] at mem, by simp [newTxSortedMap, Table.empty, Table.keys]⟩
      perm := by simp [newTxSortedMap, Table.empty, Table.keys]
      heap := fun c pos cn => by simp [newTxSortedMap] at cn }
  cached := fun cache none => by simp [newTxSortedMap] at none

/-- An increasing list is its nonces below `threshold` and then the others. -/
theorem Increasing.filter_append {txs : List Transaction} (inc : Increasing txs) (threshold : UInt64) :
    (txs.filter fun tx => tx.nonce < threshold) ++ (txs.filter fun tx => threshold ≤ tx.nonce) = txs := by
  induction txs with
  | nil => rfl
  | cons x rest ih =>
      rw [Increasing, List.pairwise_cons] at inc
      by_cases below : x.nonce < threshold
      · simp [below, not_le.mpr below, ih inc.2]
      · -- every nonce from `x` on is at least the threshold
        have atLeast : ∀ tx ∈ x :: rest, threshold ≤ tx.nonce := by
          intro tx mem
          rcases List.mem_cons.mp mem with rfl | later
          · exact not_lt.mp below
          · exact le_of_lt (lt_of_le_of_lt (not_lt.mp below) (inc.1 tx later))
        rw [List.filter_eq_nil_iff.mpr (fun tx mem => by simpa using atLeast tx mem),
          List.filter_eq_self.mpr (fun tx mem => by simpa using atLeast tx mem), List.nil_append]

theorem forward_spec {m : TxSortedMap} (valid : m.Valid) (threshold : UInt64) :
    ∃ m', m.forward threshold =
        some (((byNonce m.items).filter fun tx => tx.nonce < threshold).map some, m') ∧
      m'.Valid ∧ byNonce m'.items = (byNonce m.items).filter fun tx => threshold ≤ tx.nonce := by
  obtain ⟨ix, taken, left⟩ := forwardLoop_spec threshold [] valid.indexed
  unfold forward
  generalize forwardLoop threshold m.items m.index [] = r at ix taken left ⊢
  rw [List.nil_append] at taken
  cases cached : m.cache with
  | none =>
      refine ⟨{ items := r.1, index := r.2.1, cache := none }, by simp [taken], ⟨ix, ?_⟩, left⟩
      intro _ none
      cases none
  | some cache =>
      -- the cache is the nonce order, and its front is what left
      have whole := valid.cached cache cached
      have shorter : ((byNonce m.items).filter fun tx => tx.nonce < threshold).length ≤ cache.length := by
        rw [whole]; exact List.length_filter_le _ _
      refine ⟨{ items := r.1, index := r.2.1, cache := some (cache.drop r.2.2.length) },
        by simp [taken, shorter], ⟨ix, fun _ same => ?_⟩, left⟩
      rw [Option.some.injEq] at same
      rw [← same, left, taken, List.length_map, whole]
      have parts := Increasing.filter_append valid.indexed.filed.increasing threshold
      nth_rewrite 2 [← parts]
      exact List.drop_left

/-- Sorting the heap gives the nonces in nonce order. -/
theorem mergeSort_index {items : Table UInt64 Transaction} {index : List UInt64} (ix : Indexed items index) :
    index.mergeSort (fun a b => decide (a ≤ b)) = (byNonce items).map Transaction.nonce := by
  refine @List.Perm.eq_of_pairwise _ (fun a b : UInt64 => a ≤ b) _ _
    (fun a b _ _ ab ba => le_antisymm ab ba) ?_ ?_ ?_
  · have sorted := @List.pairwise_mergeSort _ (fun a b : UInt64 => decide (a ≤ b))
      (fun a b c ab bc => by simp only [decide_eq_true_eq] at *; exact le_trans ab bc)
      (fun a b => by simpa using le_total a b) index
    exact sorted.imp fun le => by simpa using le
  · exact List.pairwise_map.mpr (ix.filed.increasing.imp le_of_lt)
  · exact (List.mergeSort_perm _ _).trans (ix.perm.trans ix.filed.keys_perm)

/-- `Cap`'s loop on a filed table whose nonce order is the first `size` of `txs`: it drops the
transactions from position `size - 1` down to `threshold`, highest first. -/
theorem capLoop_spec {txs : List Transaction} (threshold : Nat) (size : Nat)
    (items : Table UInt64 Transaction) (drops : List (Option Transaction)) (atMost : threshold ≤ size)
    (within : size ≤ txs.length) (filed : Filed items) (order : byNonce items = txs.take size) :
    ∃ kept, capLoop threshold (txs.map Transaction.nonce) size items drops =
        some (kept, drops ++ ((txs.take size).drop threshold).reverse.map some) ∧
      Filed kept ∧ byNonce kept = txs.take threshold := by
  induction size generalizing items drops with
  | zero =>
      obtain rfl : threshold = 0 := by omega
      exact ⟨items, by simp [capLoop], filed, order⟩
  | succ size ih =>
      rcases Nat.lt_or_ge threshold (size + 1) with dropping | done
      · -- the transaction at `size` has the highest nonce left, and is dropped
        have inside : size < txs.length := by omega
        have last : txs.take (size + 1) = txs.take size ++ [txs[size]] :=
          List.take_succ_eq_append_getElem inside
        have mem : txs[size] ∈ txs.take (size + 1) := by
          rw [last]; exact List.mem_append_right _ (List.mem_singleton_self _)
        have found : items.get txs[size].nonce = some txs[size] := filed.get_of_mem (order ▸ mem)
        have rest : byNonce (items.remove txs[size].nonce) = txs.take size :=
          filed.byNonce_remove_last (order.trans last)
        obtain ⟨kept, looped, keptFiled, keptOrder⟩ :=
          ih (items.remove txs[size].nonce) (drops ++ [items.get txs[size].nonce]) (by omega) (by omega)
            (filed.sublist List.filter_sublist) rest
        refine ⟨kept, ?_, keptFiled, keptOrder⟩
        have stillAbove : (threshold : Int) < (size : Int) + 1 := by omega
        simp only [capLoop, if_pos stillAbove, List.getElem?_map, List.getElem?_eq_getElem inside,
          Option.map_some]
        rw [found] at looped
        rw [found, looped, last, List.drop_append_of_le_length (by simp; omega)]
        simp
      · -- the loop stops at the threshold
        obtain rfl : threshold = size + 1 := by omega
        exact ⟨items, by simp [capLoop], filed, order⟩

theorem capLoop_of_neg {threshold : Int} (negative : threshold < 0) (sorted : List UInt64) (size : Nat)
    (items : Table UInt64 Transaction) (drops : List (Option Transaction)) :
    capLoop threshold sorted size items drops = none := by
  induction size generalizing items drops with
  | zero => simp [capLoop, negative]
  | succ size ih =>
      have stillAbove : threshold < (size : Int) + 1 := by omega
      simp only [capLoop, if_pos stillAbove]
      split
      · exact ih _ _
      · rfl

/-- `Cap` with a negative threshold panics: its loop reaches position `-1`. -/
theorem cap_of_neg (m : TxSortedMap) {threshold : Int} (negative : threshold < 0) : m.cap threshold = none := by
  have notUnder : ¬ (m.items.length : Int) ≤ threshold := by omega
  simp only [cap, if_neg notUnder, capLoop_of_neg negative]

theorem cap_spec {m : TxSortedMap} (valid : m.Valid) (threshold : Nat) :
    ∃ m', m.cap threshold = some (((byNonce m.items).drop threshold).reverse.map some, m') ∧
      m'.Valid ∧ byNonce m'.items = (byNonce m.items).take threshold := by
  have len : (byNonce m.items).length = m.items.length := by
    rw [byNonce, (sortByNonce_perm _).length_eq, List.length_map]
  unfold cap
  by_cases under : (m.items.length : Int) ≤ threshold
  · -- nothing to drop
    rw [if_pos under]
    have none : (byNonce m.items).drop threshold = [] := List.drop_eq_nil_of_le (by omega)
    exact ⟨m, by simp [none], valid, (List.take_of_length_le (by omega)).symm⟩
  · rw [if_neg under]
    obtain ⟨kept, looped, filed, order⟩ := @capLoop_spec (byNonce m.items) threshold
      m.items.length m.items [] (by omega) (by omega) valid.indexed.filed (by rw [← len, List.take_length])
    rw [← len, List.take_length, List.nil_append] at looped
    dsimp only
    rw [mergeSort_index valid.indexed, ← len, looped]
    dsimp only
    -- the heap is rebuilt from the lowest nonces, which are the nonces of what is kept
    have ix : Indexed kept (Heap.init (((byNonce m.items).map Transaction.nonce).take (threshold : Int).toNat)) := by
      refine ⟨filed, ?_, Heap.init_isHeap _⟩
      rw [Int.toNat_natCast, ← List.map_take, ← order]
      exact (Heap.init_perm _).trans filed.keys_perm.symm
    cases cached : m.cache with
    | none => exact ⟨_, rfl, ⟨ix, fun _ none => by cases none⟩, order⟩
    | some cache =>
        have whole := valid.cached cache cached
        have fits : (((byNonce m.items).drop threshold).reverse.map some).length ≤ cache.length := by
          simp [whole]
        dsimp only
        rw [if_pos fits]
        refine ⟨_, rfl, ⟨ix, fun _ same => ?_⟩, order⟩
        rw [Option.some.injEq] at same
        rw [← same, order, whole]
        congr 1
        simp
        omega

theorem ready_spec {m : TxSortedMap} (valid : m.Valid) (start : UInt64) :
    (m.ready start).1 = (readyRun (byNonce m.items) start).map some ∧ (m.ready start).2.Valid ∧
      byNonce (m.ready start).2.items = (byNonce m.items).drop (readyRun (byNonce m.items) start).length := by
  have ix := valid.indexed
  unfold ready
  cases rooted : m.index with
  | nil =>
      have empty : byNonce m.items = [] := ix.byNonce_eq_nil (by simp [rooted])
      simp [empty, readyRun, valid]
  | cons first tail =>
      have root : m.index[0]? = some first := by simp [rooted]
      obtain ⟨_, tx, -, -, filedAt, -, order⟩ := ix.pop root
      by_cases late : first > start
      · -- the least nonce is after `start`: nothing is ready
        have none : readyRun (byNonce m.items) start = [] := by
          rw [order, readyRun, if_neg (by rw [filedAt]; exact not_le.mpr late)]
        simp [late, none, valid]
      · -- the run starts at the least nonce
        have run : readyRun (byNonce m.items) start = consecutive (byNonce m.items) first := by
          rw [order, readyRun, if_pos (by rw [filedAt]; exact not_lt.mp late), filedAt]
        obtain ⟨ixAfter, taken, left⟩ := readyLoop_spec first [] (rooted ▸ ix)
        simp only [late, if_false, run]
        exact ⟨by rw [taken, List.nil_append], ⟨ixAfter, fun _ none => by cases none⟩, left⟩

theorem flatten_spec {m : TxSortedMap} (valid : m.Valid) :
    (m.flatten).1 = byNonce m.items ∧ Increasing (m.flatten).1 ∧ (m.flatten).2.Valid ∧
      (m.flatten).2.items = m.items := by
  have increasing := valid.indexed.filed.increasing
  unfold flatten
  cases cached : m.cache with
  | some cache =>
      have whole := valid.cached cache cached
      exact ⟨whole, whole ▸ increasing, valid, rfl⟩
  | none => exact ⟨rfl, increasing, ⟨valid.indexed, fun _ same => (Option.some.inj same).symm⟩, rfl⟩

theorem put_valid {m : TxSortedMap} (valid : m.Valid) (tx : Transaction) : (m.put tx).Valid := by
  have filed := valid.indexed.filed
  have setFiled : Filed (m.items.set tx.nonce tx) := by
    refine ⟨fun e mem => ?_, Table.nodup_keys_set filed.nodup _ _⟩
    simp only [Table.set, List.concat_eq_append, List.mem_append, List.mem_filter,
      List.mem_singleton] at mem
    rcases mem with ⟨old, _⟩ | rfl
    · exact filed.keyed e old
    · rfl
  refine ⟨⟨setFiled, ?_, ?_⟩, fun _ none => by cases none⟩
  · simp only [put, Table.keys_set]
    by_cases absent : m.items.get tx.nonce = none
    · -- a new nonce is pushed
      rw [if_pos absent]
      have notKey := Table.get_eq_none_iff.mp absent
      have kept : (Table.keys m.items).filter (fun k => decide (k ≠ tx.nonce)) = Table.keys m.items := by
        refine List.filter_eq_self.mpr fun k mem => ?_
        simp only [ne_eq, decide_eq_true_eq]
        rintro rfl
        exact notKey mem
      rw [kept]
      exact (Heap.push_perm _ _).trans (valid.indexed.perm.append_right [tx.nonce])
    · -- a nonce already there moves to the end of the keys, and the heap keeps it
      rw [if_neg absent]
      obtain ⟨old, found⟩ := Option.ne_none_iff_exists'.mp absent
      have split := (Table.perm_cons_remove filed.nodup found).map Prod.fst
      simp only [List.map_cons] at split
      rw [← Table.keys, ← Table.keys, Table.keys_remove] at split
      exact valid.indexed.perm.trans (split.trans (List.perm_append_singleton _ _).symm)
  · simp only [put]
    split
    · exact Heap.push_isHeap valid.indexed.heap _
    · exact valid.indexed.heap

theorem remove_spec {m : TxSortedMap} (valid : m.Valid) (nonce : UInt64) :
    (m.remove nonce).1 = (m.items.get nonce).isSome ∧ (m.remove nonce).2.Valid ∧
      byNonce (m.remove nonce).2.items = (byNonce m.items).filter fun tx => tx.nonce ≠ nonce := by
  have ix := valid.indexed
  unfold remove
  cases found : m.items.get nonce with
  | none =>
      -- no transaction has the nonce, so the nonce order keeps them all
      have kept : (byNonce m.items).filter (fun tx => tx.nonce ≠ nonce) = byNonce m.items := by
        refine List.filter_eq_self.mpr fun tx mem => ?_
        have atNonce := ix.filed.get_of_mem mem
        simp only [ne_eq, decide_eq_true_eq]
        rintro rfl
        rw [found] at atNonce
        cases atNonce
      exact ⟨rfl, valid, kept.symm⟩
  | some old =>
      have inIndex : nonce ∈ m.index :=
        ix.perm.symm.subset (List.mem_map.mpr ⟨_, Table.mem_of_get found, rfl⟩)
      obtain ⟨i, located⟩ : ∃ i, m.index.idxOf? nonce = some i :=
        Option.ne_none_iff_exists'.mp (mt List.idxOf?_eq_none_iff.mp (not_not.mpr inIndex))
      obtain ⟨inside, atI, -⟩ := List.idxOf?_eq_some_iff.mp located
      obtain ⟨rest, removed, heap, perm⟩ := Heap.remove_spec ix.heap inside
      rw [atI] at removed perm
      have split := (Table.perm_cons_remove ix.filed.nodup found).map Prod.fst
      simp only [List.map_cons] at split
      rw [← Table.keys, ← Table.keys] at split
      refine ⟨rfl, ⟨⟨ix.filed.sublist List.filter_sublist, ?_, ?_⟩, fun _ none => by cases none⟩,
        ix.filed.byNonce_remove nonce⟩
      · simp only [located, removed, Option.map_some, Option.getD_some]
        exact (perm.trans (ix.perm.trans split)).cons_inv
      · simpa only [located, removed, Option.map_some, Option.getD_some] using heap

theorem filter_spec {m : TxSortedMap} (valid : m.Valid) (filter : Transaction → Bool) :
    (m.filter filter).1.Perm ((byNonce m.items).filter filter) ∧ (m.filter filter).2.Valid ∧
      byNonce (m.filter filter).2.items = (byNonce m.items).filter fun tx => !filter tx := by
  have filed := valid.indexed.filed
  have taken : ((m.items.filter fun e => filter e.2).map Prod.snd).Perm ((byNonce m.items).filter filter) :=
    filed.byNonce_filter filter ▸ (sortByNonce_perm _).symm
  have left := filed.byNonce_filter fun tx => !filter tx
  have leftFiled : Filed (m.items.filter fun e => !filter e.2) := filed.sublist List.filter_sublist
  unfold TxSortedMap.filter
  by_cases some : 0 < ((m.items.filter fun e => filter e.2).map Prod.snd).length
  · -- the heap is rebuilt from the nonces left
    rw [if_pos some]
    exact ⟨taken, ⟨⟨leftFiled, Heap.init_perm _, Heap.init_isHeap _⟩, fun _ none => by cases none⟩, left⟩
  · -- nothing was taken, so nothing changed
    rw [if_neg some]
    have none : (m.items.filter fun e => filter e.2) = [] := by simpa using some
    have same : (m.items.filter fun e => !filter e.2) = m.items :=
      List.filter_eq_self.mpr fun e mem => by simpa using (List.filter_eq_nil_iff.mp none) e mem
    refine ⟨taken, ?_, left⟩
    simp only [same]
    exact valid

end TxSortedMap

end Mjoy.TxProcessor
