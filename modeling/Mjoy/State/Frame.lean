import Mjoy.State.StateDB

/-!
What the operations of the state database (`core/state/statedb.go`) change. The account an
address shows (`StateDB.shown`) is that of its live object unless the object is deleted, else
the trie's, and a new one when there is none: it is what `Exist`, `GetBalance` and `GetNonce`
read. An operation on one address writes the live object of that address only and never the
account trie, so every other address shows the same account afterwards (`ChangesOnly`); the
accessors that load an account change no address's account.

The facts hold on states whose live objects are filed under their own address (`WellKeyed`),
as `New` leaves them and every write of a live object keeps them.
-/

namespace Mjoy.State

open KeyValue

namespace StateDB

/-- Every live object is filed under its own address. -/
def WellKeyed (s : StateDB) : Prop :=
  ∀ a o, s.stateObjects.get a = some o → o.address = a

/-- The account `getStateObject(a)` finds, if any. -/
def account (s : StateDB) (a : Address) : Option Account :=
  (s.getStateObject a).1.map StateObject.data

/-- The account address `a` shows: the one found, else a new one. -/
def shown (s : StateDB) (a : Address) : Account :=
  (s.account a).getD Account.new

/-- `t` differs from `s` at most in the live object of `b` and in the dirty set, the journal
and the revisions: the account trie and every other live object are kept. -/
structure ChangesOnly (b : Address) (s t : StateDB) : Prop where
  trie : t.trie = s.trie
  others : ∀ a, a ≠ b → t.stateObjects.get a = s.stateObjects.get a

-- Equation lemmas of the definitions above, made once here rather than by the proofs below
-- that unfold them in parallel.
section
attribute [local simp] account shown
end

/-! ### The fields each write keeps -/

@[simp] theorem stateObjects_setStateObject (s : StateDB) (o : StateObject) :
    (s.setStateObject o).stateObjects = s.stateObjects.set o.address o := rfl

@[simp] theorem trie_setStateObject (s : StateDB) (o : StateObject) :
    (s.setStateObject o).trie = s.trie := rfl

@[simp] theorem stateObjects_markDirty (s : StateDB) (a : Address) (fired : Bool) :
    (s.markDirty a fired).stateObjects = s.stateObjects := by
  unfold markDirty; split <;> rfl

@[simp] theorem trie_markDirty (s : StateDB) (a : Address) (fired : Bool) :
    (s.markDirty a fired).trie = s.trie := by
  unfold markDirty; split <;> rfl

@[simp] theorem stateObjects_appendJournal (s : StateDB) (e : JournalEntry) :
    (s.appendJournal e).stateObjects = s.stateObjects := rfl

@[simp] theorem trie_appendJournal (s : StateDB) (e : JournalEntry) :
    (s.appendJournal e).trie = s.trie := rfl

@[simp] theorem stateObjects_putObject (s : StateDB) (r : StateObject × Bool) :
    (s.putObject r).stateObjects = s.stateObjects.set r.1.address r.1 := by
  simp [putObject]

@[simp] theorem trie_putObject (s : StateDB) (r : StateObject × Bool) :
    (s.putObject r).trie = s.trie := by
  simp [putObject]

@[simp] theorem stateObjects_snapshot (s : StateDB) : s.snapshot.2.stateObjects = s.stateObjects := rfl

@[simp] theorem trie_snapshot (s : StateDB) : s.snapshot.2.trie = s.trie := rfl

@[simp] theorem address_fireDirty (o : StateObject) : o.fireDirty.1.address = o.address := rfl

@[simp] theorem data_fireDirty (o : StateObject) : o.fireDirty.1.data = o.data := rfl

@[simp] theorem deleted_fireDirty (o : StateObject) : o.fireDirty.1.deleted = o.deleted := rfl

@[simp] theorem address_setBalance (o : StateObject) (amount : Int) : (o.setBalance amount).1.address = o.address := rfl

@[simp] theorem data_setBalance (o : StateObject) (amount : Int) :
    (o.setBalance amount).1.data = { o.data with balance := amount } := rfl

/-! ### The account an address shows -/

/-- What an address shows depends on its live object and on the trie only. -/
theorem account_congr {s t : StateDB} {a : Address} (trie : t.trie = s.trie)
    (object : t.stateObjects.get a = s.stateObjects.get a) : t.account a = s.account a := by
  unfold account getStateObject
  rw [trie, object]
  cases s.stateObjects.get a with
  | some obj => rfl
  | none => cases s.trie a <;> rfl

theorem account_of_get {s : StateDB} {a : Address} {o : StateObject}
    (filed : s.stateObjects.get a = some o) (live : o.deleted = false) : s.account a = some o.data := by
  simp [account, getStateObject, filed, live]

theorem account_setStateObject_self (s : StateDB) (o : StateObject) (live : o.deleted = false) :
    (s.setStateObject o).account o.address = some o.data :=
  account_of_get (by simp) live

theorem getBalance_fst (s : StateDB) (a : Address) : (s.getBalance a).1 = (s.shown a).balance := by
  unfold getBalance shown account
  rcases s.getStateObject a with ⟨_ | obj, t⟩ <;> rfl

theorem getNonce_fst (s : StateDB) (a : Address) : (s.getNonce a).1 = (s.shown a).nonce := by
  unfold getNonce shown account
  rcases s.getStateObject a with ⟨_ | obj, t⟩ <;> rfl

theorem exist_fst (s : StateDB) (a : Address) : (s.exist a).1 = (s.account a).isSome := by
  unfold exist account
  rcases s.getStateObject a with ⟨_ | obj, t⟩ <;> rfl

/-! ### `ChangesOnly` -/

namespace ChangesOnly

variable {b : Address} {s t u : StateDB}

theorem refl (b : Address) (s : StateDB) : ChangesOnly b s s :=
  ⟨rfl, fun _ _ => rfl⟩

theorem trans (first : ChangesOnly b s t) (second : ChangesOnly b t u) : ChangesOnly b s u :=
  ⟨second.trie.trans first.trie, fun a ne => (second.others a ne).trans (first.others a ne)⟩

theorem of_objects (trie : t.trie = s.trie) (objects : t.stateObjects = s.stateObjects) :
    ChangesOnly b s t :=
  ⟨trie, fun a _ => by rw [objects]⟩

theorem account_eq (h : ChangesOnly b s t) {a : Address} (ne : a ≠ b) : t.account a = s.account a :=
  account_congr h.trie (h.others a ne)

theorem shown_eq (h : ChangesOnly b s t) {a : Address} (ne : a ≠ b) : t.shown a = s.shown a := by
  rw [shown, shown, h.account_eq ne]

end ChangesOnly

theorem changesOnly_setStateObject (s : StateDB) (o : StateObject) :
    ChangesOnly o.address s (s.setStateObject o) :=
  ⟨rfl, fun a ne => by simp [ne]⟩

theorem changesOnly_putObject (s : StateDB) (r : StateObject × Bool) :
    ChangesOnly r.1.address s (s.putObject r) :=
  ⟨by simp, fun a ne => by simp [ne]⟩

theorem WellKeyed.setStateObject {s : StateDB} (keyed : s.WellKeyed) (o : StateObject) :
    (s.setStateObject o).WellKeyed := by
  intro a obj found
  simp only [stateObjects_setStateObject, Table.get_set] at found
  split at found
  · rename_i same
    cases found
    exact same.symm
  · exact keyed a obj found

theorem WellKeyed.putObject {s : StateDB} (keyed : s.WellKeyed) (r : StateObject × Bool) :
    (s.putObject r).WellKeyed := by
  have written := keyed.setStateObject r.1
  intro a obj found
  exact written a obj (by simpa [putObject] using found)

theorem WellKeyed.of_objects {s t : StateDB} (keyed : s.WellKeyed) (objects : t.stateObjects = s.stateObjects) :
    t.WellKeyed := by
  intro a obj found
  rw [objects] at found
  exact keyed a obj found

theorem wellKeyed_new (db : Database) (trie : Store Address Account) : (new db trie).WellKeyed := by
  intro a obj found
  simp [new] at found

/-! ### Loading an account -/

/-- Loading an account files it live, showing what the trie held. -/
theorem getStateObject_snd_changesOnly (s : StateDB) (b : Address) :
    ChangesOnly b s (s.getStateObject b).2 := by
  unfold getStateObject
  cases s.stateObjects.get b with
  | some obj => exact ChangesOnly.refl b s
  | none =>
      cases s.trie b with
      | none => exact ChangesOnly.refl b s
      | some data => exact changesOnly_setStateObject s (newObject b data true)

theorem WellKeyed.getStateObject_snd {s : StateDB} (keyed : s.WellKeyed) (b : Address) :
    (s.getStateObject b).2.WellKeyed := by
  unfold getStateObject
  cases s.stateObjects.get b with
  | some obj => exact keyed
  | none =>
      cases s.trie b with
      | none => exact keyed
      | some data => exact keyed.setStateObject (newObject b data true)

@[simp] theorem account_getStateObject_snd (s : StateDB) (b a : Address) :
    (s.getStateObject b).2.account a = s.account a := by
  by_cases same : a = b
  · subst same
    unfold getStateObject
    cases found : s.stateObjects.get a with
    | some obj => rfl
    | none =>
        cases stored : s.trie a with
        | none => rfl
        | some data => simp [account, getStateObject, found, stored, newObject]
  · exact (getStateObject_snd_changesOnly s b).account_eq same

@[simp] theorem shown_getStateObject_snd (s : StateDB) (b a : Address) :
    (s.getStateObject b).2.shown a = s.shown a := by
  simp [shown]

@[simp] theorem exist_snd (s : StateDB) (a : Address) : (s.exist a).2 = (s.getStateObject a).2 := rfl

@[simp] theorem getBalance_snd (s : StateDB) (a : Address) : (s.getBalance a).2 = (s.getStateObject a).2 := rfl

@[simp] theorem getNonce_snd (s : StateDB) (a : Address) : (s.getNonce a).2 = (s.getStateObject a).2 := rfl

/-- What `getStateObject(b)` finds is live, and filed under `b` in the state it returns. -/
theorem getStateObject_found {s : StateDB} {b : Address} {o : StateObject}
    (found : (s.getStateObject b).1 = some o) :
    (s.getStateObject b).2.stateObjects.get b = some o ∧ o.deleted = false := by
  unfold getStateObject at found ⊢
  cases filed : s.stateObjects.get b with
  | some obj =>
      rw [filed] at found
      by_cases dead : obj.deleted = true
      · simp [dead] at found
      · simp only [dead, if_false, Option.some.injEq, Bool.false_eq_true] at found
        subst found
        exact ⟨filed, by simpa using dead⟩
  | none =>
      rw [filed] at found
      cases stored : s.trie b with
      | none => simp [stored] at found
      | some data =>
          simp only [stored, Option.some.injEq] at found
          subst found
          simp [newObject]

/-! ### Creating an object -/

@[simp] theorem address_createObject (s : StateDB) (b : Address) : (s.createObject b).1.address = b := by
  unfold createObject
  rcases s.getStateObject b with ⟨prev, t⟩
  rfl

@[simp] theorem deleted_createObject (s : StateDB) (b : Address) : (s.createObject b).1.deleted = false := by
  unfold createObject
  rcases s.getStateObject b with ⟨prev, t⟩
  rfl

@[simp] theorem data_createObject (s : StateDB) (b : Address) : (s.createObject b).1.data = Account.new := by
  unfold createObject
  rcases s.getStateObject b with ⟨prev, t⟩
  rfl

theorem createObject_prev (s : StateDB) (b : Address) : (s.createObject b).2.1 = (s.getStateObject b).1 := by
  unfold createObject
  rcases s.getStateObject b with ⟨prev, t⟩
  rfl

theorem stateObjects_createObject (s : StateDB) (b : Address) :
    (s.createObject b).2.2.stateObjects = (s.getStateObject b).2.stateObjects.set b (s.createObject b).1 := by
  unfold createObject
  rcases s.getStateObject b with ⟨prev, t⟩
  rfl

theorem trie_createObject (s : StateDB) (b : Address) : (s.createObject b).2.2.trie = s.trie := by
  have loaded := (getStateObject_snd_changesOnly s b).trie
  unfold createObject
  rcases found : s.getStateObject b with ⟨prev, t⟩
  rw [found] at loaded
  simpa using loaded

/-! ### Writing the live object of one address -/

/-- `t` is `s` with the live object of `b` written, so that `b` shows `d`. -/
structure Writes (b : Address) (d : Account) (s t : StateDB) : Prop where
  frame : ChangesOnly b s t
  keyed : t.WellKeyed
  shown : t.shown b = d

namespace Writes

variable {b : Address} {d e : Account} {s t u : StateDB}

theorem shown_eq (w : Writes b d s t) (a : Address) : t.shown a = if a = b then d else s.shown a := by
  split
  · rename_i same
    subst same
    exact w.shown
  · rename_i ne
    exact w.frame.shown_eq ne

theorem trans (first : Writes b d s t) (second : Writes b e t u) : Writes b e s u :=
  ⟨first.frame.trans second.frame, second.keyed, second.shown⟩

/-- A write followed by a step that keeps what `b` shows. -/
theorem trans_keep (first : Writes b d s t) (second : Writes b (t.shown b) t u) : Writes b d s u := by
  rw [first.shown] at second
  exact first.trans second

/-- A live object written under `b` over a state that differs from `s` at `b` only. -/
theorem of_filed (frame : ChangesOnly b s t) (keyed : t.WellKeyed) {o : StateObject}
    (filed : t.stateObjects.get b = some o) (live : o.deleted = false) : Writes b o.data s t :=
  ⟨frame, keyed, by rw [StateDB.shown, account_of_get filed live]; rfl⟩

end Writes

/-- A state where nothing but the dirty set, the journal or the revisions changed. -/
theorem writes_of_objects {s t : StateDB} (keyed : s.WellKeyed) (trie : t.trie = s.trie)
    (objects : t.stateObjects = s.stateObjects) (b : Address) : Writes b (s.shown b) s t :=
  ⟨ChangesOnly.of_objects trie objects, keyed.of_objects objects,
    by rw [shown, shown, account_congr trie (by rw [objects])]⟩

theorem writes_getStateObject {s : StateDB} (keyed : s.WellKeyed) (b : Address) :
    Writes b (s.shown b) s (s.getStateObject b).2 :=
  ⟨getStateObject_snd_changesOnly s b, keyed.getStateObject_snd b, shown_getStateObject_snd s b b⟩

theorem writes_snapshot {s : StateDB} (keyed : s.WellKeyed) (b : Address) : Writes b (s.shown b) s s.snapshot.2 :=
  writes_of_objects keyed (trie_snapshot s) (stateObjects_snapshot s) b

/-- `createObject(b)`: `b` shows a new account. -/
theorem writes_createObject {s : StateDB} (keyed : s.WellKeyed) (b : Address) :
    Writes b Account.new s (s.createObject b).2.2 := by
  have loaded := getStateObject_snd_changesOnly s b
  have filed : (s.createObject b).2.2.stateObjects.get b = some (s.createObject b).1 := by
    simp [stateObjects_createObject]
  have frame : ChangesOnly b s (s.createObject b).2.2 :=
    ⟨trie_createObject s b, fun a ne => by rw [stateObjects_createObject, Table.get_set, if_neg ne, loaded.others a ne]⟩
  have stillKeyed : (s.createObject b).2.2.WellKeyed := by
    intro a obj found
    rw [stateObjects_createObject, Table.get_set] at found
    split at found
    · rename_i same
      cases found
      simp [same]
    · exact keyed.getStateObject_snd b a obj found
  simpa using Writes.of_filed frame stillKeyed filed (deleted_createObject s b)

/-- What `getOrNewStateObject(b)` returns: the live object of `b`, filed under it, showing
what `b` showed. -/
structure Fetched (b : Address) (s : StateDB) (obj : StateObject) (t : StateDB) : Prop where
  address : obj.address = b
  live : obj.deleted = false
  filed : t.stateObjects.get b = some obj
  writes : Writes b (s.shown b) s t
  data : obj.data = s.shown b

theorem getOrNewStateObject_fetched {s : StateDB} (keyed : s.WellKeyed) (b : Address) :
    Fetched b s (s.getOrNewStateObject b).1 (s.getOrNewStateObject b).2 := by
  have loaded := writes_getStateObject keyed b
  have absent : (s.getStateObject b).1 = none → s.shown b = Account.new := by
    intro none_found
    simp [shown, account, none_found]
  unfold getOrNewStateObject
  rcases found : s.getStateObject b with ⟨_ | obj, t⟩
  · -- nothing found: a new object is created
    rw [found] at loaded
    have created := loaded.trans (writes_createObject loaded.keyed b)
    rw [← absent (by rw [found])] at created
    exact ⟨by simp, by simp, by simp [stateObjects_createObject], created,
      by simp [absent (by rw [found])]⟩
  · obtain ⟨filed, live⟩ := getStateObject_found (show (s.getStateObject b).1 = some obj by rw [found])
    rw [found] at loaded filed
    have shows : s.shown b = obj.data := by
      simp [shown, account, found]
    simp only [live, Bool.false_eq_true, if_false]
    exact ⟨loaded.keyed b obj filed, live, filed, loaded, shows.symm⟩

/-! ### The setters -/

theorem writes_putObject {s : StateDB} (keyed : s.WellKeyed) (r : StateObject × Bool)
    (live : r.1.deleted = false) : Writes r.1.address r.1.data s (s.putObject r) :=
  Writes.of_filed (changesOnly_putObject s r) (keyed.putObject r) (by simp) live

section Setters

variable {s : StateDB} (keyed : s.WellKeyed)
include keyed

/-- A journal entry and then a write of the object: what each setter of a live object does. -/
theorem writes_journaled (entry : JournalEntry) (r : StateObject × Bool) (live : r.1.deleted = false) :
    Writes r.1.address r.1.data s ((s.appendJournal entry).putObject r) :=
  (writes_of_objects keyed (trie_appendJournal s entry) (stateObjects_appendJournal s entry) r.1.address).trans
    (writes_putObject (keyed.of_objects (stateObjects_appendJournal s entry)) r live)

variable {obj : StateObject} (live : obj.deleted = false)
include live

theorem writes_touch : Writes obj.address obj.data s (s.touch obj) :=
  writes_journaled keyed (.touchChange obj.address obj.touched !obj.onDirty)
    ({ obj.fireDirty.1 with touched := true }, obj.fireDirty.2) live

theorem writes_objectSetBalance (amount : Int) :
    Writes obj.address { obj.data with balance := amount } s (s.objectSetBalance obj amount) :=
  writes_journaled keyed (.balanceChange obj.address obj.data.balance) (obj.setBalance amount) live

theorem writes_objectSetNonce (nonce : UInt64) :
    Writes obj.address { obj.data with nonce := nonce } s (s.objectSetNonce obj nonce) :=
  writes_journaled keyed (.nonceChange obj.address obj.data.nonce) (obj.setNonce nonce) live

variable (filed : s.stateObjects.get obj.address = some obj)
include filed

/-- `AddBalance` of a live object; adding zero at most touches it. -/
theorem writes_objectAddBalance (amount : Int) :
    Writes obj.address { obj.data with balance := obj.data.balance + amount } s (s.objectAddBalance obj amount) := by
  unfold objectAddBalance
  split
  · rename_i zero
    subst zero
    rw [Int.add_zero]
    split
    · exact writes_touch keyed live
    · exact Writes.of_filed (ChangesOnly.refl _ s) keyed filed live
  · exact writes_objectSetBalance keyed live _

theorem writes_objectSubBalance (amount : Int) :
    Writes obj.address { obj.data with balance := obj.data.balance - amount } s (s.objectSubBalance obj amount) := by
  unfold objectSubBalance
  split
  · rename_i zero
    subst zero
    rw [Int.sub_zero]
    exact Writes.of_filed (ChangesOnly.refl _ s) keyed filed live
  · exact writes_objectSetBalance keyed live _

end Setters

section Accounts

variable {s : StateDB} (keyed : s.WellKeyed) (b : Address)
include keyed

theorem writes_addBalance (amount : Int) :
    Writes b { s.shown b with balance := (s.shown b).balance + amount } s (s.addBalance b amount) := by
  have fetched := getOrNewStateObject_fetched keyed b
  unfold addBalance
  rcases found : s.getOrNewStateObject b with ⟨obj, t⟩
  rw [found] at fetched
  have filed : t.stateObjects.get obj.address = some obj := by rw [fetched.address]; exact fetched.filed
  have added := writes_objectAddBalance fetched.writes.keyed fetched.live filed amount
  rw [fetched.address, fetched.data] at added
  exact fetched.writes.trans added

theorem writes_subBalance (amount : Int) :
    Writes b { s.shown b with balance := (s.shown b).balance - amount } s (s.subBalance b amount) := by
  have fetched := getOrNewStateObject_fetched keyed b
  unfold subBalance
  rcases found : s.getOrNewStateObject b with ⟨obj, t⟩
  rw [found] at fetched
  have filed : t.stateObjects.get obj.address = some obj := by rw [fetched.address]; exact fetched.filed
  have taken := writes_objectSubBalance fetched.writes.keyed fetched.live filed amount
  rw [fetched.address, fetched.data] at taken
  exact fetched.writes.trans taken

theorem writes_setNonce (nonce : UInt64) :
    Writes b { s.shown b with nonce := nonce } s (s.setNonce b nonce) := by
  have fetched := getOrNewStateObject_fetched keyed b
  unfold setNonce
  rcases found : s.getOrNewStateObject b with ⟨obj, t⟩
  rw [found] at fetched
  have set := writes_objectSetNonce fetched.writes.keyed fetched.live nonce
  rw [fetched.address, fetched.data] at set
  exact fetched.writes.trans set

/-- `CreateAccount(b)`: a new account that keeps the balance `b` showed. -/
theorem writes_createAccount :
    Writes b { Account.new with balance := (s.shown b).balance } s (s.createAccount b) := by
  have created := writes_createObject keyed b
  have prev := createObject_prev s b
  unfold createAccount
  rcases made : s.createObject b with ⟨newobj, _ | old, t⟩
  · -- no object was replaced, and `b` showed a new account
    rw [made] at created prev
    have shows : s.shown b = Account.new := by simp [shown, account, ← prev]
    rw [shows]
    exact created
  · -- the replaced object's balance is carried over
    have address : newobj.address = b := by simpa [made] using address_createObject s b
    have data : newobj.data = Account.new := by simpa [made] using data_createObject s b
    have live : newobj.deleted = false := by simpa [made] using deleted_createObject s b
    rw [made] at created prev
    have shows : s.shown b = old.data := by simp [shown, account, ← prev]
    have carried := writes_putObject created.keyed (newobj.setBalance old.data.balance) live
    simp only [address_setBalance, data_setBalance, address, data] at carried
    rw [shows]
    exact created.trans carried

end Accounts

end StateDB

end Mjoy.State
