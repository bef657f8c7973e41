import Mathlib

/-!
Key encodings of the Merkle Patricia trie (`trie/encoding.go`). A key is given to
the API as bytes, held in memory as nibbles ("hex") ending with the terminator 16,
and written to the database in the compact form with a flag nibble in front.
-/

namespace Mjoy.Trie

/-- The nibble that ends the hex form of every complete key. -/
def terminator : UInt8 := 16

-- Equation lemmas of the definitions above, made once here rather than by the proofs below
-- that unfold them in parallel.
section
attribute [local simp] terminator
end

/-- The children of a full node are indexed by `Fin 17`: the sixteen nibbles and the value slot
`16`. Naming the instance behind the literal makes every `16 : Fin 17` the same term. -/
instance valueSlotNeZero : NeZero (17 : Nat) := Nat.instNeZeroSucc

def hasTerm (s : List UInt8) : Bool :=
  match s.getLast? with
  | some last => last == terminator
  | none => false

def keybytesToHex (str : List UInt8) : List UInt8 :=
  str.flatMap (fun b => [b / 16, b % 16]) ++ [terminator]

/-- Packs pairs of nibbles into bytes. The source only calls it on lists of even
length, so an odd trailing nibble never occurs. -/
def decodeNibbles : List UInt8 → List UInt8
  | high :: low :: rest => (high <<< 4 ||| low) :: decodeNibbles rest
  | _ => []

/-- `none` is the source's panic on a key of odd length. -/
def hexToKeybytes (hex : List UInt8) : Option (List UInt8) :=
  let hex := if hasTerm hex then hex.dropLast else hex
  if hex.length % 2 = 1 then none else some (decodeNibbles hex)

def hexToCompact (hex : List UInt8) : List UInt8 :=
  let flag : UInt8 := if hasTerm hex then 1 else 0
  let hex := if hasTerm hex then hex.dropLast else hex
  match hex.length % 2, hex with
  | 1, first :: rest => (flag <<< 5 ||| (1 : UInt8) <<< 4 ||| first) :: decodeNibbles rest
  | _, _ => (flag <<< 5) :: decodeNibbles hex

/-- `none` is the source's panic when `base[0]` is read from an empty key. -/
def compactToHex (compact : List UInt8) : Option (List UInt8) :=
  match (keybytesToHex compact).dropLast with
  | [] => none
  | flag :: rest =>
      let base := if flag ≥ 2 then flag :: rest ++ [terminator] else flag :: rest
      some (base.drop (2 - (flag &&& 1)).toNat)

def prefixLen : List UInt8 → List UInt8 → Nat
  | a :: as, b :: bs => if a = b then prefixLen as bs + 1 else 0
  | _, _ => 0

section
attribute [local simp] hasTerm keybytesToHex decodeNibbles hexToKeybytes hexToCompact compactToHex prefixLen
end

/-! ### Nibble keys -/

/-- Nibbles below 16: a key path that has not reached its terminator. -/
def Nibbles (s : List UInt8) : Prop :=
  ∀ x ∈ s, x < 16

/-- A complete key path: nibbles below 16, then the terminator. -/
def Terminated (s : List UInt8) : Prop :=
  ∃ body, Nibbles body ∧ s = body ++ [terminator]

section
attribute [local simp] Nibbles
end

@[simp] theorem hasTerm_append_terminator (s : List UInt8) : hasTerm (s ++ [terminator]) = true := by
  simp [hasTerm, terminator]

theorem hasTerm_iff (s : List UInt8) : hasTerm s = true ↔ ∃ body, s = body ++ [terminator] := by
  constructor
  · intro term
    cases last : s.getLast? with
    | none => simp [hasTerm, last] at term
    | some value =>
        simp only [hasTerm, last, beq_iff_eq] at term
        subst value
        exact ⟨s.dropLast, (List.dropLast_append_getLast? _ last).symm⟩
  · rintro ⟨body, rfl⟩
    exact hasTerm_append_terminator body

theorem nibble_high_lt (b : UInt8) : b / 16 < 16 := by
  revert b; decide +kernel

theorem nibble_low_lt (b : UInt8) : b % 16 < 16 := by
  revert b; decide +kernel

theorem keybytesToHex_length (str : List UInt8) :
    (keybytesToHex str).length = 2 * str.length + 1 := by
  induction str with
  | nil => rfl
  | cons b rest ih =>
      simp only [keybytesToHex, List.flatMap_cons, List.length_append, List.length_cons,
        List.length_nil] at ih ⊢
      omega

theorem keybytesToHex_cons (b : UInt8) (str : List UInt8) :
    keybytesToHex (b :: str) = b / 16 :: b % 16 :: keybytesToHex str := by
  simp [keybytesToHex]

theorem keybytesToHex_ne_nil (str : List UInt8) : keybytesToHex str ≠ [] := by
  simp [keybytesToHex]

@[simp] theorem keybytesToHex_dropLast (str : List UInt8) :
    (keybytesToHex str).dropLast = str.flatMap (fun b => [b / 16, b % 16]) := by
  simp [keybytesToHex]

theorem mem_body_lt (str : List UInt8) :
    ∀ x ∈ str.flatMap (fun b => [b / 16, b % 16]), x < 16 := by
  intro x member
  obtain ⟨b, _, pair⟩ := List.mem_flatMap.mp member
  rcases List.mem_pair.mp pair with rfl | rfl
  · exact nibble_high_lt b
  · exact nibble_low_lt b

theorem keybytesToHex_terminated (str : List UInt8) : Terminated (keybytesToHex str) :=
  ⟨_, mem_body_lt str, rfl⟩

theorem nibbles_append {a b : List UInt8} (left : Nibbles a) (right : Nibbles b) : Nibbles (a ++ b) := by
  intro x member
  rcases List.mem_append.mp member with inA | inB
  · exact left x inA
  · exact right x inB

theorem terminated_ne_nil {s : List UInt8} (term : Terminated s) : s ≠ [] := by
  obtain ⟨body, _, rfl⟩ := term
  simp

theorem terminated_not_nibbles {s : List UInt8} (term : Terminated s) : ¬Nibbles s := by
  obtain ⟨body, _, rfl⟩ := term
  intro small
  have last := small terminator (by simp)
  simp [terminator] at last

theorem terminated_nibble_append {a s : List UInt8} (small : Nibbles a) (term : Terminated s) :
    Terminated (a ++ s) := by
  obtain ⟨body, bodySmall, rfl⟩ := term
  exact ⟨a ++ body, nibbles_append small bodySmall, by simp⟩

theorem terminated_cons {b : UInt8} {s : List UInt8} (small : b < 16) (term : Terminated s) :
    Terminated (b :: s) := by
  simpa using terminated_nibble_append (a := [b]) (by simpa [Nibbles] using small) term

theorem hasTerm_of_terminated {s : List UInt8} (term : Terminated s) : hasTerm s = true := by
  obtain ⟨body, _, rfl⟩ := term
  exact hasTerm_append_terminator body

theorem nibble_split (b : UInt8) : (b / 16) <<< 4 ||| b % 16 = b := by
  revert b; decide +kernel

theorem nibble_eq {a b : UInt8} (high : a / 16 = b / 16) (low : a % 16 = b % 16) : a = b := by
  rw [← nibble_split a, ← nibble_split b, high, low]

theorem keybytesToHex_injective : Function.Injective keybytesToHex := by
  intro first
  induction first with
  | nil =>
      intro second same
      cases second with
      | nil => rfl
      | cons b rest =>
          have lengths := congrArg List.length same
          simp only [keybytesToHex_length, List.length_cons, List.length_nil] at lengths
          omega
  | cons a rest ih =>
      intro second same
      cases second with
      | nil =>
          have lengths := congrArg List.length same
          simp only [keybytesToHex_length, List.length_cons, List.length_nil] at lengths
          omega
      | cons b other =>
          simp only [keybytesToHex_cons, List.cons.injEq] at same
          obtain ⟨high, low, tail⟩ := same
          rw [nibble_eq high low, ih tail]

theorem decodeNibbles_flatMap (str : List UInt8) :
    decodeNibbles (str.flatMap (fun b => [b / 16, b % 16])) = str := by
  induction str with
  | nil => rfl
  | cons b rest ih => simp [decodeNibbles, ih, nibble_split]

theorem hexToKeybytes_keybytesToHex (str : List UInt8) :
    hexToKeybytes (keybytesToHex str) = some str := by
  have body : (str.flatMap fun b => [b / 16, b % 16]).length % 2 = 0 := by
    simp [List.length_flatMap]
  simp only [hexToKeybytes, keybytesToHex, hasTerm_append_terminator, ↓reduceIte,
    List.dropLast_concat, body]
  simp [decodeNibbles_flatMap]

/-! ### Compact keys -/

theorem nibble_pack {high low : UInt8} (highSmall : high < 16) (lowSmall : low < 16) :
    (high <<< 4 ||| low) / 16 = high ∧ (high <<< 4 ||| low) % 16 = low := by
  have table : ∀ h l : Fin 16, (h.val.toUInt8 <<< 4 ||| l.val.toUInt8) / 16 = h.val.toUInt8 ∧
      (h.val.toUInt8 <<< 4 ||| l.val.toUInt8) % 16 = l.val.toUInt8 := by
    decide
  have highNat : high.toNat < 16 := by simpa [UInt8.lt_iff_toNat_lt] using highSmall
  have lowNat : low.toNat < 16 := by simpa [UInt8.lt_iff_toNat_lt] using lowSmall
  simpa [Nat.toUInt8] using table ⟨high.toNat, highNat⟩ ⟨low.toNat, lowNat⟩

/-- The flag byte of an even-length compact key: flag nibble `2 * flag`, then `0`. -/
theorem flag_byte_even {flag : UInt8} (isFlag : flag = 0 ∨ flag = 1) :
    (flag <<< 5) / 16 = 2 * flag ∧ (flag <<< 5) % 16 = 0 := by
  rcases isFlag with rfl | rfl <;> decide

/-- The flag byte of an odd-length compact key: flag nibble `2 * flag + 1`, then the
first nibble of the key. -/
theorem flag_byte_odd {flag first : UInt8} (isFlag : flag = 0 ∨ flag = 1) (small : first < 16) :
    (flag <<< 5 ||| (1 : UInt8) <<< 4 ||| first) / 16 = 2 * flag + 1 ∧
      (flag <<< 5 ||| (1 : UInt8) <<< 4 ||| first) % 16 = first := by
  have table : ∀ x : Fin 16, ∀ f : Fin 2,
      (f.val.toUInt8 <<< 5 ||| (1 : UInt8) <<< 4 ||| x.val.toUInt8) / 16 = 2 * f.val.toUInt8 + 1 ∧
      (f.val.toUInt8 <<< 5 ||| (1 : UInt8) <<< 4 ||| x.val.toUInt8) % 16 = x.val.toUInt8 := by
    decide
  have firstNat : first.toNat < 16 := by simpa [UInt8.lt_iff_toNat_lt] using small
  rcases isFlag with rfl | rfl
  · simpa [Nat.toUInt8] using table ⟨first.toNat, firstNat⟩ 0
  · simpa [Nat.toUInt8] using table ⟨first.toNat, firstNat⟩ 1

theorem flatMap_decodeNibbles : ∀ body : List UInt8, Nibbles body → body.length % 2 = 0 →
    (decodeNibbles body).flatMap (fun b => [b / 16, b % 16]) = body
  | [], _, _ => rfl
  | [_], _, even => by simp at even
  | high :: low :: rest, small, even => by
      obtain ⟨highEq, lowEq⟩ := nibble_pack (small high (by simp)) (small low (by simp))
      have restSmall : Nibbles rest := fun x member => small x (by simp [member])
      have restEven : rest.length % 2 = 0 := by simp at even; omega
      simp [decodeNibbles, highEq, lowEq, flatMap_decodeNibbles rest restSmall restEven]

theorem hasTerm_of_nibbles {s : List UInt8} (small : Nibbles s) : hasTerm s = false := by
  cases last : s.getLast? with
  | none => simp [hasTerm, last]
  | some x =>
      have tooBig := small x (List.mem_of_getLast? last)
      have notTerm : x ≠ terminator := by
        rintro rfl
        simp [terminator] at tooBig
      simp [hasTerm, last, notTerm]

/-- An even number of nibbles: a flag byte, then the nibbles packed in pairs. -/
theorem compactToHex_even {body : List UInt8} (small : Nibbles body) (even : body.length % 2 = 0)
    {flag : UInt8} (isFlag : flag = 0 ∨ flag = 1) :
    compactToHex ((flag <<< 5) :: decodeNibbles body) =
      some (if flag = 1 then body ++ [terminator] else body) := by
  obtain ⟨high, low⟩ := flag_byte_even isFlag
  simp only [compactToHex, keybytesToHex_dropLast, List.flatMap_cons, high, low,
    flatMap_decodeNibbles body small even, List.cons_append, List.nil_append]
  rcases isFlag with rfl | rfl
  · simp
  · have chop : (2 - ((2 : UInt8) &&& 1)).toNat = 2 := by decide
    simp [chop]

/-- An odd number of nibbles: the first one shares the flag byte. -/
theorem compactToHex_odd {first : UInt8} {rest : List UInt8} (small : Nibbles (first :: rest))
    (even : rest.length % 2 = 0) {flag : UInt8} (isFlag : flag = 0 ∨ flag = 1) :
    compactToHex ((flag <<< 5 ||| (1 : UInt8) <<< 4 ||| first) :: decodeNibbles rest) =
      some (if flag = 1 then first :: rest ++ [terminator] else first :: rest) := by
  obtain ⟨high, low⟩ := flag_byte_odd isFlag (small first (by simp))
  have restSmall : Nibbles rest := fun x member => small x (by simp [member])
  simp only [compactToHex, keybytesToHex_dropLast, List.flatMap_cons, high, low,
    flatMap_decodeNibbles rest restSmall even, List.cons_append, List.nil_append]
  rcases isFlag with rfl | rfl
  · simp
  · have chop : (2 - ((3 : UInt8) &&& 1)).toNat = 1 := by decide
    simp [chop]

/-- The compact encoding of a key of nibbles, with or without the terminator, decodes
back to the key. -/
theorem compactToHex_hexToCompact {hex : List UInt8} (shape : Nibbles hex ∨ Terminated hex) :
    compactToHex (hexToCompact hex) = some hex := by
  obtain ⟨body, small, flag, isFlag, term, stripped, whole⟩ : ∃ body, Nibbles body ∧ ∃ flag : UInt8,
      (flag = 0 ∨ flag = 1) ∧ (if hasTerm hex then (1 : UInt8) else 0) = flag ∧
      (if hasTerm hex then hex.dropLast else hex) = body ∧
      hex = (if flag = 1 then body ++ [terminator] else body) := by
    rcases shape with small | ⟨body, small, rfl⟩
    · exact ⟨hex, small, 0, Or.inl rfl, by simp [hasTerm_of_nibbles small], by simp [hasTerm_of_nibbles small],
        by simp⟩
    · exact ⟨body, small, 1, Or.inr rfl, by simp, by simp, by simp⟩
  unfold hexToCompact
  simp only [term, stripped]
  rw [whole]
  rcases Nat.mod_two_eq_zero_or_one body.length with even | odd
  · rw [even]
    exact compactToHex_even small even isFlag
  · cases body with
    | nil => simp at odd
    | cons first rest =>
        rw [odd]
        exact compactToHex_odd small (by simp at odd; omega) isFlag

/-- The trie's key encodings are inverse: the compact encoding of a key of nibbles with at most
one terminator, at its end, decodes back to it, and the hex encoding of any byte key packs back
to it. -/
theorem key_encodings_inverse :
    (∀ hex : List UInt8, Nibbles hex ∨ Terminated hex → compactToHex (hexToCompact hex) = some hex) ∧
      ∀ str : List UInt8, hexToKeybytes (keybytesToHex str) = some str :=
  ⟨fun _ shape => compactToHex_hexToCompact shape, hexToKeybytes_keybytesToHex⟩

theorem key_encodings_inverse_leaf :
    Terminated [1, 2, 3, 16] ∧ compactToHex (hexToCompact [1, 2, 3, 16]) = some [1, 2, 3, 16] ∧
      hexToKeybytes (keybytesToHex [0x12, 0xab]) = some [0x12, 0xab] :=
  have shape : Terminated [1, 2, 3, 16] := ⟨[1, 2, 3], by simp [Nibbles], rfl⟩
  ⟨shape, key_encodings_inverse.1 _ (.inr shape), key_encodings_inverse.2 _⟩

/-! ### Common prefixes -/

theorem prefixLen_le_left (a b : List UInt8) : prefixLen a b ≤ a.length := by
  induction a generalizing b with
  | nil => simp [prefixLen]
  | cons x xs ih =>
      cases b with
      | nil => simp [prefixLen]
      | cons y ys =>
          simp only [prefixLen, List.length_cons]
          split
          · have := ih ys; omega
          · omega

theorem prefixLen_le_right (a b : List UInt8) : prefixLen a b ≤ b.length := by
  induction a generalizing b with
  | nil => simp [prefixLen]
  | cons x xs ih =>
      cases b with
      | nil => simp [prefixLen]
      | cons y ys =>
          simp only [prefixLen, List.length_cons]
          split
          · have := ih ys; omega
          · omega

theorem take_prefixLen (a b : List UInt8) : a.take (prefixLen a b) = b.take (prefixLen a b) := by
  induction a generalizing b with
  | nil => simp [prefixLen]
  | cons x xs ih =>
      cases b with
      | nil => simp [prefixLen]
      | cons y ys =>
          simp only [prefixLen]
          split
          · rename_i same
            simp [same, ih ys]
          · simp

/-- Where the common prefix stops short of both lists, the next elements differ. -/
theorem getElem_prefixLen_ne (a b : List UInt8) (inA : prefixLen a b < a.length)
    (inB : prefixLen a b < b.length) : a[prefixLen a b] ≠ b[prefixLen a b] := by
  induction a generalizing b with
  | nil => simp at inA
  | cons x xs ih =>
      cases b with
      | nil => simp at inB
      | cons y ys =>
          by_cases same : x = y
          · simp only [prefixLen, same, ↓reduceIte, List.length_cons] at inA inB ⊢
            simpa using ih ys (by omega) (by omega)
          · simp [prefixLen, same]

theorem prefixLen_append (a b c : List UInt8) : prefixLen (a ++ b) (a ++ c) = a.length + prefixLen b c := by
  induction a with
  | nil => simp
  | cons x xs ih =>
      simp only [List.cons_append, prefixLen, if_pos, ih, List.length_cons]
      omega

theorem prefixLen_self (a : List UInt8) : prefixLen a a = a.length := by
  simpa [prefixLen] using prefixLen_append a [] []

theorem prefixLen_comm (a b : List UInt8) : prefixLen a b = prefixLen b a := by
  induction a generalizing b with
  | nil => cases b <;> simp [prefixLen]
  | cons x xs ih =>
      cases b with
      | nil => simp [prefixLen]
      | cons y ys =>
          simp only [prefixLen, ih ys]
          by_cases same : x = y
          · simp [same]
          · simp [same, Ne.symm same]

end Mjoy.Trie
