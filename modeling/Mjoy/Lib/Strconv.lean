import Mathlib.Data.Nat.Digits.Lemmas

/-!
Go's `strconv.ParseUint(s, base, 64)` and `strconv.FormatUint(i, base)` over the bytes of a
string, with the positional value of a digit list they rest on.

`ParseUint` reads the digits from the first on, `n = n*base + d`, and fails with a syntax error
at the first byte that is no digit of the base and with a range error (and the largest `uint64`)
as soon as the value passes `2^64 - 1`. It succeeds exactly on non-empty digit strings whose
value fits (`parseUint_ok_iff`), and reads back what `FormatUint` writes.
-/

namespace Strconv

/-! ### Positional value -/

/-- The value of digits in base `b`, the most significant first. -/
def value (b : Nat) (ds : List Nat) : Nat := ds.foldl (fun acc d => acc * b + d) 0

-- Equation lemmas of the definitions above, made once here rather than by the proofs below
-- that unfold them in parallel.
section
attribute [local simp] value
end

theorem foldl_value (b : Nat) (ds : List Nat) (acc : Nat) :
    ds.foldl (fun acc d => acc * b + d) acc = acc * b ^ ds.length + value b ds := by
  induction ds generalizing acc with
  | nil => simp [value]
  | cons d rest ih =>
      rw [List.foldl_cons, ih]
      conv_rhs => rw [value, List.foldl_cons, ih]
      simp only [List.length_cons, pow_succ, Nat.zero_mul, Nat.zero_add]
      ring

@[simp] theorem value_nil (b : Nat) : value b [] = 0 := rfl

theorem value_append (b : Nat) (xs ys : List Nat) :
    value b (xs ++ ys) = value b xs * b ^ ys.length + value b ys := by
  rw [value, List.foldl_append, foldl_value]
  rfl

theorem value_cons (b d : Nat) (ds : List Nat) : value b (d :: ds) = d * b ^ ds.length + value b ds := by
  rw [← List.singleton_append, value_append]
  simp [value]

/-- Digits below the base stay below the next power. -/
theorem value_lt {b : Nat} {ds : List Nat} (digits : ∀ d ∈ ds, d < b) : value b ds < b ^ ds.length := by
  induction ds with
  | nil => simp
  | cons d rest ih =>
      rw [value_cons, List.length_cons, pow_succ]
      have below := ih fun d mem => digits d (List.mem_cons_of_mem _ mem)
      have top : d + 1 ≤ b := digits d List.mem_cons_self
      calc d * b ^ rest.length + value b rest
          _ < d * b ^ rest.length + b ^ rest.length := by omega
          _ = (d + 1) * b ^ rest.length := by ring
          _ ≤ b * b ^ rest.length := Nat.mul_le_mul_right _ top
          _ = b ^ rest.length * b := Nat.mul_comm _ _

/-- A first digit that is not zero carries the whole weight of its place. -/
theorem pow_le_value {b d : Nat} {ds : List Nat} (first : 0 < d) : b ^ ds.length ≤ value b (d :: ds) := by
  rw [value_cons]
  exact le_add_right (Nat.le_mul_of_pos_left _ first)

/-- The digits of `n`, the most significant first, spell `n`. -/
theorem value_digits (b n : Nat) : value b (Nat.digits b n).reverse = n := by
  rw [value, List.foldl_reverse]
  conv_rhs => rw [← Nat.ofDigits_digits b n]
  generalize Nat.digits b n = ds
  induction ds with
  | nil => rfl
  | cons d rest ih => simp [Nat.ofDigits_cons, ih]; ring

/-- Without leading zeros, digits below the base spell a number below `b ^ k` exactly when there
are at most `k` of them. -/
theorem value_lt_pow_iff {b k : Nat} {ds : List Nat} (one : 1 < b) (pos : 0 < k)
    (digits : ∀ d ∈ ds, d < b) (lead : ds.head? = some 0 → ds.length = 1) :
    value b ds < b ^ k ↔ ds.length ≤ k := by
  constructor
  · intro lt
    by_contra long
    cases ds with
    | nil => simp at long
    | cons d rest =>
        -- two or more digits, so the first is not zero and carries `b ^ rest.length`
        rw [List.length_cons] at long
        have first : 0 < d := Nat.pos_of_ne_zero fun zero => by
          simp only [zero, List.head?_cons, List.length_cons, forall_const] at lead
          omega
        have carried := @pow_le_value b d rest first
        have wide : b ^ k ≤ b ^ rest.length :=
          Nat.pow_le_pow_right (by omega) (by omega)
        omega
  · intro short
    exact lt_of_lt_of_le (value_lt digits) (Nat.pow_le_pow_right (by omega) short)

/-- Reading digits into a word of `m` values, wrapping at each step, wraps the positional value
once, at the end. -/
theorem foldl_mod_value {b m : Nat} (pos : 0 < m) (ds : List Nat) {w : Nat} (small : w < m) :
    ds.foldl (fun w d => (w * b + d) % m) w = (w * b ^ ds.length + value b ds) % m := by
  induction ds generalizing w with
  | nil => simp [Nat.mod_eq_of_lt small]
  | cons d rest ih =>
      rw [List.foldl_cons, ih (Nat.mod_lt _ pos), value_cons, List.length_cons]
      -- the wrap of the first step does not change the last remainder
      have wrap : (w * b + d) % m * b ^ rest.length + value b rest ≡
          (w * b + d) * b ^ rest.length + value b rest [MOD m] :=
        ((Nat.mod_modEq _ m).mul_right _).add_right _
      calc ((w * b + d) % m * b ^ rest.length + value b rest) % m
          _ = ((w * b + d) * b ^ rest.length + value b rest) % m := wrap
          _ = (w * b ^ (rest.length + 1) + (d * b ^ rest.length + value b rest)) % m := by ring_nf

/-! ### Digits -/

/-- `lower(c)`: the lower case of an ASCII letter. -/
def lower (c : UInt8) : UInt8 := c ||| 0x20

/-- The digit a byte stands for in `ParseUint`: `0`-`9`, then a letter of either case. -/
def digitOf (c : UInt8) : Option Nat :=
  if 48 ≤ c ∧ c ≤ 57 then some (c - 48).toNat
  else if 97 ≤ lower c ∧ lower c ≤ 122 then some ((lower c - 97).toNat + 10)
  else none

section
attribute [local simp] lower digitOf
end

/-- Only the byte `0` stands for the digit zero. -/
theorem digitOf_eq_zero_iff (c : UInt8) : digitOf c = some 0 ↔ c = 48 := by
  have all : ∀ k : Fin 256, digitOf (UInt8.ofFin k) = some 0 ↔ UInt8.ofFin k = 48 := by decide +kernel
  simpa using all c.toFin

/-- The digit a byte stands for in base `b`, if any. -/
def digitIn (b : Nat) (c : UInt8) : Option Nat := (digitOf c).filter (· < b)

/-- The byte `FormatUint` writes for a digit: `0`-`9`, then `a`-`z`. -/
def digitByte (d : Nat) : UInt8 := if d < 10 then (48 + d).toUInt8 else (87 + d).toUInt8

section
attribute [local simp] digitIn digitByte
end

theorem digitIn_eq_zero_iff {b : Nat} (pos : 0 < b) (c : UInt8) : digitIn b c = some 0 ↔ c = 48 := by
  rw [← digitOf_eq_zero_iff]
  simp [digitIn, Option.filter_eq_some_iff, pos]

theorem digitIn_digitByte {b d : Nat} (small : b ≤ 36) (lt : d < b) : digitIn b (digitByte d) = some d := by
  have : d < 36 := by omega
  -- one of the 36 digits
  have all : ∀ k : Fin 36, digitOf (digitByte k.val) = some k.val := by decide
  have := all ⟨d, this⟩
  simp [digitIn, this, lt]

/-! ### `ParseUint` -/

inductive NumError
  /-- `ErrSyntax` -/
  | syntaxError
  /-- `ErrRange` -/
  | rangeError
  /-- the error for a base outside `2..36` -/
  | baseError
  deriving DecidableEq, Repr

/-- `maxVal` for a bit size of 64. -/
def maxUint64 : UInt64 := 0xffffffffffffffff

/-- The loop of `ParseUint` from the value `n` read so far. -/
def parseUintLoop (base cutoff : UInt64) : List UInt8 → UInt64 → UInt64 × Option NumError
  | [], n => (n, none)
  | c :: rest, n =>
      match digitOf c with
      | none => (0, some .syntaxError)
      | some d =>
          if d.toUInt64 ≥ base then (0, some .syntaxError)
          -- n*base overflows
          else if n ≥ cutoff then (maxUint64, some .rangeError)
          else
            let n := n * base
            let n1 := n + d.toUInt64
            -- n+d overflows
            if n1 < n ∨ n1 > maxUint64 then (maxUint64, some .rangeError)
            else parseUintLoop base cutoff rest n1

/-- `ParseUint(s, base, 64)`. -/
def parseUint (s : List UInt8) (base : Nat) : UInt64 × Option NumError :=
  if s = [] then (0, some .syntaxError)
  else if ¬(2 ≤ base ∧ base ≤ 36) then (0, some .baseError)
  else parseUintLoop base.toUInt64 (maxUint64 / base.toUInt64 + 1) s 0

/-- `formatBits(u, base)`: the digits of `u`, the most significant first, and `0` for zero.
`big.Int` writes its `%x` digits the same way. -/
def formatBits (u base : Nat) : List UInt8 :=
  if u = 0 then [48] else (Nat.digits base u).reverse.map digitByte

/-- `FormatUint(i, base)`. -/
def formatUint (i : UInt64) (base : Nat) : List UInt8 := formatBits i.toNat base

section
attribute [local simp] maxUint64 parseUintLoop parseUint formatBits
end

/-- A digit is below 36. -/
theorem digitOf_lt {c : UInt8} {d : Nat} (digit : digitOf c = some d) : d < 36 := by
  unfold digitOf at digit
  split_ifs at digit with decimal letter
  · rw [← Option.some.inj digit, UInt8.toNat_sub_of_le _ _ decimal.1]
    have := UInt8.le_iff_toNat_le.mp decimal.2
    simp only [UInt8.reduceToNat] at this ⊢
    omega
  · rw [← Option.some.inj digit, UInt8.toNat_sub_of_le _ _ letter.1]
    have := UInt8.le_iff_toNat_le.mp letter.2
    simp only [UInt8.reduceToNat] at this ⊢
    omega

theorem length_of_mapM {α β} {f : α → Option β} :
    ∀ {s : List α} {ds : List β}, s.mapM f = some ds → ds.length = s.length
  | [], ds, reads => by
      simp at reads
      simp [← reads]
  | c :: rest, ds, reads => by
      simp [List.mapM_cons, Option.bind_eq_some_iff] at reads
      obtain ⟨d, -, ds', reads', rfl⟩ := reads
      simp [length_of_mapM reads']

theorem mapM_cons_of_some {α β} {f : α → Option β} {c : α} {d : β} (rest : List α) {ds : List β}
    (first : f c = some d) :
    (c :: rest).mapM f = some ds ↔ ∃ ds', rest.mapM f = some ds' ∧ ds = d :: ds' := by
  simp only [List.mapM_cons, first, Option.pure_def, Option.bind_eq_bind, Option.bind_some,
    Option.bind_eq_some_iff, Option.some.injEq]
  exact ⟨fun ⟨ds', reads, eq⟩ => ⟨ds', reads, eq.symm⟩, fun ⟨ds', reads, eq⟩ => ⟨ds', reads, eq.symm⟩⟩

theorem mapM_cons_of_none {α β} {f : α → Option β} {c : α} (rest : List α) (first : f c = none) :
    (c :: rest).mapM f = none := by
  simp [List.mapM_cons, first]

theorem lt_of_digitIn {b : Nat} {c : UInt8} {d : Nat} (digit : digitIn b c = some d) : d < b := by
  simp only [digitIn, Option.filter_eq_some_iff, decide_eq_true_eq] at digit
  exact digit.2

/-- What reads as digits of the base is below the base. -/
theorem digits_lt_of_mapM {b : Nat} :
    ∀ {s : List UInt8} {ds : List Nat}, s.mapM (digitIn b) = some ds → ∀ d ∈ ds, d < b
  | [], ds, reads => by
      simp only [List.mapM_nil, Option.pure_def, Option.some.injEq] at reads
      simp [← reads]
  | c :: rest, ds, reads => by
      cases digit : digitIn b c with
      | none => simp [mapM_cons_of_none rest digit] at reads
      | some d =>
          obtain ⟨ds', reads', rfl⟩ := (mapM_cons_of_some rest digit).mp reads
          intro e mem
          rcases List.mem_cons.mp mem with rfl | later
          · exact lt_of_digitIn digit
          · exact digits_lt_of_mapM reads' e later

/-- Bytes read as digits start with `0` exactly when the digits start with zero. -/
theorem head_eq_zero_iff_of_mapM {b : Nat} (pos : 0 < b) {s : List UInt8} {ds : List Nat}
    (reads : s.mapM (digitIn b) = some ds) : ds.head? = some 0 ↔ s.head? = some 48 := by
  cases s with
  | nil =>
      simp only [List.mapM_nil, Option.pure_def, Option.some.injEq] at reads
      simp [← reads]
  | cons c rest =>
      cases digit : digitIn b c with
      | none => simp [mapM_cons_of_none rest digit] at reads
      | some d =>
          obtain ⟨ds', -, rfl⟩ := (mapM_cons_of_some rest digit).mp reads
          simp only [List.head?_cons, Option.some.injEq]
          rw [← digitIn_eq_zero_iff pos, digit, Option.some.injEq]

section Parse

variable {b : Nat}

theorem toNat_toUInt64 {m : Nat} (small : m < 2 ^ 64) : m.toUInt64.toNat = m := by
  simp [Nat.toUInt64_eq]
  omega

/-- Past the cutoff, one more digit passes `2^64 - 1`. -/
theorem le_mul_of_cutoff (base : 2 ≤ b ∧ b ≤ 36) {n : UInt64}
    (past : n ≥ maxUint64 / b.toUInt64 + 1) : 2 ^ 64 ≤ n.toNat * b := by
  have bNat := toNat_toUInt64 (m := b) (by omega)
  have quotient : (maxUint64 / b.toUInt64).toNat = (2 ^ 64 - 1) / b := by
    rw [UInt64.toNat_div, bNat]
    rfl
  have small : (2 ^ 64 - 1) / b + 1 < 2 ^ 64 := by
    have := Nat.div_le_div_left (a := 2 ^ 64 - 1) base.1 (by omega)
    omega
  rw [ge_iff_le, UInt64.le_iff_toNat_le, UInt64.toNat_add, quotient] at past
  rw [Nat.mod_eq_of_lt (by simpa using small)] at past
  have := Nat.lt_mul_of_div_lt (show (2 ^ 64 - 1) / b < n.toNat by simpa using past) (by omega)
  omega

/-- Before the cutoff, `n*base` does not wrap. -/
theorem toNat_mul_of_cutoff (base : 2 ≤ b ∧ b ≤ 36) {n : UInt64}
    (under : ¬n ≥ maxUint64 / b.toUInt64 + 1) : (n * b.toUInt64).toNat = n.toNat * b := by
  have bNat := toNat_toUInt64 (m := b) (by omega)
  have quotient : (maxUint64 / b.toUInt64).toNat = (2 ^ 64 - 1) / b := by
    rw [UInt64.toNat_div, bNat]
    rfl
  have small : (2 ^ 64 - 1) / b + 1 < 2 ^ 64 := by
    have := Nat.div_le_div_left (a := 2 ^ 64 - 1) base.1 (by omega)
    omega
  rw [ge_iff_le, UInt64.le_iff_toNat_le, UInt64.toNat_add, quotient, Nat.mod_eq_of_lt (by simpa using small)] at under
  have le : n.toNat ≤ (2 ^ 64 - 1) / b := by simp at under; omega
  have fits : n.toNat * b ≤ 2 ^ 64 - 1 := (Nat.le_div_iff_mul_le (by omega)).mp le
  rw [UInt64.toNat_mul, bNat]
  exact Nat.mod_eq_of_lt (by omega)

/-- The loop succeeds exactly when every byte is a digit of the base and the value read fits in
64 bits, and then answers that value. Induction on the bytes, from any value read so far. -/
theorem parseUintLoop_spec (base : 2 ≤ b ∧ b ≤ 36) (s : List UInt8) (n : UInt64) :
    ((parseUintLoop b.toUInt64 (maxUint64 / b.toUInt64 + 1) s n).2 = none ↔
      ∃ ds, s.mapM (digitIn b) = some ds ∧ n.toNat * b ^ s.length + value b ds < 2 ^ 64) ∧
    ∀ ds, s.mapM (digitIn b) = some ds → n.toNat * b ^ s.length + value b ds < 2 ^ 64 →
      (parseUintLoop b.toUInt64 (maxUint64 / b.toUInt64 + 1) s n).1.toNat =
        n.toNat * b ^ s.length + value b ds := by
  have bNat := toNat_toUInt64 (m := b) (by omega)
  induction s generalizing n with
  | nil => simp [parseUintLoop, UInt64.toNat_lt n]
  | cons c rest ih =>
      rw [parseUintLoop]
      cases digit : digitOf c with
      | none =>
          -- not a digit at all
          have none := mapM_cons_of_none rest (show digitIn b c = none by simp [digitIn, digit])
          simp [none]
      | some d =>
          dsimp only
          have dNat := toNat_toUInt64 (m := d) (by have := digitOf_lt digit; omega)
          by_cases big : b ≤ d
          · -- a digit, but not of this base
            have ge : d.toUInt64 ≥ b.toUInt64 := UInt64.le_iff_toNat_le.mpr (by rw [bNat, dNat]; exact big)
            have none := mapM_cons_of_none rest
              (show digitIn b c = none by simp [digitIn, digit, big])
            simp [if_pos ge, none]
          have notGe : ¬d.toUInt64 ≥ b.toUInt64 := fun ge =>
            big (by simpa [bNat, dNat] using UInt64.le_iff_toNat_le.mp ge)
          have first : digitIn b c = some d := by simp [digitIn, digit, not_le.mp big]
          -- the value read with `d` first is the value read from `n*base + d` on
          have shift : ∀ ds', rest.mapM (digitIn b) = some ds' →
              n.toNat * b ^ (c :: rest).length + value b (d :: ds') =
                (n.toNat * b + d) * b ^ rest.length + value b ds' := by
            intro ds' reads
            rw [List.length_cons, value_cons, length_of_mapM reads, pow_succ]
            ring
          have tooBig : 2 ^ 64 ≤ n.toNat * b + d → ∀ ds, (c :: rest).mapM (digitIn b) = some ds →
              ¬n.toNat * b ^ (c :: rest).length + value b ds < 2 ^ 64 := by
            intro wide ds reads
            obtain ⟨ds', reads', rfl⟩ := (mapM_cons_of_some rest first).mp reads
            rw [shift ds' reads']
            have := Nat.le_mul_of_pos_right (n.toNat * b + d) (Nat.pow_pos (n := rest.length) (show 0 < b by omega))
            omega
          rw [if_neg notGe]
          by_cases past : n ≥ maxUint64 / b.toUInt64 + 1
          · -- `n*base` overflows
            have wide := le_mul_of_cutoff base past
            rw [if_pos past]
            exact ⟨by simpa using tooBig (by omega), fun ds reads fits => absurd fits (tooBig (by omega) ds reads)⟩
          have mul := toNat_mul_of_cutoff base past
          rw [if_neg past]
          by_cases wraps : 2 ^ 64 ≤ n.toNat * b + d
          · -- `n*base + d` wraps
            have less : n * b.toUInt64 + d.toUInt64 < n * b.toUInt64 := by
              rw [UInt64.lt_iff_toNat_lt, UInt64.toNat_add, mul, dNat]
              have := UInt64.toNat_lt (n * b.toUInt64)
              omega
            rw [if_pos (Or.inl less)]
            exact ⟨by simpa using tooBig wraps, fun ds reads fits => absurd fits (tooBig wraps ds reads)⟩
          have next : (n * b.toUInt64 + d.toUInt64).toNat = n.toNat * b + d := by
            rw [UInt64.toNat_add, mul, dNat]
            exact Nat.mod_eq_of_lt (by omega)
          have stays : ¬(n * b.toUInt64 + d.toUInt64 < n * b.toUInt64 ∨
              n * b.toUInt64 + d.toUInt64 > maxUint64) := by
            rw [UInt64.lt_iff_toNat_lt, GT.gt, UInt64.lt_iff_toNat_lt, next, mul]
            have := UInt64.toNat_lt (n * b.toUInt64 + d.toUInt64)
            simp only [maxUint64, UInt64.reduceToNat]
            omega
          rw [if_neg stays]
          -- the rest is read from `n*base + d`
          obtain ⟨okIff, okValue⟩ := ih (n * b.toUInt64 + d.toUInt64)
          rw [next] at okIff okValue
          refine ⟨okIff.trans ⟨fun ⟨ds', reads, fits⟩ => ⟨d :: ds', (mapM_cons_of_some rest first).mpr ⟨ds', reads, rfl⟩,
            by rw [shift ds' reads]; exact fits⟩, fun ⟨ds, reads, fits⟩ => ?_⟩, fun ds reads fits => ?_⟩
          · obtain ⟨ds', reads', rfl⟩ := (mapM_cons_of_some rest first).mp reads
            rw [shift ds' reads'] at fits
            exact ⟨ds', reads', fits⟩
          · obtain ⟨ds', reads', rfl⟩ := (mapM_cons_of_some rest first).mp reads
            rw [shift ds' reads'] at fits ⊢
            exact okValue ds' reads' fits

/-- `ParseUint` succeeds exactly on a non-empty string of digits of the base whose value fits in
64 bits, and answers that value. -/
theorem parseUint_spec (base : 2 ≤ b ∧ b ≤ 36) (s : List UInt8) :
    ((parseUint s b).2 = none ↔ s ≠ [] ∧ ∃ ds, s.mapM (digitIn b) = some ds ∧ value b ds < 2 ^ 64) ∧
    ∀ ds, s.mapM (digitIn b) = some ds → value b ds < 2 ^ 64 → (parseUint s b).1.toNat = value b ds := by
  by_cases empty : s = []
  · subst empty
    refine ⟨by simp [parseUint], fun ds reads _ => ?_⟩
    simp only [List.mapM_nil, Option.pure_def, Option.some.injEq] at reads
    simp [parseUint, ← reads]
  have loop := parseUintLoop_spec base s 0
  simp only [UInt64.toNat_zero, Nat.zero_mul, Nat.zero_add] at loop
  rw [parseUint, if_neg empty, if_neg (not_not.mpr base)]
  exact ⟨loop.1.trans ⟨fun ok => ⟨empty, ok⟩, fun ok => ok.2⟩, loop.2⟩

/-- The digits `formatBits` writes read back as the digits of the number. -/
theorem mapM_formatBits (base : 2 ≤ b ∧ b ≤ 36) (u : Nat) :
    (formatBits u b).mapM (digitIn b) = some (if u = 0 then [0] else (Nat.digits b u).reverse) := by
  by_cases zero : u = 0
  · have first : digitIn b (digitByte 0) = some 0 := digitIn_digitByte base.2 (by omega)
    rw [show digitByte 0 = 48 from rfl] at first
    simp [formatBits, zero, first]
  simp only [formatBits, if_neg zero]
  -- each digit is below the base
  have below : ∀ d ∈ (Nat.digits b u).reverse, d < b := fun d mem =>
    Nat.digits_lt_base (by omega) (List.mem_reverse.mp mem)
  generalize (Nat.digits b u).reverse = ds at below
  induction ds with
  | nil => rfl
  | cons d rest ih =>
      have first := digitIn_digitByte base.2 (below d List.mem_cons_self)
      simp [List.mapM_cons, first, ih fun d mem => below d (List.mem_cons_of_mem _ mem)]

theorem formatBits_ne_nil (u b : Nat) : formatBits u b ≠ [] := by
  by_cases zero : u = 0
  · simp [formatBits, zero]
  · simp [formatBits, zero, Nat.digits_ne_nil_iff_ne_zero.mpr zero]

/-- `formatBits` writes a leading `0` only for zero itself. -/
theorem formatBits_lead (base : 2 ≤ b ∧ b ≤ 36) (u : Nat) :
    (formatBits u b).head? = some 48 → (formatBits u b).length = 1 := by
  intro lead
  have zero := (head_eq_zero_iff_of_mapM (by omega) (mapM_formatBits base u)).mpr lead
  by_cases nz : u = 0
  · simp [formatBits, nz]
  -- the first digit written is the last of `Nat.digits`, which is not zero
  simp only [if_neg nz, List.head?_reverse] at zero
  rw [List.getLast?_eq_some_getLast (Nat.digits_ne_nil_iff_ne_zero.mpr nz)] at zero
  exact absurd (Option.some.inj zero) (Nat.getLast_digit_ne_zero b nz)

theorem value_formatBits_digits (u b : Nat) :
    value b (if u = 0 then [0] else (Nat.digits b u).reverse) = u := by
  by_cases zero : u = 0
  · simp [zero, value]
  · simp [zero, value_digits]

end Parse

end Strconv
