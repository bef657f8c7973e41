import Mjoy.Lib.Strconv
import Mjoy.Math.Big

/-!
The quantity codecs of the `hex` package: `DecodeUint64`, `EncodeUint64`, `DecodeBig` and
`EncodeBig` over strings, and the `MarshalText` and `UnmarshalText` methods of `Uint64` and
`Big` over byte slices, all on the bytes of the text.

`DecodeUint64` hands the digits to `strconv.ParseUint`; `Uint64.UnmarshalText` checks the length
and runs its own nibble loop. `DecodeBig` and `Big.UnmarshalText` share one body, which cuts the
digits into `big.Word`-sized chunks from the right and reads each chunk into a word. Both pairs
accept exactly what `quantity` describes and read back what the encoders write.
-/

namespace Mjoy.Types.Quantity

open Strconv
open Mjoy.Math (WordSize)

/-- The errors of the package that these codecs return. -/
inductive DecError
  | emptyString
  | syntaxError
  | missingPrefix
  | emptyNumber
  | leadingZero
  | uint64Range
  | big256Range
  deriving DecidableEq, Repr

/-- `decError.Error()`. -/
def DecError.msg : DecError → String
  | .emptyString => "empty hex string"
  | .syntaxError => "invalid hex string"
  | .missingPrefix => "hex string without 0x prefix"
  | .emptyNumber => "hex string \"0x\""
  | .leadingZero => "hex number with leading zero digits"
  | .uint64Range => "hex number > 64 bits"
  | .big256Range => "hex number > 256 bits"

-- Equation lemmas of the definitions above, made once here rather than by the proofs below
-- that unfold them in parallel.
section
attribute [local simp] DecError.msg
end

theorem DecError.msg_injective : Function.Injective DecError.msg := by
  intro e e' same
  cases e <;> cases e' <;> first | rfl | (simp [DecError.msg] at same)

/-- `mapError`: the two `strconv` errors become the package's own; any other passes through. -/
def mapError : NumError → DecError ⊕ NumError
  | .rangeError => .inl .uint64Range
  | .syntaxError => .inl .syntaxError
  | e => .inr e

def has0xPrefix : List UInt8 → Bool
  | c :: x :: _ => c == 48 && (x == 120 || x == 88)
  | _ => false

/-- `checkNumber` and `checkNumberText`, which differ only in what they make of the empty input. -/
def checkNumberWith (onEmpty : Except DecError (List UInt8)) (input : List UInt8) :
    Except DecError (List UInt8) :=
  if input.length = 0 then onEmpty
  else if !has0xPrefix input then .error .missingPrefix
  else
    let input := input.drop 2
    if input.length = 0 then .error .emptyNumber
    else if input.length > 1 ∧ input.head? = some 48 then .error .leadingZero
    else .ok input

def checkNumber : List UInt8 → Except DecError (List UInt8) :=
  checkNumberWith (.error .emptyString)

/-- `checkNumberText`: empty strings are allowed. -/
def checkNumberText : List UInt8 → Except DecError (List UInt8) :=
  checkNumberWith (.ok [])

def badNibble : UInt64 := ~~~0

def decodeNibble (c : UInt8) : UInt64 :=
  if c ≥ 48 ∧ c ≤ 57 then (c - 48).toUInt64
  else if c ≥ 65 ∧ c ≤ 70 then (c - 65 + 10).toUInt64
  else if c ≥ 97 ∧ c ≤ 102 then (c - 97 + 10).toUInt64
  else badNibble

section
attribute [local simp] mapError has0xPrefix checkNumberWith checkNumber checkNumberText badNibble
end

/-! ### `uint64` -/

def decodeUint64 (input : List UInt8) : UInt64 × Option (DecError ⊕ NumError) :=
  match checkNumber input with
  | .error e => (0, some (.inl e))
  | .ok raw =>
      let (dec, err) := parseUint raw 16
      (dec, err.map mapError)

def encodeUint64 (i : UInt64) : List UInt8 := [48, 120] ++ formatUint i 16

/-- The nibble loop of both hand-rolled decoders: `w *= 16; w += nib` in a word of `bits` bits,
stopping at the first byte that is no hex digit. -/
def readNibbles (bits : Nat) (raw : List UInt8) (w : Nat) : Option Nat :=
  raw.foldlM (fun w c =>
    let nib := decodeNibble c
    if nib = badNibble then none else some ((w * 16 + nib.toNat) % 2 ^ bits)) w

/-- `Uint64.UnmarshalText` into a value that was `b`, which it keeps on an error. -/
def Uint64.unmarshalText (b : UInt64) (input : List UInt8) : UInt64 × Option DecError :=
  match checkNumberText input with
  | .error e => (b, some e)
  | .ok raw =>
      if raw.length > 16 then (b, some .uint64Range)
      else
        match readNibbles 64 raw 0 with
        | none => (b, some .syntaxError)
        | some dec => (dec.toUInt64, none)

/-- `Uint64.MarshalText`: the same bytes as `EncodeUint64`. -/
def Uint64.marshalText (b : UInt64) : List UInt8 := [48, 120] ++ formatUint b 16

section
attribute [local simp] decodeUint64 readNibbles Uint64.unmarshalText Uint64.marshalText
end

/-! ### `big.Int` -/

/-- `bigWordNibbles` as `init` sets it: 16 when `0xFFFFFFFFFF` takes one word, else 8 (it takes
two words of 32 bits). -/
def bigWordNibbles (ws : WordSize) : Nat :=
  match (Mjoy.Math.bits ws 0xFFFFFFFFFF).length with
  | 1 => 16
  | _ => 8

/-- The width of `big.Word` (and of `uint`). -/
def uintBits (ws : WordSize) : Nat := 8 * ws.wordBytes

/-- The word loop of `DecodeBig`: `count` more words, each read from the at most `nibbles` digits
that end at `stop`, the lowest word first. -/
def readWords (nibbles bits : Nat) (raw : List UInt8) : Nat → Nat → Option (List Nat)
  | 0, _ => some []
  | count + 1, stop =>
      -- `start` floors at zero, as the code's `if start < 0`
      let start := stop - nibbles
      match readNibbles bits ((raw.take stop).drop start) 0 with
      | none => none
      | some word => (word :: ·) <$> readWords nibbles bits raw count start

/-- The body that `DecodeBig` and `Big.UnmarshalText` share after their prefix checks; `SetBits`
reads the words lowest first. -/
def decodeBigRaw (ws : WordSize) (raw : List UInt8) : Except DecError Nat :=
  if raw.length > 64 then .error .big256Range
  else
    match readWords (bigWordNibbles ws) (uintBits ws) raw (raw.length / bigWordNibbles ws + 1)
        raw.length with
    | none => .error .syntaxError
    | some words => .ok (Nat.ofDigits (2 ^ uintBits ws) words)

def decodeBig (ws : WordSize) (input : List UInt8) : Except DecError Nat :=
  checkNumber input >>= decodeBigRaw ws

/-- `Big.UnmarshalText` into a value that was `b`, which it keeps on an error. -/
def Big.unmarshalText (ws : WordSize) (b : Int) (input : List UInt8) : Int × Option DecError :=
  match checkNumberText input >>= decodeBigRaw ws with
  | .error e => (b, some e)
  | .ok dec => (dec, none)

/-- `EncodeBig`: `0x0` for zero, and otherwise `%#x`, which writes the sign of a negative number
before the prefix. -/
def encodeBig (bigint : Int) : List UInt8 :=
  if Mjoy.Math.bitLen bigint.natAbs = 0 then [48, 120, 48]
  else (if bigint < 0 then [45] else []) ++ [48, 120] ++ formatBits bigint.natAbs 16

def Big.marshalText (b : Int) : List UInt8 := encodeBig b

section
attribute [local simp] bigWordNibbles uintBits readWords decodeBigRaw decodeBig Big.unmarshalText encodeBig Big.marshalText
end

/-! ### What the decoders accept -/

/-- A quantity: `0x` or `0X`, then one to `maxDigits` hex digits, the first a zero only when it
stands alone; its value is the number the digits spell. -/
def quantity (maxDigits : Nat) : List UInt8 → Option Nat
  | c :: x :: raw =>
      if c = 48 ∧ (x = 120 ∨ x = 88) ∧ 0 < raw.length ∧ raw.length ≤ maxDigits ∧
          (raw.head? = some 48 → raw.length = 1) then
        (raw.mapM (digitIn 16)).map (value 16)
      else none
  | _ => none

section
attribute [local simp] quantity
end

/-! ### Nibbles and words -/

/-- `init` finds two nibbles a byte: the word size in nibbles. -/
theorem bigWordNibbles_eq (ws : WordSize) : bigWordNibbles ws = 2 * ws.wordBytes := by
  cases ws <;> simp [bigWordNibbles, Mjoy.Math.bits, WordSize.wordBytes]

theorem uintBits_eq (ws : WordSize) : uintBits ws = 4 * bigWordNibbles ws := by
  rw [bigWordNibbles_eq, uintBits]
  ring

theorem bigWordNibbles_pos (ws : WordSize) : 0 < bigWordNibbles ws := by
  have := ws.wordBytes_pos
  rw [bigWordNibbles_eq]
  omega

/-- `decodeNibble` is `ParseUint`'s digit reading in base 16, with `badNibble` for no digit. -/
theorem decodeNibble_eq (c : UInt8) :
    decodeNibble c = match digitIn 16 c with
      | some d => d.toUInt64
      | none => badNibble := by
  have all : ∀ k : Fin 256, decodeNibble (UInt8.ofFin k) = match digitIn 16 (UInt8.ofFin k) with
      | some d => d.toUInt64
      | none => badNibble := by decide +kernel
  simpa using all c.toFin

/-- The nibble loop reads the digits of the base and wraps at each step. -/
theorem readNibbles_eq (bits : Nat) (raw : List UInt8) (w : Nat) :
    readNibbles bits raw w =
      (raw.mapM (digitIn 16)).map fun ds => ds.foldl (fun w d => (w * 16 + d) % 2 ^ bits) w := by
  induction raw generalizing w with
  | nil => simp [readNibbles]
  | cons c rest ih =>
      have nibble := decodeNibble_eq c
      cases digit : digitIn 16 c with
      | none =>
          simp only [digit] at nibble
          simp [readNibbles, nibble, mapM_cons_of_none rest digit]
      | some d =>
          simp only [digit] at nibble
          have small : d < 16 := lt_of_digitIn digit
          have dNat : d.toUInt64.toNat = d := toNat_toUInt64 (by omega)
          have good : d.toUInt64 ≠ badNibble := fun bad => by
            have := congrArg UInt64.toNat bad
            rw [dNat] at this
            simp [badNibble] at this
            omega
          have reads : (c :: rest).mapM (digitIn 16) =
              (rest.mapM (digitIn 16)).map (d :: ·) := by
            rw [List.mapM_cons, digit]
            cases rest.mapM (digitIn 16) <;> rfl
          rw [readNibbles, List.foldlM_cons, nibble, if_neg good, dNat, reads, Option.map_map]
          exact ih _

/-- A chunk of at most `nibbles` digits fits its word: it reads as the value of its digits. -/
theorem readNibbles_chunk {nibbles : Nat} {chunk : List UInt8} (short : chunk.length ≤ nibbles) :
    readNibbles (4 * nibbles) chunk 0 = (chunk.mapM (digitIn 16)).map (value 16) := by
  rw [readNibbles_eq]
  cases reads : chunk.mapM (digitIn 16) with
  | none => rfl
  | some ds =>
      have digits : ∀ d ∈ ds, d < 16 := digits_lt_of_mapM reads
      have fits : value 16 ds < 2 ^ (4 * nibbles) := by
        calc value 16 ds
            _ < 16 ^ ds.length := value_lt digits
            _ ≤ 16 ^ nibbles := Nat.pow_le_pow_right (by omega) (length_of_mapM reads ▸ short)
            _ = 2 ^ (4 * nibbles) := by rw [pow_mul]; rfl
      simp [foldl_mod_value (Nat.two_pow_pos _) ds (Nat.two_pow_pos _), Nat.mod_eq_of_lt fits]

/-- The word loop reads the digits before `stop` as words of `nibbles` digits from the right, and
`SetBits` puts the words back together into the value of those digits. Induction on the words
left, from any `stop` that they cover. -/
theorem readWords_spec (nibbles : Nat) (raw : List UInt8) :
    ∀ count stop, stop ≤ raw.length → stop ≤ count * nibbles →
      (readWords nibbles (4 * nibbles) raw count stop).map (Nat.ofDigits (2 ^ (4 * nibbles))) =
        ((raw.take stop).mapM (digitIn 16)).map (value 16)
  | 0, stop, _, covered => by
      have none : stop = 0 := by omega
      subst none
      simp [readWords]
  | count + 1, stop, inside, covered => by
      -- this word reads the chunk `[start, stop)`, the words after it the digits below `start`
      have split : raw.take stop = raw.take (stop - nibbles) ++ (raw.take stop).drop (stop - nibbles) := by
        conv_lhs => rw [← List.take_append_drop (stop - nibbles) (raw.take stop)]
        rw [List.take_take, Nat.min_eq_left (by omega)]
      have chunkLength : ((raw.take stop).drop (stop - nibbles)).length = stop - (stop - nibbles) := by
        simp only [List.length_drop, List.length_take]
        omega
      have below := readWords_spec nibbles raw count (stop - nibbles) (by omega)
        (by rw [Nat.succ_mul] at covered; omega)
      rw [readWords, readNibbles_chunk (by omega)]
      conv_rhs => rw [split, List.mapM_append]
      cases chunk : ((raw.take stop).drop (stop - nibbles)).mapM (digitIn 16) with
      | none => simp
      | some cds =>
          cases lower : (raw.take (stop - nibbles)).mapM (digitIn 16) with
          | none =>
              rw [lower] at below
              simp only [Option.map_none, Option.map_eq_none_iff] at below
              simp [below]
          | some pds =>
              rw [lower] at below
              obtain ⟨words, read, spelled⟩ := Option.map_eq_some_iff.mp below
              -- the words after this one weigh `16 ^ nibbles`, or there are none
              have weight : value 16 pds * 16 ^ cds.length = 2 ^ (4 * nibbles) * value 16 pds := by
                rcases Nat.eq_zero_or_pos (stop - nibbles) with bottom | _
                · have empty : pds = [] := by
                    have := length_of_mapM lower
                    rw [bottom, List.take_zero, List.length_nil] at this
                    exact List.length_eq_zero_iff.mp this
                  simp [empty]
                · rw [length_of_mapM chunk, chunkLength, show stop - (stop - nibbles) = nibbles by omega,
                    pow_mul]
                  ring
              rw [read]
              simp only [Option.map_eq_map, Option.map_some, Option.bind_eq_bind, Option.bind_some,
                Option.pure_def, Nat.ofDigits_cons, spelled, value_append, weight]
              rw [Nat.add_comm]

/-- The shared body of the big decoders reads the plain positional value of the digits, whatever
the word size. -/
theorem decodeBigRaw_eq (ws : WordSize) (raw : List UInt8) :
    decodeBigRaw ws raw =
      if raw.length > 64 then .error .big256Range
      else
        match raw.mapM (digitIn 16) with
        | none => .error .syntaxError
        | some ds => .ok (value 16 ds) := by
  have pos := bigWordNibbles_pos ws
  -- one word more than the whole chunks covers every digit
  have covered : raw.length ≤ (raw.length / bigWordNibbles ws + 1) * bigWordNibbles ws := by
    rw [Nat.succ_mul]
    exact (Nat.lt_div_mul_add pos).le
  have words := readWords_spec (bigWordNibbles ws) raw _ raw.length (Nat.le_refl _) covered
  rw [List.take_length] at words
  rw [decodeBigRaw, uintBits_eq]
  split_ifs with long
  · rfl
  cases reads : raw.mapM (digitIn 16) with
  | none =>
      rw [reads, Option.map_none, Option.map_eq_none_iff] at words
      simp [words]
  | some ds =>
      rw [reads, Option.map_some] at words
      obtain ⟨read, found, spelled⟩ := Option.map_eq_some_iff.mp words
      simp [found, spelled]

/-! ### The prefix checks -/

/-- On a non-empty input the two checks are one. -/
theorem checkNumber_eq_text {input : List UInt8} (nonempty : input ≠ []) :
    checkNumber input = checkNumberText input := by
  have : input.length ≠ 0 := by simpa using nonempty
  simp [checkNumber, checkNumberText, checkNumberWith, this]

theorem checkNumberWith_cons_cons (onEmpty : Except DecError (List UInt8)) (c x : UInt8)
    (raw : List UInt8) :
    checkNumberWith onEmpty (c :: x :: raw) =
      if c = 48 ∧ (x = 120 ∨ x = 88) then
        if raw = [] then .error .emptyNumber
        else if raw.length > 1 ∧ raw.head? = some 48 then .error .leadingZero
        else .ok raw
      else .error .missingPrefix := by
  by_cases pre : c = 48 ∧ (x = 120 ∨ x = 88)
  · have prefixed : has0xPrefix (c :: x :: raw) = true := by simp [has0xPrefix, pre]
    rw [if_pos pre]
    simp [checkNumberWith, prefixed]
  · have prefixed : has0xPrefix (c :: x :: raw) = false := by simpa [has0xPrefix] using pre
    rw [if_neg pre]
    simp [checkNumberWith, prefixed]

theorem checkNumberWith_short (onEmpty : Except DecError (List UInt8)) (c : UInt8) :
    checkNumberWith onEmpty [c] = .error .missingPrefix := by
  simp [checkNumberWith, has0xPrefix]

/-- What the check lets through is a non-empty digit string with no leading zero. -/
theorem checkNumber_ok {input raw : List UInt8} (ok : checkNumber input = .ok raw) :
    0 < raw.length ∧ (raw.head? = some 48 → raw.length = 1) := by
  match input with
  | [] => cases ok
  | [c] => simp [checkNumber, checkNumberWith_short] at ok
  | c :: x :: rest =>
      rw [checkNumber, checkNumberWith_cons_cons] at ok
      split_ifs at ok with pre empty lead
      cases ok
      refine ⟨List.length_pos_iff.mpr empty, fun zero => ?_⟩
      have := List.length_pos_iff.mpr empty
      by_contra long
      exact lead ⟨by omega, zero⟩

/-- `quantity` is what passes the check and then has at most `maxDigits` digits. -/
theorem quantity_eq (maxDigits : Nat) (input : List UInt8) :
    quantity maxDigits input =
      match checkNumber input with
      | .error _ => none
      | .ok raw => if raw.length ≤ maxDigits then (raw.mapM (digitIn 16)).map (value 16) else none := by
  match input with
  | [] => rfl
  | [c] => simp [quantity, checkNumber, checkNumberWith_short]
  | c :: x :: raw =>
      rw [quantity, checkNumber, checkNumberWith_cons_cons]
      by_cases pre : c = 48 ∧ (x = 120 ∨ x = 88)
      swap
      · rw [if_neg pre, if_neg fun accepted => pre ⟨accepted.1, accepted.2.1⟩]
      by_cases empty : raw = []
      · simp [pre, empty]
      have nonempty := List.length_pos_iff.mpr empty
      by_cases lead : raw.length > 1 ∧ raw.head? = some 48
      · rw [if_pos pre, if_neg empty, if_pos lead, if_neg fun accepted => by
          have := accepted.2.2.2.2 lead.2
          omega]
      · rw [if_pos pre, if_neg empty, if_neg lead]
        by_cases short : raw.length ≤ maxDigits
        · have single : raw.head? = some 48 → raw.length = 1 := fun zero => by
            by_contra long
            exact lead ⟨by omega, zero⟩
          rw [if_pos ⟨pre.1, pre.2, nonempty, short, single⟩]
          simp [short]
        · rw [if_neg fun accepted => short accepted.2.2.2.1]
          simp [short]

/-- Past the check, digits fit `k` hex places exactly when there are at most `k` of them. -/
theorem fits_iff {raw : List UInt8} {ds : List Nat} {k : Nat} (pos : 0 < k)
    (checked : 0 < raw.length ∧ (raw.head? = some 48 → raw.length = 1))
    (reads : raw.mapM (digitIn 16) = some ds) : value 16 ds < 16 ^ k ↔ raw.length ≤ k := by
  have same := length_of_mapM reads
  have lead : ds.head? = some 0 → ds.length = 1 := fun zero => by
    rw [same]
    exact checked.2 ((head_eq_zero_iff_of_mapM (by omega) reads).mp zero)
  rw [← same]
  exact value_lt_pow_iff (by omega) pos (digits_lt_of_mapM reads) lead

/-! ### The decoders against `quantity` -/

/-- A word read back from a value that fits is the word of that value. -/
theorem eq_iff_toNat {dec v : UInt64} {n : Nat} (read : dec.toNat = n) : dec = v ↔ n = v.toNat := by
  rw [← read]
  exact UInt64.toNat_inj.symm

/-- `DecodeUint64` answers a value with no error exactly on a quantity of at most 16 digits, and
that value is the quantity's. -/
theorem decodeUint64_ok (input : List UInt8) (v : UInt64) :
    decodeUint64 input = (v, none) ↔ quantity 16 input = some v.toNat := by
  rw [quantity_eq, decodeUint64]
  cases check : checkNumber input with
  | error e => simp
  | ok raw =>
      dsimp only
      have checked := checkNumber_ok check
      obtain ⟨okIff, okValue⟩ := parseUint_spec (b := 16) (by omega) raw
      rcases parse : parseUint raw 16 with ⟨dec, err⟩
      rw [parse] at okIff okValue
      dsimp only at okIff okValue ⊢
      simp only [Prod.mk.injEq, Option.map_eq_none_iff]
      cases reads : raw.mapM (digitIn 16) with
      | none =>
          have failed : err ≠ none := fun ok => by
            obtain ⟨-, ds, found, -⟩ := okIff.mp ok
            rw [reads] at found
            cases found
          simp [failed]
      | some ds =>
          have fits := fits_iff (k := 16) (by omega) checked reads
          rw [show (16 : Nat) ^ 16 = 2 ^ 64 by norm_num] at fits
          by_cases short : raw.length ≤ 16
          · have ok : err = none := okIff.mpr ⟨List.ne_nil_of_length_pos checked.1, ds, reads, fits.mpr short⟩
            simp only [ok, and_true, if_pos short, Option.map_some, Option.some.injEq]
            exact eq_iff_toNat (okValue ds reads (fits.mpr short))
          · have failed : err ≠ none := fun ok => by
              obtain ⟨-, ds', found, fit⟩ := okIff.mp ok
              rw [reads, Option.some.injEq] at found
              subst found
              exact short (fits.mp fit)
            simp [failed, short]

/-- `Uint64.UnmarshalText` answers a value with no error on a non-empty input exactly when it is a
quantity of at most 16 digits, and that value is the quantity's. -/
theorem Uint64.unmarshalText_ok (b : UInt64) {input : List UInt8} (nonempty : input ≠ []) (v : UInt64) :
    Uint64.unmarshalText b input = (v, none) ↔ quantity 16 input = some v.toNat := by
  rw [quantity_eq, Uint64.unmarshalText, ← checkNumber_eq_text nonempty]
  cases check : checkNumber input with
  | error e => simp
  | ok raw =>
      dsimp only
      have checked := checkNumber_ok check
      by_cases short : raw.length ≤ 16
      swap
      · rw [if_pos (Nat.lt_of_not_le short)]
        simp [short]
      -- at most 16 digits: the loop never wraps
      have loop : readNibbles 64 raw 0 = (raw.mapM (digitIn 16)).map (value 16) := readNibbles_chunk short
      simp only [gt_iff_lt, if_neg (Nat.not_lt.mpr short), if_pos short, loop]
      cases reads : raw.mapM (digitIn 16) with
      | none => simp
      | some ds =>
          have fit : value 16 ds < 2 ^ 64 := by
            have := (fits_iff (by omega) checked reads).mpr short
            norm_num at this ⊢
            exact this
          simp only [Option.map_some, Prod.mk.injEq, and_true, Option.some.injEq]
          exact eq_iff_toNat (toNat_toUInt64 fit)

/-- `DecodeBig` answers exactly the quantities of at most 64 digits, whatever the word size. -/
theorem decodeBig_ok (ws : WordSize) (input : List UInt8) (v : Nat) :
    decodeBig ws input = .ok v ↔ quantity 64 input = some v := by
  rw [quantity_eq, decodeBig]
  cases check : checkNumber input with
  | error e => simp [bind, Except.bind]
  | ok raw =>
      simp only [bind, Except.bind]
      rw [decodeBigRaw_eq]
      by_cases short : raw.length ≤ 64
      · rw [if_neg (Nat.not_lt.mpr short), if_pos short]
        cases raw.mapM (digitIn 16) <;> simp
      · rw [if_pos (Nat.lt_of_not_le short), if_neg short]
        simp

/-- On a non-empty input `Big.UnmarshalText` does what `DecodeBig` does: the same value, or the
same error with the old value kept. -/
theorem Big.unmarshalText_eq (ws : WordSize) (b : Int) {input : List UInt8} (nonempty : input ≠ []) :
    Big.unmarshalText ws b input =
      match decodeBig ws input with
      | .error e => (b, some e)
      | .ok v => (v, none) := by
  rw [Big.unmarshalText, decodeBig, checkNumber_eq_text nonempty]

/-! ### Round trips -/

/-- `0x` and the digits of a number that fits `k` places make a quantity of that number. -/
theorem quantity_formatBits {k n : Nat} (pos : 0 < k) (small : n < 16 ^ k) :
    quantity k (48 :: 120 :: formatBits n 16) = some n := by
  have reads := mapM_formatBits (b := 16) (by omega) n
  have checked : 0 < (formatBits n 16).length ∧
      ((formatBits n 16).head? = some 48 → (formatBits n 16).length = 1) :=
    ⟨List.length_pos_iff.mpr (formatBits_ne_nil n 16), formatBits_lead (by omega) n⟩
  have short := (fits_iff pos checked reads).mp (by rw [value_formatBits_digits]; exact small)
  rw [quantity, if_pos ⟨rfl, Or.inl rfl, checked.1, short, checked.2⟩, reads, Option.map_some,
    value_formatBits_digits]

/-- `EncodeBig` of a number that is not negative is `0x` and its digits. -/
theorem encodeBig_of_nonneg {x : Int} (nonneg : 0 ≤ x) :
    encodeBig x = 48 :: 120 :: formatBits x.natAbs 16 := by
  by_cases zero : x = 0
  · simp [encodeBig, zero, formatBits, Mjoy.Math.bitLen]
  have size : Mjoy.Math.bitLen x.natAbs ≠ 0 := by
    simpa [Mjoy.Math.bitLen, Nat.size_eq_zero] using zero
  simp [encodeBig, size, Int.not_lt.mpr nonneg]

theorem decodeBig_encodeBig (ws : WordSize) {x : Int} (nonneg : 0 ≤ x) (small : x < 2 ^ 256) :
    decodeBig ws (encodeBig x) = .ok x.natAbs := by
  have fits : x.natAbs < 16 ^ 64 := by
    have : (x.natAbs : Int) < 2 ^ 256 := by rwa [Int.natAbs_of_nonneg nonneg]
    norm_num at this ⊢
    omega
  rw [decodeBig_ok, encodeBig_of_nonneg nonneg, quantity_formatBits (by omega) fits]

theorem decodeUint64_encodeUint64 (u : UInt64) : decodeUint64 (encodeUint64 u) = (u, none) := by
  have fits : u.toNat < 16 ^ 16 := by
    have := UInt64.toNat_lt u
    norm_num at this ⊢
    exact this
  rw [decodeUint64_ok]
  exact quantity_formatBits (by omega) fits

theorem unmarshalText_marshalText (b : UInt64) (u : UInt64) :
    Uint64.unmarshalText b (Uint64.marshalText u) = (u, none) := by
  have nonempty : Uint64.marshalText u ≠ [] := List.cons_ne_nil _ _
  rw [Uint64.unmarshalText_ok b nonempty]
  exact (decodeUint64_ok _ u).mp (decodeUint64_encodeUint64 u)

theorem Big.unmarshalText_marshalText (ws : WordSize) (b : Int) {x : Int} (nonneg : 0 ≤ x)
    (small : x < 2 ^ 256) : Big.unmarshalText ws b (Big.marshalText x) = (x, none) := by
  have nonempty : Big.marshalText x ≠ [] := by
    rw [Big.marshalText, encodeBig_of_nonneg nonneg]
    exact List.cons_ne_nil _ _
  rw [Big.unmarshalText_eq ws b nonempty, Big.marshalText, decodeBig_encodeBig ws nonneg small]
  simp [Int.natAbs_of_nonneg nonneg]

/-- The quantity codecs: both decoders of each pair read back what the encoders write, accept
exactly the quantities (at most 64 digits for `big.Int`, 16 for `uint64`) and answer their
values, for either word size; the two `big.Int` decoders agree on every non-empty input, error
included, and the two `uint64` decoders agree on what they accept and answer. -/
theorem quantity_codecs (ws : WordSize) (b : Int) (b64 : UInt64) :
    (∀ x : Int, 0 ≤ x → x < 2 ^ 256 →
      decodeBig ws (encodeBig x) = .ok x.natAbs ∧
        Big.unmarshalText ws b (Big.marshalText x) = (x, none)) ∧
    (∀ u : UInt64, decodeUint64 (encodeUint64 u) = (u, none) ∧
      Uint64.unmarshalText b64 (Uint64.marshalText u) = (u, none)) ∧
    (∀ input v, decodeBig ws input = .ok v ↔ quantity 64 input = some v) ∧
    (∀ input, input ≠ [] → Big.unmarshalText ws b input =
      match decodeBig ws input with
      | .error e => (b, some e)
      | .ok v => (v, none)) ∧
    (∀ input v, decodeUint64 input = (v, none) ↔ quantity 16 input = some v.toNat) ∧
    (∀ input, input ≠ [] → ∀ v,
      Uint64.unmarshalText b64 input = (v, none) ↔ quantity 16 input = some v.toNat) ∧
    (∀ input, input ≠ [] → ∀ v,
      decodeUint64 input = (v, none) ↔ Uint64.unmarshalText b64 input = (v, none)) := by
  refine ⟨fun x nonneg small => ⟨decodeBig_encodeBig ws nonneg small,
      Big.unmarshalText_marshalText ws b nonneg small⟩,
    fun u => ⟨decodeUint64_encodeUint64 u, unmarshalText_marshalText b64 u⟩,
    decodeBig_ok ws, fun input nonempty => Big.unmarshalText_eq ws b nonempty,
    decodeUint64_ok, fun input nonempty => Uint64.unmarshalText_ok b64 nonempty,
    fun input nonempty v => ?_⟩
  rw [decodeUint64_ok, Uint64.unmarshalText_ok b64 nonempty]

theorem quantity_codecs_ff :
    decodeBig .w32 (encodeBig 255) = .ok 255 ∧ decodeUint64 [48, 88, 102, 70] = (255, none) :=
  ⟨((quantity_codecs .w32 0 0).1 255 (by decide) (by decide)).1,
    ((quantity_codecs .w32 0 0).2.2.2.2.1 [48, 88, 102, 70] 255).mpr (by decide)⟩

end Mjoy.Types.Quantity
