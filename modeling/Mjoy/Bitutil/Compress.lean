import Mjoy.Lib.Bitset
import Mjoy.Lib.Loop

/-!
The sparse bitset compression of `common/bitutil/compress.go`. A byte string is written as the
compressed bitset of its non-zero bytes (bit `i`, most significant first, set when byte `i` is
not zero) followed by those bytes, down to a bitset of one byte, which is kept as it is. The
decoder reads the bitset from the front of its input, for a target length it is told, and
reports how much input it read, so the encoding of a bitset may be followed by anything.

Decoding an encoding gives back the data (`bitsetDecodeBytes_bitsetEncodeBytes`), and what the
decoder accepts is the encoding of what it answers: every input that is not one is stopped by a
check of the decoder (`bitsetDecodePartialBytes_canonical`).
-/

namespace Mjoy.Bitutil

open Loop

/-- The errors of the decompressors, and the panic of `make` for a negative target. -/
inductive CompressError where
  /-- errMissingData: "missing bytes on input" -/
  | missingData
  /-- errUnreferencedData: "extra bytes on input" -/
  | unreferencedData
  /-- errExceededTarget: "target data size exceeded" -/
  | exceededTarget
  /-- errZeroContent: "zero byte in input content" -/
  | zeroContent
  /-- `make([]byte, target)` with a negative target. -/
  | makesliceLen
  deriving DecidableEq, Repr

/-- The loop of `bitsetEncodeBytes`: the bitset of the non-zero bytes in `(len(data)+7)/8`
bytes, and those bytes in order. -/
def gather (data : List UInt8) : List UInt8 × List UInt8 :=
  data.zipIdx.foldl (fun acc (b, i) => if b ≠ 0 then (Bitset.set acc.1 i, acc.2 ++ [b]) else acc)
    (List.replicate ((data.length + 7) / 8) 0, [])

-- Equation lemmas of the definitions above, made once here rather than by the proofs below
-- that unfold them in parallel.
section
attribute [local simp] gather
end

/-- Byte `i - k` of `y :: ys` is `y` at `i = k`, and byte `i - (k + 1)` of `ys` past it. -/
theorem getD_cons_sub {y : UInt8} {ys : List UInt8} {k i : Nat} :
    (k ≤ i ∧ (y :: ys).getD (i - k) 0 ≠ 0) ↔
      (k = i ∧ y ≠ 0) ∨ (k + 1 ≤ i ∧ ys.getD (i - (k + 1)) 0 ≠ 0) := by
  rcases Nat.lt_trichotomy i k with before | rfl | after
  · constructor
    · rintro ⟨le, -⟩
      omega
    · rintro (⟨eq, -⟩ | ⟨le, -⟩) <;> omega
  · simp
  · have shift : i - k = (i - (k + 1)) + 1 := by omega
    simp [shift, Nat.ne_of_lt after, Nat.le_of_lt after, Nat.succ_le_of_lt after]

/-- The rounds of `gather` from index `k` on: they set the bits of the non-zero bytes, where
the bitset has room for them, and collect those bytes. -/
theorem foldl_gather (ys : List UInt8) (k : Nat) (acc : List UInt8 × List UInt8) :
    let out := (ys.zipIdx k).foldl
      (fun acc (b, i) => if b ≠ 0 then (Bitset.set acc.1 i, acc.2 ++ [b]) else acc) acc
    out.1.length = acc.1.length ∧ out.2 = acc.2 ++ ys.filter (· ≠ 0) ∧
      ∀ i, Bitset.test out.1 i = (Bitset.test acc.1 i ||
        decide (k ≤ i ∧ ys.getD (i - k) 0 ≠ 0 ∧ i / 8 < acc.1.length)) := by
  induction ys generalizing k acc with
  | nil => simp
  | cons y ys ih =>
      simp only [List.zipIdx_cons, List.foldl_cons]
      -- the round of index `k`
      have length' : (if y ≠ 0 then (Bitset.set acc.1 k, acc.2 ++ [y]) else acc).1.length =
          acc.1.length := by
        split <;> simp
      have bytes' : (if y ≠ 0 then (Bitset.set acc.1 k, acc.2 ++ [y]) else acc).2 =
          acc.2 ++ [y].filter (· ≠ 0) := by
        by_cases zero : y = 0 <;> simp [zero]
      have bits' : ∀ i, Bitset.test (if y ≠ 0 then (Bitset.set acc.1 k, acc.2 ++ [y]) else acc).1 i =
          (Bitset.test acc.1 i || decide (k = i ∧ y ≠ 0 ∧ i / 8 < acc.1.length)) := by
        intro i
        by_cases zero : y = 0
        · simp [zero]
        · simp only [zero, ne_eq, not_false_eq_true, if_true, Bitset.test_set, true_and]
          by_cases at_k : k = i
          · subst at_k
            rfl
          · simp [at_k]
      obtain ⟨length, bytes, bits⟩ := ih (k + 1) (if y ≠ 0 then (Bitset.set acc.1 k, acc.2 ++ [y]) else acc)
      refine ⟨length.trans length', ?_, fun i => ?_⟩
      · rw [bytes, bytes', List.append_assoc, ← List.filter_append]
        rfl
      · rw [bits i, bits' i, length', Bool.or_assoc, ← Bool.decide_or]
        congr 2
        have cons := @getD_cons_sub y ys k i
        apply propext
        constructor
        · rintro (⟨eq, nz, room⟩ | ⟨le, nz, room⟩)
          · exact ⟨(cons.mpr (.inl ⟨eq, nz⟩)).1, (cons.mpr (.inl ⟨eq, nz⟩)).2, room⟩
          · exact ⟨(cons.mpr (.inr ⟨le, nz⟩)).1, (cons.mpr (.inr ⟨le, nz⟩)).2, room⟩
        · rintro ⟨le, nz, room⟩
          rcases cons.mp ⟨le, nz⟩ with ⟨eq, nz'⟩ | ⟨le', nz'⟩
          · exact .inl ⟨eq, nz', room⟩
          · exact .inr ⟨le', nz', room⟩

theorem gather_spec (data : List UInt8) :
    (gather data).1.length = (data.length + 7) / 8 ∧ (gather data).2 = data.filter (· ≠ 0) ∧
      ∀ i, Bitset.test (gather data).1 i = (data.getD i 0 != 0) := by
  obtain ⟨length, bytes, bits⟩ := foldl_gather data 0 (List.replicate ((data.length + 7) / 8) 0, [])
  refine ⟨length.trans (List.length_replicate ..), bytes, fun i => ?_⟩
  rw [gather, bits i, Bitset.test_replicate_zero, Bool.false_or, Nat.sub_zero, List.length_replicate]
  -- a non-zero byte lies inside the data, so its bit has a byte in the bitset
  by_cases zero : data.getD i 0 = 0
  · rw [zero]
    simp
  · have inside : i < data.length := by
      by_contra outside
      exact zero (List.getD_eq_default _ _ (by omega))
    have room : i / 8 < (data.length + 7) / 8 := by omega
    rw [decide_eq_true ⟨Nat.zero_le i, zero, room⟩]
    exact (bne_iff_ne.mpr zero).symm

theorem length_gather_fst (data : List UInt8) : (gather data).1.length = (data.length + 7) / 8 :=
  (gather_spec data).1

/-- `bitsetEncodeBytes(data)`. -/
def bitsetEncodeBytes : List UInt8 → List UInt8
  | [] => []
  | [b] => if b = 0 then [] else [b]
  | a :: b :: rest =>
      let gathered := gather (a :: b :: rest)
      if gathered.2.length = 0 then [] else bitsetEncodeBytes gathered.1 ++ gathered.2
termination_by data => data.length
decreasing_by
  rw [length_gather_fst]
  simp only [List.length_cons]
  omega

/-- `CompressBytes(data)`: the encoding when it is shorter, else a copy of the data. -/
def compressBytes (data : List UInt8) : List UInt8 :=
  let out := bitsetEncodeBytes data
  if out.length < data.length then out else data

/-- One round of the loop of `bitsetDecodePartialBytes`: a set bit takes the next input byte,
which must be there, fit the target and not be zero. -/
def place (data bits : List UInt8) (acc : List UInt8 × Nat) (i : Nat) :
    Except CompressError (List UInt8 × Nat) :=
  if Bitset.test bits i then
    if acc.2 ≥ data.length then .error .missingData
    else if i ≥ acc.1.length then .error .exceededTarget
    else if data.getD acc.2 0 = 0 then .error .zeroContent
    else .ok (acc.1.set i (data.getD acc.2 0), acc.2 + 1)
  else .ok acc

/-- `bitsetDecodePartialBytes(data, target)`: the data, and how much of the input it took. -/
def bitsetDecodePartialBytes (data : List UInt8) (target : Int) :
    Except CompressError (List UInt8 × Nat) :=
  if target = 0 then .ok ([], 0)
  else if target < 0 then .error .makesliceLen
  else match data with
    | [] => .ok (List.replicate target.toNat 0, 0)
    | first :: _ =>
        if target = 1 then .ok ([first], if first ≠ 0 then 1 else 0)
        else do
          let (bits, ptr) ← bitsetDecodePartialBytes data ((target + 7) / 8)
          (List.range (8 * bits.length)).foldlM (place data bits)
            (List.replicate target.toNat 0, ptr)
termination_by target.toNat
decreasing_by omega

/-- `bitsetDecodeBytes(data, target)`: the decoding must take the whole input. -/
def bitsetDecodeBytes (data : List UInt8) (target : Int) : Except CompressError (List UInt8) := do
  let (out, size) ← bitsetDecodePartialBytes data target
  if size ≠ data.length then throw .unreferencedData
  return out

/-- `DecompressBytes(data, target)`: input of the target length was not compressed. -/
def decompressBytes (data : List UInt8) (target : Int) : Except CompressError (List UInt8) :=
  if data.length > target then .error .exceededTarget
  else if data.length = target then .ok data
  else bitsetDecodeBytes data target

section
attribute [local simp] bitsetEncodeBytes compressBytes place bitsetDecodePartialBytes bitsetDecodeBytes decompressBytes
end

/-! ### The encoder -/

/-- Data of two bytes or more: the encoded bitset, then the non-zero bytes. -/
theorem bitsetEncodeBytes_long {data : List UInt8} (long : 2 ≤ data.length) :
    bitsetEncodeBytes data = if (data.filter (· ≠ 0)).length = 0 then []
      else bitsetEncodeBytes (gather data).1 ++ data.filter (· ≠ 0) := by
  match data, long with
  | a :: b :: rest, _ =>
      rw [bitsetEncodeBytes, (gather_spec _).2.1]

/-- Zero bytes only encode to nothing. -/
theorem bitsetEncodeBytes_of_zero {data : List UInt8} (zero : ∀ b ∈ data, b = 0) :
    bitsetEncodeBytes data = [] := by
  match data with
  | [] => rw [bitsetEncodeBytes]
  | [b] => simp [bitsetEncodeBytes, zero b (by simp)]
  | a :: b :: rest =>
      rw [bitsetEncodeBytes_long (by simp), List.filter_eq_nil_iff.mpr (by simpa using zero)]
      rfl

/-- A bitset with a bit set has a byte that is not zero. -/
theorem exists_ne_zero_of_test {bits : List UInt8} {i : Nat} (marked : Bitset.test bits i = true) :
    ∃ b ∈ bits, b ≠ 0 := by
  have inside : i / 8 < bits.length := by
    by_contra outside
    rw [Bitset.test_of_length_le (by omega)] at marked
    cases marked
  refine ⟨bits[i / 8], List.getElem_mem inside, fun zero => ?_⟩
  rw [Bitset.test_eq_testBit, List.getD_eq_getElem _ _ inside, zero] at marked
  simp at marked

/-! ### The loop of the decoder -/

/-- A byte inside the data splits it. -/
theorem split_at {d : List UInt8} {m : Nat} (inside : m < d.length) :
    d = d.take m ++ d[m] :: d.drop (m + 1) := by
  rw [← List.drop_eq_getElem_cons inside, List.take_append_drop]

/-- A byte that is not zero is inside the data, and it is the non-zero byte that follows those
before it. -/
theorem getD_filter_take {d : List UInt8} {m : Nat} (nz : d.getD m 0 ≠ 0) :
    m < d.length ∧ ((d.take m).filter (· ≠ 0)).length < (d.filter (· ≠ 0)).length ∧
      (d.filter (· ≠ 0)).getD ((d.take m).filter (· ≠ 0)).length 0 = d.getD m 0 := by
  have inside : m < d.length := by
    by_contra outside
    exact nz (List.getD_eq_default _ _ (by omega))
  rw [List.getD_eq_getElem _ _ inside] at nz ⊢
  have whole : d.filter (· ≠ 0) =
      (d.take m).filter (· ≠ 0) ++ d[m] :: (d.drop (m + 1)).filter (· ≠ 0) := by
    conv_lhs => rw [split_at inside]
    rw [List.filter_append, List.filter_cons_of_pos (by simpa using nz)]
  refine ⟨inside, ?_, ?_⟩
  · rw [whole]
    simp
  · rw [whole, List.getD_append_right _ _ _ _ (Nat.le_refl _), Nat.sub_self]
    rfl

/-- The rounds before `m` of the loop, on the input the encoder makes: the bytes before `m`
are in place, and the input has been read up to the non-zero ones among them. -/
theorem place_loop_ok {data bits d : List UInt8} {p0 : Nat}
    (marks : ∀ i, Bitset.test bits i = (d.getD i 0 != 0))
    (reads : ∀ j < (d.filter (· ≠ 0)).length, data.getD (p0 + j) 0 = (d.filter (· ≠ 0)).getD j 0)
    (room : p0 + (d.filter (· ≠ 0)).length ≤ data.length) (m : Nat) :
    (List.range m).foldlM (place data bits) (List.replicate d.length 0, p0) =
      .ok (d.take m ++ List.replicate (d.length - m) 0, p0 + ((d.take m).filter (· ≠ 0)).length) := by
  induction m with
  | zero => simp
  | succ m ih =>
      rw [foldlM_range_succ, ih, ok_bind, place, marks m]
      by_cases zero : d.getD m 0 = 0
      · -- a zero byte, or none: nothing is read and nothing is placed
        have same : d.take (m + 1) ++ List.replicate (d.length - (m + 1)) 0 =
            d.take m ++ List.replicate (d.length - m) 0 ∧
            (d.take (m + 1)).filter (· ≠ 0) = (d.take m).filter (· ≠ 0) := by
          rcases Nat.lt_or_ge m d.length with inside | outside
          · rw [List.getD_eq_getElem _ _ inside] at zero
            have tail : d.length - m = (d.length - (m + 1)) + 1 := by omega
            rw [List.take_add_one, List.getElem?_eq_getElem inside, zero, tail]
            simp [List.replicate_succ]
          · simp [List.take_of_length_le outside, List.take_of_length_le (Nat.le_succ_of_le outside),
              show d.length - m = 0 by omega, show d.length - (m + 1) = 0 by omega]
        rw [zero, same.1, same.2]
        rfl
      · -- the byte is the next of the non-zero bytes, so there is input left to read
        obtain ⟨inside, fewer, next⟩ := getD_filter_take zero
        have byte := reads _ fewer
        rw [next] at byte
        have step : d.take (m + 1) = d.take m ++ [d.getD m 0] := by
          rw [List.take_add_one, List.getElem?_eq_getElem inside, List.getD_eq_getElem _ _ inside]
          rfl
        have placed : (d.take m ++ List.replicate (d.length - m) 0).set m (d.getD m 0) =
            d.take (m + 1) ++ List.replicate (d.length - (m + 1)) 0 := by
          have tail : d.length - m = (d.length - (m + 1)) + 1 := by omega
          rw [step, tail, List.replicate_succ, List.set_append_right _ _ (by simp [inside.le]),
            List.length_take, Nat.min_eq_left inside.le, Nat.sub_self, List.set_cons_zero,
            List.append_assoc]
          rfl
        have unread : ¬ p0 + ((d.take m).filter (· ≠ 0)).length ≥ data.length := by omega
        have fits : ¬ m ≥ (d.take m ++ List.replicate (d.length - m) 0).length := by
          simp [inside.le]
          omega
        simp only [zero, bne_iff_ne, ne_eq, not_false_eq_true, if_true, unread, if_false, fits, byte,
          placed]
        rw [step, List.filter_append, List.filter_cons_of_pos (by simpa using zero), List.filter_nil,
          List.length_append, List.length_singleton, Nat.add_assoc]

/-- Placing a non-zero byte at `m` in bytes that are zero from `m` on adds it to the end of
their non-zero bytes. -/
theorem filter_set_of_zero_from {e : List UInt8} {m : Nat} {x : UInt8} (inside : m < e.length)
    (zero : ∀ i, m ≤ i → e.getD i 0 = 0) (nz : x ≠ 0) :
    (e.set m x).filter (· ≠ 0) = e.filter (· ≠ 0) ++ [x] := by
  have rest : ∀ k, (e.drop k).filter (· ≠ 0) = [] ∨ k < m := by
    intro k
    rcases Nat.lt_or_ge k m with before | after
    · exact .inr before
    · refine .inl (List.filter_eq_nil_iff.mpr fun b mem => ?_)
      obtain ⟨j, lt, rfl⟩ := List.getElem_of_mem mem
      have := zero (k + j) (by omega)
      rw [List.getD_eq_getElem _ _ (by simp at lt; omega)] at this
      simpa [List.getElem_drop] using this
  have tail : (e.drop (m + 1)).filter (· ≠ 0) = [] := (rest (m + 1)).resolve_right (by omega)
  have whole : (e.drop m).filter (· ≠ 0) = [] := (rest m).resolve_right (by omega)
  conv_lhs => rw [split_at inside]
  conv_rhs => rw [← List.take_append_drop m e]
  rw [List.set_append_right _ _ (by simp [inside.le]), List.length_take, Nat.min_eq_left inside.le,
    Nat.sub_self, List.set_cons_zero, List.filter_append, List.filter_append, whole,
    List.filter_cons_of_pos (by simpa using nz), tail, List.append_nil]

/-- What the rounds before `m` of a loop that succeeded leave, on any input: the output keeps
its length and is zero from `m` on, its bytes before `m` are not zero exactly at the set bits,
and the input it read is its non-zero bytes in order. -/
theorem place_loop_canonical {data bits e : List UInt8} {t p0 p : Nat} (start : p0 ≤ data.length)
    (m : Nat) (ran : (List.range m).foldlM (place data bits) (List.replicate t 0, p0) = .ok (e, p)) :
    e.length = t ∧ p0 ≤ p ∧ p ≤ data.length ∧ (∀ i, m ≤ i → e.getD i 0 = 0) ∧
      (∀ i < m, (e.getD i 0 != 0) = Bitset.test bits i) ∧
      (data.drop p0).take (p - p0) = e.filter (· ≠ 0) := by
  induction m generalizing e p with
  | zero =>
      cases ran
      refine ⟨by simp, Nat.le_refl _, start, fun i _ => ?_, fun i lt => absurd lt (Nat.not_lt_zero i),
        by simp⟩
      rw [List.getD_eq_getElem?_getD, List.getElem?_replicate]
      split <;> rfl
  | succ m ih =>
      rw [foldlM_range_succ] at ran
      obtain ⟨⟨e', p'⟩, first, last⟩ := bind_eq_ok.mp ran
      obtain ⟨length, low, high, zero, marks, read⟩ := ih first
      unfold place at last
      by_cases marked : Bitset.test bits m
      · -- a set bit: the next input byte is there, fits and is not zero, and is placed
        rw [if_pos marked] at last
        by_cases exhausted : p' ≥ data.length
        · rw [if_pos exhausted] at last
          cases last
        rw [if_neg exhausted] at last
        by_cases past : m ≥ e'.length
        · rw [if_pos past] at last
          cases last
        rw [if_neg past] at last
        by_cases nil : data.getD p' 0 = 0
        · rw [if_pos nil] at last
          cases last
        rw [if_neg nil] at last
        cases last
        have inside : m < e'.length := by omega
        refine ⟨by simp [length], by omega, by omega, fun i after => ?_, fun i lt => ?_, ?_⟩
        · rw [List.getD_eq_getElem?_getD, List.getElem?_set_ne (by omega), ← List.getD_eq_getElem?_getD]
          exact zero i (by omega)
        · rcases Nat.lt_or_ge i m with before | at_m
          · rw [List.getD_eq_getElem?_getD, List.getElem?_set_ne (by omega), ← List.getD_eq_getElem?_getD]
            exact marks i before
          · have : i = m := by omega
            subst this
            rw [List.getD_eq_getElem?_getD, List.getElem?_set_self inside, Option.getD_some, marked]
            exact bne_iff_ne.mpr nil
        · rw [filter_set_of_zero_from inside zero nil, ← read, show p' + 1 - p0 = (p' - p0) + 1 by omega,
            List.take_add_one, List.getElem?_drop, show p0 + (p' - p0) = p' by omega,
            List.getElem?_eq_getElem (by omega), ← List.getD_eq_getElem _ _ (by omega)]
          rfl
      · -- a clear bit: nothing happens, and the byte at `m` is still zero
        rw [if_neg marked] at last
        cases last
        refine ⟨length, low, high, fun i after => zero i (by omega), fun i lt => ?_, read⟩
        rcases Nat.lt_or_ge i m with before | at_m
        · exact marks i before
        · have : i = m := by omega
          subst this
          rw [zero i (Nat.le_refl i)]
          simpa using marked

/-! ### Round trip and canonicity -/

/-- A target of two bytes or more, on input that is not empty: the bitset first, then the loop. -/
theorem bitsetDecodePartialBytes_long {data : List UInt8} {t : Int} (long : 2 ≤ t)
    (nonempty : data ≠ []) :
    bitsetDecodePartialBytes data t = (do
      let (bits, ptr) ← bitsetDecodePartialBytes data ((t + 7) / 8)
      (List.range (8 * bits.length)).foldlM (place data bits) (List.replicate t.toNat 0, ptr)) := by
  obtain ⟨first, rest, rfl⟩ := List.exists_cons_of_ne_nil nonempty
  rw [bitsetDecodePartialBytes, if_neg (by omega), if_neg (by omega)]
  simp only [if_neg (show t ≠ 1 by omega)]

/-- The bitset of data with a non-zero byte has a non-zero byte. -/
theorem gather_nonzero {d : List UInt8} (nonzero : ∃ b ∈ d, b ≠ 0) : ∃ b ∈ (gather d).1, b ≠ 0 := by
  obtain ⟨y, mem, ny⟩ := nonzero
  obtain ⟨i, lt, rfl⟩ := List.getElem_of_mem mem
  apply exists_ne_zero_of_test (i := i)
  rw [(gather_spec d).2.2, List.getD_eq_getElem _ _ lt]
  exact bne_iff_ne.mpr ny

/-- The round of the decoder for data of two bytes or more, given that it reads the encoded
bitset back. -/
theorem decode_encode_long {d rest : List UInt8} (long : 2 ≤ d.length) (nonzero : ∃ b ∈ d, b ≠ 0)
    (inner : bitsetDecodePartialBytes
      (bitsetEncodeBytes (gather d).1 ++ (d.filter (· ≠ 0) ++ rest)) (gather d).1.length =
        .ok ((gather d).1, (bitsetEncodeBytes (gather d).1).length)) :
    bitsetDecodePartialBytes (bitsetEncodeBytes d ++ rest) d.length =
      .ok (d, (bitsetEncodeBytes d).length) := by
  obtain ⟨bitsLength, -, marks⟩ := gather_spec d
  have some : d.filter (· ≠ 0) ≠ [] := by
    obtain ⟨y, mem, ny⟩ := nonzero
    exact List.ne_nil_of_mem (List.mem_filter.mpr ⟨mem, by simpa using ny⟩)
  have encoded : bitsetEncodeBytes d = bitsetEncodeBytes (gather d).1 ++ d.filter (· ≠ 0) := by
    rw [bitsetEncodeBytes_long long, if_neg (by simpa using some)]
  have target : ((d.length : Int) + 7) / 8 = ((gather d).1.length : Int) := by
    rw [bitsLength]
    omega
  have nonempty : bitsetEncodeBytes (gather d).1 ++ (d.filter (· ≠ 0) ++ rest) ≠ [] :=
    List.append_ne_nil_of_right_ne_nil _ (List.append_ne_nil_of_left_ne_nil some _)
  rw [encoded, List.append_assoc, bitsetDecodePartialBytes_long (by omega) nonempty, target, inner,
    ok_bind]
  -- the loop over the bitset places the non-zero bytes, which follow the encoded bitset
  have reads : ∀ j < (d.filter (· ≠ 0)).length,
      (bitsetEncodeBytes (gather d).1 ++ (d.filter (· ≠ 0) ++ rest)).getD
        ((bitsetEncodeBytes (gather d).1).length + j) 0 = (d.filter (· ≠ 0)).getD j 0 := by
    intro j lt
    rw [List.getD_append_right _ _ _ _ (by omega), Nat.add_sub_cancel_left,
      List.getD_append _ _ _ _ lt]
  have room : (bitsetEncodeBytes (gather d).1).length + (d.filter (· ≠ 0)).length ≤
      (bitsetEncodeBytes (gather d).1 ++ (d.filter (· ≠ 0) ++ rest)).length := by
    simp
  have all : d.length ≤ 8 * (gather d).1.length := by
    rw [bitsLength]
    omega
  dsimp only
  rw [Int.toNat_natCast, place_loop_ok marks reads room, List.take_of_length_le all,
    Nat.sub_eq_zero_of_le all, List.replicate_zero, List.append_nil, List.length_append]

/-- The decoder reads an encoding of data with a non-zero byte from the front of any input, and
takes exactly the encoding. -/
theorem bitsetDecodePartialBytes_encode (n : Nat) : ∀ (d rest : List UInt8), d.length = n →
    (∃ b ∈ d, b ≠ 0) →
    bitsetDecodePartialBytes (bitsetEncodeBytes d ++ rest) d.length =
      .ok (d, (bitsetEncodeBytes d).length) := by
  induction n using Nat.strong_induction_on with
  | _ n ih =>
    intro d rest length nonzero
    match d, nonzero with
    | [x], nonzero =>
        have nz : x ≠ 0 := by simpa using nonzero
        simp [bitsetEncodeBytes, nz, bitsetDecodePartialBytes]
    | a :: b :: r, nonzero =>
        have shorter : (gather (a :: b :: r)).1.length < n := by
          rw [length_gather_fst, ← length]
          simp
          omega
        exact decode_encode_long (by simp) nonzero (ih _ shorter _ _ rfl (gather_nonzero nonzero))

/-- Data whose non-zero bytes are none has only zero bytes, at every index. -/
theorem getD_eq_zero_of_filter {d : List UInt8} (none : d.filter (· ≠ 0) = []) (i : Nat) :
    d.getD i 0 = 0 := by
  rcases Nat.lt_or_ge i d.length with inside | outside
  · rw [List.getD_eq_getElem _ _ inside]
    simpa using List.filter_eq_nil_iff.mp none _ (List.getElem_mem inside)
  · exact List.getD_eq_default _ _ outside

/-- The round of the decoder for a target of two bytes or more, given that what it accepts as
the bitset is the encoding of that bitset. -/
theorem canonical_long {data d : List UInt8} {t : Int} {p : Nat} (long : 2 ≤ t) (nonempty : data ≠ [])
    (ih : ∀ {bits : List UInt8} {p0 : Nat}, bitsetDecodePartialBytes data ((t + 7) / 8) = .ok (bits, p0) →
      (bits.length : Int) = (t + 7) / 8 ∧ p0 ≤ data.length ∧ bitsetEncodeBytes bits = data.take p0)
    (ran : bitsetDecodePartialBytes data t = .ok (d, p)) :
    (d.length : Int) = t ∧ p ≤ data.length ∧ bitsetEncodeBytes d = data.take p := by
  rw [bitsetDecodePartialBytes_long long nonempty] at ran
  obtain ⟨⟨bits, p0⟩, inner, loop⟩ := bind_eq_ok.mp ran
  obtain ⟨bitsLength, p0le, bitsEncoded⟩ := ih inner
  obtain ⟨length, low, high, zero, marks, read⟩ := place_loop_canonical p0le _ loop
  -- the bitset of the answer is the bitset that was read
  have same : ∀ i, Bitset.test bits i = (d.getD i 0 != 0) := by
    intro i
    rcases Nat.lt_or_ge i (8 * bits.length) with inside | outside
    · exact (marks i inside).symm
    · rw [zero i outside, Bitset.test_of_length_le outside]
      rfl
  have gathered : (gather d).1 = bits := by
    apply Bitset.ext
    · rw [length_gather_fst, length]
      omega
    · intro i
      rw [(gather_spec d).2.2, same]
  refine ⟨by omega, high, ?_⟩
  rw [bitsetEncodeBytes_long (by omega), gathered]
  by_cases empty : (d.filter (· ≠ 0)).length = 0
  · -- no byte is set: the bitset is zero and took no input, and neither did the loop
    rw [if_pos empty]
    have none := List.eq_nil_of_length_eq_zero empty
    have zeroBits : bitsetEncodeBytes bits = [] := by
      have : bits = List.replicate bits.length 0 := by
        apply Bitset.ext (by simp)
        intro i
        rw [same, Bitset.test_replicate_zero, getD_eq_zero_of_filter none]
        rfl
      rw [this]
      exact bitsetEncodeBytes_of_zero fun b mem => List.eq_of_mem_replicate mem
    rw [zeroBits, eq_comm, List.take_eq_nil_iff] at bitsEncoded
    rw [none, List.take_eq_nil_iff, List.drop_eq_nil_iff] at read
    have unread : p = 0 := by
      rcases bitsEncoded with p0zero | nil
      · omega
      · exact absurd nil nonempty
    rw [unread, List.take_zero]
  · rw [if_neg empty, bitsEncoded, ← read, ← List.take_add, Nat.add_sub_cancel' low]

/-- What the decoder accepts is the encoding of what it answers: the answer has the target
length, and the input it read is the encoding of the answer. -/
theorem bitsetDecodePartialBytes_canonical (k : Nat) :
    ∀ {data d : List UInt8} {t : Int} {p : Nat}, t.toNat = k →
      bitsetDecodePartialBytes data t = .ok (d, p) →
      (d.length : Int) = t ∧ p ≤ data.length ∧ bitsetEncodeBytes d = data.take p := by
  induction k using Nat.strong_induction_on with
  | _ k ih =>
    intro data d t p size ran
    by_cases t0 : t = 0
    · rw [bitsetDecodePartialBytes.eq_def, if_pos t0] at ran
      cases ran
      exact ⟨by simp [t0], Nat.zero_le _, by simp [bitsetEncodeBytes]⟩
    by_cases neg : t < 0
    · rw [bitsetDecodePartialBytes.eq_def, if_neg t0, if_pos neg] at ran
      cases ran
    cases data with
    | nil =>
        -- no input: the answer is zero bytes, whose encoding is empty
        rw [bitsetDecodePartialBytes, if_neg t0, if_neg neg] at ran
        cases ran
        exact ⟨by simp; omega, Nat.le_refl _,
          bitsetEncodeBytes_of_zero fun b mem => List.eq_of_mem_replicate mem⟩
    | cons first tail =>
        by_cases t1 : t = 1
        · rw [bitsetDecodePartialBytes, if_neg t0, if_neg neg] at ran
          simp only [if_pos t1] at ran
          cases ran
          by_cases z : first = 0 <;> simp [z, t1, bitsetEncodeBytes]
        · exact canonical_long (by omega) (List.cons_ne_nil _ _)
            (fun inner => ih _ (by omega) rfl inner) ran

/-- Decoding the encoding of data, for its length, gives the data back. -/
theorem bitsetDecodeBytes_bitsetEncodeBytes (d : List UInt8) :
    bitsetDecodeBytes (bitsetEncodeBytes d) d.length = .ok d := by
  by_cases nonzero : ∃ b ∈ d, b ≠ 0
  · have whole := bitsetDecodePartialBytes_encode d.length d [] rfl nonzero
    rw [List.append_nil] at whole
    simp [bitsetDecodeBytes, whole]
  · -- zero bytes only: the encoding is empty, and the decoder answers zero bytes
    simp only [not_exists, not_and, not_not] at nonzero
    rw [bitsetEncodeBytes_of_zero nonzero]
    cases d with
    | nil => simp [bitsetDecodeBytes, bitsetDecodePartialBytes]
    | cons x xs =>
        have zeros : x :: xs = List.replicate (xs.length + 1) 0 :=
          List.eq_replicate_iff.mpr ⟨rfl, nonzero⟩
        have zerosRead : bitsetDecodePartialBytes [] ((xs.length + 1 : Nat) : Int) =
            .ok (List.replicate (xs.length + 1) 0, 0) := by
          rw [bitsetDecodePartialBytes.eq_def, if_neg (by omega), if_neg (by omega)]
          simp
        rw [zeros, List.length_replicate, bitsetDecodeBytes, zerosRead]
        rfl

/-- `CompressBytes` then `DecompressBytes` for the length of the data gives the data back. -/
theorem decompressBytes_compressBytes (d : List UInt8) :
    decompressBytes (compressBytes d) d.length = .ok d := by
  unfold compressBytes
  by_cases shorter : (bitsetEncodeBytes d).length < d.length
  · rw [if_pos shorter, decompressBytes, if_neg (by omega), if_neg (by omega)]
    exact bitsetDecodeBytes_bitsetEncodeBytes d
  · rw [if_neg shorter, decompressBytes, if_neg (by omega), if_pos rfl]

/-- An input that `bitsetDecodeBytes` accepts is the encoding of what it answers. -/
theorem bitsetEncodeBytes_of_decode {c d : List UInt8} {t : Int} (ok : bitsetDecodeBytes c t = .ok d) :
    bitsetEncodeBytes d = c := by
  obtain ⟨⟨out, size⟩, ran, whole⟩ := bind_eq_ok.mp ok
  have all : size = c.length := by
    by_contra short
    simp only [short, ne_eq, not_false_eq_true, if_true] at whole
    cases whole
  simp only [all, ne_eq, not_true_eq_false, if_false] at whole
  cases whole
  obtain ⟨-, -, encoded⟩ := bitsetDecodePartialBytes_canonical _ rfl ran
  rw [encoded, all, List.take_length]

/-- The sparse bitset code is lossless through `CompressBytes` and through `bitsetEncodeBytes`,
and canonical: the decoder accepts nothing but encodings. -/
theorem sparse_bitset_code :
    (∀ d : List UInt8, decompressBytes (compressBytes d) d.length = .ok d) ∧
      (∀ d : List UInt8, bitsetDecodeBytes (bitsetEncodeBytes d) d.length = .ok d) ∧
      ∀ (c : List UInt8) (t : Int) (d : List UInt8), bitsetDecodeBytes c t = .ok d →
        bitsetEncodeBytes d = c :=
  ⟨decompressBytes_compressBytes, bitsetDecodeBytes_bitsetEncodeBytes,
    fun _ _ _ ok => bitsetEncodeBytes_of_decode ok⟩

theorem sparse_bitset_code_zero_five :
    bitsetDecodeBytes [64, 5] 2 = .ok [0, 5] ∧ bitsetEncodeBytes [0, 5] = [64, 5] := by
  have decoded : bitsetDecodeBytes [64, 5] 2 = .ok [0, 5] := by
    decide +kernel
  exact ⟨decoded, sparse_bitset_code.2.2 _ _ _ decoded⟩

end Mjoy.Bitutil
