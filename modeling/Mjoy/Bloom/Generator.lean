import Mjoy.Lib.Loop

/-!
The rotated bloom bits of the log index (`utils/bloom/generator.go`) and the indexer that
fills them one section at a time (`core/chainindexer/bloomindexer.go`). A section of `size`
blocks is turned into one vector for each of the 2048 bits of a header bloom, with one bit
for each block of the section, most significant bit first.

`Bitset` bounds the bit it is asked for by the number of blocks of a section, not by the
number of bloom bits. For a section of fewer than 2048 blocks `Commit` stops at the first
bloom bit past the section with `errSectionOutOfBounds`.
-/

namespace Mjoy.Bloom

def bloomByteLength : Nat := 256

def bloomBitLength : Nat := 8 * bloomByteLength

/-- `Generator`: the rotated vectors, one per bloom bit, the number of blocks of a section, and
the next block to add. -/
structure Generator where
  blooms : List (List UInt8)
  sections : Nat
  nextBit : Nat

def errSectionOutOfBounds : String := "section out of bounds"

def newGenerator (sections : Nat) : Except String Generator :=
  if sections % 8 ≠ 0 then .error "section count not multiple of 8"
  else .ok { blooms := List.replicate bloomBitLength (List.replicate (sections / 8) 0),
             sections := sections, nextBit := 0 }

-- Equation lemmas of the definitions above, made once here rather than by the proofs below
-- that unfold them in parallel.
section
attribute [local simp] newGenerator
end

namespace Generator

/-- Bit `i` of a header bloom: the bloom holds a big-endian integer, so bit `i` is in byte
`255 - i / 8`. -/
def bloomBit (bloom : List UInt8) (i : Nat) : Bool :=
  bloom.getD (bloomByteLength - 1 - i / 8) 0 &&& ((1 : UInt8) <<< (i % 8).toUInt8) ≠ 0

def addBloom (b : Generator) (index : Nat) (bloom : List UInt8) : Except String Generator :=
  if b.nextBit ≥ b.sections then .error errSectionOutOfBounds
  else if b.nextBit ≠ index then .error "bloom filter with unexpected index"
  else
    let byteIndex := b.nextBit / 8
    let bitMask : UInt8 := (1 : UInt8) <<< (7 - b.nextBit % 8).toUInt8
    .ok { b with
      blooms := b.blooms.mapIdx fun i vector =>
        if bloomBit bloom i then vector.modify byteIndex (· ||| bitMask) else vector
      nextBit := b.nextBit + 1 }

/-- `Bitset(idx)`. An `idx` past the 2048 vectors but inside the section is the runtime panic
of the array index, returned here as an error. -/
def bitset (b : Generator) (idx : Nat) : Except String (List UInt8) :=
  if b.nextBit ≠ b.sections then .error "bloom not fully generated yet"
  else if idx ≥ b.sections then .error errSectionOutOfBounds
  else match b.blooms[idx]? with
    | some vector => .ok vector
    | none => .error "index out of range"

section
attribute [local simp] addBloom bitset
end

end Generator

/-- `Reset` with a new generator, then `Process` for each header of the section in order,
whose index in the section is its position; `Process` drops the error of `AddBloom`. -/
def processSection (size : Nat) (blooms : List (List UInt8)) : Except String Generator := do
  let gen ← newGenerator size
  pure (blooms.zipIdx.foldl (fun g entry =>
    match g.addBloom entry.2 entry.1 with
    | .ok g' => g'
    | .error _ => g) gen)

/-- `Commit`: the vector of every bloom bit in turn, stopping at the first error. -/
def commit (gen : Generator) : Except String (List (List UInt8)) :=
  (List.range bloomBitLength).mapM gen.bitset

section
attribute [local simp] processSection commit
end

namespace Generator

theorem addBloom_next {b : Generator} {k : Nat} (bloom : List UInt8) (next : b.nextBit = k)
    (room : k < b.sections) :
    ∃ b', b.addBloom k bloom = .ok b' ∧ b'.nextBit = k + 1 ∧ b'.sections = b.sections ∧
      b'.blooms.length = b.blooms.length := by
  have notFull : ¬k ≥ b.sections := by omega
  simp only [addBloom, next, notFull, if_false, ne_eq, not_true_eq_false]
  exact ⟨_, rfl, rfl, rfl, by simp⟩

/-- Adding the blooms of a section in order fills it: every `AddBloom` succeeds. -/
theorem fill_section (blooms : List (List UInt8)) :
    ∀ (start : Nat) (b : Generator), b.nextBit = start → start + blooms.length ≤ b.sections →
      ∃ b', (blooms.zipIdx start).foldl (fun g entry =>
          match g.addBloom entry.2 entry.1 with
          | .ok g' => g'
          | .error _ => g) b = b' ∧
        b'.nextBit = start + blooms.length ∧ b'.sections = b.sections ∧ b'.blooms.length = b.blooms.length := by
  induction blooms with
  | nil =>
      intro start b next _
      exact ⟨b, rfl, by simp [next], rfl, rfl⟩
  | cons bloom rest ih =>
      intro start b next room
      obtain ⟨b', added, next', sections', length'⟩ :=
        addBloom_next bloom next (by simp at room; omega)
      obtain ⟨b'', run, next'', sections'', length''⟩ :=
        ih (start + 1) b' next' (by rw [sections']; simp at room; omega)
      refine ⟨b'', ?_, by rw [next'']; simp; omega, by rw [sections'', sections'], by rw [length'', length']⟩
      simp only [List.zipIdx_cons, List.foldl_cons, added]
      exact run

end Generator

theorem newGenerator_ok {sections : Nat} (multiple : sections % 8 = 0) :
    ∃ gen, newGenerator sections = .ok gen ∧ gen.nextBit = 0 ∧ gen.sections = sections ∧
      gen.blooms.length = bloomBitLength := by
  simp [newGenerator, multiple]

theorem processSection_full (blooms : List (List UInt8)) (multiple : blooms.length % 8 = 0) :
    ∃ gen, processSection blooms.length blooms = .ok gen ∧ gen.nextBit = blooms.length ∧
      gen.sections = blooms.length ∧ gen.blooms.length = bloomBitLength := by
  obtain ⟨fresh, created, start, size, count⟩ := newGenerator_ok multiple
  obtain ⟨gen, run, next, sections, length⟩ :=
    Generator.fill_section blooms 0 fresh start (by rw [size]; simp)
  refine ⟨gen, ?_, by simpa using next, by rw [sections, size], by rw [length, count]⟩
  simp [processSection, created, run]

/-- A section shorter than the 2048 bloom bits is indexed, but its `Commit` fails at the
first bit past the section: the vectors of the higher bloom bits are never written. -/
theorem commit_short_section (blooms : List (List UInt8)) (multiple : blooms.length % 8 = 0)
    (short : blooms.length < bloomBitLength) :
    ∃ gen, processSection blooms.length blooms = .ok gen ∧ commit gen = .error errSectionOutOfBounds := by
  obtain ⟨gen, run, next, sections, length⟩ := processSection_full blooms multiple
  refine ⟨gen, run, Loop.mapM_range_error gen.bitset short (fun i lt => ?_) ?_⟩
  · have inside : i < gen.blooms.length := by rw [length]; omega
    refine ⟨gen.blooms[i], ?_⟩
    have inSection : i < blooms.length := by omega
    simp [Generator.bitset, next, sections, inSection, inside]
  · simp [Generator.bitset, next, sections]

theorem commit_short_section_eight :
    (List.replicate 8 (List.replicate bloomByteLength (0 : UInt8))).length % 8 = 0 ∧
      (List.replicate 8 (List.replicate bloomByteLength (0 : UInt8))).length < bloomBitLength ∧
      ∃ gen, processSection (List.replicate 8 (List.replicate bloomByteLength 0)).length
          (List.replicate 8 (List.replicate bloomByteLength 0)) = .ok gen ∧
        commit gen = .error errSectionOutOfBounds := by
  have multiple : (List.replicate 8 (List.replicate bloomByteLength (0 : UInt8))).length % 8 = 0 := by
    rw [List.length_replicate]
  have short : (List.replicate 8 (List.replicate bloomByteLength (0 : UInt8))).length < bloomBitLength := by
    rw [List.length_replicate]
    decide
  exact ⟨multiple, short, commit_short_section _ multiple short⟩

/-- A section of at least 2048 blocks commits a vector for every bloom bit. -/
theorem commit_long_section (blooms : List (List UInt8)) (multiple : blooms.length % 8 = 0)
    (long : bloomBitLength ≤ blooms.length) :
    ∃ gen vectors, processSection blooms.length blooms = .ok gen ∧ commit gen = .ok vectors ∧
      vectors.length = bloomBitLength := by
  obtain ⟨gen, run, next, sections, length⟩ := processSection_full blooms multiple
  obtain ⟨vectors, calls, count⟩ := Loop.mapM_range_ok gen.bitset bloomBitLength (fun i lt => by
    have inside : i < gen.blooms.length := by rw [length]; omega
    refine ⟨gen.blooms[i], ?_⟩
    have inSection : i < blooms.length := by omega
    simp [Generator.bitset, next, sections, inSection, inside])
  exact ⟨gen, vectors, run, calls, count⟩

end Mjoy.Bloom
