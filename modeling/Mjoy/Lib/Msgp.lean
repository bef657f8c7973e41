import Mathlib
import Mjoy.Lib.Loop

/-!
MessagePack as the `msgp` package writes and reads it: `WriteBytes` and `WriteIntf` on a
byte slice or nil, and the readers of the streaming `Reader` that a generated decoder calls
(map and array headers, map keys, `bin` objects, `ReadIntf`, `Skip`), with the byte-slice
`ReadStringZC`. A reader takes the bytes still to read and returns what it read with the
bytes after it.
-/

namespace Msgp

/-- The object types that `getType` tells apart by their lead byte. -/
inductive Kind where
  | invalid
  | nil
  | bool
  | int
  | uint
  | float32
  | float64
  | str
  | bin
  | array
  | map
  | ext
  deriving DecidableEq, Repr

/-- `varmode`: how the size of an object follows from its first bytes. -/
inductive Mode where
  /-- The prefix is the whole object, and that many objects are nested right under it. -/
  | const (objects : Nat)
  /-- A big-endian length of `width` bytes after the lead byte counts the bytes that follow. -/
  | extra (width : Nat)
  /-- A big-endian count of `width` bytes after the lead byte counts the entries that
  follow, each made of `per` objects. -/
  | count (width per : Nat)
  deriving DecidableEq, Repr

/-- `bytespec`: the bytes of an object's prefix, how the rest is sized, and its type. -/
structure Bytespec where
  size : Nat
  extra : Mode
  typ : Kind
  deriving DecidableEq, Repr

/-- The table `sizes`; `none` for the one lead byte no type uses (`0xc1`). -/
def sizes (lead : UInt8) : Option Bytespec :=
  if lead < 0x80 ∨ 0xe0 ≤ lead then some ⟨1, .const 0, .int⟩
  else if lead < 0x90 then some ⟨1, .const (2 * (lead &&& 0x0f).toNat), .map⟩
  else if lead < 0xa0 then some ⟨1, .const (lead &&& 0x0f).toNat, .array⟩
  else if lead < 0xc0 then some ⟨1 + (lead &&& 0x1f).toNat, .const 0, .str⟩
  else
    match lead.toNat with
    | 0xc0 => some ⟨1, .const 0, .nil⟩
    | 0xc2 | 0xc3 => some ⟨1, .const 0, .bool⟩
    | 0xc4 => some ⟨2, .extra 1, .bin⟩
    | 0xc5 => some ⟨3, .extra 2, .bin⟩
    | 0xc6 => some ⟨5, .extra 4, .bin⟩
    | 0xc7 => some ⟨3, .extra 1, .ext⟩
    | 0xc8 => some ⟨4, .extra 2, .ext⟩
    | 0xc9 => some ⟨6, .extra 4, .ext⟩
    | 0xca => some ⟨5, .const 0, .float32⟩
    | 0xcb => some ⟨9, .const 0, .float64⟩
    | 0xcc => some ⟨2, .const 0, .uint⟩
    | 0xcd => some ⟨3, .const 0, .uint⟩
    | 0xce => some ⟨5, .const 0, .uint⟩
    | 0xcf => some ⟨9, .const 0, .uint⟩
    | 0xd0 => some ⟨2, .const 0, .int⟩
    | 0xd1 => some ⟨3, .const 0, .int⟩
    | 0xd2 => some ⟨5, .const 0, .int⟩
    | 0xd3 => some ⟨9, .const 0, .int⟩
    | 0xd4 => some ⟨3, .const 0, .ext⟩
    | 0xd5 => some ⟨4, .const 0, .ext⟩
    | 0xd6 => some ⟨6, .const 0, .ext⟩
    | 0xd7 => some ⟨10, .const 0, .ext⟩
    | 0xd8 => some ⟨18, .const 0, .ext⟩
    | 0xd9 => some ⟨2, .extra 1, .str⟩
    | 0xda => some ⟨3, .extra 2, .str⟩
    | 0xdb => some ⟨5, .extra 4, .str⟩
    | 0xdc => some ⟨3, .count 2 1, .array⟩
    | 0xdd => some ⟨5, .count 4 1, .array⟩
    | 0xde => some ⟨3, .count 2 2, .map⟩
    | 0xdf => some ⟨5, .count 4 2, .map⟩
    | _ => none

def getType (lead : UInt8) : Kind :=
  match sizes lead with
  | some spec => spec.typ
  | none => .invalid

inductive ReadError where
  /-- The input ends inside an object: `io.EOF`, `io.ErrUnexpectedEOF` or `ErrShortBytes`. -/
  | eof
  /-- `InvalidPrefixError`. -/
  | invalidPrefix (lead : UInt8)
  /-- `TypeError{Method, Encoded}`: a reader met an object of another type. -/
  | typeError (method encoded : Kind)
  /-- `ArrayError{Wanted, Got}`. -/
  | arrayError (wanted got : Nat)
  deriving DecidableEq, Repr

/-- `Type.String()`. -/
def Kind.name : Kind → String
  | .str => "str"
  | .bin => "bin"
  | .map => "map"
  | .array => "array"
  | .float64 => "float64"
  | .float32 => "float32"
  | .bool => "bool"
  | .uint => "uint"
  | .int => "int"
  | .ext => "ext"
  | .nil => "nil"
  | .invalid => "<invalid>"

/-- What each error's `Error()` says. -/
def ReadError.text : ReadError → String
  | .eof => "unexpected EOF"
  | .invalidPrefix lead => "msgp: unrecognized type prefix 0x" ++ String.ofList (Nat.toDigits 16 lead.toNat)
  | .typeError method encoded =>
      "msgp: attempted to decode type \x22" ++ encoded.name ++ "\x22 with method for \x22" ++ method.name ++ "\x22"
  | .arrayError wanted got => "msgp: wanted array of size " ++ toString wanted ++ "; got " ++ toString got

def badPrefix (want : Kind) (lead : UInt8) : ReadError :=
  if getType lead = .invalid then .invalidPrefix lead else .typeError want (getType lead)

/-- `big.Uint16` and `big.Uint32`: a big-endian number. -/
def bigEndian (bytes : List UInt8) : Nat :=
  bytes.foldl (fun acc b => acc * 256 + b.toNat) 0

-- Equation lemmas of the definitions above, made once here rather than by the proofs below
-- that unfold them in parallel.
section
attribute [local simp] Kind.name bigEndian
end

/-! ### Reading -/

/-- `R.Next(n)`: the next `n` bytes, or the end of the input. -/
def next (n : Nat) (buf : List UInt8) : Except ReadError (List UInt8 × List UInt8) :=
  if n ≤ buf.length then .ok (buf.take n, buf.drop n) else .error .eof

/-- A lead byte and a big-endian length of `width` bytes, read with `R.Next(width + 1)`. -/
def readLength (width : Nat) (buf : List UInt8) : Except ReadError (Nat × List UInt8) := do
  let (p, rest) ← next (width + 1) buf
  pure (bigEndian (p.drop 1), rest)

/-- The header of a map or an array: a fix form with the size in the low nibble of the lead
byte, or a 16-bit or 32-bit size after it. -/
def readHeader (kind : Kind) (fix lead16 lead32 : UInt8) : List UInt8 → Except ReadError (Nat × List UInt8)
  | [] => .error .eof
  | lead :: rest =>
      if lead &&& 0xf0 = fix then .ok ((lead &&& 0x0f).toNat, rest)
      else if lead = lead16 then readLength 2 (lead :: rest)
      else if lead = lead32 then readLength 4 (lead :: rest)
      else .error (badPrefix kind lead)

def readMapHeader : List UInt8 → Except ReadError (Nat × List UInt8) :=
  readHeader .map 0x80 0xde 0xdf

def readArrayHeader : List UInt8 → Except ReadError (Nat × List UInt8) :=
  readHeader .array 0x90 0xdc 0xdd

/-- `ReadMapKeyPtr`: a `str` or `bin` key, which may not be empty. -/
def readMapKeyPtr : List UInt8 → Except ReadError (List UInt8 × List UInt8)
  | [] => .error .eof
  | lead :: rest => do
      let (read, body) ←
        if lead &&& 0xe0 = 0xa0 then pure ((lead &&& 0x1f).toNat, rest)
        else if lead = 0xd9 ∨ lead = 0xc4 then readLength 1 (lead :: rest)
        else if lead = 0xda ∨ lead = 0xc5 then readLength 2 (lead :: rest)
        else if lead = 0xdb ∨ lead = 0xc6 then readLength 4 (lead :: rest)
        else .error (badPrefix .str lead)
      if read = 0 then .error .eof else next read body

/-- `ReadBytes`: a `bin` object. It peeks at two bytes before it looks at the lead byte. -/
def readBytes : List UInt8 → Except ReadError (List UInt8 × List UInt8)
  | lead :: second :: rest => do
      let (read, body) ←
        if lead = 0xc4 then readLength 1 (lead :: second :: rest)
        else if lead = 0xc5 then readLength 2 (lead :: second :: rest)
        else if lead = 0xc6 then readLength 4 (lead :: second :: rest)
        else .error (badPrefix .bin lead)
      next read body
  | _ => .error .eof

/-- `ReadStringZC` on a byte slice: a `str` object. -/
def readStringZC : List UInt8 → Except ReadError (List UInt8 × List UInt8)
  | [] => .error .eof
  | lead :: rest => do
      let (read, body) ←
        if lead &&& 0xe0 = 0xa0 then pure ((lead &&& 0x1f).toNat, rest)
        else if lead = 0xd9 then readLength 1 (lead :: rest)
        else if lead = 0xda then readLength 2 (lead :: rest)
        else if lead = 0xdb then readLength 4 (lead :: rest)
        else .error (.typeError .str (getType lead))
      next read body

/-- What `ReadIntf` returns, told apart as far as a caller that takes only nil and byte
slices needs. -/
inductive Intf where
  | nil
  | bin (bytes : List UInt8)
  /-- An object of another type. It is left unread: every caller rejects it. -/
  | other (kind : Kind)
  deriving DecidableEq, Repr

def readIntf : List UInt8 → Except ReadError (Intf × List UInt8)
  | [] => .error .eof
  | lead :: rest =>
      match getType lead with
      | .invalid => .error (.invalidPrefix lead)
      | .nil => .ok (.nil, rest)
      | .bin => do
          let (bytes, rest) ← readBytes (lead :: rest)
          pure (.bin bytes, rest)
      | kind => .ok (.other kind, lead :: rest)

/-- `getNextSize`: the bytes of an object outside its nested objects, and how many objects
are nested right under it. -/
def getSize : List UInt8 → Except ReadError (Nat × Nat)
  | [] => .error .eof
  | lead :: rest =>
      match sizes lead with
      | none => .error (.invalidPrefix lead)
      | some spec =>
          match spec.extra with
          | .const objects => .ok (spec.size, objects)
          | .extra width =>
              if spec.size ≤ rest.length + 1 then .ok (spec.size + bigEndian (rest.take width), 0)
              else .error .eof
          | .count width per =>
              if spec.size ≤ rest.length + 1 then .ok (spec.size, per * bigEndian (rest.take width))
              else .error .eof

/-- `Skip` on `pending` objects in a row: the bytes of each are dropped and the objects
nested in it join the pending ones. Every object takes at least one byte, so `fuel`, a
bound on the objects read, runs out only where the input does. -/
def skipObjects : Nat → Nat → List UInt8 → Except ReadError (List UInt8)
  | _, 0, buf => .ok buf
  | 0, _ + 1, _ => .error .eof
  | fuel + 1, pending + 1, buf => do
      let (size, objects) ← getSize buf
      if size ≤ buf.length then skipObjects fuel (pending + objects) (buf.drop size)
      else .error .eof

def skip (buf : List UInt8) : Except ReadError (List UInt8) :=
  skipObjects buf.length 1 buf

/-- `getMuint8` ... `getMuint64` after the length check of `ReadUint64Bytes`: the value in the
`width` bytes after the lead byte, and the bytes after them. -/
def readMuint (width : Nat) (b : List UInt8) : Except ReadError (UInt64 × List UInt8) := do
  let (u, rest) ← readLength width b
  pure (u.toUInt64, rest)

/-- `ReadUint64Bytes`. A negative fixint is not a `uint`. -/
def readUint64Bytes : List UInt8 → Except ReadError (UInt64 × List UInt8)
  | [] => .error .eof
  | lead :: rest =>
      if lead >>> 7 = 0 then .ok (lead.toUInt64, rest)
      else if lead = 0xcc then readMuint 1 (lead :: rest)
      else if lead = 0xcd then readMuint 2 (lead :: rest)
      else if lead = 0xce then readMuint 4 (lead :: rest)
      else if lead = 0xcf then readMuint 8 (lead :: rest)
      else .error (badPrefix .uint lead)

section
attribute [local simp] next readLength readHeader readMapHeader readArrayHeader readMapKeyPtr readBytes readStringZC readIntf readMuint readUint64Bytes
end

/-! ### Writing -/

/-- `WriteBytes`: a bin8, bin16 or bin32 header, then the bytes. The length is converted to
`uint32` first, as in the source. -/
def writeBytes (b : List UInt8) : List UInt8 :=
  let sz := b.length % 2 ^ 32
  (if sz ≤ 255 then [0xc4, sz.toUInt8]
   else if sz ≤ 65535 then [0xc5, (sz / 256).toUInt8, sz.toUInt8]
   else [0xc6, (sz / 2 ^ 24).toUInt8, (sz / 2 ^ 16).toUInt8, (sz / 256).toUInt8, sz.toUInt8]) ++ b

/-- `WriteIntf` on nil or a byte slice. -/
def writeIntf : Option (List UInt8) → List UInt8
  | none => [0xc0]
  | some b => writeBytes b

/-- `u` in `width` big-endian bytes, its higher bytes dropped. -/
def bytesBE : Nat → Nat → List UInt8
  | 0, _ => []
  | width + 1, u => bytesBE width (u / 256) ++ [u.toUInt8]

/-- `putMuint8` ... `putMuint64`: a lead byte, then the value in `width` big-endian bytes. -/
def putMuint (lead : UInt8) (width u : Nat) : List UInt8 :=
  lead :: bytesBE width u

def putMuint8 (u : UInt8) : List UInt8 := putMuint 0xcc 1 u.toNat
def putMuint16 (u : UInt16) : List UInt8 := putMuint 0xcd 2 u.toNat
def putMuint32 (u : UInt32) : List UInt8 := putMuint 0xce 4 u.toNat
def putMuint64 (u : UInt64) : List UInt8 := putMuint 0xcf 8 u.toNat

/-- `AppendUint64`: a positive fixint below 128, else the smallest of `uint8`, `uint16`,
`uint32` and `uint64` that holds the value. -/
def appendUint64 (b : List UInt8) (u : UInt64) : List UInt8 :=
  if u.toNat ≤ 127 then b ++ [u.toUInt8 &&& 0x7f]
  else if u.toNat ≤ 255 then b ++ putMuint8 u.toUInt8
  else if u.toNat ≤ 65535 then b ++ putMuint16 u.toUInt16
  else if u.toNat ≤ 4294967295 then b ++ putMuint32 u.toUInt32
  else b ++ putMuint64 u

section
attribute [local simp] writeBytes writeIntf bytesBE putMuint putMuint8 putMuint16 putMuint32 putMuint64 appendUint64
end

/-! ### Round trips -/

theorem next_append (taken rest : List UInt8) : next taken.length (taken ++ rest) = .ok (taken, rest) := by
  simp [next]

theorem bigEndian_one (a : UInt8) : bigEndian [a] = a.toNat := by
  simp [bigEndian]

theorem bigEndian_two (a b : UInt8) : bigEndian [a, b] = a.toNat * 256 + b.toNat := by
  simp [bigEndian]

theorem bigEndian_four (a b c d : UInt8) :
    bigEndian [a, b, c, d] = ((a.toNat * 256 + b.toNat) * 256 + c.toNat) * 256 + d.toNat := by
  simp [bigEndian]

theorem readLength_append (width : Nat) (lead : UInt8) (field rest : List UInt8)
    (wide : field.length = width) :
    readLength width (lead :: (field ++ rest)) = .ok (bigEndian field, rest) := by
  have split : next (width + 1) (lead :: (field ++ rest)) = .ok (lead :: field, rest) := by
    rw [← wide]
    exact next_append (lead :: field) rest
  rw [readLength, split]
  rfl

/-- The length field `writeBytes` puts after its lead byte reads back as the length. -/
theorem writeBytes_header (b : List UInt8) (short : b.length < 2 ^ 32) :
    ∃ lead field width, writeBytes b = lead :: (field ++ b) ∧ field.length = width ∧
      bigEndian field = b.length ∧
      ((lead = 0xc4 ∧ width = 1) ∨ (lead = 0xc5 ∧ width = 2) ∨ (lead = 0xc6 ∧ width = 4)) := by
  have sz : b.length % 2 ^ 32 = b.length := Nat.mod_eq_of_lt short
  simp only [writeBytes, sz]
  split_ifs with small medium
  · exact ⟨0xc4, [b.length.toUInt8], 1, rfl, rfl, by simp [bigEndian_one]; omega, by simp⟩
  · refine ⟨0xc5, [(b.length / 256).toUInt8, b.length.toUInt8], 2, rfl, rfl, ?_, by simp⟩
    simp only [bigEndian_two, Nat.toUInt8_eq, UInt8.toNat_ofNat']
    omega
  · refine ⟨0xc6, [(b.length / 2 ^ 24).toUInt8, (b.length / 2 ^ 16).toUInt8, (b.length / 256).toUInt8,
      b.length.toUInt8], 4, rfl, rfl, ?_, by simp⟩
    simp only [bigEndian_four, Nat.toUInt8_eq, UInt8.toNat_ofNat']
    omega

theorem readBytes_writeBytes (b rest : List UInt8) (short : b.length < 2 ^ 32) :
    readBytes (writeBytes b ++ rest) = .ok (b, rest) := by
  obtain ⟨lead, field, width, written, wide, value, leads⟩ := writeBytes_header b short
  have header : readLength width (lead :: (field ++ (b ++ rest))) = .ok (b.length, b ++ rest) := by
    rw [readLength_append width lead field (b ++ rest) wide, value]
  -- the two bytes `ReadBytes` peeks at are there: the lead byte and the first of the length
  obtain ⟨second, field', rfl⟩ : ∃ second field', field = second :: field' := by
    cases field with
    | nil => rcases leads with ⟨-, rfl⟩ | ⟨-, rfl⟩ | ⟨-, rfl⟩ <;> simp at wide
    | cons second field' => exact ⟨second, field', rfl⟩
  rw [written]
  simp only [List.cons_append, List.append_assoc] at header ⊢
  rcases leads with ⟨rfl, rfl⟩ | ⟨rfl, rfl⟩ | ⟨rfl, rfl⟩ <;>
    simp [readBytes, header, next_append]

theorem writeBytes_ne_nil (b : List UInt8) : writeBytes b ≠ [] := by
  simp only [writeBytes]
  split_ifs <;> simp

/-- No encoding `writeBytes` makes starts with a fixmap of no entries. -/
theorem writeBytes_head (b : List UInt8) : ∃ tag rest, writeBytes b = tag :: rest ∧ tag ≠ 0x80 := by
  simp only [writeBytes]
  split_ifs <;> exact ⟨_, _, rfl, by decide⟩

/-- What `ReadIntf` reads back for what `WriteIntf` wrote. -/
def Intf.ofOption : Option (List UInt8) → Intf
  | none => .nil
  | some bytes => .bin bytes

section
attribute [local simp] Intf.ofOption
end

theorem readIntf_writeIntf (v : Option (List UInt8)) (rest : List UInt8)
    (short : ∀ b, v = some b → b.length < 2 ^ 32) :
    readIntf (writeIntf v ++ rest) = .ok (Intf.ofOption v, rest) := by
  cases v with
  | none => rfl
  | some b =>
      obtain ⟨lead, field, width, written, -, -, leads⟩ := writeBytes_header b (short b rfl)
      have read := readBytes_writeBytes b rest (short b rfl)
      have isBin : getType lead = .bin := by
        rcases leads with ⟨rfl, -⟩ | ⟨rfl, -⟩ | ⟨rfl, -⟩ <;> rfl
      rw [written, List.cons_append, List.append_assoc] at read
      simp only [writeIntf, written, List.cons_append, List.append_assoc, readIntf, isBin, read]
      rfl

theorem readStringZC_fixstr (lead : UInt8) (s rest : List UInt8) (fix : lead &&& 0xe0 = 0xa0)
    (length : (lead &&& 0x1f).toNat = s.length) :
    readStringZC (lead :: s ++ rest) = .ok (s, rest) := by
  simp [readStringZC, fix, length, next_append]

theorem readMapKeyPtr_fixstr (lead : UInt8) (s rest : List UInt8) (fix : lead &&& 0xe0 = 0xa0)
    (length : (lead &&& 0x1f).toNat = s.length) (nonempty : s ≠ []) :
    readMapKeyPtr (lead :: s ++ rest) = .ok (s, rest) := by
  simp [readMapKeyPtr, fix, length, nonempty, next_append]

theorem readHeader_fix (kind : Kind) (fix lead16 lead32 lead : UInt8) (rest : List UInt8)
    (isFix : lead &&& 0xf0 = fix) :
    readHeader kind fix lead16 lead32 (lead :: rest) = .ok ((lead &&& 0x0f).toNat, rest) := by
  simp [readHeader, isFix]

theorem readHeader_16 (kind : Kind) (fix lead16 lead32 high low : UInt8) (rest : List UInt8)
    (notFix : lead16 &&& 0xf0 ≠ fix) :
    readHeader kind fix lead16 lead32 (lead16 :: high :: low :: rest) =
      .ok (high.toNat * 256 + low.toNat, rest) := by
  have read := readLength_append 2 lead16 [high, low] rest rfl
  simp only [List.cons_append, List.nil_append, bigEndian_two] at read
  simp [readHeader, notFix, read]

theorem foldl_bigEndian (l : List UInt8) (acc : Nat) :
    l.foldl (fun acc b => acc * 256 + b.toNat) acc = acc * 256 ^ l.length + bigEndian l := by
  induction l generalizing acc with
  | nil => simp [bigEndian]
  | cons b l ih =>
      have head : bigEndian (b :: l) = b.toNat * 256 ^ l.length + bigEndian l := by
        rw [bigEndian, List.foldl_cons, ih]
        simp
      rw [List.foldl_cons, ih, head, List.length_cons, pow_succ]
      ring

theorem bigEndian_append (a b : List UInt8) : bigEndian (a ++ b) = bigEndian a * 256 ^ b.length + bigEndian b := by
  rw [bigEndian, List.foldl_append, foldl_bigEndian]
  rfl

@[simp] theorem length_bytesBE (width u : Nat) : (bytesBE width u).length = width := by
  induction width generalizing u with
  | zero => rfl
  | succ width ih => simp [bytesBE, ih]

theorem bigEndian_bytesBE (width u : Nat) : bigEndian (bytesBE width u) = u % 256 ^ width := by
  induction width generalizing u with
  | zero => simp [bytesBE, bigEndian, Nat.mod_one]
  | succ width ih =>
      rw [bytesBE, bigEndian_append, ih, bigEndian_one, List.length_singleton, pow_one, pow_succ', Nat.mod_mul]
      simp only [Nat.toUInt8_eq, UInt8.toNat_ofNat']
      omega

theorem readMuint_putMuint (lead : UInt8) (width : Nat) (u : UInt64) (rest : List UInt8)
    (fits : u.toNat < 256 ^ width) : readMuint width (putMuint lead width u.toNat ++ rest) = .ok (u, rest) := by
  rw [putMuint, List.cons_append, readMuint, readLength_append width lead _ rest (length_bytesBE width _),
    bigEndian_bytesBE, Nat.mod_eq_of_lt fits]
  simp

theorem readUint64Bytes_putMuint {lead : UInt8} {width : Nat}
    (entry : (lead, width) ∈ [(0xcc, 1), (0xcd, 2), (0xce, 4), (0xcf, 8)]) (u : UInt64) (fits : u.toNat < 256 ^ width)
    (rest : List UInt8) : readUint64Bytes (putMuint lead width u.toNat ++ rest) = .ok (u, rest) := by
  have read := readMuint_putMuint lead width u rest fits
  rw [putMuint, List.cons_append] at read ⊢
  simp only [List.mem_cons, Prod.mk.injEq, List.not_mem_nil, or_false] at entry
  rcases entry with ⟨rfl, rfl⟩ | ⟨rfl, rfl⟩ | ⟨rfl, rfl⟩ | ⟨rfl, rfl⟩ <;> simp +decide [readUint64Bytes, read]

/-- Every `uint64` that `AppendUint64` writes, `ReadUint64Bytes` reads back, and no more. -/
theorem readUint64Bytes_appendUint64 (u : UInt64) (rest : List UInt8) :
    readUint64Bytes (appendUint64 [] u ++ rest) = .ok (u, rest) := by
  have bound := u.toNat_lt
  unfold appendUint64
  split_ifs with fix small medium large
  · -- a fixint is its own lead byte
    have lead : (u.toUInt8 &&& 0x7f).toNat = u.toNat := by
      simp only [UInt8.toNat_and, UInt64.toNat_toUInt8]
      rw [show (0x7f : UInt8).toNat = 2 ^ 7 - 1 from rfl, Nat.and_two_pow_sub_one_eq_mod]
      omega
    have isFix : (u.toUInt8 &&& 0x7f) >>> 7 = 0 := by
      apply UInt8.toNat_inj.mp
      rw [UInt8.toNat_shiftRight, lead, Nat.shiftRight_eq_div_pow]
      simp
      omega
    have value : (u.toUInt8 &&& 0x7f).toUInt64 = u := by
      apply UInt64.toNat_inj.mp
      rw [UInt8.toNat_toUInt64, lead]
    simp [readUint64Bytes, isFix, value]
  · have same : u.toUInt8.toNat = u.toNat := by simp; omega
    rw [List.nil_append, putMuint8, same]
    exact readUint64Bytes_putMuint (by simp) u (by omega) rest
  · have same : u.toUInt16.toNat = u.toNat := by simp; omega
    rw [List.nil_append, putMuint16, same]
    exact readUint64Bytes_putMuint (by simp) u (by omega) rest
  · have same : u.toUInt32.toNat = u.toNat := by simp; omega
    rw [List.nil_append, putMuint32, same]
    exact readUint64Bytes_putMuint (by simp) u (by omega) rest
  · rw [List.nil_append, putMuint64]
    exact readUint64Bytes_putMuint (by simp) u (by omega) rest

theorem length_appendUint64_le (u : UInt64) : (appendUint64 [] u).length ≤ 9 := by
  unfold appendUint64
  split_ifs <;> simp [putMuint8, putMuint16, putMuint32, putMuint64, putMuint]

end Msgp
