import Mjoy.Lib.Cipher
import Mjoy.Lib.Msgp
import Mjoy.Lib.Loop

/-!
The framing of `msgpx` connections, `msgpxFrameRW` in `msgpx.go`. A message goes out as a
32-byte header (the frame size and `zeroHeader`, encrypted, then a MAC over it) and a frame (the
msgp-encoded code and the payload, zero-padded to 16 bytes, encrypted, then a MAC seeded with
everything the egress MAC has taken in). Each end keeps one CTR stream and one running MAC per
direction, so a frame reads back only at an end whose ingress stream and MAC stand where the
writer's egress ones stood. The AES keystream, the AES block that seeds the MACs, Keccak and
snappy are parameters; the connection is the bytes written and the bytes still to read.
-/

namespace Mjoy.P2p

open Cipher

/-- `maxUint24`. -/
def maxUint24 : Nat := 2 ^ 24 - 1

/-- `zeroHeader`. -/
def zeroHeader : List UInt8 := [0xC2, 0x80, 0x80]

/-- `Msg` with its payload read out. `ReceivedAt` is set by the peer above this layer. -/
structure Msg where
  code : UInt64
  size : UInt32
  payload : List UInt8
  deriving DecidableEq, Repr

/-- The functions of the `snappy` package the frame layer calls. -/
structure Snappy where
  encode : List UInt8 → List UInt8
  decodedLen : List UInt8 → Except String Nat
  decode : List UInt8 → Except String (List UInt8)

/-- What the frame layer relies on: an encoded block decodes to what was encoded, and is at
most `MaxEncodedLen` long. -/
structure Snappy.Lawful (codec : Snappy) : Prop where
  decodedLen_encode : ∀ p, codec.decodedLen (codec.encode p) = .ok p.length
  decode_encode : ∀ p, codec.decode (codec.encode p) = .ok p
  encode_length : ∀ p, (codec.encode p).length ≤ 32 + p.length + p.length / 6

inductive FrameError where
  | plainMessageTooLarge
  | sizeOverflow
  /-- `io.ReadFull` on a connection with nothing left. -/
  | eof
  /-- `io.ReadFull` on a connection that ends inside what it reads. -/
  | unexpectedEOF
  | badHeaderMAC
  | badFrameMAC
  | code (e : Msgp.ReadError)
  | snappy (e : String)
  deriving DecidableEq, Repr

def FrameError.text : FrameError → String
  | .plainMessageTooLarge => "message length >= 16MB"
  | .sizeOverflow => "message size overflows uint24"
  | .eof => "EOF"
  | .unexpectedEOF => "unexpected EOF"
  | .badHeaderMAC => "bad header MAC"
  | .badFrameMAC => "bad frame MAC"
  | .code e => e.text
  | .snappy e => e

/-- `msgpxFrameRW` without its connection. `macCipher` is the block's `Encrypt`. -/
structure FrameRW where
  enc : Ctr
  dec : Ctr
  macCipher : List UInt8 → List UInt8
  egressMAC : Hash
  ingressMAC : Hash
  snappy : Bool

/-- The fields of `secrets` the frame layer takes. -/
structure Secrets where
  aes : List UInt8
  mac : List UInt8
  egressMAC : Hash
  ingressMAC : Hash

/-- `newMsgpxFrameRW`: `aes key` is the keystream of AES-CTR under `key` from the all-zero IV,
`block key` the AES encryption under `key`. Snappy is off until the protocol handshake. -/
def newMsgpxFrameRW (aes : List UInt8 → Nat → UInt8) (block : List UInt8 → List UInt8 → List UInt8)
    (s : Secrets) : FrameRW where
  enc := ⟨aes s.aes, 0⟩
  dec := ⟨aes s.aes, 0⟩
  macCipher := block s.mac
  egressMAC := s.egressMAC
  ingressMAC := s.ingressMAC
  snappy := false

/-- What `encHandshake.secrets` reads of the handshake: the side, the ECDH secret both sides
derive, and the two nonces. -/
structure Handshake where
  initiator : Bool
  ecdheSecret : List UInt8
  initNonce : List UInt8
  respNonce : List UInt8

/-- `xor`, on a `one` no longer than `other`. -/
def xorBytes (one other : List UInt8) : List UInt8 :=
  List.zipWith (· ^^^ ·) one other

/-- `secrets`: the AES and MAC secrets hashed from the ECDH secret and the nonces, and two Keccak
states seeded with the MAC secret XOR a nonce and with a handshake packet; the initiator sends
with the one seeded with the responder's nonce. -/
def Handshake.secrets (keccak : List UInt8 → List UInt8) (h : Handshake) (auth authResp : List UInt8) : Secrets :=
  let sharedSecret := keccak (h.ecdheSecret ++ keccak (h.respNonce ++ h.initNonce))
  let aesSecret := keccak (h.ecdheSecret ++ sharedSecret)
  let mac := keccak (h.ecdheSecret ++ aesSecret)
  let mac1 : Hash := ⟨keccak, xorBytes mac h.respNonce ++ auth⟩
  let mac2 : Hash := ⟨keccak, xorBytes mac h.initNonce ++ authResp⟩
  if h.initiator then ⟨aesSecret, mac, mac1, mac2⟩ else ⟨aesSecret, mac, mac2, mac1⟩

/-- The handshake as the other side ran it. -/
def Handshake.peer (h : Handshake) : Handshake :=
  { h with initiator := !h.initiator }

/-- `copy(dst, src)`: the first bytes of `dst` replaced by as many of `src` as fit. -/
def copyInto (dst src : List UInt8) : List UInt8 :=
  src.take dst.length ++ dst.drop src.length

/-- `updateMAC`: the MAC's digest encrypted and XORed with the seed is written to the MAC; the
first 16 bytes of the new digest are returned. -/
def updateMAC (mac : Hash) (block : List UInt8 → List UInt8) (seed : List UInt8) : Hash × List UInt8 :=
  let aesbuf := List.zipWith (· ^^^ ·) (block mac.digest) seed
  let mac := mac.write aesbuf
  (mac, mac.digest.take 16)

/-- `putInt24`: the low 24 bits of `v`, big-endian. -/
def putInt24 (v : Nat) : List UInt8 :=
  Msgp.bytesBE 3 v

/-- `readInt24`: the first three bytes, big-endian. -/
def readInt24 (b : List UInt8) : Nat :=
  Msgp.bigEndian (b.take 3)

/-- The zero bytes that fill a frame of `fsize` bytes up to a multiple of 16. -/
def padding (fsize : Nat) : List UInt8 :=
  if fsize % 16 > 0 then List.replicate (16 - fsize % 16) 0 else []

/-- `cipher.StreamWriter{S: rw.enc, W: io.MultiWriter(rw.conn, rw.egressMAC)}.Write(src)`:
`src` encrypted, written to the connection (the bytes returned) and to the egress MAC. -/
def FrameRW.tee (rw : FrameRW) (src : List UInt8) : FrameRW × List UInt8 :=
  let sealed := rw.enc.xorKeyStream src
  ({ rw with enc := sealed.2, egressMAC := rw.egressMAC.write sealed.1 }, sealed.1)

/-- `WriteMsg` after its size checks: the header and its MAC, the code, payload and padding
through the tee, and the frame MAC. -/
def FrameRW.writeFrame (rw : FrameRW) (ptype payload : List UInt8) (fsize : Nat) : FrameRW × List UInt8 :=
  let header := rw.enc.xorKeyStream (putInt24 fsize ++ zeroHeader ++ List.replicate 10 0)
  let headMAC := updateMAC rw.egressMAC rw.macCipher header.1
  let headbuf := header.1 ++ copyInto (List.replicate 16 0) headMAC.2
  let typed := FrameRW.tee { rw with enc := header.2, egressMAC := headMAC.1 } ptype
  let carried := typed.1.tee payload
  let padded := if fsize % 16 > 0 then carried.1.tee (List.replicate (16 - fsize % 16) 0) else (carried.1, [])
  -- the frame MAC is seeded with the digest of everything the egress MAC has taken in
  let frameMAC := updateMAC padded.1.egressMAC padded.1.macCipher padded.1.egressMAC.digest
  ({ padded.1 with egressMAC := frameMAC.1 }, headbuf ++ typed.2 ++ carried.2 ++ padded.2 ++ frameMAC.2)

/-- `WriteMsg`: the bytes written to the connection, or the error returned before any is. -/
def FrameRW.writeMsg (codec : Snappy) (rw : FrameRW) (msg : Msg) : Except FrameError (FrameRW × List UInt8) := do
  let ptype := Msgp.appendUint64 [] msg.code
  -- with snappy the plain size is checked, and the frame carries the compressed payload
  let msg : Msg ←
    if rw.snappy then
      if msg.size.toNat > maxUint24 then throw .plainMessageTooLarge
      else pure { msg with payload := codec.encode msg.payload, size := (codec.encode msg.payload).length.toUInt32 }
    else pure msg
  let fsize := (ptype.length + msg.size.toNat) % 2 ^ 32
  if fsize > maxUint24 then throw .sizeOverflow
  pure (rw.writeFrame ptype msg.payload fsize)

/-- `io.ReadFull(rw.conn, buf)` for `n` bytes: the bytes and what follows them. -/
def readFull (n : Nat) (inp : List UInt8) : Except FrameError (List UInt8 × List UInt8) :=
  if n ≤ inp.length then .ok (inp.take n, inp.drop n)
  else if inp = [] then .error .eof
  else .error .unexpectedEOF

/-- `ReadMsg` up to the decryption of the frame: the header read and its MAC checked, the size
decrypted, the frame padded to 16 bytes read, the frame MAC checked and the frame decrypted.
Returns the first `fsize` bytes of the frame and the bytes after its MAC. -/
def FrameRW.readFrame (rw : FrameRW) (inp : List UInt8) : Except FrameError (List UInt8 × FrameRW × List UInt8) := do
  let headbuf ← readFull 32 inp
  let headMAC := updateMAC rw.ingressMAC rw.macCipher (headbuf.1.take 16)
  if headMAC.2 ≠ headbuf.1.drop 16 then throw .badHeaderMAC
  let header := rw.dec.xorKeyStream (headbuf.1.take 16)
  let fsize := readInt24 header.1
  -- the frame size rounded up to 16 bytes
  let rsize := if fsize % 16 > 0 then fsize + (16 - fsize % 16) else fsize
  let framebuf ← readFull rsize headbuf.2
  let ingressMAC := headMAC.1.write framebuf.1
  let frameMAC ← readFull 16 framebuf.2
  let shouldMAC := updateMAC ingressMAC rw.macCipher ingressMAC.digest
  if shouldMAC.2 ≠ frameMAC.1 then throw .badFrameMAC
  let frame := header.2.xorKeyStream framebuf.1
  pure (frame.1.take fsize, { rw with dec := frame.2, ingressMAC := shouldMAC.1 }, frameMAC.2)

/-- The end of `ReadMsg`: the message code read off the frame, and the rest of it as the
payload, decompressed when snappy is on. -/
def decodeFrame (codec : Snappy) (snappy : Bool) (frame : List UInt8) : Except FrameError Msg := do
  let decoded ← (Msgp.readUint64Bytes frame).mapError .code
  if snappy then
    let size ← (codec.decodedLen decoded.2).mapError .snappy
    if size > maxUint24 then throw .plainMessageTooLarge
    let payload ← (codec.decode decoded.2).mapError .snappy
    pure ⟨decoded.1, size.toUInt32, payload⟩
  else pure ⟨decoded.1, decoded.2.length.toUInt32, decoded.2⟩

/-- `ReadMsg`: the message, and the bytes after its frame. -/
def FrameRW.readMsg (codec : Snappy) (rw : FrameRW) (inp : List UInt8) : Except FrameError (Msg × FrameRW × List UInt8) := do
  let read ← rw.readFrame inp
  let msg ← decodeFrame codec read.2.1.snappy read.1
  pure (msg, read.2.1, read.2.2)

-- Equation lemmas of the definitions above, made once here rather than by the proofs below
-- that unfold them in parallel.
section
attribute [local simp] maxUint24 zeroHeader newMsgpxFrameRW Handshake.secrets Handshake.peer copyInto updateMAC putInt24 readInt24 padding FrameRW.tee FrameRW.writeFrame FrameRW.writeMsg readFull FrameRW.readFrame decodeFrame FrameRW.readMsg
end

/-! ### Writing -/

theorem tee_nil (rw : FrameRW) : rw.tee [] = (rw, []) := by
  simp [FrameRW.tee, Ctr.xorKeyStream, Hash.write]

theorem tee_padding (rw : FrameRW) (fsize : Nat) :
    (if fsize % 16 > 0 then rw.tee (List.replicate (16 - fsize % 16) 0) else (rw, [])) = rw.tee (padding fsize) := by
  unfold padding
  split_ifs
  · rfl
  · exact (tee_nil rw).symm

/-- The three writes through the tee are one write of the padded frame. -/
theorem writeFrame_eq (rw : FrameRW) (ptype payload : List UInt8) (fsize : Nat) :
    rw.writeFrame ptype payload fsize =
      let header := rw.enc.xorKeyStream (putInt24 fsize ++ zeroHeader ++ List.replicate 10 0)
      let headMAC := updateMAC rw.egressMAC rw.macCipher header.1
      let body := header.2.xorKeyStream (ptype ++ payload ++ padding fsize)
      let mac := headMAC.1.write body.1
      let frameMAC := updateMAC mac rw.macCipher mac.digest
      ({ rw with enc := body.2, egressMAC := frameMAC.1 },
        header.1 ++ copyInto (List.replicate 16 0) headMAC.2 ++ body.1 ++ frameMAC.2) := by
  simp only [FrameRW.writeFrame, tee_padding]
  simp [FrameRW.tee, Ctr.xorKeyStream_append, Hash.write_write]

@[simp] theorem updateMAC_sum (mac : Hash) (block : List UInt8 → List UInt8) (seed : List UInt8) :
    (updateMAC mac block seed).1.sum = mac.sum :=
  rfl

theorem length_updateMAC {mac : Hash} (long : mac.AtLeast 16) (block : List UInt8 → List UInt8) (seed : List UInt8) :
    (updateMAC mac block seed).2.length = 16 := by
  simp only [updateMAC, Hash.digest, Hash.write_sum, List.length_take]
  exact Nat.min_eq_left (long _)

theorem copyInto_full {dst src : List UInt8} (same : src.length = dst.length) : copyInto dst src = src := by
  simp [copyInto, ← same]

theorem length_header (fsize : Nat) : (putInt24 fsize ++ zeroHeader ++ List.replicate 10 0).length = 16 := by
  simp [putInt24, zeroHeader]

theorem length_padding (fsize : Nat) :
    fsize + (padding fsize).length = if fsize % 16 > 0 then fsize + (16 - fsize % 16) else fsize := by
  unfold padding
  split_ifs <;> simp

/-- What a successful `WriteMsg` did: it passed the size checks and wrote the frame of the code
and of the payload, compressed when snappy is on. -/
theorem writeMsg_ok {codec : Snappy} {w : FrameRW} {m : Msg} {out : FrameRW × List UInt8}
    (written : w.writeMsg codec m = .ok out) :
    let ptype := Msgp.appendUint64 [] m.code
    let sent : Msg := if w.snappy then
      { m with payload := codec.encode m.payload, size := (codec.encode m.payload).length.toUInt32 } else m
    (w.snappy = true → m.size.toNat ≤ maxUint24) ∧ (ptype.length + sent.size.toNat) % 2 ^ 32 ≤ maxUint24 ∧
      out = w.writeFrame ptype sent.payload ((ptype.length + sent.size.toNat) % 2 ^ 32) := by
  intro ptype sent
  unfold FrameRW.writeMsg at written
  cases on : w.snappy
  · simp only [on, Bool.false_eq_true, if_false, Loop.pure_eq_ok, Loop.ok_bind] at written
    split_ifs at written with tooBig
    · cases written
    simp only [Except.ok.injEq] at written
    subst written
    simp only [sent, on, ptype, Bool.false_eq_true, if_false, IsEmpty.forall_iff, true_and, and_true]
    omega
  · simp only [on, if_true] at written
    split_ifs at written with plainTooBig
    · cases written
    simp only [Loop.pure_eq_ok, Loop.ok_bind] at written
    split_ifs at written with tooBig
    · cases written
    simp only [Except.ok.injEq] at written
    subst written
    simp only [sent, on, ptype, if_true, forall_const, and_true]
    omega

/-- A successful write leaves the end's read half as it was, and its MAC's hash. -/
theorem writeMsg_state {codec : Snappy} {w w' : FrameRW} {m : Msg} {bytes : List UInt8}
    (written : w.writeMsg codec m = .ok (w', bytes)) :
    w' = { w with enc := w'.enc, egressMAC := w'.egressMAC } ∧ w'.egressMAC.sum = w.egressMAC.sum := by
  obtain ⟨-, -, frame⟩ := writeMsg_ok written
  have state : w' = _ := congrArg Prod.fst frame
  rw [state, writeFrame_eq]
  exact ⟨rfl, rfl⟩

theorem readFull_append (a rest : List UInt8) : readFull a.length (a ++ rest) = .ok (a, rest) := by
  simp [readFull]

theorem readFull_ok {n : Nat} {inp got rest : List UInt8} (read : readFull n inp = .ok (got, rest)) :
    inp = got ++ rest ∧ got.length = n := by
  unfold readFull at read
  split_ifs at read with enough
  simp only [Except.ok.injEq, Prod.mk.injEq] at read
  obtain ⟨rfl, rfl⟩ := read
  exact ⟨(List.take_append_drop n inp).symm, by simp [enough]⟩

theorem readFull_extend {n : Nat} {inp got rest : List UInt8} (read : readFull n inp = .ok (got, rest))
    (extra : List UInt8) : readFull n (inp ++ extra) = .ok (got, rest ++ extra) := by
  obtain ⟨rfl, rfl⟩ := readFull_ok read
  rw [List.append_assoc]
  exact readFull_append got (rest ++ extra)

theorem readInt24_header {fsize : Nat} (fits : fsize ≤ maxUint24) :
    readInt24 (putInt24 fsize ++ zeroHeader ++ List.replicate 10 0) = fsize := by
  rw [readInt24, List.append_assoc, List.take_left' (by simp [putInt24]), putInt24, Msgp.bigEndian_bytesBE]
  unfold maxUint24 at fits
  omega

/-- A frame that one end reads, any end with the same read half reads the same way, and neither
looks past the frame. -/
theorem readFrame_transfer {rw other rw' : FrameRW} {inp frame rest : List UInt8}
    (read : rw.readFrame inp = .ok (frame, rw', rest)) (dec : other.dec = rw.dec)
    (mac : other.ingressMAC = rw.ingressMAC) (block : other.macCipher = rw.macCipher) (extra : List UInt8) :
    other.readFrame (inp ++ extra) = .ok (frame, { other with dec := rw'.dec, ingressMAC := rw'.ingressMAC }, rest ++ extra) := by
  unfold FrameRW.readFrame at read ⊢
  rw [dec, mac, block]
  -- each read off the connection takes the same bytes, with `extra` left behind them
  obtain ⟨⟨headbuf, after₁⟩, read₁, read⟩ := Loop.bind_eq_ok.mp read
  rw [readFull_extend read₁ extra, Loop.ok_bind]
  dsimp only at read ⊢
  split at read
  · cases read
  rename_i goodHeader
  rw [if_neg goodHeader]
  obtain ⟨⟨framebuf, after₂⟩, read₂, read⟩ := Loop.bind_eq_ok.mp read
  rw [readFull_extend read₂ extra, Loop.ok_bind]
  obtain ⟨⟨frameMAC, after₃⟩, read₃, read⟩ := Loop.bind_eq_ok.mp read
  rw [readFull_extend read₃ extra, Loop.ok_bind]
  dsimp only at read ⊢
  split at read
  · cases read
  rename_i goodFrame
  rw [if_neg goodFrame]
  simp only [Loop.pure_eq_ok, Except.ok.injEq, Prod.mk.injEq] at read ⊢
  obtain ⟨rfl, rfl, rfl⟩ := read
  exact ⟨rfl, rfl, rfl⟩

/-- A successful read leaves the end's write half as it was. -/
theorem readFrame_state {rw rw' : FrameRW} {inp frame rest : List UInt8}
    (read : rw.readFrame inp = .ok (frame, rw', rest)) : rw' = { rw with dec := rw'.dec, ingressMAC := rw'.ingressMAC } := by
  have again := readFrame_transfer read rfl rfl rfl []
  rw [List.append_nil, read] at again
  simp only [Except.ok.injEq, Prod.mk.injEq] at again
  exact again.2.1

theorem readMsg_transfer {codec : Snappy} {rw other rw' : FrameRW} {inp rest : List UInt8} {m : Msg}
    (read : rw.readMsg codec inp = .ok (m, rw', rest)) (dec : other.dec = rw.dec)
    (mac : other.ingressMAC = rw.ingressMAC) (block : other.macCipher = rw.macCipher) (snappy : other.snappy = rw.snappy)
    (extra : List UInt8) :
    other.readMsg codec (inp ++ extra) = .ok (m, { other with dec := rw'.dec, ingressMAC := rw'.ingressMAC }, rest ++ extra) := by
  unfold FrameRW.readMsg at read ⊢
  obtain ⟨⟨frame, rw₁, after⟩, readF, read⟩ := Loop.bind_eq_ok.mp read
  obtain ⟨msg, decoded, read⟩ := Loop.bind_eq_ok.mp read
  simp only [Loop.pure_eq_ok, Except.ok.injEq, Prod.mk.injEq] at read
  obtain ⟨rfl, rfl, rfl⟩ := read
  have kept : rw₁.snappy = rw.snappy := by rw [readFrame_state readF]
  rw [readFrame_transfer readF dec mac block extra, Loop.ok_bind]
  simp [snappy, ← kept, decoded]

theorem readMsg_state {codec : Snappy} {rw rw' : FrameRW} {inp rest : List UInt8} {m : Msg}
    (read : rw.readMsg codec inp = .ok (m, rw', rest)) : rw' = { rw with dec := rw'.dec, ingressMAC := rw'.ingressMAC } := by
  have again := readMsg_transfer read rfl rfl rfl rfl []
  rw [List.append_nil, read] at again
  simp only [Except.ok.injEq, Prod.mk.injEq] at again
  exact again.2.1

theorem readMsg_nil (codec : Snappy) (r : FrameRW) : r.readMsg codec [] = .error .eof :=
  rfl

/-! ### Round trip -/

/-- The read half of `r` stands where the write half of `w` stands: what `w` writes next, `r`
reads. -/
structure Mirrors (w r : FrameRW) : Prop where
  stream : r.dec = w.enc
  mac : r.ingressMAC = w.egressMAC
  block : r.macCipher = w.macCipher
  snappy : r.snappy = w.snappy

/-- A message as `Send` makes it: `Size` is the payload's length, here at most `maxUint24`. -/
structure Msg.Sendable (m : Msg) : Prop where
  size : m.size.toNat = m.payload.length
  short : m.payload.length ≤ maxUint24

theorem readFrame_writeFrame {w r : FrameRW} (mirror : Mirrors w r) (long : w.egressMAC.AtLeast 16)
    {ptype payload : List UInt8} (fits : ptype.length + payload.length ≤ maxUint24) (rest : List UInt8) :
    let written := w.writeFrame ptype payload (ptype.length + payload.length)
    r.readFrame (written.2 ++ rest) =
      .ok (ptype ++ payload, { r with dec := written.1.enc, ingressMAC := written.1.egressMAC }, rest) := by
  intro written
  obtain ⟨stream, macs, block, -⟩ := mirror
  have wrote := writeFrame_eq w ptype payload (ptype.length + payload.length)
  -- the header in the clear, and sealed
  generalize plainDef : putInt24 (ptype.length + payload.length) ++ zeroHeader ++ List.replicate 10 0 = plain at wrote
  have plainLen : plain.length = 16 := plainDef ▸ length_header _
  have size : readInt24 plain = ptype.length + payload.length := plainDef ▸ readInt24_header fits
  obtain ⟨header, enc₁, sealHeader⟩ : ∃ header enc₁, w.enc.xorKeyStream plain = (header, enc₁) := ⟨_, _, rfl⟩
  have openHeader : r.dec.xorKeyStream header = (plain, enc₁) := by
    have opened := w.enc.xorKeyStream_decrypt plain
    rwa [sealHeader, ← stream] at opened
  have headerLen : header.length = 16 := by
    have sealedLen := w.enc.xorKeyStream_length plain
    rwa [sealHeader, plainLen] at sealedLen
  -- the header MAC
  obtain ⟨mac₁, headMAC, headMACDef⟩ : ∃ mac₁ headMAC, updateMAC w.egressMAC w.macCipher header = (mac₁, headMAC) :=
    ⟨_, _, rfl⟩
  have headMACLen : headMAC.length = 16 := by
    have len := length_updateMAC long w.macCipher header
    rwa [headMACDef] at len
  have long₁ : mac₁.AtLeast 16 := by
    have sum := updateMAC_sum w.egressMAC w.macCipher header
    rw [headMACDef] at sum
    intro bytes
    rw [sum]
    exact long bytes
  -- the frame in the clear, and sealed
  obtain ⟨body, enc₂, sealBody⟩ :
      ∃ body enc₂, enc₁.xorKeyStream (ptype ++ payload ++ padding (ptype.length + payload.length)) = (body, enc₂) :=
    ⟨_, _, rfl⟩
  have openBody := enc₁.xorKeyStream_decrypt (ptype ++ payload ++ padding (ptype.length + payload.length))
  rw [sealBody] at openBody
  have bodyLen : body.length = ptype.length + payload.length + (padding (ptype.length + payload.length)).length := by
    have sealedLen := enc₁.xorKeyStream_length (ptype ++ payload ++ padding (ptype.length + payload.length))
    rw [sealBody] at sealedLen
    simp [sealedLen, Nat.add_assoc]
  -- the frame MAC
  obtain ⟨mac₃, frameMAC, frameMACDef⟩ :
      ∃ mac₃ frameMAC, updateMAC (mac₁.write body) w.macCipher (mac₁.write body).digest = (mac₃, frameMAC) :=
    ⟨_, _, rfl⟩
  have frameMACLen : frameMAC.length = 16 := by
    have len := length_updateMAC (long₁.write body) w.macCipher (mac₁.write body).digest
    rwa [frameMACDef] at len
  simp only [sealHeader, headMACDef, sealBody, frameMACDef] at wrote
  rw [copyInto_full (by simp [headMACLen])] at wrote
  simp only [written, wrote]
  -- what the reader takes off the connection
  have read₁ : readFull 32 (header ++ (headMAC ++ (body ++ (frameMAC ++ rest)))) =
      .ok (header ++ headMAC, body ++ (frameMAC ++ rest)) := by
    have read := readFull_append (header ++ headMAC) (body ++ (frameMAC ++ rest))
    simpa [headerLen, headMACLen, List.append_assoc] using read
  have read₂ := readFull_append body (frameMAC ++ rest)
  have read₃ := readFull_append frameMAC rest
  rw [bodyLen, length_padding] at read₂
  rw [frameMACLen] at read₃
  have taken : (ptype ++ (payload ++ padding (ptype.length + payload.length))).take (ptype.length + payload.length) =
      ptype ++ payload := by
    rw [← List.append_assoc]
    exact List.take_left' (by simp)
  simp [FrameRW.readFrame, read₁, read₂, read₃, List.take_left' headerLen, List.drop_left' headerLen, macs, block,
    headMACDef, openHeader, openBody, size, frameMACDef, taken]

theorem toUInt32_of_size {n : Nat} {size : UInt32} (same : size.toNat = n) : UInt32.ofNat n = size := by
  apply UInt32.toNat_inj.mp
  simp [← same]

/-- Every message `WriteMsg` frames, `ReadMsg` at the mirroring end reads back as it was sent,
leaving the bytes after the frame and the two ends mirrored again. -/
theorem readMsg_writeMsg {codec : Snappy} (lawful : codec.Lawful) {w r : FrameRW} (mirror : Mirrors w r)
    (long : w.egressMAC.AtLeast 16) {m : Msg} (sendable : m.Sendable) {w' : FrameRW} {bytes : List UInt8}
    (written : w.writeMsg codec m = .ok (w', bytes)) (rest : List UInt8) :
    r.readMsg codec (bytes ++ rest) = .ok (m, { r with dec := w'.enc, ingressMAC := w'.egressMAC }, rest) := by
  obtain ⟨plainFits, fits, frame⟩ := writeMsg_ok written
  have ptypeLen := Msgp.length_appendUint64_le m.code
  have short := sendable.short
  unfold maxUint24 at short
  cases on : w.snappy
  · -- the payload goes as it is
    simp only [on, Bool.false_eq_true, if_false] at fits frame
    have fsize : ((Msgp.appendUint64 [] m.code).length + m.size.toNat) % 2 ^ 32 =
        (Msgp.appendUint64 [] m.code).length + m.payload.length := by
      rw [sendable.size]
      apply Nat.mod_eq_of_lt
      omega
    rw [fsize] at fits frame
    have read := readFrame_writeFrame mirror long fits rest
    simp only [← frame] at read
    simp [FrameRW.readMsg, decodeFrame, read, Msgp.readUint64Bytes_appendUint64, mirror.snappy, on,
      toUInt32_of_size sendable.size]
  · -- the payload goes compressed, and the plain size is checked again on the way in
    simp only [on, if_true, forall_const] at fits frame plainFits
    have encoded := lawful.encode_length m.payload
    have fsize : ((Msgp.appendUint64 [] m.code).length + (UInt32.ofNat (codec.encode m.payload).length).toNat) % 2 ^ 32 =
        (Msgp.appendUint64 [] m.code).length + (codec.encode m.payload).length := by
      rw [UInt32.toNat_ofNat', Nat.mod_eq_of_lt, Nat.mod_eq_of_lt] <;> omega
    rw [fsize] at fits frame
    have read := readFrame_writeFrame mirror long fits rest
    simp only [← frame] at read
    simp [FrameRW.readMsg, decodeFrame, read, Msgp.readUint64Bytes_appendUint64, mirror.snappy, on, lawful.decodedLen_encode,
      lawful.decode_encode, not_lt.mpr sendable.short, toUInt32_of_size sendable.size]

theorem readMsg_writeMsg_loopback :
    let codec : Snappy := ⟨id, fun p => .ok p.length, fun p => .ok p⟩
    let rw : FrameRW := ⟨⟨fun i => i.toUInt8, 0⟩, ⟨fun i => i.toUInt8, 0⟩, fun d => d.take 16,
      ⟨fun b => List.replicate 32 b.length.toUInt8, []⟩, ⟨fun b => List.replicate 32 b.length.toUInt8, []⟩, false⟩
    let m : Msg := ⟨7, 2, [8, 9]⟩
    let out := match rw.writeMsg codec m with
      | .ok o => o
      | .error _ => (rw, [])
    rw.readMsg codec (out.2 ++ [3]) = .ok (m, { rw with dec := out.1.enc, ingressMAC := out.1.egressMAC }, [3]) :=
  readMsg_writeMsg ⟨fun _ => rfl, fun _ => rfl, fun _ => by simp only [id]; omega⟩ ⟨rfl, rfl, rfl, rfl⟩
    (fun _ => by simp) ⟨rfl, by decide⟩ rfl [3]

/-- `ReadMsg` takes one frame off the connection and never reads past it: bytes after the frame
change nothing but what is left. -/
theorem readMsg_stops_at_frame {codec : Snappy} {rw rw' : FrameRW} {inp rest : List UInt8} {m : Msg}
    (read : rw.readMsg codec inp = .ok (m, rw', rest)) (extra : List UInt8) :
    rw.readMsg codec (inp ++ extra) = .ok (m, rw', rest ++ extra) := by
  have moved := readMsg_transfer read rfl rfl rfl rfl extra
  rwa [← readMsg_state read] at moved

theorem readMsg_stops_at_frame_loopback :
    let codec : Snappy := ⟨id, fun p => .ok p.length, fun p => .ok p⟩
    let rw : FrameRW := ⟨⟨fun i => i.toUInt8, 0⟩, ⟨fun i => i.toUInt8, 0⟩, fun d => d.take 16,
      ⟨fun b => List.replicate 32 b.length.toUInt8, []⟩, ⟨fun b => List.replicate 32 b.length.toUInt8, []⟩, false⟩
    let bytes := match rw.writeMsg codec ⟨7, 2, [8, 9]⟩ with
      | .ok o => o.2
      | .error _ => []
    let read := match rw.readMsg codec bytes with
      | .ok o => o
      | .error _ => (⟨0, 0, []⟩, rw, [])
    rw.readMsg codec (bytes ++ [1, 2]) = .ok (read.1, read.2.1, read.2.2 ++ [1, 2]) :=
  readMsg_stops_at_frame rfl [1, 2]

/-! ### The two ends of a connection -/

/-- Reading `wire` at `r` gives the messages `ms` in order, and leaves `r` mirroring `w`. -/
inductive Delivers (codec : Snappy) (w : FrameRW) : FrameRW → List UInt8 → List Msg → Prop
  | caughtUp {r : FrameRW} (mirror : Mirrors w r) : Delivers codec w r [] []
  | next {r r' : FrameRW} {wire rest : List UInt8} {m : Msg} {ms : List Msg}
      (read : r.readMsg codec wire = .ok (m, r', rest)) (later : Delivers codec w r' rest ms) :
      Delivers codec w r wire (m :: ms)

section Delivers

variable {codec : Snappy}

/-- A message the writer sends is read after those already in flight. -/
theorem Delivers.send {w r : FrameRW} {wire : List UInt8} {ms : List Msg} (delivers : Delivers codec w r wire ms)
    (lawful : codec.Lawful) (long : w.egressMAC.AtLeast 16) {m : Msg} (sendable : m.Sendable) {w' : FrameRW}
    {bytes : List UInt8} (written : w.writeMsg codec m = .ok (w', bytes)) :
    Delivers codec w' r (wire ++ bytes) (ms ++ [m]) := by
  induction delivers with
  | caughtUp mirror =>
      have read := readMsg_writeMsg lawful mirror long sendable written []
      rw [List.append_nil] at read
      refine .next (by simpa using read) (.caughtUp ⟨rfl, rfl, ?_, ?_⟩)
      · rw [(writeMsg_state written).1, mirror.block]
      · rw [(writeMsg_state written).1, mirror.snappy]
  | next read later ih =>
      have extended := readMsg_transfer read rfl rfl rfl rfl bytes
      rw [← readMsg_state read] at extended
      exact .next extended ih

/-- The reader takes the oldest message in flight. -/
theorem Delivers.receive {w r r' : FrameRW} {wire rest : List UInt8} {ms : List Msg} {m : Msg}
    (delivers : Delivers codec w r wire ms) (read : r.readMsg codec wire = .ok (m, r', rest)) :
    ∃ later, ms = m :: later ∧ Delivers codec w r' rest later := by
  cases delivers with
  | caughtUp mirror => rw [readMsg_nil] at read; cases read
  | next first later =>
      rw [first] at read
      simp only [Except.ok.injEq, Prod.mk.injEq] at read
      obtain ⟨rfl, rfl, rfl⟩ := read
      exact ⟨_, rfl, later⟩

/-- What the writer's end reads on the other direction does not touch this one. -/
theorem Delivers.writer {w w' r : FrameRW} {wire : List UInt8} {ms : List Msg} (delivers : Delivers codec w r wire ms)
    (enc : w'.enc = w.enc) (mac : w'.egressMAC = w.egressMAC) (block : w'.macCipher = w.macCipher)
    (snappy : w'.snappy = w.snappy) : Delivers codec w' r wire ms := by
  induction delivers with
  | caughtUp mirror =>
      exact .caughtUp ⟨mirror.stream.trans enc.symm, mirror.mac.trans mac.symm, mirror.block.trans block.symm,
        mirror.snappy.trans snappy.symm⟩
  | next read _ ih => exact .next read ih

/-- What the reader's end writes on the other direction does not touch this one. -/
theorem Delivers.reader {w r : FrameRW} {wire : List UInt8} {ms : List Msg} (delivers : Delivers codec w r wire ms) :
    ∀ {r'' : FrameRW}, r''.dec = r.dec → r''.ingressMAC = r.ingressMAC → r''.macCipher = r.macCipher →
      r''.snappy = r.snappy → Delivers codec w r'' wire ms := by
  induction delivers with
  | caughtUp mirror =>
      intro r'' dec mac block snappy
      exact .caughtUp ⟨dec.trans mirror.stream, mac.trans mirror.mac, block.trans mirror.block, snappy.trans mirror.snappy⟩
  | @next r r' wire rest m ms read _ ih =>
      intro r'' dec mac block snappy
      have moved := readMsg_transfer read dec mac block snappy []
      rw [List.append_nil, List.append_nil] at moved
      have kept := readMsg_state read
      refine .next moved (ih rfl rfl ?_ ?_)
      · rw [kept]; exact block
      · rw [kept]; exact snappy

end Delivers

/-- The two ends of one connection, and the bytes in flight each way. -/
structure Link where
  a : FrameRW
  b : FrameRW
  toB : List UInt8
  toA : List UInt8

/-- What an end did with a message. -/
inductive Link.Event where
  | sentByA (m : Msg)
  | receivedByB (m : Msg)
  | sentByB (m : Msg)
  | receivedByA (m : Msg)
  deriving DecidableEq, Repr

/-- One call at one end: a `WriteMsg` that succeeds (one that fails writes nothing and changes
nothing), or a `ReadMsg` that returns a message. -/
inductive Link.Step (codec : Snappy) : Link → Link.Event → Link → Prop
  | sendA {l : Link} {m : Msg} {a : FrameRW} {bytes : List UInt8} (sendable : m.Sendable)
      (written : l.a.writeMsg codec m = .ok (a, bytes)) :
      Link.Step codec l (.sentByA m) { l with a := a, toB := l.toB ++ bytes }
  | receiveB {l : Link} {m : Msg} {b : FrameRW} {rest : List UInt8}
      (read : l.b.readMsg codec l.toB = .ok (m, b, rest)) :
      Link.Step codec l (.receivedByB m) { l with b := b, toB := rest }
  | sendB {l : Link} {m : Msg} {b : FrameRW} {bytes : List UInt8} (sendable : m.Sendable)
      (written : l.b.writeMsg codec m = .ok (b, bytes)) :
      Link.Step codec l (.sentByB m) { l with b := b, toA := l.toA ++ bytes }
  | receiveA {l : Link} {m : Msg} {a : FrameRW} {rest : List UInt8}
      (read : l.a.readMsg codec l.toA = .ok (m, a, rest)) :
      Link.Step codec l (.receivedByA m) { l with a := a, toA := rest }

/-- The calls made at the two ends, in the order they happened. -/
inductive Link.Run (codec : Snappy) (start : Link) : List Link.Event → Link → Prop
  | nil : Link.Run codec start [] start
  | step {events : List Link.Event} {l l' : Link} {e : Link.Event} (run : Link.Run codec start events l)
      (step : Link.Step codec l e l') : Link.Run codec start (events ++ [e]) l'

def Link.Event.sentByA? : Link.Event → Option Msg
  | .sentByA m => some m
  | _ => none

def Link.Event.receivedByB? : Link.Event → Option Msg
  | .receivedByB m => some m
  | _ => none

def Link.Event.sentByB? : Link.Event → Option Msg
  | .sentByB m => some m
  | _ => none

def Link.Event.receivedByA? : Link.Event → Option Msg
  | .receivedByA m => some m
  | _ => none

/-- The link seen from the other end. -/
def Link.swap (l : Link) : Link := ⟨l.b, l.a, l.toA, l.toB⟩

def Link.Event.swap : Link.Event → Link.Event
  | .sentByA m => .sentByB m
  | .receivedByB m => .receivedByA m
  | .sentByB m => .sentByA m
  | .receivedByA m => .receivedByB m

section
attribute [local simp] Link.Event.sentByA? Link.Event.receivedByB? Link.swap Link.Event.swap
end

theorem Link.Step.swap {codec : Snappy} {l l' : Link} {e : Link.Event} (step : Link.Step codec l e l') :
    Link.Step codec l.swap e.swap l'.swap := by
  cases step with
  | sendA sendable written => exact .sendB sendable written
  | receiveB read => exact .receiveA read
  | sendB sendable written => exact .sendA sendable written
  | receiveA read => exact .receiveB read

theorem Link.Run.swap {codec : Snappy} {start l : Link} {events : List Link.Event} (run : Link.Run codec start events l) :
    Link.Run codec start.swap (events.map Link.Event.swap) l.swap := by
  induction run with
  | nil => exact .nil
  | step _ step ih =>
      rw [List.map_append, List.map_singleton]
      exact .step ih step.swap

@[simp] theorem Link.Event.sentByA?_swap (e : Link.Event) : e.swap.sentByA? = e.sentByB? := by
  cases e <;> rfl

@[simp] theorem Link.Event.receivedByB?_swap (e : Link.Event) : e.swap.receivedByB? = e.receivedByA? := by
  cases e <;> rfl

/-- The direction from `a` to `b`: what `b` received and what is in flight to it are what `a`
sent, in order. -/
theorem Link.Run.towardB {codec : Snappy} (lawful : codec.Lawful) {start l : Link} {events : List Link.Event}
    (run : Link.Run codec start events l) (mirror : Mirrors start.a start.b) (empty : start.toB = [])
    (long : start.a.egressMAC.AtLeast 16) :
    ∃ pending, events.filterMap Link.Event.receivedByB? ++ pending = events.filterMap Link.Event.sentByA? ∧
      Delivers codec l.a l.b l.toB pending ∧ l.a.egressMAC.AtLeast 16 := by
  induction run with
  | nil => exact ⟨[], rfl, empty ▸ .caughtUp mirror, long⟩
  | step _ step ih =>
      obtain ⟨pending, order, delivers, long⟩ := ih
      cases step with
      | sendA sendable written =>
          refine ⟨pending ++ [_], ?_, delivers.send lawful long sendable written, ?_⟩
          · simp [← order, Link.Event.receivedByB?, Link.Event.sentByA?]
          · intro bytes
            rw [(writeMsg_state written).2]
            exact long bytes
      | receiveB read =>
          obtain ⟨later, rfl, rest⟩ := delivers.receive read
          exact ⟨later, by simp [← order, Link.Event.receivedByB?, Link.Event.sentByA?], rest, long⟩
      | sendB sendable written =>
          have kept := (writeMsg_state written).1
          refine ⟨pending, by simpa [List.filterMap_cons, Link.Event.receivedByB?, Link.Event.sentByA?] using order, ?_, long⟩
          exact delivers.reader (by rw [kept]) (by rw [kept]) (by rw [kept]) (by rw [kept])
      | receiveA read =>
          have kept := readMsg_state read
          refine ⟨pending, by simpa [List.filterMap_cons, Link.Event.receivedByB?, Link.Event.sentByA?] using order, ?_, ?_⟩
          · exact delivers.writer (by rw [kept]) (by rw [kept]) (by rw [kept]) (by rw [kept])
          · rw [kept]
            exact long

/-- The link right after both handshakes: each end's `newMsgpxFrameRW` on its own secrets, with
snappy set alike at both ends, and nothing in flight. -/
def Link.start (aes : List UInt8 → Nat → UInt8) (block : List UInt8 → List UInt8 → List UInt8)
    (keccak : List UInt8 → List UInt8) (h : Handshake) (auth authResp : List UInt8) (snappy : Bool) : Link where
  a := { newMsgpxFrameRW aes block (h.secrets keccak auth authResp) with snappy := snappy }
  b := { newMsgpxFrameRW aes block (h.peer.secrets keccak auth authResp) with snappy := snappy }
  toB := []
  toA := []

section
attribute [local simp] Link.start
end

section Start

variable (aes : List UInt8 → Nat → UInt8) (block : List UInt8 → List UInt8 → List UInt8)
  (keccak : List UInt8 → List UInt8) (auth authResp : List UInt8) (snappy : Bool)

/-- Each side sends with the Keccak state the other receives with, under the same keys. -/
theorem secrets_peer (h : Handshake) :
    (h.peer.secrets keccak auth authResp).aes = (h.secrets keccak auth authResp).aes ∧
    (h.peer.secrets keccak auth authResp).mac = (h.secrets keccak auth authResp).mac ∧
    (h.peer.secrets keccak auth authResp).ingressMAC = (h.secrets keccak auth authResp).egressMAC := by
  unfold Handshake.secrets Handshake.peer
  cases h.initiator <;> simp

theorem start_mirrors (h : Handshake) :
    Mirrors (Link.start aes block keccak h auth authResp snappy).a (Link.start aes block keccak h auth authResp snappy).b := by
  obtain ⟨sameAes, sameMac, crossed⟩ := secrets_peer keccak auth authResp h
  exact ⟨by simp [Link.start, newMsgpxFrameRW, sameAes], by simp [Link.start, newMsgpxFrameRW, crossed],
    by simp [Link.start, newMsgpxFrameRW, sameMac], rfl⟩

theorem start_swap (h : Handshake) :
    (Link.start aes block keccak h auth authResp snappy).swap = Link.start aes block keccak h.peer auth authResp snappy := by
  have back : h.peer.peer = h := by simp [Handshake.peer]
  simp [Link.swap, Link.start, back]

theorem start_long {h : Handshake} (digest : ∀ b, (keccak b).length = 32) :
    (Link.start aes block keccak h auth authResp snappy).a.egressMAC.AtLeast 16 := by
  intro bytes
  unfold Link.start newMsgpxFrameRW Handshake.secrets
  cases h.initiator <;> simp [digest]

end Start

end Mjoy.P2p
