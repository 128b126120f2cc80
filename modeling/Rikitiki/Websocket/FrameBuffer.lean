import Rikitiki.Library.Run
import Rikitiki.Websocket.Receive

/-!
# Frames from a wire buffer

`Frame` has a constructor for the bytes of a frame as they come from a socket. It takes the words of the header
as they stand in memory, takes a second byte other than zero for a masked frame, and a length with the mask bit
for a length.
-/

namespace Rikitiki.Websocket

open Endian (ByteOrder)
open WebsocketFrames (WireFrame MaskingKey firstByte lengthBytes maskedLengthBytes)

/-- How the constructor goes wrong. -/
inductive BufferFailure where
  /-- `assert(length == len)` -/
  | assertion
  /-- memory is read behind the buffer -/
  | overread
  deriving DecidableEq, Repr

/-- A frame with what only this constructor stores. `mask` is not set for a frame that is not masked. -/
structure BufferFrame where
  frame : Frame
  isMasked : Bool
  mask : Option Nat
  deriving DecidableEq, Repr

/-- The word at the front of a buffer, and the buffer behind it. -/
def readWord (order : ByteOrder) (width : Nat) (buffer : Str) : Except BufferFailure (Nat × Str) :=
  if buffer.length < width then .error .overread
  else .ok (order.value (buffer.take width), buffer.drop width)

def readLength (order : ByteOrder) (second : Byte) (buffer : Str) : Except BufferFailure (Nat × Str) :=
  if second = 0x7E then readWord order 2 buffer
  else if second = 0x7F then readWord order 8 buffer
  else .ok (second.toNat, buffer)

/-- The mask of a masked frame. -/
def readMask (order : ByteOrder) (isMasked : Bool) (buffer : Str) : Except BufferFailure (Option Nat × Str) :=
  if isMasked then (readWord order 4 buffer).map fun (mask, buffer) => (some mask, buffer)
  else .ok (none, buffer)

/-- The constructor from a buffer and the length of the payload. A pointer into the buffer is what stands from
there on. -/
def Frame.ofBuffer (order : ByteOrder) (buffer : Str) (len : Nat) : Except BufferFailure BufferFrame :=
  match buffer with
  | opcode :: second :: buffer => do
    let isMasked := second ≠ 0
    let (length, buffer) ← readLength order second buffer
    let (mask, buffer) ← readMask order isMasked buffer
    if length ≠ len then .error .assertion
    else .ok { frame := .init opcode buffer (min length len), isMasked, mask }
  | _ => .error .overread

/-- What is made of the wire form of a frame with some memory behind it is the frame again. The mask is the one
whose bytes in memory are those of the key. -/
structure Recovers (order : ByteOrder) (frame : WireFrame) (key : Option MaskingKey) (behind : Str)
    (made : BufferFrame) : Prop where
  opcode : made.frame.info.opCode = frame.opcode
  isFinished : made.frame.info.isFinished = frame.fin
  isMasked : made.isMasked = key.isSome
  mask : made.mask.map (order.bytes 4) = key.map MaskingKey.bytes
  length : made.frame.info.length = frame.payload.length
  data : made.frame.data = frame.body key ++ behind

/-- The constructor inverts the framing. -/
def Inverts (order : ByteOrder) (frame : WireFrame) (key : Option MaskingKey) (behind : Str) : Prop :=
  ∃ made, Frame.ofBuffer order (frame.wire key ++ behind) frame.payload.length = .ok made ∧
    Recovers order frame key behind made

/-! ### What the constructor makes -/

theorem ofBuffer_eq_ok {order : ByteOrder} {opcode second : Byte} {rest : Str} {len : Nat} {made : BufferFrame}
    (h : Frame.ofBuffer order (opcode :: second :: rest) len = .ok made) :
    made.isMasked = decide (second ≠ 0) ∧ made.frame.info.opCode = opcode &&& 0xEF &&& 0xFF ∧
      made.frame.info.isFinished = decide (0 < opcode &&& OpCode.close) := by
  rw [Frame.ofBuffer] at h
  obtain ⟨⟨length, buffer⟩, -, h⟩ := Run.bind_eq_ok h
  obtain ⟨⟨mask, buffer'⟩, -, h⟩ := Run.bind_eq_ok h
  simp only at h
  split at h
  · cases h
  · cases h
    exact ⟨rfl, rfl, rfl⟩

theorem ofBuffer_short (order : ByteOrder) (opcode : Byte) {second : Byte} {rest : Str} (hzero : second ≠ 0)
    (hmiddle : second ≠ 0x7E) (hlarge : second ≠ 0x7F) (hrest : 4 ≤ rest.length) (len : Nat) :
    Frame.ofBuffer order (opcode :: second :: rest) len
      = if second.toNat ≠ len then .error .assertion
        else .ok ⟨.init opcode (rest.drop 4) (min second.toNat len), true, some (order.value (rest.take 4))⟩ := by
  have hword : readWord order 4 rest = .ok (order.value (rest.take 4), rest.drop 4) :=
    if_neg (Nat.not_lt.mpr hrest)
  have hread : readLength order second rest = .ok (second.toNat, rest) := by
    rw [readLength, if_neg hmiddle, if_neg hlarge]
  have hmask : readMask order true rest = .ok (some (order.value (rest.take 4)), rest.drop 4) := by
    rw [readMask, if_pos rfl, hword]
    rfl
  have hmasked : decide (second ≠ 0) = true := decide_eq_true hzero
  rw [Frame.ofBuffer, hmasked, hread]
  change (readMask order true rest >>= _) = _
  rw [hmask]
  rfl

theorem ofBuffer_zero (order : ByteOrder) (opcode : Byte) (rest : Str) :
    Frame.ofBuffer order (opcode :: 0 :: rest) 0 = .ok ⟨.init opcode rest 0, false, none⟩ := rfl

/-! ### Frames that are recovered -/

theorem exists_lengthBytes (n : Nat) :
    ∃ second extended, lengthBytes n = second :: extended ∧ (second = 0 → n = 0) := by
  rw [lengthBytes]
  split
  · rename_i hsmall
    refine ⟨_, _, rfl, fun hzero => ?_⟩
    have hvalue := congrArg UInt8.toNat hzero
    simp at hvalue
    omega
  · split
    · exact ⟨_, _, rfl, fun hzero => absurd hzero (by decide)⟩
    · exact ⟨_, _, rfl, fun hzero => absurd hzero (by decide)⟩

/-- The second byte of a masked frame, which the constructor takes for the length. It is the length in the
16-bit form only. -/
theorem exists_maskedLengthBytes (n : Nat) :
    ∃ second extended, maskedLengthBytes n = second :: extended ∧ second ≠ 0 ∧ second ≠ 0x7E ∧ second ≠ 0x7F ∧
      (second.toNat = n → extended.length = 2) := by
  have hmasked : ∀ k : Fin 126, k.val.toUInt8 ||| 0x80 ≠ 0 ∧ k.val.toUInt8 ||| 0x80 ≠ 0x7E ∧
      k.val.toUInt8 ||| 0x80 ≠ 0x7F ∧ (k.val.toUInt8 ||| 0x80).toNat ≠ k.val := by decide
  rw [maskedLengthBytes]
  split
  · rename_i hsmall
    obtain ⟨hzero, hmiddle, hlarge, hlength⟩ := hmasked ⟨n, hsmall⟩
    exact ⟨_, _, rfl, hzero, hmiddle, hlarge, fun heq => absurd heq hlength⟩
  · split
    · exact ⟨_, _, rfl, by decide, by decide, by decide, fun _ => Endian.length_bigBytes 2 n⟩
    · refine ⟨_, _, rfl, by decide, by decide, by decide, fun heq => ?_⟩
      have hvalue : ((127 : Byte) ||| 0x80).toNat = 255 := by decide
      omega

/-- **No masked frame is recovered.** -/
theorem not_inverts_masked (order : ByteOrder) (frame : WireFrame) (key : MaskingKey) (behind : Str) :
    ¬ Inverts order frame (some key) behind := by
  rintro ⟨made, hmade, hrecovers⟩
  obtain ⟨second, extended, hbytes, hzero, hmiddle, hlarge, htwo⟩ := exists_maskedLengthBytes frame.payload.length
  have hkey := key.length_bytes
  have hbuffer : frame.wire (some key) ++ behind = firstByte frame.fin frame.opcode :: second ::
      (extended ++ (key.bytes ++ (key.mask frame.payload ++ behind))) := by
    simp [WireFrame.wire, WireFrame.header, WireFrame.body, hbytes]
  have hrest : 4 ≤ (extended ++ (key.bytes ++ (key.mask frame.payload ++ behind))).length := by
    simp only [List.length_append]
    omega
  rw [hbuffer, ofBuffer_short order _ hzero hmiddle hlarge hrest] at hmade
  split at hmade
  · cases hmade
  · rename_i hlength
    cases hmade
    -- the two bytes of the length are taken for the front of the key
    have hdata := congrArg List.length hrecovers.data
    have hextended := htwo (not_not.mp hlength)
    simp only [Frame.init, WireFrame.body, List.length_drop, List.length_append,
      MaskingKey.length_mask] at hdata
    omega

/-- **The constructor inverts the framing** of exactly the frames that are not masked, say that they are not
the last, and have no payload and no opcode of a control frame. -/
theorem inverts_iff (order : ByteOrder) {frame : WireFrame} (hopcode : frame.opcode < 16)
    (key : Option MaskingKey) (behind : Str) :
    Inverts order frame key behind ↔
      key = none ∧ frame.payload = [] ∧ frame.fin = false ∧ frame.opcode < 8 := by
  have hbits : ∀ fin, ∀ code : Fin 16,
      (firstByte fin code.val.toUInt8 &&& 0xEF &&& 0xFF = code.val.toUInt8 ↔ fin = false) ∧
      (decide (0 < firstByte fin code.val.toUInt8 &&& OpCode.close) = false ↔ code.val < 8) := by decide
  have hcode := hbits frame.fin ⟨frame.opcode.toNat, UInt8.lt_iff_toNat_lt.mp hopcode⟩
  simp only [Nat.toUInt8_eq, UInt8.ofNat_toNat] at hcode
  constructor
  · intro hinverts
    cases key with
    | some key => exact absurd hinverts (not_inverts_masked order frame key behind)
    | none =>
        obtain ⟨made, hmade, hrecovers⟩ := hinverts
        obtain ⟨second, extended, hbytes, hzero⟩ := exists_lengthBytes frame.payload.length
        have hbuffer : frame.wire none ++ behind
            = firstByte frame.fin frame.opcode :: second :: (extended ++ (frame.payload ++ behind)) := by
          rw [WireFrame.wire_none, WireFrame.encode, hbytes]
          simp
        rw [hbuffer] at hmade
        obtain ⟨hmasked, hfirst, hfinished⟩ := ofBuffer_eq_ok hmade
        have hsecond : second = 0 := by
          rw [hrecovers.isMasked] at hmasked
          simpa using hmasked
        have hfin : frame.fin = false := hcode.1.mp (hfirst.symm.trans hrecovers.opcode)
        refine ⟨rfl, List.eq_nil_of_length_eq_zero (hzero hsecond), hfin, ?_⟩
        rw [UInt8.lt_iff_toNat_lt]
        exact hcode.2.mp (hfinished.symm.trans (hrecovers.isFinished.trans hfin))
  · rintro ⟨rfl, hpayload, hfin, hdata⟩
    have hbuffer : frame.wire none ++ behind = firstByte frame.fin frame.opcode :: 0 :: behind := by
      rw [WireFrame.wire_none, WireFrame.encode, hpayload]
      rfl
    refine ⟨⟨.init (firstByte frame.fin frame.opcode) behind 0, false, none⟩, ?_, ?_⟩
    · rw [hbuffer, hpayload]
      exact ofBuffer_zero order _ behind
    · constructor
      · exact hcode.1.mpr hfin
      · exact (hcode.2.mpr (UInt8.lt_iff_toNat_lt.mp hdata)).trans hfin.symm
      · rfl
      · rfl
      · rw [hpayload]
        rfl
      · rw [WireFrame.body, hpayload]
        rfl

theorem inverts_continuation : Inverts .little ⟨false, OpCode.continuation, []⟩ none (lit "x") :=
  (inverts_iff .little (by decide) none (lit "x")).mpr (by decide)

/-- A text in one frame is taken for a masked one. -/
theorem not_forall_inverts :
    ¬ ∀ (frame : WireFrame) (key : Option MaskingKey) (behind : Str), frame.opcode < 16 →
      Inverts .little frame key behind := by
  intro h
  obtain ⟨made, hmade, hrecovers⟩ := h ⟨true, OpCode.text, lit "hello"⟩ none [] (by decide)
  have hmasked := (ofBuffer_eq_ok hmade).1
  rw [hrecovers.isMasked] at hmasked
  cases hmasked

end Rikitiki.Websocket
