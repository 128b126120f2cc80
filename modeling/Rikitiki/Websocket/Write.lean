import Rikitiki.Base.Bytes
import Rikitiki.Library.WebsocketFrames

/-!
# Writing websocket frames

`WebsocketContext::Write` cuts its data into frames of at most `MAX_FRAME` bytes and hands the header and
the data of each to the virtual `raw_write`. What `raw_write` answers may depend on all it was called with
before, so a context is given by that answer. `parts` is the list of frames the loop sends.
-/

namespace Rikitiki.Websocket

open Endian (ByteOrder bigBytes)
open WebsocketFrames (WireFrame Carries firstByte lengthBytes)

/-! ### `OpCode` -/

namespace OpCode

abbrev continuation : Byte := 0x00
abbrev text : Byte := 0x01
abbrev binary : Byte := 0x02
abbrev close : Byte := 0x08
abbrev ping : Byte := 0x09
abbrev pong : Byte := 0x0A
abbrev final : Byte := 0x80

end OpCode

def maxFrame : Nat := 4294967295

/-! ### Words in network order -/

def htons (order : ByteOrder) (value : UInt16) : UInt16 := (order.network 2 value.toNat).toUInt16

def htonl (order : ByteOrder) (value : UInt32) : UInt32 := (order.network 4 value.toNat).toUInt32

/-- `htonll`, whose test of an `int` in memory is the question for the byte order. -/
def htonll (order : ByteOrder) (value : UInt64) : UInt64 :=
  match order with
  | .little =>
    let highPart := htonl order (value >>> 32).toUInt32
    let lowPart := htonl order (value &&& 0xFFFFFFFF).toUInt32
    (lowPart.toUInt64 <<< 32) ||| highPart.toUInt64
  | .big => value

theorem bytes_htons (order : ByteOrder) (value : UInt16) :
    order.bytes 2 (htons order value).toNat = bigBytes 2 value.toNat := by
  have hlt := order.network_lt 2 value.toNat
  have hword : (htons order value).toNat = order.network 2 value.toNat := by
    simp only [htons, Nat.toUInt16_eq, UInt16.toNat_ofNat']
    exact Nat.mod_eq_of_lt hlt
  rw [hword, ByteOrder.bytes_network]

theorem toNat_htonl (order : ByteOrder) (value : UInt32) :
    (htonl order value).toNat = order.network 4 value.toNat := by
  have hlt := order.network_lt 4 value.toNat
  simp only [htonl, Nat.toUInt32_eq, UInt32.toNat_ofNat']
  exact Nat.mod_eq_of_lt hlt

theorem toNat_halves (low high : UInt32) :
    ((low.toUInt64 <<< 32) ||| high.toUInt64).toNat = high.toNat + 256 ^ 4 * low.toNat := by
  have hlow := low.toNat_lt
  have hhigh : high.toNat < 2 ^ 32 := high.toNat_lt
  have hshift : (low.toUInt64 <<< 32).toNat = low.toNat <<< 32 := by
    rw [UInt64.toNat_shiftLeft, UInt32.toNat_toUInt64, show (32 : UInt64).toNat % 64 = 32 by decide,
      Nat.shiftLeft_eq]
    exact Nat.mod_eq_of_lt (by omega)
  rw [UInt64.toNat_or, hshift, UInt32.toNat_toUInt64, ← Nat.shiftLeft_add_eq_or_of_lt hhigh,
    Nat.shiftLeft_eq]
  omega

theorem toNat_high (value : UInt64) : (value >>> 32).toUInt32.toNat = value.toNat / 256 ^ 4 := by
  have hlt : value.toNat < 2 ^ 64 := value.toNat_lt
  rw [UInt64.toNat_toUInt32, UInt64.toNat_shiftRight, show (32 : UInt64).toNat % 64 = 32 by decide,
    Nat.shiftRight_eq_div_pow]
  omega

theorem toNat_low (value : UInt64) :
    (value &&& 0xFFFFFFFF).toUInt32.toNat = value.toNat % 256 ^ 4 := by
  rw [UInt64.toNat_toUInt32, UInt64.toNat_and, show (0xFFFFFFFF : UInt64).toNat = 2 ^ 32 - 1 by decide,
    Nat.and_two_pow_sub_one_eq_mod, Nat.mod_mod]
  rfl

/-- **The swap of a 64-bit word is in network order.** -/
theorem bytes_htonll (order : ByteOrder) (value : UInt64) :
    order.bytes 8 (htonll order value).toNat = bigBytes 8 value.toNat := by
  cases order with
  | big => rfl
  | little =>
      have hhalf : ∀ n, Endian.littleBytes 4 (ByteOrder.little.network 4 n) = bigBytes 4 n :=
        ByteOrder.bytes_network .little 4
      have hlow : value.toNat % 256 ^ 4 < 256 ^ 4 := Nat.mod_lt _ (by decide)
      have hjoin := Endian.bigBytes_add 4 4 (value.toNat % 256 ^ 4) (value.toNat / 256 ^ 4) hlow
      rw [Nat.mod_add_div] at hjoin
      rw [hjoin]
      simp only [htonll, toNat_halves, ByteOrder.bytes]
      rw [Endian.littleBytes_add 4 4 _ _ (UInt32.toNat_lt _), toNat_htonl, toNat_htonl, hhalf, hhalf,
        toNat_high, toNat_low]

/-! ### `WebsocketContext::Write` -/

inductive WriteEnd where
  | done
  /-- `server->Close(this)` -/
  | closed
  /-- `raw_write` threw -/
  | threw
  deriving DecidableEq, Repr

/-- What `raw_write` returns on some bytes, given what it was called with before; `none` when it throws. -/
abbrev RawWrite := List Str → Str → Option Int

/-- The bytes of `header` that are sent in front of `sendSize` bytes of data. -/
def frameHeader (order : ByteOrder) (first : Byte) (sendSize : Nat) : Str :=
  if sendSize < 126 then [first, sendSize.toUInt8]
  else if sendSize < 1 <<< 16 then
    [first, 126] ++ order.bytes 2 (htons order sendSize.toUInt16).toNat
  else [first, 127] ++ order.bytes 8 (htonll order sendSize.toUInt64).toNat

/-- One call of `raw_write`: how `Write` ends on it, if it does. -/
def rawWriteEnd (rawWrite : RawWrite) (calls : List Str) (bytes : Str) : Option WriteEnd :=
  match rawWrite calls bytes with
  | none => some .threw
  | some result => if result ≤ 0 then some .closed else none

/-- The loop of `Write`, with the calls of `raw_write` so far. Neither part of a frame is ever empty. -/
def writeLoop (order : ByteOrder) (rawWrite : RawWrite) :
    Nat → Byte → Str → List Str → List Str × WriteEnd
  | 0, _, _, calls => (calls, .done)
  | fuel + 1, first, buffer, calls =>
    if buffer.length = 0 then (calls, .done)
    else
      let sendSize := if maxFrame < buffer.length then maxFrame else buffer.length
      let control := if buffer.length - sendSize = 0 then OpCode.final else OpCode.continuation
      let header := frameHeader order (first ||| control) sendSize
      match rawWriteEnd rawWrite calls header with
      | some result => (calls ++ [header], result)
      | none =>
        let data := buffer.take sendSize
        match rawWriteEnd rawWrite (calls ++ [header]) data with
        | some result => (calls ++ [header, data], result)
        | none => writeLoop order rawWrite fuel 0 (buffer.drop sendSize) (calls ++ [header, data])

/-- `WebsocketContext::Write`: the calls of `raw_write` and how it ends. -/
def write (order : ByteOrder) (rawWrite : RawWrite) (buffer : Str) (opcode : Byte) :
    List Str × WriteEnd :=
  writeLoop order rawWrite buffer.length opcode buffer []

/-! ### The frames of a message -/

/-- The frames in which some data are sent, the first with `opcode` and the others with `0`. -/
def parts : Nat → Byte → Str → List WireFrame
  | 0, _, _ => []
  | fuel + 1, opcode, buffer =>
    if buffer.length = 0 then []
    else ⟨buffer.length ≤ maxFrame, opcode, buffer.take maxFrame⟩ ::
      parts fuel OpCode.continuation (buffer.drop maxFrame)

theorem frameHeader_eq (order : ByteOrder) (first : Byte) {sendSize : Nat} (hsize : sendSize < 2 ^ 64) :
    frameHeader order first sendSize = first :: lengthBytes sendSize := by
  rw [frameHeader, lengthBytes]
  split
  · rfl
  · split
    · rename_i hmiddle
      have hvalue : sendSize.toUInt16.toNat = sendSize := by
        simp only [Nat.toUInt16_eq, UInt16.toNat_ofNat']
        exact Nat.mod_eq_of_lt hmiddle
      rw [bytes_htons, hvalue, if_pos (show sendSize < 2 ^ 16 from hmiddle)]
      rfl
    · rename_i hlarge
      have hvalue : sendSize.toUInt64.toNat = sendSize := by
        simp only [Nat.toUInt64_eq, UInt64.toNat_ofNat']
        exact Nat.mod_eq_of_lt hsize
      rw [bytes_htonll, hvalue, if_neg (show ¬ sendSize < 2 ^ 16 from hlarge)]
      rfl

def frameCalls (frame : WireFrame) : List Str :=
  [firstByte frame.fin frame.opcode :: lengthBytes frame.payload.length, frame.payload]

theorem flatten_frameCalls (frames : List WireFrame) :
    (frames.flatMap frameCalls).flatten = frames.flatMap WireFrame.encode := by
  induction frames with
  | nil => rfl
  | cons frame frames ih =>
      rw [List.flatMap_cons, List.flatten_append, ih, List.flatMap_cons]
      simp [frameCalls, WireFrame.encode]

/-- **The loop sends the parts of its data** when every `raw_write` reports success. -/
theorem writeLoop_eq {order : ByteOrder} {rawWrite : RawWrite}
    (hraw : ∀ calls bytes, bytes ≠ [] → rawWriteEnd rawWrite calls bytes = none) {fuel : Nat} {buffer : Str}
    (hfuel : buffer.length ≤ fuel) (first : Byte) (calls : List Str) :
    writeLoop order rawWrite fuel first buffer calls
      = (calls ++ (parts fuel first buffer).flatMap frameCalls, .done) := by
  induction fuel generalizing first buffer calls with
  | zero => simp [writeLoop, parts]
  | succ fuel ih =>
      by_cases hempty : buffer.length = 0
      · simp [writeLoop, parts, hempty]
      have hsize : (if maxFrame < buffer.length then maxFrame else buffer.length)
          = (buffer.take maxFrame).length := by
        rw [List.length_take]
        split <;> omega
      have hlt : (buffer.take maxFrame).length < 2 ^ 64 := by
        rw [List.length_take, maxFrame]
        omega
      have hlast : buffer.length - (buffer.take maxFrame).length = 0 ↔ buffer.length ≤ maxFrame := by
        rw [List.length_take]
        omega
      have htake : buffer.take (buffer.take maxFrame).length = buffer.take maxFrame := by
        rw [List.take_eq_take_iff, List.length_take]
        omega
      have hdrop : buffer.drop (buffer.take maxFrame).length = buffer.drop maxFrame := by
        rw [List.drop_eq_drop_iff, List.length_take]
        omega
      have hrest : (buffer.drop maxFrame).length ≤ fuel := by
        rw [List.length_drop, maxFrame]
        omega
      have hheader : ∀ first, rawWriteEnd rawWrite calls
          (first :: lengthBytes (buffer.take maxFrame).length) = none := fun first =>
        hraw calls _ (by simp)
      have hdata : ∀ calls, rawWriteEnd rawWrite calls (buffer.take maxFrame) = none := by
        intro calls
        refine hraw calls _ fun hnil => hempty ?_
        have hlength := congrArg List.length hnil
        rw [List.length_take, List.length_nil, maxFrame] at hlength
        omega
      rw [writeLoop, if_neg hempty, parts, if_neg hempty]
      simp only [hsize, hlast, frameHeader_eq order _ hlt, hheader, htake, hdata, hdrop, ih hrest]
      simp [frameCalls, firstByte]

theorem parts_eq_nil {fuel : Nat} {buffer : Str} (hfuel : buffer.length ≤ fuel) (opcode : Byte) :
    parts fuel opcode buffer = [] ↔ buffer = [] := by
  cases fuel with
  | zero => simp [parts, List.eq_nil_of_length_eq_zero (Nat.le_zero.mp hfuel)]
  | succ fuel =>
      rw [parts, ← List.length_eq_zero_iff (l := buffer)]
      split
      · simp_all
      · simp_all

theorem carries_parts {fuel : Nat} {buffer : Str} (hfuel : buffer.length ≤ fuel) (opcode : Byte) :
    Carries opcode buffer (parts fuel opcode buffer) := by
  induction fuel generalizing opcode buffer with
  | zero =>
      obtain rfl := List.eq_nil_of_length_eq_zero (Nat.le_zero.mp hfuel)
      exact .nil opcode
  | succ fuel ih =>
      rw [parts]
      split
      · rename_i hempty
        obtain rfl := List.eq_nil_of_length_eq_zero hempty
        exact .nil opcode
      · have hrest : (buffer.drop maxFrame).length ≤ fuel := by
          rw [List.length_drop, maxFrame]
          omega
        have hfin : decide (buffer.length ≤ maxFrame) = true ↔
            parts fuel OpCode.continuation (buffer.drop maxFrame) = [] := by
          rw [parts_eq_nil hrest, decide_eq_true_eq, List.drop_eq_nil_iff]
        have hcarries : Carries opcode (buffer.take maxFrame ++ buffer.drop maxFrame) _ :=
          .cons hfin (ih hrest OpCode.continuation)
        rwa [List.take_append_drop] at hcarries

theorem sendable_of_mem_parts {fuel : Nat} {opcode : Byte} {buffer : Str} {frame : WireFrame}
    (hopcode : opcode < 16) (h : frame ∈ parts fuel opcode buffer) : frame.Sendable := by
  induction fuel generalizing opcode buffer with
  | zero => cases h
  | succ fuel ih =>
      rw [parts] at h
      split at h
      · cases h
      · rcases List.mem_cons.mp h with rfl | hrest
        · refine ⟨hopcode, ?_⟩
          have hle := List.length_take_le maxFrame buffer
          have hmax : maxFrame < 2 ^ 63 := by decide
          exact Nat.lt_of_le_of_lt hle hmax
        · exact ih (by decide) hrest

/-- **What `Write` sends is a message in frames**: when every `raw_write` reports success, the bytes are
frames in the shortest form that carry the data. Empty data are sent in no frame at all. -/
theorem write_parses (order : ByteOrder) {rawWrite : RawWrite}
    (hraw : ∀ calls bytes, bytes ≠ [] → ∃ result > 0, rawWrite calls bytes = some result) {opcode : Byte}
    (hopcode : opcode = OpCode.text ∨ opcode = OpCode.binary) (buffer : Str) :
    (write order rawWrite buffer opcode).2 = .done ∧
      ∃ frames, WebsocketFrames.parse (write order rawWrite buffer opcode).1.flatten = some frames ∧
        Carries opcode buffer frames ∧ (frames = [] ↔ buffer = []) := by
  have hsuccess : ∀ calls bytes, bytes ≠ [] → rawWriteEnd rawWrite calls bytes = none := by
    intro calls bytes hbytes
    obtain ⟨result, hpos, hresult⟩ := hraw calls bytes hbytes
    rw [rawWriteEnd, hresult]
    exact if_neg (by omega)
  have hlt : opcode < 16 := by
    rcases hopcode with rfl | rfl <;> decide
  have hwrite : write order rawWrite buffer opcode
      = ((parts buffer.length opcode buffer).flatMap frameCalls, .done) :=
    writeLoop_eq hsuccess (Nat.le_refl _) opcode []
  rw [hwrite]
  refine ⟨rfl, parts buffer.length opcode buffer, ?_, carries_parts (Nat.le_refl _) opcode,
    parts_eq_nil (Nat.le_refl _) opcode⟩
  rw [flatten_frameCalls]
  exact WebsocketFrames.parse_encode fun frame hframe => sendable_of_mem_parts hlt hframe

def counting : RawWrite := fun _ bytes => some bytes.length

theorem write_parses_hello :
    (write .little counting (lit "hello") OpCode.text).2 = .done ∧
      ∃ frames,
        WebsocketFrames.parse (write .little counting (lit "hello") OpCode.text).1.flatten = some frames ∧
        Carries OpCode.text (lit "hello") frames ∧ (frames = [] ↔ lit "hello" = []) := by
  refine write_parses .little (fun calls bytes hbytes => ⟨bytes.length, ?_, rfl⟩) (.inl rfl) (lit "hello")
  exact Int.natCast_pos.mpr (List.length_pos_of_ne_nil hbytes)

example : (write .little counting (lit "hi") OpCode.binary).1 = [[0x82, 2], lit "hi"] := by decide

end Rikitiki.Websocket
