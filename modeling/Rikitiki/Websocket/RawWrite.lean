import Rikitiki.Websocket.Registry
import Rikitiki.Websocket.Write

/-!
# Writing to a socket of mongoose

`MongooseWebsocketContext::raw_write` hands its bytes to `mg_send`, which accepts them all, and returns their
number as an `int`. Half of the lengths that a frame may have are negative numbers there, and `Write` takes such
a number for a closed socket.
-/

namespace Rikitiki.Websocket

open Endian (ByteOrder)
open WebsocketFrames (WireFrame lengthBytes)

/-- A `size_t` as an `int` of 32 bits. -/
def sizeToInt (n : Nat) : Int :=
  if n % 2 ^ 32 < 2 ^ 31 then (n % 2 ^ 32 : Nat) else (n % 2 ^ 32 : Nat) - 2 ^ 32

/-- `MongooseWebsocketContext::raw_write`, which throws if there is no connection. -/
def WebsocketContext.rawWrite (context : WebsocketContext) : RawWrite := fun _ bytes =>
  if context.conn = 0 then none else some (sizeToInt bytes.length)

/-- `Write` does not take its socket for a closed one: it does not close it, and what `raw_write` returns for
the header and the data of each part is positive. -/
structure NeverMistaken (order : ByteOrder) (context : WebsocketContext) (buffer : Str) (opcode : Byte) : Prop where
  notClosed : (write order context.rawWrite buffer opcode).2 ≠ .closed
  positive : ∀ frame ∈ parts buffer.length opcode buffer, ∀ bytes ∈ frameCalls frame, ∀ calls result,
    context.rawWrite calls bytes = some result → 0 < result

/-! ### What `raw_write` returns -/

theorem sizeToInt_pos_iff {n : Nat} (hn : n < 2 ^ 32) : 0 < sizeToInt n ↔ 0 < n ∧ n < 2 ^ 31 := by
  rw [sizeToInt, Nat.mod_eq_of_lt hn]
  split
  · omega
  · omega

variable {context : WebsocketContext}

theorem rawWriteEnd_of_conn (hconn : context.conn ≠ 0) (calls : List Str) {bytes : Str}
    (hpos : 0 < bytes.length) (hlt : bytes.length < 2 ^ 32) :
    rawWriteEnd context.rawWrite calls bytes = if bytes.length < 2 ^ 31 then none else some .closed := by
  have hsign := sizeToInt_pos_iff hlt
  simp only [rawWriteEnd, WebsocketContext.rawWrite, if_neg hconn]
  split
  · rename_i hclosed
    rw [if_neg]
    omega
  · rename_i hopen
    rw [if_pos]
    omega

theorem length_lengthBytes (n : Nat) : 1 ≤ (lengthBytes n).length ∧ (lengthBytes n).length ≤ 9 := by
  rw [lengthBytes]
  split
  · simp
  · split
    · simp
    · simp

theorem length_frameHeader (order : ByteOrder) (first : Byte) {sendSize : Nat} (hsize : sendSize < 2 ^ 64) :
    0 < (frameHeader order first sendSize).length ∧ (frameHeader order first sendSize).length < 2 ^ 31 := by
  have hlength := length_lengthBytes sendSize
  rw [frameHeader_eq order first hsize, List.length_cons]
  omega

/-! ### How `Write` ends -/

/-- **A part of `2 ^ 31` bytes or more closes the socket**, and one that long is in every message that is. -/
theorem write_end (order : ByteOrder) (hconn : context.conn ≠ 0) (buffer : Str) (opcode : Byte) :
    (write order context.rawWrite buffer opcode).2 = if buffer.length < 2 ^ 31 then .done else .closed := by
  rw [write]
  cases hlength : buffer.length with
  | zero => rfl
  | succ fuel =>
      have hempty : buffer.length ≠ 0 := by omega
      simp only [writeLoop, if_neg hempty]
      generalize hsize : (if maxFrame < buffer.length then maxFrame else buffer.length) = sendSize
      have hbounds : 0 < sendSize ∧ sendSize < 2 ^ 32 ∧ sendSize ≤ buffer.length ∧
          (sendSize < 2 ^ 31 ↔ buffer.length < 2 ^ 31) ∧ (buffer.length < 2 ^ 31 → sendSize = buffer.length) := by
        rw [maxFrame] at hsize
        split at hsize
        · omega
        · omega
      obtain ⟨hpos, hlt, hle, hsame, hwhole⟩ := hbounds
      have hdata : (buffer.take sendSize).length = sendSize := List.length_take_of_le hle
      generalize hheader : frameHeader order _ sendSize = header
      have hshort := length_frameHeader order
        (opcode ||| if buffer.length - sendSize = 0 then OpCode.final else OpCode.continuation)
        (show sendSize < 2 ^ 64 by omega)
      rw [hheader] at hshort
      have hfirst := rawWriteEnd_of_conn hconn [] hshort.1 (by omega)
      have hsecond : rawWriteEnd context.rawWrite ([] ++ [header]) (buffer.take sendSize) = _ :=
        rawWriteEnd_of_conn hconn _ (by omega) (by omega)
      rw [if_pos hshort.2] at hfirst
      rw [hdata] at hsecond
      rw [← hlength]
      by_cases hsmall : buffer.length < 2 ^ 31
      · rw [if_pos (hsame.mpr hsmall)] at hsecond
        rw [if_pos hsmall]
        simp only [hfirst, hsecond]
        rw [hwhole hsmall, List.drop_length]
        cases fuel with
        | zero => rfl
        | succ fuel => rfl
      · rw [if_neg (fun h => hsmall (hsame.mp h))] at hsecond
        rw [if_neg hsmall]
        simp only [hfirst, hsecond]

theorem notClosed_of_throws (order : ByteOrder) (hconn : context.conn = 0) (buffer : Str) (opcode : Byte) :
    (write order context.rawWrite buffer opcode).2 ≠ .closed := by
  have hthrows : ∀ calls bytes, rawWriteEnd context.rawWrite calls bytes = some .threw := by
    intro calls bytes
    rw [rawWriteEnd, WebsocketContext.rawWrite, if_pos hconn]
  rw [write]
  cases buffer.length with
  | zero => simp [writeLoop]
  | succ fuel =>
      rw [writeLoop]
      split
      · simp
      · simp [hthrows]

theorem length_of_mem_parts {fuel : Nat} {opcode : Byte} {buffer : Str} {frame : WireFrame}
    (h : frame ∈ parts fuel opcode buffer) : 0 < frame.payload.length ∧ frame.payload.length ≤ buffer.length := by
  induction fuel generalizing opcode buffer with
  | zero => cases h
  | succ fuel ih =>
      rw [parts] at h
      split at h
      · cases h
      · rename_i hempty
        rcases List.mem_cons.mp h with rfl | hrest
        · simp only [List.length_take, maxFrame]
          omega
        · have hlength := ih hrest
          rw [List.length_drop] at hlength
          omega

/-- **A successful send is not mistaken for a closed socket** exactly if the data are shorter than `2 ^ 31`
bytes, or there is no connection and nothing is sent. -/
theorem neverMistaken_iff (order : ByteOrder) (context : WebsocketContext) (buffer : Str) (opcode : Byte) :
    NeverMistaken order context buffer opcode ↔ context.conn = 0 ∨ buffer.length < 2 ^ 31 := by
  constructor
  · intro h
    by_contra hnot
    rw [not_or] at hnot
    have hend := write_end order hnot.1 buffer opcode
    rw [if_neg hnot.2] at hend
    exact h.notClosed hend
  · intro h
    constructor
    · rcases h with hnone | hsmall
      · exact notClosed_of_throws order hnone buffer opcode
      · by_cases hconn : context.conn = 0
        · exact notClosed_of_throws order hconn buffer opcode
        · rw [write_end order hconn, if_pos hsmall]
          simp
    · intro frame hframe bytes hbytes calls result hresult
      have hconn : context.conn ≠ 0 := by
        intro hnone
        rw [WebsocketContext.rawWrite, if_pos hnone] at hresult
        cases hresult
      have hsmall := h.resolve_left hconn
      obtain ⟨hpos, hle⟩ := length_of_mem_parts hframe
      have hheader := length_lengthBytes frame.payload.length
      rw [WebsocketContext.rawWrite, if_neg hconn, Option.some.injEq] at hresult
      rw [← hresult]
      simp only [frameCalls, List.mem_cons, List.not_mem_nil, or_false] at hbytes
      rcases hbytes with rfl | rfl
      · rw [sizeToInt_pos_iff (by rw [List.length_cons]; omega), List.length_cons]
        omega
      · rw [sizeToInt_pos_iff (by omega)]
        omega

/-- Data of `2 ^ 31` bytes close a socket that takes them. -/
theorem not_forall_neverMistaken :
    ¬ ∀ (context : WebsocketContext) (buffer : Str) (opcode : Byte),
      NeverMistaken .little context buffer opcode := by
  intro h
  have hconn : (⟨100, 7, 7⟩ : WebsocketContext).conn ≠ 0 := by decide
  have hend := write_end .little hconn (List.replicate (2 ^ 31) 0) OpCode.binary
  rw [List.length_replicate, if_neg (Nat.lt_irrefl _)] at hend
  exact (h ⟨100, 7, 7⟩ (List.replicate (2 ^ 31) 0) OpCode.binary).notClosed hend

end Rikitiki.Websocket
