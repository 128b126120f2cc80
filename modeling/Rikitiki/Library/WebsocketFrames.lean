import Rikitiki.Library.Endian

/-!
# Websocket frames on the wire

The framing of RFC 6455 for unmasked frames: a byte with the FIN bit and the opcode, the length of the
payload in the shortest of three forms, and the payload. `parse` is a receiver: it takes nothing that
breaks the format, and reads back what `encode` writes.
-/

namespace WebsocketFrames

open Endian

structure WireFrame where
  fin : Bool
  opcode : UInt8
  payload : List UInt8
  deriving DecidableEq, Repr

/-- The second byte of a frame and the extended length behind it. -/
def lengthBytes (n : ℕ) : List UInt8 :=
  if n < 126 then [n.toUInt8]
  else if n < 2 ^ 16 then 126 :: bigBytes 2 n
  else 127 :: bigBytes 8 n

def firstByte (fin : Bool) (opcode : UInt8) : UInt8 := opcode ||| if fin then 0x80 else 0

def WireFrame.encode (frame : WireFrame) : List UInt8 :=
  firstByte frame.fin frame.opcode :: (lengthBytes frame.payload.length ++ frame.payload)

/-- A length in the 16-bit or the 64-bit form, if it did not fit the form before. -/
def parseExtended (width least : ℕ) (bytes : List UInt8) : Option (ℕ × List UInt8) :=
  let n := bigValue (bytes.take width)
  if width ≤ bytes.length ∧ least ≤ n ∧ n < 2 ^ 63 then some (n, bytes.drop width) else none

/-- The length of a payload. A second byte from 128 on says that the frame is masked. -/
def parseLength : List UInt8 → Option (ℕ × List UInt8)
  | [] => none
  | b :: rest =>
    if b.toNat < 126 then some (b.toNat, rest)
    else if b = 126 then parseExtended 2 126 rest
    else if b = 127 then parseExtended 8 (2 ^ 16) rest
    else none

/-- The frame in front of some bytes, and the bytes behind it. The reserved bits have to be zero. -/
def parseFrame : List UInt8 → Option (WireFrame × List UInt8)
  | [] => none
  | b :: rest =>
    if b &&& 0x70 ≠ 0 then none
    else (parseLength rest).bind fun (n, rest) =>
      if n ≤ rest.length then some (⟨b &&& 0x80 ≠ 0, b &&& 0x0F, rest.take n⟩, rest.drop n) else none

def parseFrames : ℕ → List UInt8 → Option (List WireFrame)
  | _, [] => some []
  | 0, _ :: _ => none
  | fuel + 1, b :: rest =>
    (parseFrame (b :: rest)).bind fun (frame, rest) => (parseFrames fuel rest).map (frame :: ·)

def parse (bytes : List UInt8) : Option (List WireFrame) := parseFrames bytes.length bytes

/-! ### What is written is read back -/

/-- A frame that the format has room for. -/
structure WireFrame.Sendable (frame : WireFrame) : Prop where
  opcode_lt : frame.opcode < 16
  length_lt : frame.payload.length < 2 ^ 63

theorem parseExtended_append {width least n : ℕ} (hwidth : n < 256 ^ width) (hleast : least ≤ n)
    (hn : n < 2 ^ 63) (rest : List UInt8) :
    parseExtended width least (bigBytes width n ++ rest) = some (n, rest) := by
  have htake : (bigBytes width n ++ rest).take width = bigBytes width n := by
    rw [List.take_append_of_le_length (by simp), List.take_of_length_le (by simp)]
  have hdrop : (bigBytes width n ++ rest).drop width = rest := by
    rw [List.drop_append, List.drop_of_length_le (by simp), length_bigBytes]
    simp
  have hlength : width ≤ (bigBytes width n ++ rest).length := by simp
  simp only [parseExtended, htake, hdrop, bigValue_bigBytes hwidth]
  rw [if_pos ⟨hlength, hleast, hn⟩]

theorem parseLength_append {n : ℕ} (hn : n < 2 ^ 63) (rest : List UInt8) :
    parseLength (lengthBytes n ++ rest) = some (n, rest) := by
  rw [lengthBytes]
  split
  · rename_i hsmall
    have hbyte : n.toUInt8.toNat = n := by
      simp
      omega
    rw [List.singleton_append, parseLength, hbyte, if_pos hsmall]
  · split
    · rename_i hbig hmiddle
      rw [List.cons_append, parseLength, if_neg (by decide), if_pos rfl]
      exact parseExtended_append (by omega) (by omega) hn rest
    · rename_i hlarge
      rw [List.cons_append, parseLength, if_neg (by decide), if_neg (by decide), if_pos rfl]
      exact parseExtended_append (by omega) (by omega) hn rest

theorem firstByte_bits {opcode : UInt8} (hopcode : opcode < 16) (fin : Bool) :
    firstByte fin opcode &&& 0x70 = 0 ∧ decide (firstByte fin opcode &&& 0x80 ≠ 0) = fin ∧
      firstByte fin opcode &&& 0x0F = opcode := by
  have hall : ∀ code : Fin 16, ∀ fin : Bool, firstByte fin code.val.toUInt8 &&& 0x70 = 0 ∧
      decide (firstByte fin code.val.toUInt8 &&& 0x80 ≠ 0) = fin ∧
      firstByte fin code.val.toUInt8 &&& 0x0F = code.val.toUInt8 := by decide
  have hcode := hall ⟨opcode.toNat, UInt8.lt_iff_toNat_lt.mp hopcode⟩ fin
  simpa using hcode

/-- **A frame is read back**, with the bytes behind it left alone. -/
theorem parseFrame_encode {frame : WireFrame} (h : frame.Sendable) (rest : List UInt8) :
    parseFrame (frame.encode ++ rest) = some (frame, rest) := by
  obtain ⟨hreserved, hfin, hopcode⟩ := firstByte_bits h.opcode_lt frame.fin
  rw [WireFrame.encode, List.cons_append, List.append_assoc, parseFrame, if_neg (by simp [hreserved]),
    parseLength_append h.length_lt, Option.bind_some]
  simp [hfin, hopcode]

theorem WireFrame.encode_ne_nil (frame : WireFrame) : frame.encode ≠ [] := by
  simp [WireFrame.encode]

theorem parseFrames_encode {frames : List WireFrame} (h : ∀ frame ∈ frames, frame.Sendable) {fuel : ℕ}
    (hfuel : (frames.flatMap WireFrame.encode).length ≤ fuel) :
    parseFrames fuel (frames.flatMap WireFrame.encode) = some frames := by
  induction frames generalizing fuel with
  | nil => cases fuel <;> rfl
  | cons frame frames ih =>
      rw [List.flatMap_cons] at hfuel ⊢
      obtain ⟨hframe, hframes⟩ := List.forall_mem_cons.mp h
      obtain ⟨b, rest, hencode⟩ := List.exists_cons_of_ne_nil frame.encode_ne_nil
      have hparse := parseFrame_encode hframe (frames.flatMap WireFrame.encode)
      rw [hencode, List.cons_append] at hfuel hparse ⊢
      rw [List.length_cons, List.length_append] at hfuel
      obtain ⟨fuel, rfl⟩ : ∃ k, fuel = k + 1 := ⟨fuel - 1, by omega⟩
      have hrest : parseFrames fuel (frames.flatMap WireFrame.encode) = some frames :=
        ih hframes (by omega)
      simp only [parseFrames, hparse, Option.bind_some, hrest, Option.map_some]

/-- **A list of frames is read back.** -/
theorem parse_encode {frames : List WireFrame} (h : ∀ frame ∈ frames, frame.Sendable) :
    parse (frames.flatMap WireFrame.encode) = some frames :=
  parseFrames_encode h (Nat.le_refl _)

/-! ### Masked frames -/

structure MaskingKey where
  bytes : List UInt8
  length_bytes : bytes.length = 4

/-- A payload, masked or not masked any more: each byte is combined with one of the key, in turn. -/
def MaskingKey.mask (key : MaskingKey) (payload : List UInt8) : List UInt8 :=
  payload.mapIdx fun i b => b ^^^ key.bytes.getD (i % 4) 0

@[simp] theorem MaskingKey.length_mask (key : MaskingKey) (payload : List UInt8) :
    (key.mask payload).length = payload.length := by
  rw [mask, List.length_mapIdx]

/-- The second byte of a masked frame and the extended length behind it. -/
def maskedLengthBytes (n : ℕ) : List UInt8 :=
  if n < 126 then [n.toUInt8 ||| 0x80]
  else if n < 2 ^ 16 then (126 ||| 0x80) :: bigBytes 2 n
  else (127 ||| 0x80) :: bigBytes 8 n

/-- What stands in front of the payload of a frame, which is masked if there is a key. -/
def WireFrame.header (frame : WireFrame) : Option MaskingKey → List UInt8
  | none => firstByte frame.fin frame.opcode :: lengthBytes frame.payload.length
  | some key => firstByte frame.fin frame.opcode :: (maskedLengthBytes frame.payload.length ++ key.bytes)

def WireFrame.body (frame : WireFrame) : Option MaskingKey → List UInt8
  | none => frame.payload
  | some key => key.mask frame.payload

def WireFrame.wire (frame : WireFrame) (key : Option MaskingKey) : List UInt8 :=
  frame.header key ++ frame.body key

theorem WireFrame.wire_none (frame : WireFrame) : frame.wire none = frame.encode := rfl

/-! ### Messages in frames -/

/-- Frames that carry one message: the first has its opcode and the others `0`, and the last one, and no
other, says that it is the last. -/
structure Carries (opcode : UInt8) (payload : List UInt8) (frames : List WireFrame) : Prop where
  payload_eq : frames.flatMap WireFrame.payload = payload
  opcode_eq : ∀ i frame, frames[i]? = some frame → frame.opcode = if i = 0 then opcode else 0
  fin_iff : ∀ i frame, frames[i]? = some frame → (frame.fin = true ↔ i + 1 = frames.length)

theorem Carries.nil (opcode : UInt8) : Carries opcode [] [] := ⟨rfl, by simp, by simp⟩

theorem Carries.cons {opcode : UInt8} {part rest : List UInt8} {frames : List WireFrame} {fin : Bool}
    (hfin : fin = true ↔ frames = []) (h : Carries 0 rest frames) :
    Carries opcode (part ++ rest) (⟨fin, opcode, part⟩ :: frames) where
  payload_eq := by rw [List.flatMap_cons, h.payload_eq]
  opcode_eq i frame hframe := by
    cases i with
    | zero =>
        rw [List.getElem?_cons_zero, Option.some.injEq] at hframe
        rw [← hframe, if_pos rfl]
    | succ i =>
        rw [List.getElem?_cons_succ] at hframe
        rw [h.opcode_eq i frame hframe, if_neg (Nat.succ_ne_zero i)]
        exact ite_self 0
  fin_iff i frame hframe := by
    cases i with
    | zero =>
        rw [List.getElem?_cons_zero, Option.some.injEq] at hframe
        rw [← hframe, hfin, List.length_cons, ← List.length_eq_zero_iff]
        omega
    | succ i =>
        rw [List.getElem?_cons_succ] at hframe
        rw [h.fin_iff i frame hframe, List.length_cons]
        omega

theorem Carries.uncons {opcode : UInt8} {payload : List UInt8} {frame : WireFrame} {frames : List WireFrame}
    (h : Carries opcode payload (frame :: frames)) :
    frame.opcode = opcode ∧ (frame.fin = true ↔ frames = []) ∧
      ∃ rest, payload = frame.payload ++ rest ∧ Carries 0 rest frames := by
  refine ⟨h.opcode_eq 0 frame rfl, ?_, frames.flatMap WireFrame.payload, ?_, ?_⟩
  · rw [h.fin_iff 0 frame rfl, List.length_cons, ← List.length_eq_zero_iff]
    omega
  · rw [← h.payload_eq, List.flatMap_cons]
  · refine ⟨rfl, ?_, ?_⟩
    · intro i other hother
      have hopcode := h.opcode_eq (i + 1) other (by rwa [List.getElem?_cons_succ])
      rw [hopcode, if_neg (Nat.succ_ne_zero i)]
      exact (ite_self 0).symm
    · intro i other hother
      rw [h.fin_iff (i + 1) other (by rwa [List.getElem?_cons_succ]), List.length_cons]
      omega

/-! ### Messages that are received -/

/-- A message of data, as its receiver sees it. -/
structure DataMessage where
  opcode : UInt8
  payload : List UInt8
  deriving DecidableEq, Repr

/-- A message with one more frame: it begins with a frame of text or binary data and goes on with others. -/
def addFrame : Option DataMessage → WireFrame → Option DataMessage
  | none, frame => if frame.opcode = 1 ∨ frame.opcode = 2 then some ⟨frame.opcode, frame.payload⟩ else none
  | some message, frame =>
    if frame.opcode = 0 then some { message with payload := message.payload ++ frame.payload } else none

/-- The messages in some frames, the first of which may have begun already. Control frames may stand between
the frames of a message. -/
def messages : Option DataMessage → List WireFrame → Option (List DataMessage)
  | none, [] => some []
  | some _, [] => none
  | begun, frame :: frames =>
    if frame.opcode &&& 8 ≠ 0 then messages begun frames
    else (addFrame begun frame).bind fun message =>
      if frame.fin then (messages none frames).map (message :: ·) else messages (some message) frames

def receive (bytes : List UInt8) : Option (List DataMessage) := (parse bytes).bind (messages none)

/-- A message that has begun is received with what the frames that end it carry. -/
theorem messages_some_append {message : DataMessage} {payload : List UInt8} {frames : List WireFrame}
    (h : Carries 0 payload frames) (hne : frames ≠ []) (rest : List WireFrame) :
    messages (some message) (frames ++ rest)
      = (messages none rest).map ({ message with payload := message.payload ++ payload } :: ·) := by
  induction frames generalizing message payload with
  | nil => exact absurd rfl hne
  | cons frame frames ih =>
      obtain ⟨hopcode, hfin, part, rfl, hrest⟩ := h.uncons
      have hcontrol : ¬ frame.opcode &&& 8 ≠ 0 := by rw [hopcode]; decide
      rw [List.cons_append, messages, if_neg hcontrol, addFrame, if_pos hopcode, Option.bind_some]
      by_cases hlast : frames = []
      · subst hlast
        obtain rfl : [] = part := hrest.payload_eq
        rw [if_pos (hfin.mpr rfl), List.nil_append, List.append_nil]
      · rw [if_neg (fun h => hlast (hfin.mp h)), ih hrest hlast]
        simp only [List.append_assoc]

/-- **The frames that carry a message are received as that message.** -/
theorem messages_append {opcode : UInt8} (hdata : opcode = 1 ∨ opcode = 2) {payload : List UInt8}
    {frames : List WireFrame} (h : Carries opcode payload frames) (hne : frames ≠ []) (rest : List WireFrame) :
    messages none (frames ++ rest) = (messages none rest).map (⟨opcode, payload⟩ :: ·) := by
  cases frames with
  | nil => exact absurd rfl hne
  | cons frame frames =>
      obtain ⟨rfl, hfin, part, rfl, hrest⟩ := h.uncons
      have hcontrol : ¬ frame.opcode &&& 8 ≠ 0 := by
        rcases hdata with hopcode | hopcode
        · rw [hopcode]
          decide
        · rw [hopcode]
          decide
      rw [List.cons_append, messages, if_neg hcontrol, addFrame, if_pos hdata, Option.bind_some]
      by_cases hlast : frames = []
      · subst hlast
        obtain rfl : [] = part := hrest.payload_eq
        rw [if_pos (hfin.mpr rfl), List.nil_append, List.append_nil]
      · rw [if_neg (fun h => hlast (hfin.mp h)), messages_some_append hrest hlast]

end WebsocketFrames
