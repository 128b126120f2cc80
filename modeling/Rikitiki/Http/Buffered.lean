import Rikitiki.Http.Accessors
import Rikitiki.Library.Cached

/-!
# Buffered messages

The requests of some back-ends keep the length, the encoding and the content type of a message in cells of their own.
A setter writes the cell and never the headers; a getter fills the cell from the headers at its first call. So behind
any calls a getter returns what was set last, or what the headers said when it was called first. With the accessors of
`Message` this is so for the length alone.
-/

namespace Rikitiki

/-- `BufferedMessage`. A cell is `none` while it is not in the buffer. -/
structure BufferedMessage where
  contentLength : Option Nat := none
  transferEncoding : Option Encoding := none
  contentType : Option ContentType := none
  headers : Option HeaderCollection := none

/-- A call on a message: a setter, a getter, or a change of its headers. -/
inductive MessageCall where
  | setter (call : SetterCall)
  | contentLength
  | transferEncoding
  | contentType
  | addHeader (name value : Str)
  | setHeader (name value : Str)
  deriving DecidableEq, Repr

namespace BufferedMessage

-- what `FillHeaders` fills in
variable (fillHeaders : HeaderCollection)

/-- `BufferedMessage::Headers` -/
def getHeaders (m : BufferedMessage) : HeaderCollection × BufferedMessage :=
  let headers := m.headers.getD fillHeaders
  (headers, { m with headers := some headers })

/-- `BufferedMessage::ContentLength` -/
def getContentLength (m : BufferedMessage) : Nat × BufferedMessage :=
  match m.contentLength with
  | some n => (n, m)
  | none =>
    let (headers, m) := m.getHeaders fillHeaders
    let n := Rikitiki.contentLength headers
    (n, { m with contentLength := some n })

/-- `BufferedMessage::TransferEncoding` -/
def getTransferEncoding (m : BufferedMessage) : Encoding × BufferedMessage :=
  match m.transferEncoding with
  | some enc => (enc, m)
  | none =>
    let (headers, m) := m.getHeaders fillHeaders
    let enc := Rikitiki.transferEncoding headers
    (enc, { m with transferEncoding := some enc })

/-- `BufferedMessage::ContentType` -/
def getContentType (m : BufferedMessage) : ContentType × BufferedMessage :=
  match m.contentType with
  | some t => (t, m)
  | none =>
    let (headers, m) := m.getHeaders fillHeaders
    let t := Rikitiki.contentType headers
    (t, { m with contentType := some t })

def changeHeaders (m : BufferedMessage) (change : HeaderCollection → HeaderCollection) : BufferedMessage :=
  let (headers, m) := m.getHeaders fillHeaders
  { m with headers := some (change headers) }

def perform (m : BufferedMessage) : MessageCall → BufferedMessage
  | .setter (.setContentLength l) => { m with contentLength := some l.toNat }
  | .setter (.setTransferEncoding enc) => { m with transferEncoding := some enc }
  | .setter (.setContentType t) => { m with contentType := some t }
  | .contentLength => (m.getContentLength fillHeaders).2
  | .transferEncoding => (m.getTransferEncoding fillHeaders).2
  | .contentType => (m.getContentType fillHeaders).2
  | .addHeader name value => m.changeHeaders fillHeaders fun headers => headers.add name value
  | .setHeader name value => m.changeHeaders fillHeaders fun headers => headers.set name value

def performAll (calls : List MessageCall) : BufferedMessage := calls.foldl (perform fillHeaders) {}

end BufferedMessage

namespace MessageCall

def change (headers : HeaderCollection) : MessageCall → HeaderCollection
  | addHeader name value => headers.add name value
  | setHeader name value => headers.set name value
  | _ => headers

def setters (value : SetterCall → Option α) : MessageCall → Option α
  | setter call => value call
  | _ => none

end MessageCall

def headersAfter (headers : HeaderCollection) (calls : List MessageCall) : HeaderCollection :=
  calls.foldl MessageCall.change headers

namespace BufferedMessage

variable (fillHeaders : HeaderCollection)

/-! ### The cells -/

def use {α : Type} (value : SetterCall → Option α) (getter : MessageCall) (read : HeaderCollection → α) :
    Cached.Use MessageCall HeaderCollection α :=
  ⟨MessageCall.setters value, fun call => call = getter, read⟩

def lengthUse := use SetterCall.lengthSet .contentLength Rikitiki.contentLength

def encodingUse := use SetterCall.encodingSet .transferEncoding Rikitiki.transferEncoding

def typeUse := use SetterCall.typeSet .contentType Rikitiki.contentType

theorem fst_getContentLength (m : BufferedMessage) : (m.getContentLength fillHeaders).1
    = m.contentLength.getD (Rikitiki.contentLength (m.headers.getD fillHeaders)) := by
  rw [getContentLength]
  cases m.contentLength <;> rfl

theorem fst_getTransferEncoding (m : BufferedMessage) : (m.getTransferEncoding fillHeaders).1
    = m.transferEncoding.getD (Rikitiki.transferEncoding (m.headers.getD fillHeaders)) := by
  rw [getTransferEncoding]
  cases m.transferEncoding <;> rfl

theorem fst_getContentType (m : BufferedMessage) : (m.getContentType fillHeaders).1
    = m.contentType.getD (Rikitiki.contentType (m.headers.getD fillHeaders)) := by
  rw [getContentType]
  cases m.contentType <;> rfl

theorem perform_headers (m : BufferedMessage) (call : MessageCall) :
    (m.perform fillHeaders call).headers.getD fillHeaders = call.change (m.headers.getD fillHeaders) := by
  cases call with
  | setter call => cases call <;> rfl
  | contentLength =>
      rw [perform, getContentLength]
      split <;> rfl
  | transferEncoding =>
      rw [perform, getTransferEncoding]
      split <;> rfl
  | contentType =>
      rw [perform, getContentType]
      split <;> rfl
  | addHeader name value => rfl
  | setHeader name value => rfl

/-- A call does to each cell, with the headers beside it, what its use says. -/
theorem perform_cells (m : BufferedMessage) (call : MessageCall) :
    (m.perform fillHeaders call).contentLength
        = (lengthUse.step MessageCall.change (m.headers.getD fillHeaders, m.contentLength) call).2 ∧
      (m.perform fillHeaders call).transferEncoding
        = (encodingUse.step MessageCall.change (m.headers.getD fillHeaders, m.transferEncoding) call).2 ∧
      (m.perform fillHeaders call).contentType
        = (typeUse.step MessageCall.change (m.headers.getD fillHeaders, m.contentType) call).2 := by
  cases call with
  | setter call => cases call <;> exact ⟨rfl, rfl, rfl⟩
  | contentLength =>
      rw [perform, getContentLength]
      split
      · rename_i hcell
        exact ⟨by simp [hcell, Cached.Use.step, lengthUse, use, MessageCall.setters], rfl, rfl⟩
      · rename_i hcell
        exact ⟨by simp [hcell, Cached.Use.step, lengthUse, use, MessageCall.setters, getHeaders], rfl, rfl⟩
  | transferEncoding =>
      rw [perform, getTransferEncoding]
      split
      · rename_i hcell
        exact ⟨rfl, by simp [hcell, Cached.Use.step, encodingUse, use, MessageCall.setters], rfl⟩
      · rename_i hcell
        exact ⟨rfl, by simp [hcell, Cached.Use.step, encodingUse, use, MessageCall.setters, getHeaders], rfl⟩
  | contentType =>
      rw [perform, getContentType]
      split
      · rename_i hcell
        exact ⟨rfl, rfl, by simp [hcell, Cached.Use.step, typeUse, use, MessageCall.setters]⟩
      · rename_i hcell
        exact ⟨rfl, rfl, by simp [hcell, Cached.Use.step, typeUse, use, MessageCall.setters, getHeaders]⟩
  | addHeader name value => exact ⟨rfl, rfl, rfl⟩
  | setHeader name value => exact ⟨rfl, rfl, rfl⟩

theorem headers_performAll (calls : List MessageCall) :
    (performAll fillHeaders calls).headers.getD fillHeaders = headersAfter fillHeaders calls :=
  (List.foldl_hom (fun m : BufferedMessage => m.headers.getD fillHeaders) fun m call =>
    (perform_headers fillHeaders m call).symm).symm

theorem read_performAll {α : Type} {value : SetterCall → Option α} {getter : MessageCall}
    {read : HeaderCollection → α} {cell : BufferedMessage → Option α} (hempty : cell {} = none)
    (hcell : ∀ m call, cell (m.perform fillHeaders call)
      = ((use value getter read).step MessageCall.change (m.headers.getD fillHeaders, cell m) call).2)
    (calls : List MessageCall) :
    (cell (performAll fillHeaders calls)).getD (read ((performAll fillHeaders calls).headers.getD fillHeaders))
      = ((calls.filterMap (MessageCall.setters value)).getLast?).getD
          (read (headersAfter fillHeaders (calls.takeWhile fun call => call ≠ getter))) := by
  have hstep : ∀ (m : BufferedMessage) (call : MessageCall),
      (use value getter read).step MessageCall.change (m.headers.getD fillHeaders, cell m) call
        = ((m.perform fillHeaders call).headers.getD fillHeaders, cell (m.perform fillHeaders call)) := by
    intro m call
    exact Prod.ext (perform_headers fillHeaders m call).symm (hcell m call).symm
  have hrun : calls.foldl ((use value getter read).step MessageCall.change) (fillHeaders, none)
      = ((performAll fillHeaders calls).headers.getD fillHeaders, cell (performAll fillHeaders calls)) := by
    rw [← hempty]
    change calls.foldl _ (({} : BufferedMessage).headers.getD fillHeaders, cell {}) = _
    exact List.foldl_hom (fun m : BufferedMessage => (m.headers.getD fillHeaders, cell m)) hstep
  have hread := (use value getter read).read_foldl MessageCall.change calls fillHeaders
  rw [hrun] at hread
  rw [headers_performAll]
  simp only [decide_not, ne_eq]
  exact hread

/-- **A getter returns what was set last**, or else what the headers said when it was called first, whatever was done
to the headers since; and what is set never gets into the headers. -/
theorem getters_latched (calls : List MessageCall) :
    ((performAll fillHeaders calls).getContentLength fillHeaders).1
        = ((calls.filterMap (MessageCall.setters SetterCall.lengthSet)).getLast?).getD
          (Rikitiki.contentLength (headersAfter fillHeaders (calls.takeWhile fun call => call ≠ .contentLength))) ∧
      ((performAll fillHeaders calls).getTransferEncoding fillHeaders).1
        = ((calls.filterMap (MessageCall.setters SetterCall.encodingSet)).getLast?).getD
          (Rikitiki.transferEncoding
            (headersAfter fillHeaders (calls.takeWhile fun call => call ≠ .transferEncoding))) ∧
      ((performAll fillHeaders calls).getContentType fillHeaders).1
        = ((calls.filterMap (MessageCall.setters SetterCall.typeSet)).getLast?).getD
          (Rikitiki.contentType (headersAfter fillHeaders (calls.takeWhile fun call => call ≠ .contentType))) ∧
      ((performAll fillHeaders calls).getHeaders fillHeaders).1 = headersAfter fillHeaders calls := by
  refine ⟨?_, ?_, ?_, headers_performAll fillHeaders calls⟩
  · rw [fst_getContentLength]
    exact read_performAll fillHeaders rfl (fun m call => (perform_cells fillHeaders m call).1) calls
  · rw [fst_getTransferEncoding]
    exact read_performAll fillHeaders rfl (fun m call => (perform_cells fillHeaders m call).2.1) calls
  · rw [fst_getContentType]
    exact read_performAll fillHeaders rfl (fun m call => (perform_cells fillHeaders m call).2.2) calls

end BufferedMessage

/-! ### Any message -/

/-- A message with the accessors of `Message`, or a buffered one in whatever state. -/
inductive AnyMessage where
  | plain (headers : HeaderCollection)
  | buffered (fillHeaders : HeaderCollection) (message : BufferedMessage)

namespace AnyMessage

def contentLength : AnyMessage → Nat
  | plain headers => Rikitiki.contentLength headers
  | buffered fillHeaders m => (m.getContentLength fillHeaders).1

def transferEncoding : AnyMessage → Encoding
  | plain headers => Rikitiki.transferEncoding headers
  | buffered fillHeaders m => (m.getTransferEncoding fillHeaders).1

def contentType : AnyMessage → ContentType
  | plain headers => Rikitiki.contentType headers
  | buffered fillHeaders m => (m.getContentType fillHeaders).1

/-- The message behind a call of a setter, or `none` when an assertion fails in it. -/
def perform : AnyMessage → SetterCall → Option AnyMessage
  | plain headers, call => (call.perform headers).map plain
  | buffered fillHeaders m, call => some (buffered fillHeaders (m.perform fillHeaders (.setter call)))

def performAll (message : AnyMessage) (calls : List SetterCall) : Option AnyMessage := calls.foldlM perform message

end AnyMessage

end Rikitiki
