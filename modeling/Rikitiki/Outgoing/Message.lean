import Rikitiki.Http.Response
import Rikitiki.Parsing.Utils

/-!
# The outgoing message

What is streamed into a response, and the state `OMessage` keeps. `OResponseWriter` is `OMessage`,
`OMessageWriter` and `OResponseWriter` in one; what `WriteData` is given is appended to `wire`.
-/

namespace Rikitiki

/-- What `operator<<` sends as a header. -/
inductive Field where
  | header (header : Header)
  | cookie (cookie : Cookie)
  | contentType (type : ContentType)
  deriving DecidableEq, Repr

def Field.toHeader : Field → Header
  | .header h => h
  | .cookie c => c.header
  | .contentType t => t.header

inductive Op where
  | status (status : HttpStatus)
  | field (field : Field)
  | payload (data : Str)
  deriving DecidableEq, Repr

namespace Op

/-- The header an operation writes. -/
def toHeader? : Op → Option Header
  | .field f => some f.toHeader
  | _ => none

def status? : Op → Option HttpStatus
  | .status s => some s
  | _ => none

def data : Op → Str
  | .payload bytes => bytes
  | _ => []

def isPayload : Op → Bool
  | .payload _ => true
  | _ => false

end Op

structure OMessage where
  streamState : MessageState := .startLine
  bodyType : BodyType := .unknown
  contentSize : Nat := npos
  encoding : Encoding := .unknown
  deriving DecidableEq, Repr

/-- `OMessage::WritePayloadData` -/
def OMessage.writePayloadData (m : OMessage) (size : Nat) : Result OMessage Nat :=
  match m.streamState with
  | .startLine | .headers =>
    let bodyType := BodyType.from m.contentSize m.encoding
    .returns size { m with
      bodyType := if bodyType = .none then .buffering else bodyType
      streamState := .body }
  | .body => .returns size m
  | .finished | .unknown => .throws (.invalidStateException "Could not write payload") m

structure OResponseWriter extends OMessage where
  buffer : Str := []
  status : HttpStatus := .ok
  wire : Str := []
  deriving DecidableEq, Repr

namespace OResponseWriter

/-- A writer in its default configuration. -/
def fresh : OResponseWriter := {}

def writeData (w : OResponseWriter) (data : Str) : OResponseWriter := { w with wire := w.wire ++ data }

def setState (w : OResponseWriter) (state : MessageState) : OResponseWriter :=
  { w with streamState := state }

/-- `OResponseWriter::WriteStartLine` -/
def writeStartLine (w : OResponseWriter) : OResponseWriter := w.writeData (statusLine w.status)

/-- `OMessageWriter::WriteHeader` -/
def writeHeader (w : OResponseWriter) (header : Header) : Result OResponseWriter Unit :=
  match w.streamState with
  | .startLine => .returns () ((w.writeStartLine.setState .headers).writeData (headerLine header))
  | .headers => .returns () (w.writeData (headerLine header))
  | .body | .finished | .unknown => .throws (.invalidStateException "Could not write header") w

/-- `OMessageWriter::WritePayloadData` -/
def writePayloadData (w : OResponseWriter) (data : Str) : Result OResponseWriter Nat :=
  let oldStreamState := w.streamState
  let w := if w.streamState = .startLine then w.writeStartLine else w
  let base := (w.toOMessage.writePayloadData data.length).mapState fun m => { w with toOMessage := m }
  base.bind fun _ w =>
    let w := if oldStreamState ≤ .headers ∧ w.bodyType ≠ .buffering then w.writeData crlf else w
    match w.bodyType with
    | .buffering => .returns data.length { w with buffer := w.buffer ++ data }
    | .chunked =>
      let size := hexadecimal data.length ++ crlf
      .returns (size.length + data.length + crlf.length)
        (((w.writeData size).writeData data).writeData crlf)
    | .knownSize => .returns data.length (w.writeData data)
    | .unknown | .none => .throws (.invalidStateException "Should not get here.") w

/-- `case BODY` of `OMessageWriter::Done`. -/
def doneBody (w : OResponseWriter) : Result OResponseWriter Unit :=
  match w.bodyType with
  | .chunked => .returns () (w.writeData (lit "0\r\n\r\n"))
  | .buffering =>
    ((w.setState .headers).writeHeader ⟨lit "Content-Length", decimal w.buffer.length⟩).bind fun _ w =>
      .returns () ((w.writeData crlf).writeData w.buffer)
  | .knownSize | .unknown => .throws (.invalidStateException "") w
  | .none => .returns () w

/-- `case HEADERS` of `OMessageWriter::Done`. -/
def doneHeaders (w : OResponseWriter) : Result OResponseWriter Unit :=
  if w.contentSize = npos ∧ w.encoding ≠ .chunked then
    (w.writeHeader ⟨lit "Content-Length", lit "0"⟩).bind fun _ w => .returns () (w.writeData crlf)
  else if w.encoding = .chunked then .returns () (w.writeData (lit "\r\n0\r\n\r\n"))
  else
    let w := w.writeData crlf
    if w.contentSize ≠ 0 then .throws (.exception "Connection was abandoned prematurely") w
    else w.doneBody

/-- `OMessageWriter::Done` -/
def done (w : OResponseWriter) : Result OResponseWriter Unit :=
  match w.streamState with
  | .startLine => (w.writeStartLine.setState .headers).doneHeaders
  | .headers => w.doneHeaders
  | .body => w.doneBody
  | .finished | .unknown => .returns () w

/-- `operator<<` of a status or a field, and a payload write. -/
def stream (w : OResponseWriter) : Op → Result OResponseWriter Unit
  | .status status => .returns () { w with status := status }
  | .field field => w.writeHeader field.toHeader
  | .payload data => (w.writePayloadData data).bind fun _ w => .returns () w

/-- An operation whose exception the caller swallows: the exception, and the writer after it. -/
def step (w : OResponseWriter) (op : Op) : Option Exception × OResponseWriter :=
  ((w.stream op).error, (w.stream op).state)

end OResponseWriter

structure OResponseMemory extends OMessage where
  status : HttpStatus := .ok
  headers : HeaderCollection := ∅
  body : Str := []

namespace OResponseMemory

def fresh : OResponseMemory := {}

/-- `OResponseMemory::WriteHeader`, and `operator<<` of a header. -/
def add (m : OResponseMemory) (header : Header) : OResponseMemory :=
  { m with headers := m.headers.add header.name header.value }

/-- `Message::SetContentType` -/
def setContentType (m : OResponseMemory) (type : ContentType) : OResponseMemory :=
  { m with headers := m.headers.set (lit "Content-Type") type.toString }

/-- `OResponseMemory::WritePayloadData` -/
def writePayloadData (m : OResponseMemory) (data : Str) : Result OResponseMemory Nat :=
  let base := (m.toOMessage.writePayloadData data.length).mapState fun o => { m with toOMessage := o }
  base.bind fun _ m => .returns data.length { m with body := m.body ++ data }

/-- `operator<<` of a status or a field, and a payload write. The state of the message is not looked at
for a field. -/
def stream (m : OResponseMemory) : Op → Result OResponseMemory Unit
  | .status status => .returns () { m with status := status }
  | .field (.header header) => .returns () (m.add header)
  | .field (.cookie cookie) => .returns () (m.add cookie.header)
  | .field (.contentType type) => .returns () (m.setContentType type)
  | .payload data => (m.writePayloadData data).bind fun _ m => .returns () m

/-- An operation whose exception the caller swallows: the exception, and the message after it. -/
def step (m : OResponseMemory) (op : Op) : Option Exception × OResponseMemory :=
  ((m.stream op).error, (m.stream op).state)

end OResponseMemory

end Rikitiki
