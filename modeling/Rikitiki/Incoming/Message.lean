import Rikitiki.Http.Response
import Rikitiki.Parsing.Utils
import Rikitiki.Parsing.BufferedReader
import Rikitiki.Library.Run

/-!
# The incoming message

`IMessage::OnBufferedData` is the callback the buffered reader drives. `IResponse` holds what
`IMessage` and `Response` add to the reader's own fields, and an `IResponseMemory` is the whole object.

A body write whose range leaves the block it reads from, and a start line `setStartline` rejects, have no
meaning in the source and end a call as `undefined`. The fragments of a run are each followed by a NUL.
-/

namespace Rikitiki

structure IResponse where
  streamState : MessageState := .startLine
  bodyType : BodyType := .unknown
  status : HttpStatus := .ok
  headers : HeaderCollection := ∅
  body : Str := []

abbrev IResponseMemory := BufferedReader IResponse

namespace IResponseMemory

def fresh : IResponseMemory := { derived := {} }

@[simps]
def setState (m : IResponseMemory) (newState : MessageState) : IResponseMemory :=
  { m with derived := { m.derived with streamState := newState } }

@[simps]
def onHeader (m : IResponseMemory) (header : Header) : IResponseMemory :=
  { m with derived := { m.derived with headers := m.derived.headers.add header.name header.value } }

@[simps]
def setStatus (m : IResponseMemory) (status : HttpStatus) : IResponseMemory :=
  { m with derived := { m.derived with status := status } }

/-- `body.write(data, size)` -/
@[simps]
def writeBody (m : IResponseMemory) (data : Str) : IResponseMemory :=
  { m with derived := { m.derived with body := m.derived.body ++ data } }

/-- `OnBodyData(data, size)`, and `OnChunkedData`, which calls it. -/
def onBodyData (m : IResponseMemory) (data : Str) (size : Nat) : Option IResponseMemory :=
  if size ≤ data.length then some (m.writeBody (data.take size)) else none

/-- `case HEADERS` on an empty line: the framing of the body is decided. -/
@[simps]
def endHeaders (m : IResponseMemory) : IResponseMemory :=
  let length := contentLength m.derived.headers
  let encoding := transferEncoding m.derived.headers
  { m with
    bufferMode := if encoding = .chunked then .newline else .none
    expectedSize := length
    derived := { m.derived with
      bodyType := .from length encoding
      streamState := if length = 0 then .finished else .body } }

/-- `case CHUNKED` behind `OnChunkedData`. -/
@[simps]
def afterChunk (m : IResponseMemory) (relevantSize : Nat) : IResponseMemory :=
  { m with
    bufferMode := .newline
    derived := { m.derived with
      streamState := if relevantSize = 0 then .finished else m.derived.streamState } }

/-- `case KNOWN_SIZE` behind `OnBodyData`, `size` bytes having come in. -/
@[simps]
def afterBody (m : IResponseMemory) (size : Nat) : IResponseMemory :=
  { m with expectedSize := if size ≤ m.expectedSize then m.expectedSize - size else 0 }

/-- The last statement of `case KNOWN_SIZE`. -/
@[simps]
def finishBody (m : IResponseMemory) : IResponseMemory :=
  { m with derived := { m.derived with
      streamState := if m.expectedSize = 0 then .finished else m.derived.streamState } }

/-- `return currentState.streamState == MessageState::FINISHED` -/
def report (m : IResponseMemory) : Outcome IResponseMemory :=
  .returns (m.derived.streamState = .finished) m

def onBufferedData (m : IResponseMemory) (data : Str) : Outcome IResponseMemory :=
  match m.derived.streamState with
  | .startLine =>
    match setStartline (cstr data) with
    | none => .undefined
    | some status => .returns false ((m.setStatus status).setState .headers)
  | .headers =>
    if (data.head?).any isNewline then m.endHeaders.report
    else (m.onHeader (readHeader data)).report
  | .body =>
    match m.derived.bodyType with
    | .chunked =>
      if m.expectedSize = npos then
        report { m with
          expectedSize := (((strtol 16 (cstr data)).1 + 2) % 2 ^ 64).toNat
          bufferMode := .length }
      else
        let relevantSize := sizeSub m.expectedSize 2
        match m.onBodyData data relevantSize with
        | none => .undefined
        | some m => (m.afterChunk relevantSize).report
    | .knownSize =>
      if data = [] then m.finishBody.report
      else
        match onBodyData { m with bufferMode := .none } data data.length with
        | none => .undefined
        | some m => (m.afterBody data.length).finishBody.report
    | .buffering | .unknown =>
      match m.onBodyData data data.length with
      | none => .undefined
      | some m => m.report
    | .none => m.report
  | .finished => .throws (.exception "Unexpected input") m
  | .unknown => m.report

/-- The calls `OnBodyData(p, k)` and `OnChunkedData(p, k)` of `onBufferedData`: the offset of `p` in the
block, and `k`. -/
def bodyCalls (m : IResponseMemory) (data : Str) : List (Nat × Nat) :=
  match m.derived.streamState, m.derived.bodyType with
  | .body, .chunked => if m.expectedSize = npos then [] else [(0, sizeSub m.expectedSize 2)]
  | .body, .knownSize => if data = [] then [] else [(0, data.length)]
  | .body, .buffering => [(0, data.length)]
  | .body, .unknown => [(0, data.length)]
  | _, _ => []

/-- Fuel for the read loop on `data`: a pass that reads nothing is followed by one that reads. -/
def fuel (data : Str) : Nat := 2 * data.length + 2

/-- `IMessage::OnData` on a fragment with `after` behind it in memory. -/
def onDataIn (m : IResponseMemory) (data after : Str) : Outcome IResponseMemory :=
  BufferedReader.onDataLoop onBufferedData after (fuel data) m data

/-- `IMessage::OnData` on a fragment followed by a NUL. -/
def onData (m : IResponseMemory) (data : Str) : Outcome IResponseMemory := m.onDataIn data [nul]

def onDataCalls (m : IResponseMemory) (data : Str) : List (IResponseMemory × Str) :=
  BufferedReader.onDataCalls onBufferedData [nul] (fuel data) m data

inductive Reply where
  | returned (value : Bool)
  | threw (error : Exception)
  deriving DecidableEq, Repr

def answer : Outcome IResponseMemory → Option (Reply × IResponseMemory)
  | .returns value m => some (.returned value, m)
  | .throws error m => some (.threw error, m)
  | .undefined => none
  | .running => none

/-- Feed fragments in order, going on after an exception with the object as it was left; `none` once a
call is undefined. -/
def feed : IResponseMemory → List Str → Option (List Reply × IResponseMemory) :=
  Run.run fun m fragment => answer (m.onData fragment)

/-- The calls of `onBufferedData` made while fragments are fed. -/
def feedCalls (m : IResponseMemory) : List Str → List (IResponseMemory × Str)
  | [] => []
  | fragment :: fragments =>
    m.onDataCalls fragment ++
      match answer (m.onData fragment) with
      | some (_, m) => feedCalls m fragments
      | none => []

end IResponseMemory

end Rikitiki
