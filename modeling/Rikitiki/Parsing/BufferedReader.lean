import Rikitiki.Base.Bytes
import Rikitiki.Http.Enums
import Mathlib.Tactic.Simps.Basic

/-!
# The buffered reader

`BufferedReader::OnData` cuts what a socket delivers into blocks and hands each to the virtual
`OnBufferedData` of the derived class, which may switch the buffering while the loop runs. `data` is
the fragment and `after` is the memory behind it, which the newline search looks into.

The loop is generic in the derived class, so it need not end: a callback can leave the length mode with
nothing to wait for. `onDataLoop` therefore runs on fuel and says `running` when that is used up.
-/

namespace Rikitiki

inductive BufferMode where
  | length | newline | none
  deriving DecidableEq, Repr

theorem BufferMode.eq_or (mode : BufferMode) : mode = .length ∨ mode = .newline ∨ mode = .none := by
  cases mode <;> simp

/-- How a call ends. `undefined` is a call that leaves the memory it may use. -/
inductive Outcome (σ : Type) where
  | returns (value : Bool) (state : σ)
  | throws (error : Exception) (state : σ)
  | undefined
  | running
  deriving DecidableEq, Repr

/-- A reader whose derived class adds the fields `derived`. -/
structure BufferedReader (σ : Type) where
  expectedSize : Nat := npos
  bufferMode : BufferMode := .newline
  buffer : Str := []
  derived : σ

namespace BufferedReader

variable {σ : Type}

/-- One pass through the loop body, up to the call of `OnBufferedData`. -/
inductive Pass (σ : Type) where
  /-- `goto cant_process` -/
  | cantProcess (reader : BufferedReader σ)
  /-- `return OnBufferedData(data, end - data)` -/
  | handOver
  /-- `OnBufferedData(&buffer[0], buffer.size())`, with the new position of `data` -/
  | deliver (reader : BufferedReader σ) (rest : Str)

/-- The part of the loop body under `case LENGTH`. -/
def passLength (reader : BufferedReader σ) (data : Str) : Pass σ :=
  let remaining := sizeSub reader.expectedSize reader.buffer.length
  if remaining ≤ data.length then
    .deliver { reader with buffer := reader.buffer ++ data.take remaining } (data.drop remaining)
  else .cantProcess reader

/-- The length of the line in front of `memory`, up to and including its one or two newline
characters. -/
def lineLength (memory : Str) : Option Nat :=
  (strpbrk memory).map fun pos => if (memory[pos + 1]?).any isNewline then pos + 2 else pos + 1

/-- The loop body. `case NEWLINE` falls through to `case LENGTH`. -/
def pass (reader : BufferedReader σ) (data after : Str) : Pass σ :=
  match reader.bufferMode with
  | .none => .handOver
  | .newline =>
    match lineLength (data ++ after) with
    | none => .cantProcess reader
    | some length =>
      passLength { reader with expectedSize := reader.buffer.length + length } data
  | .length => passLength reader data

/-- `buffer += std::string(data, end); return false;` -/
@[simps]
def keep (reader : BufferedReader σ) (data : Str) : BufferedReader σ :=
  { reader with buffer := reader.buffer ++ data }

@[simps]
def clear (reader : BufferedReader σ) : BufferedReader σ := { reader with buffer := [] }

def onDataLoop (onBufferedData : BufferedReader σ → Str → Outcome (BufferedReader σ)) (after : Str) :
    Nat → BufferedReader σ → Str → Outcome (BufferedReader σ)
  | 0, _, _ => .running
  | fuel + 1, reader, data =>
    if data = [] then .returns false (reader.keep data)
    else
      match reader.pass data after with
      | .cantProcess reader => .returns false (reader.keep data)
      | .handOver => onBufferedData reader data
      | .deliver reader rest =>
        match onBufferedData reader reader.buffer with
        | .returns true reader => .returns true reader.clear
        | .returns false reader => onDataLoop onBufferedData after fuel reader.clear rest
        | outcome => outcome

/-- The calls of `OnBufferedData` the loop makes: the reader at the call and the block. -/
def onDataCalls (onBufferedData : BufferedReader σ → Str → Outcome (BufferedReader σ)) (after : Str) :
    Nat → BufferedReader σ → Str → List (BufferedReader σ × Str)
  | 0, _, _ => []
  | fuel + 1, reader, data =>
    if data = [] then []
    else
      match reader.pass data after with
      | .cantProcess _ => []
      | .handOver => [(reader, data)]
      | .deliver reader rest =>
        (reader, reader.buffer) ::
          match onBufferedData reader reader.buffer with
          | .returns false reader => onDataCalls onBufferedData after fuel reader.clear rest
          | _ => []

end BufferedReader

end Rikitiki
