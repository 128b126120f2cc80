import Rikitiki.Http.Header

/-!
# Setters of a message and what its getters return

Three pairs of setters and getters keep their values in the headers. The pair of the length agrees. The
setter of the encoding has no text to store, because `Encoding::ToString` asserts that it is not called.
The getter of the content type asks for another header than the one its setter writes, so nothing that is
set has a part in what it returns.
-/

namespace Rikitiki

/-- `operator>>` for `ContentType::t`. -/
def ContentType.extract (s : Str) : ContentType := .fromString (extractWord s)

/-- `Message::ContentType`. -/
def contentType (headers : HeaderCollection) : ContentType :=
  match headers.get (lit "contenttype") with
  | some v => .extract v
  | none => .textHtml

/-- `Encoding::ToString`, which begins with `assert(false)`. -/
def Encoding.toString (_ : Encoding) : Option Str := none

inductive SetterCall where
  | setContentLength (l : UInt64)
  | setTransferEncoding (enc : Encoding)
  | setContentType (t : ContentType)
  deriving DecidableEq, Repr

namespace SetterCall

/-- The headers a call leaves, or `none` when an assertion fails in it. -/
def perform (headers : HeaderCollection) : SetterCall → Option HeaderCollection
  | setContentLength l => some (headers.set (lit "Content-Length") (decimal l.toNat))
  | setTransferEncoding enc => enc.toString.map fun text => headers.set (lit "Transfer-Encoding") text
  | setContentType t => some (headers.set (lit "Content-Type") t.toString)

def lengthSet : SetterCall → Option Nat
  | setContentLength l => some l.toNat
  | _ => none

def encodingSet : SetterCall → Option Encoding
  | setTransferEncoding enc => some enc
  | _ => none

def typeSet : SetterCall → Option ContentType
  | setContentType t => some t
  | _ => none

end SetterCall

def performAll (headers : HeaderCollection) (calls : List SetterCall) : Option HeaderCollection :=
  calls.foldlM SetterCall.perform headers

def lastSet {α : Type} (value : SetterCall → Option α) (calls : List SetterCall) : Option α :=
  (calls.filterMap value).getLast?

@[simp] theorem lastSet_nil {α : Type} (value : SetterCall → Option α) : lastSet value [] = none := rfl

theorem get_set (headers : HeaderCollection) {name value : Str} (hname : nul ∉ name) (hvalue : nul ∉ value)
    (other : Str) :
    (headers.set name value).get other = if name = other then some value else headers.get other := by
  rw [HeaderCollection.set, HeaderCollection.get_insert, cstr_eq_self hname, cstr_eq_self hvalue]

end Rikitiki
