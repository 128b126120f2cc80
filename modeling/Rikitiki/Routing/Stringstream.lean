import Rikitiki.Base.Bytes

/-!
# Reading from a string stream

The unformatted input of a `std::stringstream`, with the state bits that each call leaves. `peek` and `get`
return an `int`, which is a byte or `EOF`. `At` says where a stream stands: at the end it may have failed
or not, which the scanner of routes cannot tell.
-/

namespace Rikitiki

def eof : Int := -1

/-- A byte as an `int` is what its `char` is promoted to: `char` is signed. -/
def charValue (b : Byte) : Int := if b < 128 then b.toNat else b.toNat - 256

def toChar (v : Int) : Byte := (v % 256).toNat.toUInt8

/-- The bytes already read, the last one first, the bytes to come, and the state bits. -/
structure Stringstream where
  read : Str := []
  rest : Str
  eofbit : Bool := false
  failbit : Bool := false
  badbit : Bool := false
  deriving DecidableEq, Repr

namespace Stringstream

def good (s : Stringstream) : Bool := !s.eofbit && !s.failbit && !s.badbit

/-- What the sentry of an input function does to a stream that is not good. -/
def refuse (s : Stringstream) : Stringstream := { s with failbit := true }

def peek (s : Stringstream) : Int × Stringstream :=
  if s.good then
    match s.rest with
    | [] => (eof, { s with eofbit := true })
    | b :: _ => (b.toNat, s)
  else (eof, s.refuse)

def get (s : Stringstream) : Int × Stringstream :=
  if s.good then
    match s.rest with
    | [] => (eof, { s with eofbit := true, failbit := true })
    | b :: rest => (b.toNat, { s with read := b :: s.read, rest })
  else (eof, s.refuse)

def unget (s : Stringstream) : Stringstream :=
  let s := { s with eofbit := false }
  if s.good then
    match s.read with
    | [] => { s with badbit := true }
    | b :: read => { s with read, rest := b :: s.rest }
  else s.refuse

/-! ### Where a stream stands -/

/-- A stream that has `u` to come. It is good, or it is at its end. -/
structure At (s : Stringstream) (u : Str) : Prop where
  rest : s.rest = u
  good : s.good = true ∨ u = []

def next (u : Str) : Int := (u.head?.map fun b => (b.toNat : Int)).getD eof

theorem At.good_of_cons {s : Stringstream} {b : Byte} {u : Str} (h : At s (b :: u)) : s.good = true := by
  rcases h.good with hgood | hnil
  · exact hgood
  · cases hnil

theorem at_new (u : Str) : At { rest := u } u := ⟨rfl, .inl rfl⟩

theorem At.peek {s : Stringstream} {u : Str} (h : At s u) : s.peek.1 = next u ∧ At s.peek.2 u := by
  cases u with
  | nil =>
      obtain ⟨read, rest, eofbit, failbit, badbit⟩ := s
      obtain rfl : rest = [] := h.rest
      rw [Stringstream.peek]
      split
      · exact ⟨rfl, rfl, .inr rfl⟩
      · exact ⟨rfl, rfl, .inr rfl⟩
  | cons b u =>
      rw [Stringstream.peek, if_pos h.good_of_cons, h.rest]
      exact ⟨rfl, h⟩

theorem At.get {s : Stringstream} {b : Byte} {u : Str} (h : At s (b :: u)) :
    s.get.1 = b.toNat ∧ At s.get.2 u ∧ s.get.2.good = true ∧ s.get.2.read = b :: s.read := by
  have hgood := h.good_of_cons
  rw [Stringstream.get, if_pos hgood, h.rest]
  exact ⟨rfl, ⟨rfl, .inl hgood⟩, hgood, rfl⟩

theorem At.get_nil {s : Stringstream} (h : At s []) :
    s.get.1 = eof ∧ s.get.2.rest = [] ∧ s.get.2.failbit = true := by
  obtain ⟨read, rest, eofbit, failbit, badbit⟩ := s
  obtain rfl : rest = [] := h.rest
  rw [Stringstream.get]
  split
  · exact ⟨rfl, rfl, rfl⟩
  · exact ⟨rfl, rfl, rfl⟩

theorem not_good_of_failbit {s : Stringstream} (h : s.failbit = true) : s.good = false := by
  simp [good, h]

theorem peek_of_failbit {s : Stringstream} (h : s.failbit = true) : s.peek.2.failbit = true := by
  rw [peek, not_good_of_failbit h]
  rfl

theorem get_of_failbit {s : Stringstream} (h : s.failbit = true) : s.get.2.failbit = true := by
  rw [get, not_good_of_failbit h]
  rfl

theorem unget_of_failbit {s : Stringstream} (h : s.failbit = true) :
    s.unget.rest = s.rest ∧ s.unget.failbit = true := by
  rw [unget]
  simp only [good, h]
  exact ⟨rfl, rfl⟩

theorem At.unget {s : Stringstream} {b : Byte} {read u : Str} (h : At s u) (hgood : s.good = true)
    (hread : s.read = b :: read) : At s.unget (b :: u) ∧ s.unget.good = true := by
  obtain ⟨_, rest, eofbit, failbit, badbit⟩ := s
  obtain rfl : rest = u := h.rest
  obtain rfl : _ = b :: read := hread
  obtain ⟨⟨rfl, rfl⟩, rfl⟩ : (eofbit = false ∧ failbit = false) ∧ badbit = false := by
    simpa [Stringstream.good] using hgood
  exact ⟨⟨rfl, .inl rfl⟩, rfl⟩

end Stringstream

end Rikitiki
