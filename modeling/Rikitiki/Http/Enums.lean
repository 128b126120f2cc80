import Rikitiki.Base.Bytes

/-!
# The enumerations of the message layer
-/

namespace Rikitiki

/-- `RequestMethod::t`. -/
inductive RequestMethod where
  | any | get | post | head | put | delete | trace | options | connect | patch | other
  deriving DecidableEq, Repr

/-- `Encoding::t`. -/
inductive Encoding where
  | unknown | chunked | compress | deflate | gzip | identity | other
  deriving DecidableEq, Repr

/-- `Encoding::FromString`: an exact, case-sensitive match. -/
def Encoding.fromString (s : Str) : Encoding :=
  if s = lit "chunked" then .chunked
  else if s = lit "compress" then .compress
  else if s = lit "deflate" then .deflate
  else if s = lit "gzip" then .gzip
  else if s = lit "identity" then .identity
  else .other

/-- `operator>>` for `Encoding::t`: the first word of the stream, up to a NUL. -/
def Encoding.extract (s : Str) : Encoding := .fromString (cstr (extractWord s))

/-- `MessageState::type`, in the order of the enumeration. -/
inductive MessageState where
  | unknown | startLine | headers | body | finished
  deriving DecidableEq, Repr

def MessageState.toNat : MessageState → Nat
  | .unknown => 0
  | .startLine => 1
  | .headers => 2
  | .body => 3
  | .finished => 4

instance : LE MessageState := ⟨fun a b => a.toNat ≤ b.toNat⟩

instance (a b : MessageState) : Decidable (a ≤ b) := inferInstanceAs (Decidable (a.toNat ≤ b.toNat))

theorem MessageState.le_def {a b : MessageState} : a ≤ b ↔ a.toNat ≤ b.toNat := Iff.rfl

theorem MessageState.le_refl (a : MessageState) : a ≤ a := Nat.le_refl _

theorem MessageState.le_trans {a b c : MessageState} (hab : a ≤ b) (hbc : b ≤ c) : a ≤ c :=
  Nat.le_trans hab hbc

theorem MessageState.le_finished (a : MessageState) : a ≤ .finished := by cases a <;> decide

theorem MessageState.eq_body {a : MessageState} (hle : .body ≤ a) (hgoes : a ≠ .finished) : a = .body := by
  cases a
  all_goals first
    | rfl
    | exact absurd rfl hgoes
    | exact absurd hle (by decide)

/-- `BodyType::type`. -/
inductive BodyType where
  | unknown | none | buffering | knownSize | chunked
  deriving DecidableEq, Repr

/-- `BodyType::From`: a length takes precedence over an encoding. -/
def BodyType.from (contentSize : Nat) (encoding : Encoding) : BodyType :=
  if contentSize ≠ npos then .knownSize
  else if encoding = .chunked then .chunked
  else .none

theorem BodyType.from_eq_knownSize {contentSize : Nat} {encoding : Encoding} :
    BodyType.from contentSize encoding = .knownSize ↔ contentSize ≠ npos := by
  rw [BodyType.from]
  split_ifs <;> simp_all

theorem BodyType.from_eq_chunked {contentSize : Nat} {encoding : Encoding} :
    BodyType.from contentSize encoding = .chunked ↔ contentSize = npos ∧ encoding = .chunked := by
  rw [BodyType.from]
  split_ifs <;> simp_all

/-- The exceptions of the message layer, with their texts. -/
inductive Exception where
  | exception (what : String)
  | invalidStateException (what : String)
  deriving DecidableEq, Repr

/-- How a method of an object of type `σ` ends: the object keeps its state when an exception is
thrown. -/
inductive Result (σ α : Type) where
  | returns (value : α) (state : σ)
  | throws (error : Exception) (state : σ)
  deriving DecidableEq, Repr

def Result.state {σ α : Type} : Result σ α → σ
  | .returns _ s => s
  | .throws _ s => s

def Result.error {σ α : Type} : Result σ α → Option Exception
  | .returns _ _ => none
  | .throws e _ => some e

def Result.bind {σ α β : Type} (r : Result σ α) (next : α → σ → Result σ β) : Result σ β :=
  match r with
  | .returns a s => next a s
  | .throws e s => .throws e s

def Result.mapState {σ τ α : Type} (r : Result σ α) (embed : σ → τ) : Result τ α :=
  match r with
  | .returns a s => .returns a (embed s)
  | .throws e s => .throws e (embed s)

@[simp] theorem Result.bind_returns {σ α β : Type} (a : α) (s : σ) (next : α → σ → Result σ β) :
    (Result.returns a s).bind next = next a s := rfl

@[simp] theorem Result.mapState_returns {σ τ α : Type} (a : α) (s : σ) (embed : σ → τ) :
    (Result.returns a s).mapState embed = .returns a (embed s) := rfl

@[simp] theorem Result.state_returns {σ α : Type} (a : α) (s : σ) : (Result.returns a s).state = s := rfl

@[simp] theorem Result.state_throws {σ α : Type} (e : Exception) (s : σ) :
    (Result.throws e s : Result σ α).state = s := rfl

@[simp] theorem Result.error_returns {σ α : Type} (a : α) (s : σ) :
    (Result.returns a s).error = none := rfl

@[simp] theorem Result.error_throws {σ α : Type} (e : Exception) (s : σ) :
    (Result.throws e s : Result σ α).error = some e := rfl

end Rikitiki
