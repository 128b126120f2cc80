import Rikitiki.Base.Bytes

/-!
# Reflected conversion to JSON

`operator<<` writes an object to a `Json::Value` field by field, as the meta data of its class lists them, and
`operator>>` reads it back. A field can be of a class with meta data again, or a vector of such. jsoncpp and the meta
data are parameters: `Jsoncpp` has what the conversion calls, and `Jsoncpp.Lawful` and `Reflects` what it relies on.
-/

namespace Rikitiki.Json

/-- What the conversion calls of `Json::Value`. The text of an error is what its exception says. -/
structure Jsoncpp (Value Double : Type) where
  null : Value
  isObject : Value → Bool
  /-- `jv[name]` -/
  member : Value → Str → Value
  /-- `jv` when something has been assigned to `jv[name]` -/
  assign : Value → Str → Value → Value
  isArray : Value → Bool
  /-- the elements from `jv[0]` on -/
  elements : Value → List Value
  /-- an array with these elements -/
  ofElements : List Value → Value
  ofBool : Bool → Value
  ofDouble : Double → Value
  ofUInt : UInt32 → Value
  ofInt : Int32 → Value
  ofString : Str → Value
  asBool : Value → Except Str Bool
  asDouble : Value → Except Str Double
  asUInt : Value → Except Str UInt32
  asInt : Value → Except Str Int32
  asString : Value → Except Str Str

/-- What the conversion relies on. A null value is an object and has no members. -/
structure Jsoncpp.Lawful {Value Double : Type} (json : Jsoncpp Value Double) : Prop where
  isObject_null : json.isObject json.null = true
  isObject_assign (jv : Value) (name : Str) (x : Value) : json.isObject (json.assign jv name x) = true
  member_null (name : Str) : json.member json.null name = json.null
  member_assign (jv : Value) (name : Str) (x : Value) : json.member (json.assign jv name x) name = x
  member_assign_of_ne (jv : Value) {name other : Str} (x : Value) (h : other ≠ name) :
    json.member (json.assign jv name x) other = json.member jv other
  isArray_ofElements (jvs : List Value) : json.isArray (json.ofElements jvs) = true
  elements_ofElements (jvs : List Value) : json.elements (json.ofElements jvs) = jvs
  asBool_ofBool (b : Bool) : json.asBool (json.ofBool b) = .ok b
  asDouble_ofDouble (d : Double) : json.asDouble (json.ofDouble d) = .ok d
  asUInt_ofUInt (n : UInt32) : json.asUInt (json.ofUInt n) = .ok n
  asInt_ofInt (i : Int32) : json.asInt (json.ofInt i) = .ok i
  asString_ofString (s : Str) : json.asString (json.ofString s) = .ok s

/-- Why a conversion does not return. -/
inductive Failure where
  | runtimeError (what : Str)
  /-- `assert(jv.isArray())` -/
  | assertion
  deriving DecidableEq, Repr

/-- How a type is written to a value, by `operator<<` or an assignment, and how it is read from it. -/
structure Conversion (Value α : Type) where
  set : Value → α → Except Failure Value
  get : Value → α → Except Failure (Value × α)

/-- `Field_<T, S>`, with how `S` is converted. -/
structure Field (Value T : Type) where
  name : Str
  S : Type
  conversion : Conversion Value S
  get : T → S
  set : T → S → T

/-- `catch(std::exception& ex)` of `SetJsonValues` and `GetJsonValues`. -/
def inField {α : Type} (doing name : Str) : Except Failure α → Except Failure α
  | .error (.runtimeError what) =>
    .error (.runtimeError (lit "Error in " ++ doing ++ lit " field '" ++ name ++ lit "': " ++ what))
  | outcome => outcome

section Conversions

variable {Value Double T : Type} (json : Jsoncpp Value Double)

def expectObject (jv : Value) (name : Str) : Except Failure Unit :=
  if json.isObject jv then .ok () else .error (.runtimeError (lit "Expected an object in " ++ name))

/-- `SetJsonValues<T>::operator()` -/
def setField (t : T) (jv : Value) (field : Field Value T) : Except Failure Value :=
  inField (lit "setting") field.name <|
    (expectObject json jv field.name).bind fun _ =>
      (field.conversion.set (json.member jv field.name) (field.get t)).map (json.assign jv field.name)

/-- `GetJsonValues<T>::operator()`. The member is there from then on. -/
def getField (state : Value × T) (field : Field Value T) : Except Failure (Value × T) :=
  let (jv, t) := state
  inField (lit "getting") field.name <|
    (expectObject json jv field.name).bind fun _ =>
      (field.conversion.get (json.member jv field.name) (field.get t)).map fun (x, s) =>
        (json.assign jv field.name x, field.set t s)

/-- `operator<<` and `operator>>` of a class with meta data. -/
def reflected (fields : List (Field Value T)) : Conversion Value T where
  set jv t := fields.foldlM (setField json t) jv
  get jv t := fields.foldlM (getField json) (jv, t)

/-- A type that is assigned to a value and read with one of the `as` functions. -/
def scalar {α : Type} (of : α → Value) (as : Value → Except Str α) : Conversion Value α where
  set _ a := .ok (of a)
  get jv _ := ((as jv).mapError .runtimeError).map fun a => (jv, a)

/-- The loop of `operator>>` over the elements of an array. `fresh` is what `t.resize` adds to the vector. -/
def getElements {α : Type} (element : Conversion Value α) (fresh : α) :
    List Value → List α → Except Failure (List Value × List α)
  | [], _ => .ok ([], [])
  | jv :: jvs, ts =>
    (element.get jv (ts.headD fresh)).bind fun (jv, t) =>
      (getElements element fresh jvs ts.tail).map fun (jvs, ts) => (jv :: jvs, t :: ts)

/-- `operator<<` and `operator>>` of `std::vector`. -/
def vector {α : Type} (element : Conversion Value α) (fresh : α) : Conversion Value (List α) where
  set _ ts := (ts.mapM (element.set json.null)).map json.ofElements
  get jv ts :=
    if json.isArray jv then
      (getElements element fresh (json.elements jv) ts).map fun (jvs, ts) => (json.ofElements jvs, ts)
    else .error .assertion

/-- The meta data of a class: its fields are members of it, and all of them. -/
structure Reflects (fields : List (Field Value T)) : Prop where
  distinct : fields.Pairwise fun field other => field.name ≠ other.name
  get_set : ∀ field ∈ fields, ∀ t s, field.get (field.set t s) = s
  independent : fields.Pairwise fun field other =>
    (∀ t s, other.get (field.set t s) = other.get t) ∧ ∀ t s, field.get (other.set t s) = field.get t
  ext : ∀ t t', (∀ field ∈ fields, field.get t = field.get t') → t = t'

/-- The types that are assigned to a value. -/
inductive Assigned : ∀ {α : Type}, Conversion Value α → Prop
  | bool : Assigned (scalar json.ofBool json.asBool)
  | double : Assigned (scalar json.ofDouble json.asDouble)
  | unsigned : Assigned (scalar json.ofUInt json.asUInt)
  | int : Assigned (scalar json.ofInt json.asInt)
  | string : Assigned (scalar json.ofString json.asString)

/-- The types that have `operator<<` and `operator>>`. -/
inductive Streamed : ∀ {α : Type}, Conversion Value α → Prop
  | vector {α : Type} {element : Conversion Value α} (fresh : α) (helement : Streamed element) :
      Streamed (vector json element fresh)
  | reflected {T : Type} {fields : List (Field Value T)} (hreflects : Reflects fields)
      (hfields : ∀ field ∈ fields, ¬ Assigned json field.conversion → Streamed field.conversion) :
      Streamed (reflected json fields)

/-! ### Round trips -/

/-- What is written to a fresh value is read from it, whatever it is read into. -/
def RoundTrips {α : Type} (conversion : Conversion Value α) : Prop :=
  ∀ a, ∃ jv, conversion.set json.null a = .ok jv ∧ ∀ b, ∃ jv', conversion.get jv b = .ok (jv', a)

variable {json}

theorem Assigned.roundTrips (hjson : json.Lawful) {α : Type} {conversion : Conversion Value α}
    (h : Assigned json conversion) : RoundTrips json conversion := by
  have hscalar : ∀ {β : Type} {of : β → Value} {as : Value → Except Str β}, (∀ a, as (of a) = .ok a) →
      RoundTrips json (scalar of as) := by
    intro β of as has a
    refine ⟨of a, rfl, fun b => ⟨of a, ?_⟩⟩
    simp only [scalar, has]
    rfl
  cases h with
  | bool => exact hscalar hjson.asBool_ofBool
  | double => exact hscalar hjson.asDouble_ofDouble
  | unsigned => exact hscalar hjson.asUInt_ofUInt
  | int => exact hscalar hjson.asInt_ofInt
  | string => exact hscalar hjson.asString_ofString

theorem vector_roundTrips (hjson : json.Lawful) {α : Type} {element : Conversion Value α} (fresh : α)
    (helement : RoundTrips json element) : RoundTrips json (vector json element fresh) := by
  intro ts
  have helements : ∃ jvs, ts.mapM (element.set json.null) = .ok jvs ∧
      ∀ us, ∃ jvs', getElements element fresh jvs us = .ok (jvs', ts) := by
    induction ts with
    | nil => exact ⟨[], rfl, fun us => ⟨[], rfl⟩⟩
    | cons t ts ih =>
        obtain ⟨jv, hset, hget⟩ := helement t
        obtain ⟨jvs, hsets, hgets⟩ := ih
        refine ⟨jv :: jvs, ?_, fun us => ?_⟩
        · rw [List.mapM_cons, hset, hsets]
          rfl
        · obtain ⟨jv', hfirst⟩ := hget (us.headD fresh)
          obtain ⟨jvs', hrest⟩ := hgets us.tail
          refine ⟨jv' :: jvs', ?_⟩
          rw [getElements, hfirst, Except.bind, hrest]
          rfl
  obtain ⟨jvs, hsets, hgets⟩ := helements
  refine ⟨json.ofElements jvs, ?_, fun us => ?_⟩
  · simp only [vector, hsets]
    rfl
  · obtain ⟨jvs', hget⟩ := hgets us
    refine ⟨json.ofElements jvs', ?_⟩
    simp only [vector, hjson.isArray_ofElements, hjson.elements_ofElements, if_true, hget]
    rfl

theorem setField_of_object {jv x : Value} {t : T} {field : Field Value T} (hobject : json.isObject jv = true)
    (hset : field.conversion.set (json.member jv field.name) (field.get t) = .ok x) :
    setField json t jv field = .ok (json.assign jv field.name x) := by
  rw [setField, expectObject, if_pos hobject, Except.bind, hset]
  rfl

theorem getField_of_object {jv x : Value} {t : T} {field : Field Value T} {s : field.S}
    (hobject : json.isObject jv = true)
    (hget : field.conversion.get (json.member jv field.name) (field.get t) = .ok (x, s)) :
    getField json (jv, t) field = .ok (json.assign jv field.name x, field.set t s) := by
  rw [getField, expectObject, if_pos hobject, Except.bind, hget]
  rfl

/-- What a value has from the fields of an object. -/
def Holds (json : Jsoncpp Value Double) (a : T) (jv : Value) (field : Field Value T) : Prop :=
  ∀ s, ∃ x, field.conversion.get (json.member jv field.name) s = .ok (x, field.get a)

theorem set_fields (hjson : json.Lawful) (a : T) {fields : List (Field Value T)}
    (hdistinct : fields.Pairwise fun field other => field.name ≠ other.name)
    (hfields : ∀ field ∈ fields, RoundTrips json field.conversion) {jv : Value}
    (hobject : json.isObject jv = true) (hnull : ∀ field ∈ fields, json.member jv field.name = json.null) :
    ∃ jv', fields.foldlM (setField json a) jv = .ok jv' ∧ json.isObject jv' = true ∧
      (∀ field ∈ fields, Holds json a jv' field) ∧
      ∀ name, (∀ field ∈ fields, field.name ≠ name) → json.member jv' name = json.member jv name := by
  induction fields generalizing jv with
  | nil => exact ⟨jv, rfl, hobject, List.forall_mem_nil _, fun name _ => rfl⟩
  | cons field fields ih =>
      obtain ⟨hother, hdistinct'⟩ := List.pairwise_cons.mp hdistinct
      obtain ⟨x, hset, hget⟩ := hfields field (.head _) (field.get a)
      rw [← hnull field (.head _)] at hset
      have hfirst := setField_of_object hobject hset
      have hnull' : ∀ other ∈ fields, json.member (json.assign jv field.name x) other.name = json.null := by
        intro other hmem
        rw [hjson.member_assign_of_ne jv x (Ne.symm (hother other hmem))]
        exact hnull other (.tail _ hmem)
      obtain ⟨jv', hrest, hobject', hholds, hkept⟩ :=
        ih hdistinct' (fun other h => hfields other (.tail _ h)) (hjson.isObject_assign jv field.name x) hnull'
      refine ⟨jv', ?_, hobject', ?_, fun name hname => ?_⟩
      · rw [List.foldlM_cons, hfirst]
        exact hrest
      · refine List.forall_mem_cons.mpr ⟨fun s => ?_, hholds⟩
        rw [hkept field.name fun other hmem => Ne.symm (hother other hmem), hjson.member_assign]
        exact hget s
      · rw [hkept name fun other hmem => hname other (.tail _ hmem),
          hjson.member_assign_of_ne jv x (Ne.symm (hname field (.head _)))]

theorem get_fields (hjson : json.Lawful) (a : T) {fields : List (Field Value T)}
    (hdistinct : fields.Pairwise fun field other => field.name ≠ other.name)
    (hget_set : ∀ field ∈ fields, ∀ t s, field.get (field.set t s) = s)
    (hindependent : fields.Pairwise fun field other =>
      (∀ t s, other.get (field.set t s) = other.get t) ∧ ∀ t s, field.get (other.set t s) = field.get t)
    {jv : Value} (hobject : json.isObject jv = true) (hholds : ∀ field ∈ fields, Holds json a jv field) (t : T) :
    ∃ jv' t', fields.foldlM (getField json) (jv, t) = .ok (jv', t') ∧
      (∀ field ∈ fields, field.get t' = field.get a) ∧
      ∀ other : Field Value T, (∀ field ∈ fields, ∀ u s, other.get (field.set u s) = other.get u) →
        other.get t' = other.get t := by
  induction fields generalizing jv t with
  | nil => exact ⟨jv, t, rfl, List.forall_mem_nil _, fun other _ => rfl⟩
  | cons field fields ih =>
      obtain ⟨hother, hdistinct'⟩ := List.pairwise_cons.mp hdistinct
      obtain ⟨happart, hindependent'⟩ := List.pairwise_cons.mp hindependent
      obtain ⟨x, hget⟩ := hholds field (.head _) (field.get t)
      have hfirst := getField_of_object hobject hget
      have hholds' : ∀ other ∈ fields, Holds json a (json.assign jv field.name x) other := by
        intro other hmem s
        rw [hjson.member_assign_of_ne jv x (Ne.symm (hother other hmem))]
        exact hholds other (.tail _ hmem) s
      obtain ⟨jv', t', hrest, hread, hkept⟩ :=
        ih hdistinct' (fun other h => hget_set other (.tail _ h)) hindependent'
          (hjson.isObject_assign jv field.name x) hholds' (field.set t (field.get a))
      refine ⟨jv', t', ?_, ?_, fun other hapart => ?_⟩
      · rw [List.foldlM_cons, hfirst]
        exact hrest
      · refine List.forall_mem_cons.mpr ⟨?_, hread⟩
        rw [hkept field fun other hmem => (happart other hmem).2]
        exact hget_set field (.head _) t _
      · rw [hkept other fun field' hmem => hapart field' (.tail _ hmem)]
        exact hapart field (.head _) t _

theorem reflected_roundTrips (hjson : json.Lawful) {fields : List (Field Value T)} (hreflects : Reflects fields)
    (hfields : ∀ field ∈ fields, RoundTrips json field.conversion) : RoundTrips json (reflected json fields) := by
  intro a
  obtain ⟨jv, hset, hobject, hholds, -⟩ := set_fields hjson a hreflects.distinct hfields hjson.isObject_null
    fun field _ => hjson.member_null field.name
  refine ⟨jv, hset, fun b => ?_⟩
  obtain ⟨jv', t', hget, hread, -⟩ :=
    get_fields hjson a hreflects.distinct hreflects.get_set hreflects.independent hobject hholds b
  obtain rfl := hreflects.ext t' a hread
  exact ⟨jv', hget⟩

/-- **What is written as JSON is read back**, into whatever object it is read, however classes and vectors are
nested in each other. -/
theorem streamed_roundTrips (hjson : json.Lawful) {α : Type} {conversion : Conversion Value α}
    (h : Streamed json conversion) (a : α) :
    ∃ jv, conversion.set json.null a = .ok jv ∧ ∀ b, ∃ jv', conversion.get jv b = .ok (jv', a) := by
  suffices hround : RoundTrips json conversion by exact hround a
  clear a
  induction h with
  | vector fresh helement ih => exact vector_roundTrips hjson fresh ih
  | reflected hreflects hfields ih =>
      refine reflected_roundTrips hjson hreflects fun field hfield => ?_
      by_cases hassigned : Assigned json field.conversion
      · exact hassigned.roundTrips hjson
      · exact ih field hfield hassigned

end Conversions

/-! ### Books -/

inductive Value where
  | null
  | bool (b : Bool)
  | real (bits : UInt64)
  | uint (n : UInt32)
  | int (i : Int32)
  | string (s : Str)
  | array (elements : List Value)
  | object (members : List (Str × Value))

namespace Value

def members : Value → List (Str × Value)
  | .object members => members
  | _ => []

/-- jsoncpp, with the conversions between types that it also does left out. -/
def json : Jsoncpp Value UInt64 where
  null := .null
  isObject
    | .null => true
    | .object _ => true
    | _ => false
  member jv name := (jv.members.lookup name).getD .null
  assign jv name x := .object ((name, x) :: jv.members.filter fun (other, _) => other != name)
  isArray
    | .null => true
    | .array _ => true
    | _ => false
  elements
    | .array elements => elements
    | _ => []
  ofElements := .array
  ofBool := .bool
  ofDouble := .real
  ofUInt := .uint
  ofInt := .int
  ofString := .string
  asBool
    | .bool b => .ok b
    | _ => .error (lit "Type is not convertible to bool")
  asDouble
    | .real bits => .ok bits
    | _ => .error (lit "Type is not convertible to double")
  asUInt
    | .uint n => .ok n
    | _ => .error (lit "Type is not convertible to uint")
  asInt
    | .int i => .ok i
    | _ => .error (lit "Type is not convertible to int")
  asString
    | .string s => .ok s
    | _ => .error (lit "Type is not convertible to string")

theorem lookup_filter {name other : Str} (h : other ≠ name) (members : List (Str × Value)) :
    (members.filter fun (key, _) => key != name).lookup other = members.lookup other := by
  induction members with
  | nil => rfl
  | cons entry members ih =>
      obtain ⟨key, x⟩ := entry
      by_cases hkey : key = name
      · rw [List.filter_cons_of_neg (by simp [hkey]), ih, List.lookup_cons, hkey, beq_false_of_ne h]
      · rw [List.filter_cons_of_pos (by simp [hkey]), List.lookup_cons, List.lookup_cons, ih]

theorem lawful_json : json.Lawful where
  isObject_null := rfl
  isObject_assign _ _ _ := rfl
  member_null _ := rfl
  member_assign jv name x := by simp [json, members]
  member_assign_of_ne jv name other x h := by
    simp only [json, members, List.lookup_cons, beq_false_of_ne h]
    rw [lookup_filter h]
  isArray_ofElements _ := rfl
  elements_ofElements _ := rfl
  asBool_ofBool _ := rfl
  asDouble_ofDouble _ := rfl
  asUInt_ofUInt _ := rfl
  asInt_ofInt _ := rfl
  asString_ofString _ := rfl

end Value

structure Book where
  name : Str
  author : Str
  isbn : Str

def Book.fields : List (Field Value Book) :=
  let string := scalar Value.json.ofString Value.json.asString
  [⟨lit "name", Str, string, Book.name, fun t s => { t with name := s }⟩,
    ⟨lit "author", Str, string, Book.author, fun t s => { t with author := s }⟩,
    ⟨lit "isbn", Str, string, Book.isbn, fun t s => { t with isbn := s }⟩]

theorem Book.reflects_fields : Reflects fields where
  distinct := by simp [fields, lit]
  get_set := by simp [fields]
  independent := by simp [fields]
  ext t t' h := by
    obtain ⟨name, author, isbn⟩ := t
    obtain ⟨name', author', isbn'⟩ := t'
    simpa [fields] using h

def Book.conversion : Conversion Value Book := reflected Value.json Book.fields

def library : List Book := [⟨lit "first", lit "somebody", lit "1"⟩, ⟨lit "second", [], []⟩]

theorem streamed_roundTrips_library :
    ∃ jv jv', (vector Value.json Book.conversion ⟨[], [], []⟩).set .null library = .ok jv ∧
      (vector Value.json Book.conversion ⟨[], [], []⟩).get jv [⟨lit "other", [], []⟩] = .ok (jv', library) := by
  have hbook : Streamed Value.json Book.conversion := by
    refine .reflected Book.reflects_fields fun field hfield hassigned => absurd ?_ hassigned
    simp only [Book.fields, List.mem_cons, List.not_mem_nil, or_false] at hfield
    rcases hfield with rfl | rfl | rfl
    · exact .string
    · exact .string
    · exact .string
  obtain ⟨jv, hset, hget⟩ := streamed_roundTrips Value.lawful_json (.vector ⟨[], [], []⟩ hbook) library
  obtain ⟨jv', hread⟩ := hget [⟨lit "other", [], []⟩]
  exact ⟨jv, jv', hset, hread⟩

end Rikitiki.Json
