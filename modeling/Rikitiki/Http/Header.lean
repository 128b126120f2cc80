import Rikitiki.Http.ContentTypes
import Rikitiki.Http.Enums
import Std.Data.ExtTreeMap

/-!
# Headers

A header is a pair of strings, and a message keeps its headers in a `std::map` ordered by name. Two
ordered maps with the same bindings are equal, which is what `HeaderCollection` being extensional
says. `Get` with a type reads the stored text back through a stream.
-/

namespace Rikitiki

structure Header where
  name : Str
  value : Str
  deriving DecidableEq, Repr

structure Cookie where
  name : Str
  value : Str
  deriving DecidableEq, Repr

def Cookie.header (c : Cookie) : Header := ⟨lit "Set-Cookie", c.name ++ lit "=" ++ c.value⟩

def ContentType.header (t : ContentType) : Header := ⟨lit "Content-Type", t.toString⟩

abbrev HeaderCollection := Std.ExtTreeMap Str Str compare

namespace HeaderCollection

/-- `HeaderCollection::Get`: the text stored under a name. -/
def get (headers : HeaderCollection) (name : Str) : Option Str := headers[name]?

/-- `HeaderCollection::Add`: `operator[]` makes an empty entry where there is none. -/
def add (headers : HeaderCollection) (name value : Str) : HeaderCollection :=
  let current := (headers.get name).getD []
  headers.insert name (if 0 < current.length then current ++ lit ", " ++ value else current ++ value)

/-- `HeaderCollection::Set`, whose arguments pass through C strings. -/
def set (headers : HeaderCollection) (name value : Str) : HeaderCollection :=
  headers.insert (cstr name) (cstr value)

def fields (headers : HeaderCollection) : List Header :=
  headers.toList.map fun (name, value) => ⟨name, value⟩

def addAll (headers : HeaderCollection) (fields : List Header) : HeaderCollection :=
  fields.foldl (fun collected field => collected.add field.name field.value) headers

@[simp] theorem addAll_nil (headers : HeaderCollection) : headers.addAll [] = headers := rfl

@[simp] theorem addAll_cons (headers : HeaderCollection) (field : Header) (fields : List Header) :
    headers.addAll (field :: fields) = (headers.add field.name field.value).addAll fields := rfl

theorem addAll_append (headers : HeaderCollection) (fields more : List Header) :
    headers.addAll (fields ++ more) = (headers.addAll fields).addAll more := by
  simp [addAll]

theorem get_insert (headers : HeaderCollection) (name other value : Str) :
    HeaderCollection.get (headers.insert name value) other =
      if name = other then some value else headers.get other := by
  simp [get, Std.ExtTreeMap.getElem?_insert]

theorem get_add_of_ne {headers : HeaderCollection} {name other : Str} (value : Str)
    (hne : name ≠ other) : (headers.add name value).get other = headers.get other := by
  rw [add, get_insert, if_neg hne]

theorem get_add_self (headers : HeaderCollection) (name value : Str) :
    (headers.add name value).get name =
      some (if 0 < ((headers.get name).getD []).length then
        (headers.get name).getD [] ++ lit ", " ++ value else value) := by
  rw [add, get_insert, if_pos rfl]
  split
  · rfl
  · rename_i hcurrent
    rw [List.eq_nil_of_length_eq_zero (Nat.eq_zero_of_not_pos hcurrent), List.nil_append]

theorem get_addAll_of_ne {headers : HeaderCollection} {fields : List Header} {other : Str}
    (hne : ∀ field ∈ fields, field.name ≠ other) :
    (headers.addAll fields).get other = headers.get other := by
  induction fields generalizing headers with
  | nil => rfl
  | cons field fields ih =>
      rw [addAll_cons, ih fun f hf => hne f (by simp [hf]),
        get_add_of_ne _ (hne field (by simp))]

theorem get_addAll_eq_none {headers : HeaderCollection} {fields : List Header} {name : Str} :
    (headers.addAll fields).get name = none ↔
      headers.get name = none ∧ ∀ field ∈ fields, field.name ≠ name := by
  induction fields generalizing headers with
  | nil => simp
  | cons field fields ih =>
      rw [addAll_cons, ih, List.forall_mem_cons]
      by_cases hname : field.name = name
      · subst hname
        simp [get_add_self]
      · rw [get_add_of_ne _ hname]
        exact ⟨fun h => ⟨h.1, hname, h.2⟩, fun h => ⟨h.1, h.2.2⟩⟩

theorem get_addAll_of_mem {headers : HeaderCollection} {fields : List Header}
    (hdistinct : fields.Pairwise fun field other => field.name ≠ other.name) {field : Header}
    (hfield : field ∈ fields) (hnone : headers.get field.name = none) :
    (headers.addAll fields).get field.name = some field.value := by
  induction fields generalizing headers with
  | nil => cases hfield
  | cons first fields ih =>
      obtain ⟨hfirst, hrest⟩ := List.pairwise_cons.mp hdistinct
      rw [addAll_cons]
      rcases List.mem_cons.mp hfield with rfl | hfield
      · rw [get_addAll_of_ne fun other hother => (hfirst other hother).symm, get_add_self, hnone]
        rfl
      · apply ih hrest hfield
        rw [get_add_of_ne _ (hfirst field hfield), hnone]

theorem mem_fields {headers : HeaderCollection} {field : Header} :
    field ∈ headers.fields ↔ headers.get field.name = some field.value := by
  obtain ⟨name, value⟩ := field
  rw [get, ← Std.ExtTreeMap.mem_toList_iff_getElem?_eq_some]
  simp [fields]

theorem distinct_fields (headers : HeaderCollection) :
    headers.fields.Pairwise fun field other => field.name ≠ other.name := by
  rw [fields, List.pairwise_map]
  refine List.Pairwise.imp ?_ Std.ExtTreeMap.distinct_keys_toList
  intro a b hne heq
  exact hne (Std.LawfulEqCmp.compare_eq_iff_eq.mpr heq)

/-- **The headers of a collection make up the collection.** -/
theorem addAll_fields (headers : HeaderCollection) : addAll ∅ headers.fields = headers := by
  have hempty : ∀ name, HeaderCollection.get ∅ name = none := fun name => by simp [get]
  apply Std.ExtTreeMap.ext_getElem?
  intro name
  change HeaderCollection.get (addAll ∅ headers.fields) name = headers.get name
  cases hget : headers.get name with
  | none =>
      rw [get_addAll_eq_none]
      refine ⟨hempty name, ?_⟩
      rintro ⟨other, value⟩ hfield rfl
      rw [mem_fields, hget] at hfield
      cases hfield
  | some value =>
      have hfield : (⟨name, value⟩ : Header) ∈ headers.fields := mem_fields.mpr hget
      exact get_addAll_of_mem headers.distinct_fields hfield (hempty name)

end HeaderCollection

/-! ### The framing headers -/

/-- `Message::ContentLength`. -/
def contentLength (headers : HeaderCollection) : Nat :=
  match headers.get (lit "Content-Length") with
  | some v => extractSize v npos
  | none => npos

/-- `Message::TransferEncoding`. -/
def transferEncoding (headers : HeaderCollection) : Encoding :=
  match headers.get (lit "Transfer-Encoding") with
  | some v => .extract v
  | none => .unknown

theorem extractSize_decimal {n : Nat} (hn : n ≤ npos) (initial : Nat) :
    extractSize (decimal n) initial = n := by
  have hdigit : ∀ b ∈ decimal n, Numeral.isDigit 10 b = true := fun b hb =>
    Numeral.isDigit_of_mem_numeral (by decide) (by decide) hb
  obtain ⟨b, rest, hb⟩ := List.exists_cons_of_ne_nil (Numeral.numeral_ne_nil 10 n)
  have hfirst := decimal_byte (n := n) (b := b) (by rw [decimal, hb]; simp)
  have hdrop : (decimal n).dropWhile isSpace = decimal n := by
    rw [decimal, hb, List.dropWhile_cons_of_neg (by simp [hfirst.1])]
  have htake : (decimal n).takeWhile (Numeral.isDigit 10) = decimal n :=
    List.takeWhile_eq_self_iff.mpr hdigit
  have hhead : (decimal n).head? = some b := by rw [decimal, hb]; rfl
  have hvalue : Numeral.value 10 (decimal n) = n := Numeral.value_numeral (by decide) (by decide) n
  have hnil : decimal n ≠ [] := Numeral.numeral_ne_nil 10 n
  simp only [extractSize, hdrop, hhead, Option.some.injEq, hfirst.2.1, hfirst.2.2, or_self, if_false,
    htake, hvalue, if_neg hnil, if_neg (Nat.not_lt.mpr hn)]

end Rikitiki
