import Rikitiki.Query.Laws
import Mathlib.Algebra.Order.BigOperators.Group.List

/-!
# Forms

A `MongooseRequest` reads the query string and the body of a message with `FromQueryString`, which decodes
nothing. A form comes out as it went in when there is nothing to decode.
-/

namespace Rikitiki

open Param (stored)
open QueryStringCollection (fromQueryString)

/-- What `MongooseRequest` reads of mongoose's `http_message`. -/
structure HttpMessage where
  uri : Str
  queryString : Str
  headers : List (Str × Str)
  body : Str

structure MongooseRequest where
  uri : Str
  qs : QueryStringCollection
  headers : HeaderCollection
  body : Str
  post : QueryStringCollection

/-- `MongooseRequest::MongooseRequest` -/
def MongooseRequest.new (utf : Utf) (message : HttpMessage) : MongooseRequest where
  uri := message.uri
  qs := if 0 < message.queryString.length then fromQueryString utf ∅ message.queryString else ∅
  headers := HeaderCollection.addAll ∅
    (((message.headers.take 40).takeWhile fun header => header.1.length ≠ 0).map fun header =>
      ⟨header.1, header.2⟩)
  body := if 0 < message.body.length then message.body else []
  post := if 0 < message.body.length then fromQueryString utf ∅ message.body else ∅

/-! ### The encoding of forms -/

/-- The bytes `application/x-www-form-urlencoded` leaves as they are: letters, digits and `*-._`. -/
def Unescaped (b : Byte) : Prop :=
  48 ≤ b ∧ b ≤ 57 ∨ 65 ≤ b ∧ b ≤ 90 ∨ 97 ≤ b ∧ b ≤ 122 ∨ b = 42 ∨ b = 45 ∨ b = 46 ∨ b = 95

instance (b : Byte) : Decidable (Unescaped b) := by unfold Unescaped; infer_instance

def hexDigit (d : Byte) : Byte := if d < 10 then 48 + d else 55 + d

def encodeByte (b : Byte) : Str :=
  if b = space then [43] else if Unescaped b then [b] else [37, hexDigit (b / 16), hexDigit (b % 16)]

def formEncode (s : Str) : Str := s.flatMap encodeByte

/-- The pairs a form is sent as. -/
def encoded (pairs : List (Str × Str)) : List (Str × Str) :=
  pairs.map fun pair => (formEncode pair.1, formEncode pair.2)

def formText (pairs : List (Str × Str)) : Str := queryText (encoded pairs)

def Maps (qs : QueryStringCollection) (pairs : List (Str × Str)) : Prop :=
  ∀ pair ∈ pairs, qs[pair.1]? = some pair.2

/-- A request whose body, or query string, is a form maps each name to its value. -/
structure DecodesForm (utf : Utf) (pairs : List (Str × Str)) : Prop where
  post : ∀ message, message.body = formText pairs → Maps (MongooseRequest.new utf message).post pairs
  queryString : ∀ message, message.queryString = formText pairs →
    Maps (MongooseRequest.new utf message).qs pairs

/-- No byte of a form has to be escaped. -/
def NothingToDecode (pairs : List (Str × Str)) : Prop :=
  ∀ pair ∈ pairs, (∀ b ∈ pair.1, Unescaped b) ∧ ∀ b ∈ pair.2, Unescaped b

/-! ### Encoded text -/

theorem encodeByte_clean {b c : Byte} (hc : c ∈ encodeByte b) :
    (c ≠ nul ∧ c < 128) ∧ c ≠ space ∧ c ≠ equalsSign ∧ c ≠ ampersandSign := by
  have hall : ∀ n < 256, ∀ c ∈ encodeByte n.toUInt8,
      (c ≠ nul ∧ c < 128) ∧ c ≠ space ∧ c ≠ equalsSign ∧ c ≠ ampersandSign := by
    decide +kernel
  apply hall b.toNat b.toNat_lt
  simpa using hc

theorem formEncode_clean {s : Str} {c : Byte} (hc : c ∈ formEncode s) :
    (c ≠ nul ∧ c < 128) ∧ c ≠ space ∧ c ≠ equalsSign ∧ c ≠ ampersandSign := by
  obtain ⟨b, -, hb⟩ := List.mem_flatMap.mp hc
  exact encodeByte_clean hb

theorem ascii_formEncode (s : Str) : Ascii (formEncode s) := fun _ hc => (formEncode_clean hc).1

theorem delimited_formEncode (pair : Str × Str) : Delimited (formEncode pair.1, formEncode pair.2) where
  key_equals h := (formEncode_clean h).2.2.1 rfl
  key_ampersand h := (formEncode_clean h).2.2.2 rfl
  value_ampersand h := (formEncode_clean h).2.2.2 rfl

theorem encodeByte_of_unescaped {b : Byte} (h : Unescaped b) : encodeByte b = [b] := by
  have hspace : b ≠ space := by
    rintro rfl
    exact absurd h (by decide)
  rw [encodeByte, if_neg hspace, if_pos h]

theorem formEncode_of_unescaped {s : Str} (h : ∀ b ∈ s, Unescaped b) : formEncode s = s := by
  induction s with
  | nil => rfl
  | cons b s ih =>
      obtain ⟨hb, hs⟩ := List.forall_mem_cons.mp h
      rw [formEncode, List.flatMap_cons, encodeByte_of_unescaped hb, ← formEncode, ih hs]
      rfl

theorem length_encodeByte (b : Byte) :
    1 ≤ (encodeByte b).length ∧ ((encodeByte b).length = 1 → b = space ∨ Unescaped b) := by
  rw [encodeByte]
  split_ifs with hspace hunescaped
  · exact ⟨Nat.le_refl _, fun _ => .inl hspace⟩
  · exact ⟨Nat.le_refl _, fun _ => .inr hunescaped⟩
  · exact ⟨by simp, by simp⟩

theorem length_formEncode (s : Str) :
    s.length ≤ (formEncode s).length ∧
      ((formEncode s).length = s.length → ∀ b ∈ s, b = space ∨ Unescaped b) := by
  induction s with
  | nil => simp [formEncode]
  | cons b s ih =>
      obtain ⟨hle, heq⟩ := ih
      obtain ⟨hone, hbyte⟩ := length_encodeByte b
      have hlength : (formEncode (b :: s)).length = (encodeByte b).length + (formEncode s).length := by
        rw [formEncode, List.flatMap_cons, List.length_append, ← formEncode]
      rw [hlength, List.length_cons]
      refine ⟨by omega, ?_⟩
      intro h
      exact List.forall_mem_cons.mpr ⟨hbyte (by omega), heq (by omega)⟩

theorem unescaped_of_length {s : Str} (hlength : (formEncode s).length = s.length) (hspace : space ∉ s) :
    ∀ b ∈ s, Unescaped b := by
  intro b hb
  rcases (length_formEncode s).2 hlength b hb with rfl | h
  · exact absurd hb hspace
  · exact h

theorem space_not_mem_formEncode (s : Str) : space ∉ formEncode s := fun h => (formEncode_clean h).2.1 rfl

/-- **Texts that are all encodings of each other need no escaping.** Each is at least as long as what it
encodes, so none has grown. -/
theorem unescaped_of_subset {names : List Str} (hdistinct : names.Nodup)
    (h : ∀ name ∈ names, ∃ other ∈ names, formEncode other = name) :
    ∀ name ∈ names, ∀ b ∈ name, Unescaped b := by
  have hperm : names.Perm (names.map formEncode) := by
    have hsubset : names ⊆ names.map formEncode := by
      intro name hname
      obtain ⟨other, hother, rfl⟩ := h name hname
      exact List.mem_map_of_mem hother
    apply (hdistinct.subperm hsubset).perm_of_length_le
    rw [List.length_map]
  have hsum : (names.map List.length).sum = (names.map fun name => (formEncode name).length).sum := by
    rw [(hperm.map List.length).sum_eq, List.map_map]
    rfl
  intro name hname
  have hspace : space ∉ name := by
    obtain ⟨other, -, rfl⟩ := h name hname
    exact space_not_mem_formEncode other
  apply unescaped_of_length ?_ hspace
  by_contra hgrown
  have hlt : (names.map List.length).sum < (names.map fun name => (formEncode name).length).sum := by
    apply List.sum_lt_sum
    · intro other _
      exact (length_formEncode other).1
    · exact ⟨name, hname, lt_of_le_of_ne (length_formEncode name).1 (Ne.symm hgrown)⟩
  omega

/-! ### Requests -/

theorem fromQueryString_formText (utf : Utf) {pairs : List (Str × Str)} (hpairs : pairs ≠ []) :
    fromQueryString utf ∅ (formText pairs) = Collection.storeAll ∅ (bindings (encoded pairs)) := by
  have hread := fromQueryString_pairs utf ∅ (List.map_eq_nil_iff.not.mpr hpairs)
    (List.forall_mem_map.mpr fun pair _ => ⟨ascii_formEncode pair.1, ascii_formEncode pair.2⟩)
    (List.forall_mem_map.mpr fun pair _ => delimited_formEncode pair) false
  simpa [formText, encoded] using hread

theorem formText_ne_nil {pairs : List (Str × Str)} (hpairs : pairs ≠ []) : formText pairs ≠ [] := by
  obtain ⟨pair, pairs, rfl⟩ := List.exists_cons_of_ne_nil hpairs
  cases pairs <;> simp [formText, encoded, queryText, pairText]

theorem encoded_of_nothingToDecode {pairs : List (Str × Str)} (h : NothingToDecode pairs) :
    encoded pairs = pairs := by
  have hpair : ∀ pair ∈ pairs, (formEncode pair.1, formEncode pair.2) = pair := by
    intro pair hmem
    rw [formEncode_of_unescaped (h pair hmem).1, formEncode_of_unescaped (h pair hmem).2]
  rw [encoded, List.map_congr_left hpair, List.map_id']

theorem exists_name_of_stored {pairs : List (Str × Str)} {key value : Str}
    (h : stored key none (bindings (encoded pairs)) = some value) :
    ∃ name ∈ pairs.map Prod.fst, formEncode name = key := by
  by_contra hno
  have habsent : ∀ pair ∈ encoded pairs, pair.1 ≠ key := by
    intro pair hpair heq
    obtain ⟨original, horiginal, rfl⟩ := List.mem_map.mp hpair
    exact hno ⟨original.1, List.mem_map_of_mem horiginal, heq⟩
  rw [stored_bindings_of_absent habsent] at h
  cases h

theorem unescaped_of_formEncode_eq {s : Str} (h : formEncode s = s) : ∀ b ∈ s, Unescaped b := by
  apply unescaped_of_length (congrArg List.length h)
  rw [← h]
  exact space_not_mem_formEncode s

theorem nothingToDecode_of_stored {pairs : List (Str × Str)} (hdistinct : (pairs.map Prod.fst).Nodup)
    (h : ∀ pair ∈ pairs, stored pair.1 none (bindings (encoded pairs)) = some pair.2) :
    NothingToDecode pairs := by
  have hnames : ∀ name ∈ pairs.map Prod.fst, ∀ b ∈ name, Unescaped b := by
    apply unescaped_of_subset hdistinct
    intro name hname
    obtain ⟨pair, hpair, rfl⟩ := List.mem_map.mp hname
    exact exists_name_of_stored (h pair hpair)
  have hencoded : (encoded pairs).map Prod.fst = pairs.map Prod.fst := by
    rw [encoded, List.map_map]
    apply List.map_congr_left
    intro pair hpair
    exact formEncode_of_unescaped (hnames pair.1 (List.mem_map_of_mem hpair))
  intro pair hpair
  have hname := hnames pair.1 (List.mem_map_of_mem hpair)
  refine ⟨hname, ?_⟩
  have hstored := stored_bindings (hencoded ▸ hdistinct)
    (List.mem_map_of_mem (f := fun pair : Str × Str => (formEncode pair.1, formEncode pair.2)) hpair)
  simp only [formEncode_of_unescaped hname] at hstored
  exact unescaped_of_formEncode_eq (Option.some.inj (hstored.symm.trans (h pair hpair)))

theorem maps_formText_iff (utf : Utf) {pairs : List (Str × Str)} (hpairs : pairs ≠ [])
    (hdistinct : (pairs.map Prod.fst).Nodup) :
    Maps (fromQueryString utf ∅ (formText pairs)) pairs ↔ NothingToDecode pairs := by
  have hget : ∀ key : Str, (fromQueryString utf ∅ (formText pairs))[key]?
      = stored key none (bindings (encoded pairs)) := by
    intro key
    rw [fromQueryString_formText utf hpairs, Collection.getElem?_storeAll, Std.ExtTreeMap.getElem?_empty]
  constructor
  · intro h
    apply nothingToDecode_of_stored hdistinct
    intro pair hpair
    rw [← hget]
    exact h pair hpair
  · intro h pair hpair
    rw [hget, encoded_of_nothingToDecode h, stored_bindings hdistinct hpair]

def formMessage (pairs : List (Str × Str)) : HttpMessage where
  uri := lit "/"
  queryString := formText pairs
  headers := []
  body := formText pairs

/-- **A form is decoded exactly when there is nothing to decode.** -/
theorem decodesForm_iff (utf : Utf) (pairs : List (Str × Str)) (hdistinct : (pairs.map Prod.fst).Nodup) :
    DecodesForm utf pairs ↔ NothingToDecode pairs := by
  rcases eq_or_ne pairs [] with rfl | hpairs
  · exact iff_of_true ⟨fun _ _ => by simp [Maps], fun _ _ => by simp [Maps]⟩ (by simp [NothingToDecode])
  · have hlength : 0 < (formText pairs).length := List.length_pos_of_ne_nil (formText_ne_nil hpairs)
    have hmaps := maps_formText_iff utf hpairs hdistinct
    constructor
    · intro h
      have hpost := h.post (formMessage pairs) rfl
      simp only [MongooseRequest.new, show (formMessage pairs).body = formText pairs from rfl,
        if_pos hlength] at hpost
      exact hmaps.mp hpost
    · intro h
      constructor
      · intro message hbody
        simp only [MongooseRequest.new, hbody, if_pos hlength]
        exact hmaps.mpr h
      · intro message hquery
        simp only [MongooseRequest.new, hquery, if_pos hlength]
        exact hmaps.mpr h

theorem not_decodesForm_space : ¬ DecodesForm .widening [(lit "q", lit "a b")] := by
  intro h
  have hpost := h.post (formMessage [(lit "q", lit "a b")]) rfl _ List.mem_cons_self
  exact absurd hpost (by decide +kernel)

theorem decodesForm_letters : DecodesForm .widening [(lit "q", lit "ab"), (lit "n", lit "1")] :=
  (decodesForm_iff .widening [(lit "q", lit "ab"), (lit "n", lit "1")] (by decide)).2 <|
    List.forall_mem_cons.mpr ⟨⟨by decide +kernel, by decide +kernel⟩,
      List.forall_mem_cons.mpr ⟨⟨by decide +kernel, by decide +kernel⟩, by simp⟩⟩

end Rikitiki
