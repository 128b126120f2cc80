import Rikitiki.Routing.Scan

/-!
# The arguments of a route

Where the values of string placeholders are put into a route, `modern_sscanf` finds them again: a literal
behind a placeholder begins with a byte that no value has, so an extraction ends where its value does.
-/

namespace Rikitiki

open Stringstream (At)

/-- A literal that ends the value in front of it. -/
def EndsValue (literal : Str) : Prop := ∃ b rest, literal = b :: rest ∧ accepted b = false

/-- A value that `extract<string>` accepts. -/
structure Value (value : Str) : Prop where
  nonempty : value ≠ []
  accepted : ∀ b ∈ value, accepted b = true

namespace RouteString

/-- A route of string placeholders behind ASCII literals, with a byte between any two of them, and behind
the last one if there is a literal, that ends a value. -/
structure Separable (route : RouteString) : Prop where
  nonempty : route.pieces ≠ []
  strings : ∀ piece ∈ route.pieces, piece.type = .string
  ascii : ∀ piece ∈ route.pieces, piece.Ascii
  between : ∀ piece ∈ route.pieces.tail, EndsValue piece.literal
  behind : route.last = [] ∨ EndsValue route.last

/-- The URI with values in the place of the placeholders. -/
def substitute (route : RouteString) (values : List Str) : Str :=
  (List.zipWith (fun piece value => piece.literal ++ value) route.pieces values).flatten ++ route.last

end RouteString

theorem takeWhile_value {value rest : Str} (hvalue : Value value) (hrest : rest = [] ∨ EndsValue rest) :
    (value ++ rest).takeWhile accepted = value := by
  rw [List.takeWhile_append_of_pos hvalue.accepted]
  rcases hrest with rfl | ⟨b, rest, rfl, hb⟩
  · simp
  · rw [List.takeWhile_cons_of_neg (by simp [hb]), List.append_nil]

theorem consume_value {value rest : Str} (hvalue : Value value) (hrest : rest = [] ∨ EndsValue rest) :
    Placeholder.string.consume (value ++ rest) = some value := by
  simp only [Placeholder.consume, takeWhile_value hvalue hrest, if_neg hvalue.nonempty]

theorem EndsValue.append {literal : Str} (h : EndsValue literal) (rest : Str) : EndsValue (literal ++ rest) := by
  obtain ⟨b, tail, rfl, hb⟩ := h
  exact ⟨b, tail ++ rest, rfl, hb⟩

theorem endsValue_substituted {pieces : List RoutePiece} {last : Str} {values : List Str}
    (hbetween : ∀ piece ∈ pieces, EndsValue piece.literal) (hbehind : last = [] ∨ EndsValue last)
    (hlength : values.length = pieces.length) :
    let rest := (List.zipWith (fun piece value => piece.literal ++ value) pieces values).flatten ++ last
    rest = [] ∨ EndsValue rest := by
  cases pieces with
  | nil => simpa using hbehind
  | cons piece pieces =>
      cases values with
      | nil => cases hlength
      | cons value values =>
          right
          simp only [List.zipWith_cons_cons, List.flatten_cons, List.append_assoc]
          exact (hbetween piece (by simp)).append _

/-- **The scanner stores the values** that stand where a route has its placeholders. -/
theorem scan_substituted {pieces : List RoutePiece} {last : Str}
    (hstrings : ∀ piece ∈ pieces, piece.type = .string) (hascii : ∀ piece ∈ pieces, piece.Ascii)
    (hbetween : ∀ piece ∈ pieces.tail, EndsValue piece.literal) (hbehind : last = [] ∨ EndsValue last)
    {values : List Str} (hlength : values.length = pieces.length) (hvalues : ∀ value ∈ values, Value value)
    {s : Stringstream}
    (hs : At s ((List.zipWith (fun piece value => piece.literal ++ value) pieces values).flatten ++ last)) :
    scan (pieces.map RoutePiece.type) s ((pieces.map RoutePiece.text).flatten ++ last)
      = (pieces.length + 1, values) := by
  induction pieces generalizing values s with
  | nil =>
      obtain rfl := List.eq_nil_of_length_eq_zero hlength
      have htail : scanTail s last = 1 :=
        (scanTail_iff hs).2.mpr ⟨[], by simp, rfl⟩
      simp [scan, htail]
  | cons piece pieces ih =>
      cases values with
      | nil => cases hlength
      | cons value values =>
          have hlength : values.length = pieces.length := Nat.succ.inj hlength
          obtain ⟨hstring, hstrings⟩ := List.forall_mem_cons.mp hstrings
          obtain ⟨hpiece, hascii⟩ := List.forall_mem_cons.mp hascii
          obtain ⟨hvalue, hvalues⟩ := List.forall_mem_cons.mp hvalues
          have hrest := endsValue_substituted hbetween hbehind hlength
          rw [List.zipWith_cons_cons, List.flatten_cons, List.append_assoc, List.append_assoc] at hs
          have hconsume := consume_value hvalue hrest
          rw [← hstring] at hconsume
          obtain ⟨s', hscan, hs'⟩ := scan_piece_of_front hpiece hconsume hs (pieces.map RoutePiece.type)
            ((pieces.map RoutePiece.text).flatten ++ last)
          have hnext := ih hstrings hascii (fun p hp => hbetween p (List.mem_of_mem_tail hp)) hlength hvalues hs'
          rw [List.map_cons, List.map_cons, List.flatten_cons, List.append_assoc, hscan, hnext,
            List.length_cons, Nat.add_comm]

namespace RouteString

theorem nul_not_mem_substitute (route : RouteString) {values : List Str}
    (hvalues : ∀ value ∈ values, Value value) : nul ∉ route.substitute values := by
  rw [substitute, List.mem_append, not_or, List.mem_flatten]
  refine ⟨?_, route.last_free⟩
  rintro ⟨text, htext, hnul⟩
  rw [← List.map_uncurry_zip_eq_zipWith] at htext
  obtain ⟨⟨piece, value⟩, hmem, rfl⟩ := List.mem_map.mp htext
  rcases List.mem_append.mp hnul with hliteral | hvalue
  · exact (piece.literal_free nul hliteral).2 rfl
  · exact absurd ((hvalues value (List.of_mem_zip hmem).2).accepted nul hvalue) (by decide)

/-- **Extraction inverts substitution.** -/
theorem modernSscanf_substitute (route : RouteString) (hroute : route.Separable) (values : List Str)
    (hlength : values.length = route.pieces.length) (hvalues : ∀ value ∈ values, Value value) :
    modernSscanf route.types (route.substitute values) route.text = (values.length + 1, values) := by
  rw [modernSscanf, cstr_eq_self (route.nul_not_mem_substitute hvalues), cstr_eq_self route.nul_not_mem_text,
    hlength]
  exact scan_substituted hroute.strings hroute.ascii hroute.between hroute.behind hlength hvalues
    (Stringstream.at_new _)

theorem cookies_free :
    ((∀ b ∈ lit "/cookies/", b ≠ openBrace ∧ b ≠ nul) ∧ ∀ b ∈ lit "name", b ≠ closeBrace ∧ b ≠ nul) ∧
      (∀ b ∈ lit "/", b ≠ openBrace ∧ b ≠ nul) ∧ ∀ b ∈ lit "value", b ≠ closeBrace ∧ b ≠ nul := by
  simp [lit, openBrace, closeBrace, nul]

def cookies : RouteString where
  pieces := [
    ⟨lit "/cookies/", lit "name", .string, cookies_free.1.1, cookies_free.1.2⟩,
    ⟨lit "/", lit "value", .string, cookies_free.2.1, cookies_free.2.2⟩]
  last := []
  last_free := List.not_mem_nil

theorem separable_cookies : cookies.Separable where
  nonempty := by simp [cookies]
  strings := by simp [cookies]
  ascii := by decide
  between := by
    intro piece hpiece
    obtain rfl := List.mem_singleton.mp hpiece
    exact ⟨_, _, rfl, by decide⟩
  behind := .inl rfl

theorem modernSscanf_cookies : modernSscanf cookies.types (cookies.substitute [lit "id", lit "a%20b"])
    cookies.text = (3, [lit "id", lit "a%20b"]) :=
  cookies.modernSscanf_substitute separable_cookies [lit "id", lit "a%20b"] rfl <|
    List.forall_mem_cons.mpr ⟨⟨by decide, by simp [lit, accepted, accept]⟩,
      List.forall_mem_cons.mpr ⟨⟨by decide, by simp [lit, accepted, accept]⟩, by simp⟩⟩

end RouteString

end Rikitiki
