import Rikitiki.Routing.Stringstream
import Rikitiki.Http.Enums
import Mathlib.Data.List.TakeDrop

/-!
# Routes

`modern_sscanf` scans a URI for a route string with one placeholder for each type of its argument list. The
text in front of a placeholder is compared by `skip_to_format`, the text behind the last one by the
`modern_sscanf` without arguments. The cursors of the source are what is left of the format. `Matches` says
what a route is for; `CanHandle` does not always agree with it.
-/

namespace Rikitiki

abbrev openBrace : Byte := 123
abbrev closeBrace : Byte := 125

/-! ### The scanner -/

/-- `skip_to_format`, `none` when it returns false. The NUL behind the format is no byte that `peek`
returns twice. -/
def skipToFormat : Stringstream → Str → Option (Stringstream × Str)
  | _, [] => none
  | b, c :: format =>
    if c = openBrace then some (b, c :: format)
    else
      let (v, b) := b.peek
      if v ≠ charValue c then none
      else
        let (v, b) := b.peek
        if v = 0 then none
        else skipToFormat b.get.2 format

/-- `skip_to_unformat`, whose result nobody looks at. -/
def skipToUnformat : Str → Str
  | [] => []
  | c :: format => if c = closeBrace then format else skipToUnformat format

/-- The characters `extract<string>` accepts. -/
def accept (v : Int) : Bool :=
  (48 ≤ v && v ≤ 59) || (64 ≤ v && v ≤ 90) || (95 ≤ v && v ≤ 122) || v == 37 || v == 45

/-- The loop of `extract<string>`. -/
def extractLoop : Nat → Stringstream → Str → Str × Stringstream
  | 0, b, t => (t, b)
  | fuel + 1, b, t =>
    if b.good then
      let (v, b) := b.get
      if accept v then extractLoop fuel b (t ++ [toChar v]) else (t, b.unget)
    else (t, b)

/-- An `operator>>`: the front of the input it consumes when it succeeds, and whether it looks for more
behind it. Formatted input fails at the end of a stream. -/
structure Extractor where
  consume : Str → Option Str
  looksOn : Str → Bool
  front : ∀ u v, consume u = some v → v <+: u
  fails_at_end : consume [] = none
  looksOn_end : ∀ u v, consume u = some v → looksOn u = true → v = u

inductive Placeholder where
  | string
  | other (extractor : Extractor)

/-- `extract`: the text that is consumed for the value, and `none` when it returns false. -/
def Placeholder.extract (type : Placeholder) (b : Stringstream) : Option (Str × Stringstream) :=
  match type with
  | .string =>
    let (t, b) := extractLoop (b.rest.length + 1) b []
    if 0 < t.length then some (t, b) else none
  | .other extractor =>
    if b.good then
      (extractor.consume b.rest).map fun v =>
        (v, { b with
          read := v.reverse ++ b.read
          rest := b.rest.drop v.length
          eofbit := extractor.looksOn b.rest })
    else none

/-- `modern_sscanf` without arguments. -/
def scanTail : Stringstream → Str → Nat
  | b, [] => if toChar eof = toChar b.peek.1 then 1 else 0
  | b, c :: format =>
    if b.eofbit then 0
    else
      let (v, b) := b.peek
      if toChar v ≠ c then 0
      else if b.get.2.good then scanTail b.get.2 format
      else 0

/-- `modern_sscanf` on a stream: how much it matched, and the texts of the values. -/
def scan : List Placeholder → Stringstream → Str → Nat × List Str
  | [], b, format => (scanTail b format, [])
  | type :: types, b, format =>
    match skipToFormat b format with
    | none => (0, [])
    | some (b, format) =>
      match type.extract b with
      | none => (0, [])
      | some (value, b) =>
        let (matched, values) := scan types b (skipToUnformat format)
        (1 + matched, value :: values)

/-- `modern_sscanf` on two C strings. -/
def modernSscanf (types : List Placeholder) (b format : Str) : Nat × List Str :=
  scan types { rest := cstr b } (cstr format)

/-! ### Routes -/

/-- What routing looks at in a request. The URI is a C string. -/
structure Request where
  requestMethod : RequestMethod
  uri : Str
  uri_free : nul ∉ uri
  deriving DecidableEq, Repr

structure Route where
  route : Str
  method : RequestMethod
  types : List Placeholder

/-- `Route_<P, T...>::CanHandle`, and the specialization for functions without arguments. -/
def Route.canHandle (r : Route) (request : Request) : Bool :=
  match r.types with
  | [] => cstr r.route = cstr request.uri && (r.method = .any || r.method = request.requestMethod)
  | types =>
    if r.method ≠ .any ∧ r.method ≠ request.requestMethod then false
    else (modernSscanf types request.uri r.route).1 = types.length + 1

/-! ### What a route is for -/

/-- The bytes `extract<string>` accepts. -/
def accepted (b : Byte) : Bool := accept b.toNat

/-- What the extraction for a placeholder consumes of `u`, if it succeeds. -/
def Placeholder.consume : Placeholder → Str → Option Str
  | .string, u =>
    let v := u.takeWhile accepted
    if v = [] then none else some v
  | .other extractor, u => extractor.consume u

/-- A placeholder of a route with the literal in front of it. -/
structure RoutePiece where
  literal : Str
  name : Str
  type : Placeholder
  literal_free : ∀ b ∈ literal, b ≠ openBrace ∧ b ≠ nul
  name_free : ∀ b ∈ name, b ≠ closeBrace ∧ b ≠ nul

def RoutePiece.text (piece : RoutePiece) : Str :=
  piece.literal ++ openBrace :: (piece.name ++ [closeBrace])

/-- A route string by its placeholders, with the literal behind the last one. -/
structure RouteString where
  pieces : List RoutePiece
  last : Str
  last_free : nul ∉ last

namespace RouteString

def text (route : RouteString) : Str := (route.pieces.map RoutePiece.text).flatten ++ route.last

def types (route : RouteString) : List Placeholder := route.pieces.map RoutePiece.type

def create (route : RouteString) (method : RequestMethod) : Route := ⟨route.text, method, route.types⟩

end RouteString

/-- A URI is what a route says, with `leftover` behind it: the literals with what the extractions consume
between them. -/
inductive Matches : List RoutePiece → Str → Str → Str → Prop
  | last (literal leftover : Str) : Matches [] literal (literal ++ leftover) leftover
  | piece {piece : RoutePiece} {pieces : List RoutePiece} {literal value rest leftover : Str}
      (hvalue : piece.type.consume (value ++ rest) = some value)
      (hrest : Matches pieces literal rest leftover) :
      Matches (piece :: pieces) literal (piece.literal ++ (value ++ rest)) leftover

theorem matches_nil {literal uri leftover : Str} : Matches [] literal uri leftover ↔ uri = literal ++ leftover := by
  constructor
  · rintro ⟨⟩
    rfl
  · rintro rfl
    exact .last literal leftover

theorem matches_cons {piece : RoutePiece} {pieces : List RoutePiece} {literal uri leftover : Str} :
    Matches (piece :: pieces) literal uri leftover ↔
      ∃ value rest, uri = piece.literal ++ (value ++ rest) ∧
        piece.type.consume (value ++ rest) = some value ∧ Matches pieces literal rest leftover := by
  constructor
  · rintro (_ | ⟨hvalue, hrest⟩)
    exact ⟨_, _, rfl, hvalue, hrest⟩
  · rintro ⟨value, rest, rfl, hvalue, hrest⟩
    exact .piece hvalue hrest

theorem Matches.unique {pieces : List RoutePiece} {literal uri leftover leftover' : Str}
    (h : Matches pieces literal uri leftover) (h' : Matches pieces literal uri leftover') :
    leftover = leftover' := by
  induction h generalizing leftover' with
  | last literal leftover =>
      generalize huri : literal ++ leftover = uri at h'
      cases h' with
      | last => exact List.append_cancel_left huri
  | @piece piece pieces literal value rest leftover hvalue hrest ih =>
      generalize huri : piece.literal ++ (value ++ rest) = uri at h'
      cases h' with
      | @piece _ _ _ value' rest' _ hvalue' hrest' =>
          have hsame := List.append_cancel_left huri
          rw [hsame, hvalue'] at hvalue
          obtain rfl := Option.some.inj hvalue
          obtain rfl := List.append_cancel_left hsame
          exact ih hrest'

/-! ### Reading off the stream -/

open Stringstream (At next)

theorem charValue_of_lt {b : Byte} (h : b < 128) : charValue b = b.toNat := if_pos h

theorem charValue_neg {b : Byte} (h : ¬ b < 128) : charValue b < 0 := by
  have hlt := b.toNat_lt
  rw [charValue, if_neg h]
  omega

theorem byte_eq_charValue {b c : Byte} : (b.toNat : Int) = charValue c ↔ b = c ∧ c < 128 := by
  constructor
  · intro h
    by_cases hc : c < 128
    · rw [charValue_of_lt hc] at h
      exact ⟨UInt8.toNat_inj.mp (by omega), hc⟩
    · have hneg := charValue_neg hc
      omega
  · rintro ⟨rfl, hc⟩
    exact (charValue_of_lt hc).symm

theorem toChar_byte (b : Byte) : toChar b.toNat = b := by
  have hlt : b.toNat < 256 := b.toNat_lt
  have hmod : ((b.toNat : Int) % 256).toNat = b.toNat := by omega
  rw [toChar, hmod]
  simp

theorem toChar_next (u : Str) : toChar (next u) = (u.head?).getD 0xFF := by
  cases u with
  | nil => rfl
  | cons b u => exact toChar_byte b

theorem charValue_ne_zero {c : Byte} (h : c ≠ nul) : charValue c ≠ 0 := by
  intro hzero
  by_cases hc : c < 128
  · rw [charValue_of_lt hc] at hzero
    exact h (UInt8.toNat_inj.mp (by simpa using hzero))
  · have hneg := charValue_neg hc
    omega

theorem skipToFormat_cons {u : Str} {s : Stringstream} (hs : At s u) {c : Byte}
    (hc : c ≠ openBrace ∧ c ≠ nul) (format : Str) :
    ∃ s', skipToFormat s (c :: format) = (if next u = charValue c then skipToFormat s' format else none) ∧
      (∀ b rest, u = b :: rest → At s' rest) ∧ (u = [] → s'.failbit = true) := by
  obtain ⟨hpeek, hat⟩ := hs.peek
  obtain ⟨hpeek', hat'⟩ := hat.peek
  refine ⟨s.peek.2.peek.2.get.2, ?_, ?_, ?_⟩
  · simp only [skipToFormat, if_neg hc.1, hpeek, hpeek']
    by_cases hvalue : next u = charValue c
    · have hne : next u ≠ 0 := by
        rw [hvalue]
        exact charValue_ne_zero hc.2
      rw [if_neg (not_not.mpr hvalue), if_neg hne, if_pos hvalue]
    · rw [if_pos hvalue, if_neg hvalue]
  · rintro b rest rfl
    exact hat'.get.2.1
  · rintro rfl
    exact hat'.get_nil.2.2

/-- **A literal of ASCII characters** in front of a placeholder is skipped when it is there. -/
theorem skipToFormat_ascii {literal : Str} (hfree : ∀ b ∈ literal, b ≠ openBrace ∧ b ≠ nul)
    (hascii : ∀ b ∈ literal, b < 128) {rest : Str} {s : Stringstream} (hs : At s (literal ++ rest))
    (format : Str) :
    ∃ s', skipToFormat s (literal ++ openBrace :: format) = some (s', openBrace :: format) ∧ At s' rest := by
  induction literal generalizing s with
  | nil => exact ⟨s, by simp [skipToFormat], hs⟩
  | cons c literal ih =>
      obtain ⟨hc, hliteral⟩ := List.forall_mem_cons.mp hfree
      obtain ⟨hlt, hlts⟩ := List.forall_mem_cons.mp hascii
      obtain ⟨s₁, hskip, hat, -⟩ := skipToFormat_cons hs hc (literal ++ openBrace :: format)
      obtain ⟨s', hskip', hs'⟩ := ih hliteral hlts (hat c (literal ++ rest) rfl)
      refine ⟨s', ?_, hs'⟩
      have hvalue : next (c :: (literal ++ rest)) = charValue c := byte_eq_charValue.mpr ⟨rfl, hlt⟩
      rw [List.cons_append, hskip, List.cons_append, if_pos hvalue, hskip']

theorem skipToFormat_failbit {s s' : Stringstream} {format format' : Str} (hs : s.failbit = true)
    (h : skipToFormat s format = some (s', format')) : s'.failbit = true := by
  induction format generalizing s with
  | nil => cases h
  | cons c format ih =>
      rw [skipToFormat] at h
      split at h
      · obtain ⟨rfl, -⟩ := Prod.mk.inj (Option.some.inj h)
        exact hs
      · simp only at h
        split at h
        · cases h
        · split at h
          · cases h
          · exact ih (Stringstream.get_of_failbit (Stringstream.peek_of_failbit
              (Stringstream.peek_of_failbit hs))) h

/-- **Any other literal** in front of a placeholder is not skipped, or the stream has failed behind it. -/
theorem skipToFormat_other {literal : Str} (hfree : ∀ b ∈ literal, b ≠ openBrace ∧ b ≠ nul) {u : Str}
    {s s' : Stringstream} (hs : At s u) {format format' : Str}
    (h : skipToFormat s (literal ++ openBrace :: format) = some (s', format')) :
    s'.failbit = true ∨
      (∀ b ∈ literal, b < 128) ∧ ∃ rest, u = literal ++ rest ∧ At s' rest ∧ format' = openBrace :: format := by
  induction literal generalizing s u with
  | nil =>
      rw [List.nil_append, skipToFormat, if_pos rfl] at h
      obtain ⟨rfl, rfl⟩ := Prod.mk.inj (Option.some.inj h)
      exact .inr ⟨by simp, u, rfl, hs, rfl⟩
  | cons c literal ih =>
      obtain ⟨hc, hliteral⟩ := List.forall_mem_cons.mp hfree
      obtain ⟨s₁, hskip, hat, hfail⟩ := skipToFormat_cons hs hc (literal ++ openBrace :: format)
      rw [List.cons_append, hskip] at h
      split at h
      · rename_i hvalue
        cases u with
        | nil => exact .inl (skipToFormat_failbit (hfail rfl) h)
        | cons b u =>
            obtain ⟨rfl, hlt⟩ := byte_eq_charValue.mp hvalue
            rcases ih hliteral (hat b u rfl) h with hfailed | ⟨hascii, rest, rfl, hrest, hformat⟩
            · exact .inl hfailed
            · exact .inr ⟨List.forall_mem_cons.mpr ⟨hlt, hascii⟩, rest, rfl, hrest, hformat⟩
      · cases h

theorem skipToUnformat_name {name : Str} (hname : ∀ b ∈ name, b ≠ closeBrace ∧ b ≠ nul) (format : Str) :
    skipToUnformat (name ++ closeBrace :: format) = format := by
  induction name with
  | nil => simp [skipToUnformat]
  | cons c name ih =>
      obtain ⟨hc, hrest⟩ := List.forall_mem_cons.mp hname
      rw [List.cons_append, skipToUnformat, if_neg hc.1, ih hrest]

/-! ### Extractions -/

theorem extractLoop_spec {fuel : Nat} {u : Str} {s : Stringstream} (hs : At s u) (hfuel : u.length < fuel)
    (t : Str) :
    (extractLoop fuel s t).1 = t ++ u.takeWhile accepted ∧
      At (extractLoop fuel s t).2 (u.dropWhile accepted) := by
  induction fuel generalizing u s t with
  | zero => omega
  | succ fuel ih =>
      cases u with
      | nil =>
          rw [extractLoop]
          split
          · obtain ⟨hget, hrest, hfailed⟩ := hs.get_nil
            obtain ⟨hunget, -⟩ := Stringstream.unget_of_failbit hfailed
            have hno : accept eof = false := by decide
            simp only [hget, hno, Bool.false_eq_true, if_false]
            exact ⟨(List.append_nil t).symm, hunget.trans hrest, .inr rfl⟩
          · exact ⟨(List.append_nil t).symm, hs⟩
      | cons b u =>
          obtain ⟨hget, hat, hgood, hread⟩ := hs.get
          rw [extractLoop, if_pos hs.good_of_cons]
          simp only [hget, show accept b.toNat = accepted b from rfl]
          split
          · rename_i haccept
            obtain ⟨htext, hstream⟩ := ih hat (by simpa using hfuel) (t ++ [toChar b.toNat])
            rw [List.takeWhile_cons_of_pos haccept, List.dropWhile_cons_of_pos haccept]
            refine ⟨?_, hstream⟩
            rw [htext, toChar_byte, List.append_assoc, List.singleton_append]
          · rename_i haccept
            rw [List.takeWhile_cons_of_neg haccept, List.dropWhile_cons_of_neg haccept]
            exact ⟨(List.append_nil t).symm, (hat.unget hgood hread).1⟩

/-- **An extraction** consumes what it is said to, and fails when it is said to. -/
theorem extract_spec (type : Placeholder) {u : Str} {s : Stringstream} (hs : At s u) :
    (type.consume u = none → type.extract s = none) ∧
      ∀ v, type.consume u = some v →
        ∃ rest s', u = v ++ rest ∧ type.extract s = some (v, s') ∧ At s' rest := by
  obtain rfl := hs.rest
  cases type with
  | string =>
      obtain ⟨htext, hstream⟩ := extractLoop_spec hs (Nat.lt_succ_self _) []
      rw [List.nil_append] at htext
      have hextract : Placeholder.string.extract s
          = if 0 < (s.rest.takeWhile accepted).length then
              some (s.rest.takeWhile accepted, (extractLoop (s.rest.length + 1) s []).2) else none := by
        simp only [Placeholder.extract, htext]
      rw [hextract]
      simp only [Placeholder.consume]
      constructor
      · intro hnone
        split at hnone
        · rename_i hnil
          simp [hnil]
        · cases hnone
      · intro v hv
        split at hv
        · cases hv
        · rename_i hne
          obtain rfl := Option.some.inj hv
          exact ⟨_, _, (List.takeWhile_append_dropWhile).symm,
            if_pos (List.length_pos_of_ne_nil hne), hstream⟩
  | other extractor =>
      simp only [Placeholder.extract, Placeholder.consume]
      constructor
      · intro hnone
        rw [hnone]
        simp
      · intro v hv
        obtain ⟨rest, hrest⟩ := extractor.front _ _ hv
        have hgood : s.good = true := by
          rcases hs.good with hgood | hnil
          · exact hgood
          · rw [hnil, extractor.fails_at_end] at hv
            cases hv
        obtain ⟨⟨-, hfailed⟩, hbad⟩ : (s.eofbit = false ∧ s.failbit = false) ∧ s.badbit = false := by
          simpa [Stringstream.good] using hgood
        refine ⟨rest, _, hrest.symm, by rw [if_pos hgood, hv]; rfl, ?_, ?_⟩
        · simp [← hrest]
        · cases hlooks : extractor.looksOn s.rest with
          | false => exact .inl (by simp [Stringstream.good, hfailed, hbad])
          | true =>
              have hall := extractor.looksOn_end _ _ hv hlooks
              rw [hall] at hrest
              exact .inr (List.append_right_eq_self.mp hrest)

theorem extract_failbit (type : Placeholder) {s : Stringstream} (hs : s.failbit = true) :
    type.extract s = none := by
  have hgood := Stringstream.not_good_of_failbit hs
  cases type with
  | string => simp [Placeholder.extract, extractLoop, hgood]
  | other extractor => simp [Placeholder.extract, hgood]

/-! ### Scanning a URI -/

def RoutePiece.Ascii (piece : RoutePiece) : Prop := ∀ b ∈ piece.literal, b < 128

instance (piece : RoutePiece) : Decidable piece.Ascii := List.decidableBAll _ _

theorem skipToUnformat_text (piece : RoutePiece) (format : Str) :
    skipToUnformat (openBrace :: (piece.name ++ closeBrace :: format)) = format := by
  rw [skipToUnformat, if_neg (by decide), skipToUnformat_name piece.name_free]

theorem text_append (piece : RoutePiece) (format : Str) :
    piece.text ++ format = piece.literal ++ openBrace :: (piece.name ++ closeBrace :: format) := by
  simp [RoutePiece.text]

/-- A placeholder of a route is passed where its literal and its value are, and the value is stored. -/
theorem scan_piece_of_front {piece : RoutePiece} (hascii : piece.Ascii) {value rest : Str}
    (hvalue : piece.type.consume (value ++ rest) = some value) {s : Stringstream}
    (hs : At s (piece.literal ++ (value ++ rest))) (types : List Placeholder) (format : Str) :
    ∃ s', scan (piece.type :: types) s (piece.text ++ format)
        = (1 + (scan types s' format).1, value :: (scan types s' format).2) ∧ At s' rest := by
  obtain ⟨s₁, hskip, hs₁⟩ :=
    skipToFormat_ascii piece.literal_free hascii hs (piece.name ++ closeBrace :: format)
  obtain ⟨rest', s', hrest, hextract, hs'⟩ := (extract_spec piece.type hs₁).2 value hvalue
  obtain rfl := List.append_cancel_left hrest
  refine ⟨s', ?_, hs'⟩
  rw [text_append, scan, hskip]
  simp only [hextract, skipToUnformat_text]

theorem front_of_scan_piece {piece : RoutePiece} {u : Str} {s : Stringstream} (hs : At s u)
    {types : List Placeholder} {format : Str}
    (h : (scan (piece.type :: types) s (piece.text ++ format)).1 ≠ 0) :
    piece.Ascii ∧ ∃ value rest, u = piece.literal ++ (value ++ rest) ∧
      piece.type.consume (value ++ rest) = some value := by
  rw [text_append, scan] at h
  cases hskip : skipToFormat s (piece.literal ++ openBrace :: (piece.name ++ closeBrace :: format)) with
  | none =>
      rw [hskip] at h
      exact absurd rfl h
  | some skipped =>
      rw [hskip] at h
      rcases skipToFormat_other piece.literal_free hs hskip with hfailed | ⟨hascii, rest, rfl, hrest, -⟩
      · simp only [extract_failbit piece.type hfailed] at h
        exact absurd rfl h
      · cases hvalue : piece.type.consume rest with
        | none =>
            simp only [(extract_spec piece.type hrest).1 hvalue] at h
            exact absurd rfl h
        | some value =>
            obtain ⟨rest', -, rfl, -⟩ := (extract_spec piece.type hrest).2 value hvalue
            exact ⟨hascii, value, rest', rfl, hvalue⟩

/-- What the scanner takes for the end of a URI: nothing is left, or the byte that `EOF` is as a `char`. -/
def TakenForEnd (leftover : Str) : Prop := leftover.head?.getD 0xFF = 0xFF

theorem scanTail_iff {literal u : Str} {s : Stringstream} (hs : At s u) :
    (scanTail s literal = 0 ∨ scanTail s literal = 1) ∧
      (scanTail s literal = 1 ↔ ∃ leftover, u = literal ++ leftover ∧ TakenForEnd leftover) := by
  induction literal generalizing s u with
  | nil =>
      have heof : toChar eof = 0xFF := rfl
      simp only [scanTail, hs.peek.1, toChar_next, heof, List.nil_append, exists_eq_left', TakenForEnd]
      split
      · rename_i hend
        exact ⟨.inr rfl, iff_of_true rfl hend.symm⟩
      · rename_i hend
        exact ⟨.inl rfl, iff_of_false (by decide) (Ne.symm hend)⟩
  | cons c literal ih =>
      obtain ⟨hpeek, hat⟩ := hs.peek
      cases u with
      | nil =>
          have hnone : ¬ ∃ leftover, [] = c :: literal ++ leftover ∧ TakenForEnd leftover := by simp
          have hbad : s.peek.2.get.2.good = false := Stringstream.not_good_of_failbit hat.get_nil.2.2
          have hzero : scanTail s (c :: literal) = 0 := by simp [scanTail, hbad]
          rw [hzero]
          exact ⟨.inl rfl, iff_of_false (by decide) hnone⟩
      | cons b u =>
          obtain ⟨-, hrest, hgood, -⟩ := hat.get
          have heofbit : s.eofbit = false := by
            have := hs.good_of_cons
            simp only [Stringstream.good] at this
            cases h : s.eofbit <;> simp_all
          have hvalue : toChar s.peek.1 = b := by
            rw [hpeek]
            exact toChar_byte b
          by_cases hb : b = c
          · subst hb
            have hstep : scanTail s (b :: literal) = scanTail s.peek.2.get.2 literal := by
              simp [scanTail, heofbit, hvalue, hgood]
            rw [hstep]
            simpa using ih hrest
          · have hzero : scanTail s (c :: literal) = 0 := by simp [scanTail, heofbit, hvalue, hb]
            rw [hzero]
            exact ⟨.inl rfl, iff_of_false (by decide) (by simp [hb])⟩

/-- **The scanner matches everything** exactly where the literals in front of the placeholders are ASCII and
the URI goes on as the route says, up to what is taken for its end. -/
theorem scan_iff (pieces : List RoutePiece) (last : Str) {u : Str} {s : Stringstream} (hs : At s u) :
    (scan (pieces.map RoutePiece.type) s ((pieces.map RoutePiece.text).flatten ++ last)).1
        = pieces.length + 1 ↔
      (∀ piece ∈ pieces, piece.Ascii) ∧ ∃ leftover, Matches pieces last u leftover ∧ TakenForEnd leftover := by
  induction pieces generalizing s u with
  | nil => simp [scan, (scanTail_iff hs).2, matches_nil]
  | cons piece pieces ih =>
      simp only [List.map_cons, List.flatten_cons, List.append_assoc, List.length_cons]
      constructor
      · intro hscan
        obtain ⟨hascii, value, rest, rfl, hvalue⟩ :=
          front_of_scan_piece hs (by rw [hscan]; exact Nat.succ_ne_zero _)
        obtain ⟨s', hpiece, hs'⟩ := scan_piece_of_front hascii hvalue hs (pieces.map RoutePiece.type)
          ((pieces.map RoutePiece.text).flatten ++ last)
        rw [hpiece] at hscan
        obtain ⟨hpieces, leftover, hmatches, hend⟩ := (ih hs').mp (by omega)
        exact ⟨List.forall_mem_cons.mpr ⟨hascii, hpieces⟩, leftover,
          matches_cons.mpr ⟨value, rest, rfl, hvalue, hmatches⟩, hend⟩
      · rintro ⟨hall, leftover, hmatches, hend⟩
        obtain ⟨hascii, hpieces⟩ := List.forall_mem_cons.mp hall
        obtain ⟨value, rest, rfl, hvalue, hrest⟩ := matches_cons.mp hmatches
        obtain ⟨s', hpiece, hs'⟩ := scan_piece_of_front hascii hvalue hs (pieces.map RoutePiece.type)
          ((pieces.map RoutePiece.text).flatten ++ last)
        rw [hpiece, (ih hs').mpr ⟨hpieces, leftover, hrest, hend⟩, Nat.add_comm]

/-! ### Routes accept what they describe -/

namespace RouteString

theorem nul_not_mem_text (route : RouteString) : nul ∉ route.text := by
  rw [text, List.mem_append, not_or, List.mem_flatten]
  refine ⟨?_, route.last_free⟩
  rintro ⟨text, htext, hnul⟩
  obtain ⟨piece, -, rfl⟩ := List.mem_map.mp htext
  simp only [RoutePiece.text, List.mem_append, List.mem_cons, List.not_mem_nil, or_false] at hnul
  rcases hnul with hliteral | hopen | hname | hclose
  · exact (piece.literal_free nul hliteral).2 rfl
  · exact absurd hopen (by decide)
  · exact (piece.name_free nul hname).2 rfl
  · exact absurd hclose (by decide)

theorem canHandle_create (route : RouteString) (hpieces : route.pieces ≠ []) {method : RequestMethod}
    {request : Request} (hmethod : method = .any ∨ method = request.requestMethod) :
    (route.create method).canHandle request = true ↔
      (∀ piece ∈ route.pieces, piece.Ascii) ∧
        ∃ leftover, Matches route.pieces route.last request.uri leftover ∧ TakenForEnd leftover := by
  have htypes : (route.create method).types ≠ [] := List.map_eq_nil_iff.not.mpr hpieces
  have hagree : ¬ ((route.create method).method ≠ .any ∧
      (route.create method).method ≠ request.requestMethod) := by
    rw [not_and_or, not_not, not_not]
    exact hmethod
  have hlength : (route.create method).types.length = route.pieces.length := List.length_map _
  rw [Route.canHandle]
  split
  · contradiction
  · rw [if_neg hagree, decide_eq_true_iff, hlength, modernSscanf, cstr_eq_self request.uri_free,
      show (route.create method).route = route.text from rfl, cstr_eq_self route.nul_not_mem_text]
    exact scan_iff route.pieces route.last (Stringstream.at_new request.uri)

/-- The route accepts a URI exactly if it is what the route says. -/
def AcceptsExactly (route : RouteString) (method : RequestMethod) (request : Request) : Prop :=
  (route.create method).canHandle request = true ↔ Matches route.pieces route.last request.uri []

/-- **A route accepts exactly its language** where its literals in front of placeholders are ASCII and the
URI does not go on with the byte `0xFF` behind a match; and with any other literal it accepts nothing. -/
theorem acceptsExactly_iff (route : RouteString) (hpieces : route.pieces ≠ []) {method : RequestMethod}
    {request : Request} (hmethod : method = .any ∨ method = request.requestMethod) :
    route.AcceptsExactly method request ↔
      ((∀ piece ∈ route.pieces, piece.Ascii) ∧
        ∀ leftover, Matches route.pieces route.last request.uri leftover → leftover.head? ≠ some 0xFF) ∨
      (¬ (∀ piece ∈ route.pieces, piece.Ascii) ∧ ¬ Matches route.pieces route.last request.uri []) := by
  rw [AcceptsExactly, route.canHandle_create hpieces hmethod]
  by_cases hascii : ∀ piece ∈ route.pieces, piece.Ascii
  · rw [and_iff_right hascii, and_iff_right hascii, or_iff_left (fun h => h.1 hascii)]
    constructor
    · intro hexact leftover hmatches hhead
      have hempty := hexact.mp ⟨leftover, hmatches, by rw [TakenForEnd, hhead]; rfl⟩
      obtain rfl := hmatches.unique hempty
      cases hhead
    · intro hno
      constructor
      · rintro ⟨leftover, hmatches, hend⟩
        cases leftover with
        | nil => exact hmatches
        | cons b leftover => exact absurd (congrArg some hend) (hno _ hmatches)
      · intro hmatches
        exact ⟨[], hmatches, rfl⟩
  · rw [or_iff_right (fun h => hascii h.1), and_iff_right hascii]
    constructor
    · intro hexact hmatches
      exact hascii (hexact.mpr hmatches).1
    · intro hno
      exact iff_of_false (fun h => hascii h.1) hno

/-- The bytes of `/é/` in front of a placeholder are never found in a URI. -/
example :
    (Route.mk ([0x2F, 0xC3, 0xA9, 0x2F] ++ lit "{id}") .any [.string]).canHandle
      ⟨.get, [0x2F, 0xC3, 0xA9, 0x2F] ++ lit "a", by decide⟩ = false := by decide

def byId : RouteString where
  pieces := [⟨lit "/", lit "id", .string, by simp [lit, openBrace, nul], by simp [lit, closeBrace, nul]⟩]
  last := []
  last_free := by decide

def getA (leftover : Str) (h : nul ∉ lit "/a" ++ leftover) : Request := ⟨.get, lit "/a" ++ leftover, h⟩

theorem matches_getA {leftover : Str} (h : leftover.takeWhile accepted = []) :
    Matches byId.pieces byId.last (lit "/a" ++ leftover) leftover := by
  have hvalue : Placeholder.string.consume (lit "a" ++ leftover) = some (lit "a") := by
    have hall : ∀ b ∈ lit "a", accepted b = true := by
      simp [lit, accepted, accept]
    rw [Placeholder.consume, List.takeWhile_append_of_pos hall, h]
    rfl
  exact matches_cons.mpr ⟨lit "a", leftover, rfl, hvalue, .last [] leftover⟩

theorem acceptsExactly_getA : byId.AcceptsExactly .any (getA [] (by decide)) := by
  refine (byId.acceptsExactly_iff (by decide) (.inl rfl)).mpr (.inl ⟨by decide, ?_⟩)
  intro leftover hmatches
  obtain rfl := hmatches.unique (matches_getA rfl)
  nofun

/-- `/{id}` accepts `/a` with the byte `0xFF` behind it. -/
theorem not_forall_acceptsExactly :
    ¬ ∀ (route : RouteString) (method : RequestMethod) (request : Request), route.pieces ≠ [] →
      method = .any ∨ method = request.requestMethod → route.AcceptsExactly method request := by
  intro h
  have haccepts : (byId.create .any).canHandle (getA [0xFF] (by decide)) = true := by decide
  have hmatches := (h byId .any (getA [0xFF] (by decide)) (by decide) (.inl rfl)).mp haccepts
  exact absurd (hmatches.unique (matches_getA rfl)) (by decide)

end RouteString

end Rikitiki
