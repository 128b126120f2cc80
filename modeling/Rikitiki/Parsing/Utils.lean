import Rikitiki.Http.Header

/-!
# Splitting a header line

The two cursor functions of `Utils.h`. A cursor is what is left of the line, so each returns the text
it read and the new cursor.
-/

namespace Rikitiki

def skipWhitespace (data : Str) : Str := data.dropWhile isBlank

def readHeaderName (data : Str) : Str × Str :=
  let inName (b : Byte) : Bool := !(isSpace b || b == colon)
  let rest := (data.dropWhile inName).dropWhile fun b => b ≠ colon
  (data.takeWhile inName, skipWhitespace (rest.dropWhile fun b => b = colon))

def readHeaderValue (data : Str) : Str × Str :=
  let inValue (b : Byte) : Bool := !isNewline b
  (data.takeWhile inValue, data.dropWhile inValue)

/-- The header a line of the head is read as: both parts pass through C strings. -/
def readHeader (line : Str) : Header :=
  let (name, rest) := readHeaderName line
  ⟨cstr name, cstr (readHeaderValue rest).1⟩

/-- The line `OMessageWriter::WriteHeader` sends. -/
def headerLine (header : Header) : Str := header.name ++ lit ": " ++ header.value ++ crlf

/-- A header that is read back as it was written: the name is a run of visible characters without a
colon, and the value starts where the blanks behind the colon end. -/
structure Header.Sendable (header : Header) : Prop where
  name_visible : ∀ b ∈ header.name, isSpace b = false ∧ b ≠ colon ∧ b ≠ nul
  value_plain : Plain header.value
  value_head : ∀ b ∈ header.value.head?, isBlank b = false

instance (header : Header) : Decidable header.Sendable :=
  decidable_of_iff (header.name.all (fun b => !isSpace b && b != colon && b != nul) = true ∧
      Plain header.value ∧ header.value.head?.any isBlank = false)
    ⟨fun h => ⟨fun b hb => by simpa [and_assoc] using List.all_eq_true.mp h.1 b hb, h.2.1,
        fun b hb => by simpa [Option.mem_def.mp hb] using h.2.2⟩,
      fun h => ⟨List.all_eq_true.mpr fun b hb => by simpa [and_assoc] using h.name_visible b hb,
        h.value_plain, by
        cases hhead : header.value.head? with
        | none => rfl
        | some b => exact h.value_head b hhead⟩⟩

theorem Header.Sendable.plain_name {header : Header} (h : header.Sendable) : Plain header.name :=
  plain_of_notSpace fun b hb => ⟨(h.name_visible b hb).1, (h.name_visible b hb).2.2⟩

/-! ### What the two functions read -/

theorem readHeaderName_append {name : Str} (hname : ∀ b ∈ name, isSpace b = false ∧ b ≠ colon)
    (rest : Str) :
    readHeaderName (name ++ colon :: rest) =
      (name, skipWhitespace (rest.dropWhile fun b => b = colon)) := by
  have hin : ∀ b ∈ name, (!(isSpace b || b == colon)) = true := by
    intro b hb
    simp [(hname b hb).1, (hname b hb).2]
  simp only [readHeaderName]
  rw [List.takeWhile_append_of_pos hin, List.takeWhile_cons_of_neg (by simp), List.append_nil,
    List.dropWhile_append_of_forall _ hin, List.dropWhile_cons_of_neg (by simp),
    List.dropWhile_cons_of_neg (by decide), List.dropWhile_cons_of_pos (by decide)]

theorem readHeaderValue_append {value ending : Str} (hvalue : ∀ b ∈ value, isNewline b = false)
    (hending : ∀ b ∈ ending.head?, isNewline b = true) :
    (readHeaderValue (value ++ ending)).1 = value := by
  have hin : ∀ b ∈ value, (!isNewline b) = true := by
    intro b hb
    simp [hvalue b hb]
  rw [readHeaderValue, List.takeWhile_append_of_head value fun b hb => by simp [hending b hb]]
  exact List.takeWhile_eq_self_iff.mpr hin

theorem skipWhitespace_append {text ending : Str} (hending : ∀ b ∈ ending.head?, isNewline b = true) :
    skipWhitespace (text ++ ending) = skipWhitespace text ++ ending := by
  apply List.dropWhile_append_of_head
  intro b hb
  rcases isNewline_iff.mp (hending b hb) with rfl | rfl <;> rfl

/-- **A header line is read back as the header**, whatever ends it. -/
theorem readHeader_line {header : Header} (h : header.Sendable) {ending : Str}
    (hending : ∀ b ∈ ending.head?, isNewline b = true) :
    readHeader (header.name ++ lit ": " ++ header.value ++ ending) = header := by
  obtain ⟨name, value⟩ := header
  have hline : name ++ lit ": " ++ value ++ ending = name ++ colon :: (space :: value ++ ending) := by
    simp [lit, colon, space]
  have hskip : skipWhitespace ((space :: value ++ ending).dropWhile fun b => b = colon) =
      value ++ ending := by
    rw [List.cons_append, List.dropWhile_cons_of_neg (by decide), ← List.cons_append,
      skipWhitespace_append hending, skipWhitespace, List.dropWhile_cons_of_pos (by decide),
      List.dropWhile_of_head h.value_head]
  have hname : ∀ b ∈ name, isSpace b = false ∧ b ≠ colon :=
    fun b hb => ⟨(h.name_visible b hb).1, (h.name_visible b hb).2.1⟩
  have hread := readHeaderValue_append (fun b hb => (h.value_plain b hb).1) hending
  rw [hline, readHeader]
  simp only [readHeaderName_append hname, hskip, hread, cstr_eq_self h.plain_name.nul_notMem,
    cstr_eq_self h.value_plain.nul_notMem]

theorem readHeader_headerLine {header : Header} (h : header.Sendable) :
    readHeader (headerLine header) = header :=
  readHeader_line h (by simp [crlf, isNewline])

/-! ### Any blanks behind the colon -/

/-- The parts of a header line: a name, the blanks behind its colon, and a value. -/
structure FieldLine where
  name : Str
  blanks : Str
  value : Str
  name_ne_nil : name ≠ []
  name_visible : ∀ b ∈ name, isSpace b = false ∧ b ≠ colon
  all_blank : ∀ b ∈ blanks, isBlank b = true
  value_plain : Plain value
  value_head : ∀ b ∈ value.head?, isBlank b = false

def FieldLine.text (line : FieldLine) : Str := line.name ++ colon :: (line.blanks ++ line.value ++ crlf)

/-- Read one behind the other, the two functions give the name and the value of the line. -/
def FieldLine.IsSplit (line : FieldLine) : Prop :=
  (readHeaderName line.text).1 = line.name ∧
    (readHeaderValue (readHeaderName line.text).2).1 = line.value

/-- The name is always read, and the value but for the colons it begins with where no blank is in front
of it. -/
theorem FieldLine.read_text (line : FieldLine) :
    (readHeaderName line.text).1 = line.name ∧
      (readHeaderValue (readHeaderName line.text).2).1 =
        if line.blanks = [] then skipWhitespace (line.value.dropWhile fun b => b = colon)
        else line.value := by
  have hcrlf : ∀ b ∈ crlf.head?, isNewline b = true := by simp [crlf, isNewline]
  have hplain : ∀ b ∈ line.value, isNewline b = false := fun b hb => (line.value_plain b hb).1
  rw [text, readHeaderName_append line.name_visible]
  refine ⟨rfl, ?_⟩
  by_cases hblanks : line.blanks = []
  · rw [if_pos hblanks, hblanks, List.nil_append,
      List.dropWhile_append_of_head _ (by simp [crlf, colon, cr]), skipWhitespace_append hcrlf]
    apply readHeaderValue_append _ hcrlf
    intro b hb
    exact hplain b ((List.dropWhile_sublist _).subset ((List.dropWhile_sublist _).subset hb))
  · have hhead : ∀ b ∈ (line.blanks ++ line.value ++ crlf).head?, decide (b = colon) = false := by
      intro b hb
      rw [List.append_assoc, List.head?_append_of_ne_nil _ hblanks] at hb
      have hblank := line.all_blank b (List.mem_of_mem_head? hb)
      exact decide_eq_false fun heq => absurd (heq ▸ hblank) (by decide)
    rw [if_neg hblanks, List.dropWhile_of_head hhead, skipWhitespace_append hcrlf, skipWhitespace,
      List.dropWhile_append_of_forall _ line.all_blank, List.dropWhile_of_head line.value_head]
    exact readHeaderValue_append hplain hcrlf

/-- **A header line is split at its first colon** unless the value begins with a colon and no blank is in
front of it. -/
theorem FieldLine.isSplit_iff (line : FieldLine) :
    line.IsSplit ↔ ¬ (line.blanks = [] ∧ line.value.head? = some colon) := by
  rw [IsSplit, line.read_text.2]
  simp only [line.read_text.1, true_and]
  by_cases hblanks : line.blanks = []
  swap
  · simp [hblanks]
  rw [if_pos hblanks]
  cases hvalue : line.value with
  | nil => simp [skipWhitespace]
  | cons b value =>
      have hb : isBlank b = false := line.value_head b (by rw [hvalue]; rfl)
      by_cases hcolon : b = colon
      · have hshort : (skipWhitespace (value.dropWhile fun b => b = colon)).length < (b :: value).length :=
          Nat.lt_succ_of_le (((List.dropWhile_sublist _).trans (List.dropWhile_sublist _)).length_le)
        rw [List.dropWhile_cons_of_pos (by simp [hcolon])]
        simp only [hblanks, hcolon, List.head?_cons, and_self, not_true_eq_false, iff_false]
        intro heq
        rw [heq, hcolon] at hshort
        exact absurd hshort (lt_irrefl _)
      · rw [List.dropWhile_cons_of_neg (by simp [hcolon]), skipWhitespace,
          List.dropWhile_cons_of_neg (by simp [hb])]
        simp [hcolon]

/-- `Host:::1` names the value `1`. -/
theorem FieldLine.not_forall_isSplit : ¬ ∀ line : FieldLine, line.IsSplit := by
  intro h
  have hline := h ⟨lit "Host", [], lit "::1", by decide, by decide, by decide, by decide, by decide⟩
  exact absurd hline.2 (by decide)

end Rikitiki
