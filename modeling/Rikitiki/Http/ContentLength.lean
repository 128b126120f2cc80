import Rikitiki.Base.Numbers
import Rikitiki.Http.Header

/-!
# Texts that are taken for a length

A length is read from the stored text by stream extraction, which takes the digits it finds behind white
space and a sign for the number, makes `0` of text without digits, and lets a minus sign wrap. A text that
says one number is read as that number. Any other is read as a number all the same, unless what comes out
is `(size_t)-1`, which callers take for no length.
-/

namespace Rikitiki

/-- A text that says a number once or more often, with `", "` between and blanks around. -/
structure Repeats (digits text : Str) : Prop where
  digits_ne_nil : digits ≠ []
  all_digits : ∀ b ∈ digits, Numeral.isDigit 10 b = true
  pieces : ∃ pieces ≠ [], text = (lit ", ").intercalate pieces ∧ ∀ piece ∈ pieces, ∃ front behind,
    piece = front ++ (digits ++ behind) ∧ (∀ b ∈ front, isBlank b = true) ∧ ∀ b ∈ behind, isBlank b = true

def IsNumeralOf (n : Nat) (text : Str) : Prop := ∃ digits, Repeats digits text ∧ Numeral.value 10 digits = n

/-- The value of the digits a text begins with behind its white space and its sign. -/
def leadingValue (text : Str) : Nat := Numeral.value 10 ((unsigned text).takeWhile (Numeral.isDigit 10))

/-- The texts for which no length comes out: nothing but white space, a number that does not fit, and
`(size_t)-1` written as it is or with a minus sign. -/
def ReadsNoLength (text : Str) : Prop :=
  (∀ b ∈ text, isSpace b = true) ∨ npos < leadingValue text ∨
    leadingValue text = if (text.dropWhile isSpace).head? = some 45 then 1 else npos

/-- Stored as a length, the text is taken for a number only if it is a numeral of it. -/
def OnlyNumeral (text : Str) : Prop :=
  ∀ headers : HeaderCollection, headers.get (lit "Content-Length") = some text →
    contentLength headers ≠ npos → IsNumeralOf (contentLength headers) text

theorem extractSize_eq (text : Str) (initial : Nat) :
    extractSize text initial = if text.dropWhile isSpace = [] then initial
      else if npos < leadingValue text then npos
      else if (text.dropWhile isSpace).head? = some 45 then (2 ^ 64 - leadingValue text) % 2 ^ 64
      else leadingValue text := rfl

theorem extractSize_eq_npos_iff (text : Str) : extractSize text npos = npos ↔ ReadsNoLength text := by
  rw [extractSize_eq, ReadsNoLength, ← List.dropWhile_eq_nil_iff]
  by_cases hspaces : text.dropWhile isSpace = []
  · simp [hspaces]
  by_cases hfits : npos < leadingValue text
  · simp [hspaces, hfits]
  rw [if_neg hspaces, if_neg hfits]
  simp only [hspaces, hfits, false_or]
  split
  · have hle : leadingValue text ≤ 2 ^ 64 - 1 := Nat.le_of_not_lt hfits
    rw [npos]
    omega
  · exact Iff.rfl

theorem Repeats.exists_front {digits text : Str} (h : Repeats digits text) :
    ∃ front rest, text = front ++ (digits ++ rest) ∧ (∀ b ∈ front, isSpace b = true) ∧
      ∀ b ∈ rest.head?, Numeral.isDigit 10 b = false := by
  obtain ⟨-, -, pieces, hpieces, rfl, hpiece⟩ := h
  obtain ⟨piece, pieces, rfl⟩ := List.exists_cons_of_ne_nil hpieces
  obtain ⟨front, behind, rfl, hfront, hbehind⟩ := hpiece _ List.mem_cons_self
  obtain ⟨more, hmore, hcomma⟩ := Separated.exists_intercalate (44 : Byte) (pieces.map ([space] ++ ·))
  refine ⟨front, behind ++ more, ?_, fun b hb => isSpace_of_isBlank (hfront b hb), ?_⟩
  · rw [show lit ", " = 44 :: [space] by decide, Separated.intercalate_padded, hmore]
    simp
  · intro b hb
    cases behind with
    | nil =>
        obtain rfl := hcomma b hb
        decide
    | cons c behind =>
        obtain rfl : c = b := by simpa using hb
        rcases isBlank_iff.mp (hbehind c (by simp)) with rfl | rfl <;> decide

/-- **A text that says one number is read as the number**, or as the largest one where it does not fit. -/
theorem Repeats.extractSize_eq {digits text : Str} (h : Repeats digits text) (initial : Nat) :
    extractSize text initial = min (Numeral.value 10 digits) npos := by
  obtain ⟨front, rest, rfl, hfront, hrest⟩ := h.exists_front
  have hdigits := h.all_digits
  obtain ⟨d, digits, rfl⟩ := List.exists_cons_of_ne_nil h.digits_ne_nil
  have hd : Numeral.isDigit 10 d = true := hdigits d (by simp)
  have hbody : (front ++ (d :: digits ++ rest)).dropWhile isSpace = d :: digits ++ rest := by
    rw [List.dropWhile_append_of_forall _ hfront, List.cons_append,
      List.dropWhile_cons_of_neg (by simp [(isDigit_byte hd).1])]
  have hsign : ([] : Str) ∈ [[], lit "+", lit "-"] := by simp
  have hunsigned : unsigned (front ++ (d :: digits ++ rest)) = d :: digits ++ rest :=
    unsigned_append hfront hsign hd
  have hvalue : leadingValue (front ++ (d :: digits ++ rest)) = Numeral.value 10 (d :: digits) := by
    rw [leadingValue, hunsigned, List.takeWhile_append_of_head _ hrest, List.takeWhile_eq_self_iff.mpr hdigits]
  rw [Rikitiki.extractSize_eq, hbody, hvalue]
  simp only [List.cons_append, List.head?_cons, Option.some.injEq, (isDigit_byte hd).2.1, if_false,
    reduceCtorEq]
  rw [Nat.min_def]
  split_ifs
  all_goals omega

theorem Repeats.exists_digit {digits text : Str} (h : Repeats digits text) :
    ∃ b ∈ text, Numeral.isDigit 10 b = true := by
  obtain ⟨front, rest, rfl, -, -⟩ := h.exists_front
  obtain ⟨d, hd⟩ := List.exists_mem_of_ne_nil _ h.digits_ne_nil
  exact ⟨d, by simp [hd], h.all_digits d hd⟩

theorem onlyNumeral_iff_extractSize (text : Str) :
    OnlyNumeral text ↔ (extractSize text npos ≠ npos → IsNumeralOf (extractSize text npos) text) := by
  have hlength : ∀ headers : HeaderCollection, headers.get (lit "Content-Length") = some text →
      contentLength headers = extractSize text npos := by
    intro headers hget
    rw [contentLength, hget]
  constructor
  · intro h
    have hget : HeaderCollection.get ((∅ : HeaderCollection).insert (lit "Content-Length") text)
        (lit "Content-Length") = some text := by
      rw [HeaderCollection.get_insert, if_pos rfl]
    exact hlength _ hget ▸ h _ hget
  · intro h headers hget
    exact (hlength headers hget).symm ▸ h

/-- **Which texts are taken for a length only as numerals**: those that say one number, and those for which
no length comes out. -/
theorem onlyNumeral_iff (text : Str) :
    OnlyNumeral text ↔ (∃ digits, Repeats digits text) ∨ ReadsNoLength text := by
  rw [onlyNumeral_iff_extractSize, ← extractSize_eq_npos_iff]
  constructor
  · intro h
    by_cases hnone : extractSize text npos = npos
    · exact .inr hnone
    · obtain ⟨digits, hdigits, -⟩ := h hnone
      exact .inl ⟨digits, hdigits⟩
  · intro h hread
    obtain ⟨digits, hdigits⟩ := h.resolve_right hread
    refine ⟨digits, hdigits, ?_⟩
    rw [hdigits.extractSize_eq] at hread ⊢
    omega

/-- `abc` is taken for the length of an empty body. -/
theorem not_forall_onlyNumeral : ¬ ∀ text, OnlyNumeral text := by
  intro h
  have hread : extractSize (lit "abc") npos = 0 := by decide
  obtain ⟨digits, hdigits, -⟩ := (onlyNumeral_iff_extractSize _).mp (h (lit "abc")) (by rw [hread]; decide)
  obtain ⟨b, hb, hdigit⟩ := hdigits.exists_digit
  have hnone : ∀ b ∈ lit "abc", Numeral.isDigit 10 b = false := by decide
  rw [hnone b hb] at hdigit
  exact nomatch hdigit

end Rikitiki
