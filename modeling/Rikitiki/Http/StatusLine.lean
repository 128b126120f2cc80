import Rikitiki.Base.Numbers
import Rikitiki.Http.Response

/-!
# Start lines of a response, written and received

`SetStartline` looks for a number behind the first space of the line, skips one character behind the
number, and takes the trimmed rest for the reason phrase. Both lines the program writes for a status are
read back unless the phrase is empty. On a line from a peer the parser stays inside its strings when there
is something to read behind the character it skips, and on no other.
-/

namespace Rikitiki

namespace HttpStatus

/-- `Response::Startline` for the status of the response. -/
def startline (s : HttpStatus) : Str := lit "HTTP/1.1 " ++ (decimal s.status.toNat ++ (lit " " ++ cstr s.name))

structure Trimmed (s : HttpStatus) : Prop where
  plain : Plain s.name
  head_notSpace : ∀ b ∈ s.name.head?, isSpace b = false
  last_notSpace : ∀ b ∈ s.name.getLast?, isSpace b = false

/-- Both lines that are written for a status are read back as the status. -/
def IsRestored (s : HttpStatus) : Prop :=
  setStartline s.startline = some s ∧ setStartline (statusLine s) = some s

end HttpStatus

/-! ### The parts of a start line -/

def statusText (startline : Str) : Str :=
  startline.drop (match startline.findIdx? (· = space) with
    | some pos => pos + 1
    | none => 0)

/-- The phrase that is left of the text behind a number. -/
def reasonPhrase (rest : Str) : Str := (cstr rest.tail).rdropWhile isSpace

/-- Behind the number there is a character to skip, and behind that one something that is not white
space, before any NUL. -/
def HasPhrase (startline : Str) : Prop :=
  ∃ number skipped phrase, statusText startline = number ++ skipped :: phrase ∧
    EndsNumber number (skipped :: phrase) ∧ ∃ b ∈ cstr phrase, isSpace b = false

theorem exists_statusText (startline : Str) :
    ∃ start, statusText startline = startline.drop start ∧
      setStartline startline =
        let number := strtol 10 (cstr (startline.drop start))
        let behind := start + ((cstr (startline.drop start)).length - number.2.length) + 1
        if startline.length < behind then none
        else
          let name := (cstr (startline.drop behind)).rdropWhile isSpace
          if name = [] then none else some ⟨UInt16.ofNat (number.1 % 2 ^ 16).toNat, name⟩ := by
  cases hfind : startline.findIdx? (· = space) with
  | none => exact ⟨0, by simp only [statusText, hfind], by simp only [setStartline, hfind]⟩
  | some pos => exact ⟨pos + 1, by simp only [statusText, hfind], by simp only [setStartline, hfind]⟩

/-- **`SetStartline` in terms of the parts of its line.** -/
theorem setStartline_eq {startline number rest : Str} (htext : statusText startline = number ++ rest)
    (hends : EndsNumber number rest) :
    setStartline startline =
      if reasonPhrase rest = [] then none
      else some ⟨UInt16.ofNat ((strtol 10 (cstr (statusText startline))).1 % 2 ^ 16).toNat,
        reasonPhrase rest⟩ := by
  obtain ⟨start, hstart, hset⟩ := exists_statusText startline
  have hcstr : cstr (number ++ rest) = number ++ cstr rest := cstr_append hends.nul_notMem rest
  have hunread : (strtol 10 (number ++ cstr rest)).2 = cstr rest := hends.cstr.strtol_unread
  have hdrop : startline.drop start = number ++ rest := hstart ▸ htext
  have hlength : startline.length - start = number.length + rest.length := by
    rw [← List.length_drop, hdrop, List.length_append]
  have hbehind : startline.drop (start + number.length + 1) = rest.tail := by
    rw [Nat.add_assoc, ← List.drop_drop, hdrop, ← List.drop_drop, List.drop_left, List.drop_one]
  simp only [hset, htext, hdrop, hcstr, hunread, List.length_append, Nat.add_sub_cancel, hbehind]
  cases rest with
  | nil => simp [reasonPhrase, cstr]
  | cons b rest =>
      have hfits : ¬ startline.length < start + number.length + 1 := by
        rw [List.length_cons] at hlength
        omega
      rw [if_neg hfits]
      rfl

theorem reasonPhrase_ne_nil_iff {rest : Str} :
    reasonPhrase rest ≠ [] ↔ ∃ b ∈ cstr rest.tail, isSpace b = false := by
  rw [reasonPhrase, ne_eq, List.rdropWhile_eq_nil_iff]
  simp

/-- **`SetStartline` stays inside its strings on the lines with a phrase**, and on no other. -/
theorem setStartline_ne_none_iff (startline : Str) : setStartline startline ≠ none ↔ HasPhrase startline := by
  constructor
  · intro h
    obtain ⟨number, rest, htext, hends⟩ := exists_endsNumber (statusText startline)
    have hphrase : reasonPhrase rest ≠ [] := by
      intro hnil
      rw [setStartline_eq htext hends, if_pos hnil] at h
      exact h rfl
    cases rest with
    | nil => exact absurd rfl hphrase
    | cons skipped phrase => exact ⟨number, skipped, phrase, htext, hends, reasonPhrase_ne_nil_iff.mp hphrase⟩
  · rintro ⟨number, skipped, phrase, htext, hends, hphrase⟩
    have hne : reasonPhrase (skipped :: phrase) ≠ [] := reasonPhrase_ne_nil_iff.mpr hphrase
    rw [setStartline_eq htext hends, if_neg hne]
    exact Option.some_ne_none _

/-! ### Lines the program writes -/

theorem statusText_startString (s : HttpStatus) (ending : Str) :
    statusText (lit "HTTP/1.1 " ++ (s.startString ++ ending)) =
      decimal s.status.toNat ++ space :: (s.name ++ ending) := by
  have hline : lit "HTTP/1.1 " ++ (s.startString ++ ending) =
      lit "HTTP/1.1" ++ space :: (decimal s.status.toNat ++ space :: (s.name ++ ending)) := by
    simp [HttpStatus.startString, lit, space]
  have hidx : (lit "HTTP/1.1 " ++ (s.startString ++ ending)).findIdx? (· = space) = some 8 := by
    rw [hline]
    simp [lit, List.findIdx?_cons, space]
  simp only [statusText, hidx]
  rw [hline]
  rfl

theorem ofNat_status (s : HttpStatus) : UInt16.ofNat (((s.status.toNat : Int) % 2 ^ 16).toNat) = s.status := by
  have hmod : ((s.status.toNat : Int) % 2 ^ 16).toNat = s.status.toNat := by
    have := s.status.toNat_lt
    omega
  rw [hmod]
  exact UInt16.ofNat_toNat

/-- **A line written for a status** is read back as the status, whatever newline characters end it, unless
the phrase is empty. -/
theorem setStartline_startString {s : HttpStatus} (hplain : Plain s.name)
    (hlast : ∀ b ∈ s.name.getLast?, isSpace b = false) {ending : Str}
    (hending : ∀ b ∈ ending, isNewline b = true) :
    setStartline (lit "HTTP/1.1 " ++ (s.startString ++ ending)) =
      if s.name = [] then none else some s := by
  have htext := statusText_startString s ending
  have hbehind : ∀ b ∈ (space :: (s.name ++ ending)).head?, Numeral.isDigit 10 b = false := by
    intro b hb
    obtain rfl : space = b := by simpa using hb
    exact isDigit_space
  have hends := endsNumber_decimal s.status.toNat hbehind
  have hnul : nul ∉ s.name ++ ending := by
    rw [List.mem_append, not_or]
    exact ⟨hplain.nul_notMem, fun hn => absurd (hending nul hn) (by decide)⟩
  have hphrase : reasonPhrase (space :: (s.name ++ ending)) = s.name := by
    rw [reasonPhrase, List.tail_cons, cstr_eq_self hnul,
      List.rdropWhile_append_of_forall _ fun b hb => isSpace_of_isNewline (hending b hb)]
    exact List.rdropWhile_of_last hlast
  have htextNul : nul ∉ decimal s.status.toNat ++ space :: (s.name ++ ending) := by
    rw [List.mem_append, List.mem_cons, not_or, not_or]
    exact ⟨(plain_decimal _).nul_notMem, by decide, hnul⟩
  have hlt : s.status.toNat < 2 ^ 63 := Nat.lt_of_lt_of_le s.status.toNat_lt (by norm_num)
  rw [setStartline_eq htext hends, hphrase, htext, cstr_eq_self htextNul,
    strtol_decimal_append hlt hbehind, ofNat_status]

/-- **A sent status line is read back as the status.** -/
theorem setStartline_statusLine {s : HttpStatus} (hs : s.Sendable) : setStartline (statusLine s) = some s := by
  rw [statusLine, setStartline_startString hs.plain hs.last_notSpace (by decide), if_neg hs.name_ne_nil]

/-- **What `SetStartline` restores, and where it stays inside its strings.** -/
theorem setStartline_iff {s : HttpStatus} (hs : s.Trimmed) (startline : Str) :
    (s.IsRestored ↔ s.name ≠ []) ∧ (setStartline startline ≠ none ↔ HasPhrase startline) := by
  refine ⟨?_, setStartline_ne_none_iff startline⟩
  have hline : s.startline = lit "HTTP/1.1 " ++ (s.startString ++ []) := by
    simp [HttpStatus.startline, HttpStatus.startString, cstr_eq_self hs.plain.nul_notMem]
  have hstartline : setStartline s.startline = if s.name = [] then none else some s :=
    hline ▸ setStartline_startString hs.plain hs.last_notSpace (by simp)
  have hstatusLine : setStartline (statusLine s) = if s.name = [] then none else some s :=
    setStartline_startString hs.plain hs.last_notSpace (by decide)
  rw [HttpStatus.IsRestored, hstartline, hstatusLine, and_self]
  by_cases hname : s.name = []
  · simp [hname]
  · simp [hname]

theorem setStartline_notFound :
    (HttpStatus.mk 404 (lit "Not Found")).IsRestored ∧ setStartline (lit "HTTP/1.0 200 OK" ++ crlf) ≠ none := by
  have h := setStartline_iff (s := ⟨404, lit "Not Found"⟩) ⟨by decide, by decide, by decide⟩
    (lit "HTTP/1.0 200 OK" ++ crlf)
  refine ⟨h.1.mpr (by decide), h.2.mpr ?_⟩
  have hdigits : ∀ b ∈ lit "200", Numeral.isDigit 10 b = true := by decide
  exact ⟨lit "200", space, lit "OK" ++ crlf, by decide,
    .inl ⟨⟨[], [], _, rfl, by simp, by simp, by decide, hdigits⟩, by decide⟩, 79, by decide, by decide⟩

/-- An empty phrase is not restored, and a line without a phrase takes the parser outside its strings. -/
theorem not_setStartline :
    ¬ (∀ s : HttpStatus, s.Trimmed → s.IsRestored) ∧ ¬ ∀ startline, setStartline startline ≠ none := by
  refine ⟨fun h => ?_, fun h => h (lit "HTTP/1.1 200" ++ crlf) (by decide)⟩
  have hok := h ⟨200, []⟩ ⟨Plain.nil, by simp, by simp⟩
  exact absurd hok.1 (by decide)

end Rikitiki
