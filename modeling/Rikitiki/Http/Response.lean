import Rikitiki.Http.Header

/-!
# Statuses and the start line of a response

`setStartline` is `Response::SetStartline` together with the question whether it stays inside its
strings. It leaves them on a line whose number is followed by nothing, where the unconditional skip of
one character passes the terminator, and on a line without a reason phrase, where the trimming loop
reads the character before an empty string. There the code has no meaning, and `setStartline` is `none`.
-/

namespace Rikitiki

structure HttpStatus where
  status : UInt16
  name : Str
  deriving DecidableEq, Repr

namespace HttpStatus

def ok : HttpStatus := ⟨200, lit "OK"⟩
def notAcceptable : HttpStatus := ⟨406, lit "Not Acceptable"⟩
def internalServerError : HttpStatus := ⟨500, lit "Internal Server Error"⟩

def startString (s : HttpStatus) : Str := decimal s.status.toNat ++ lit " " ++ s.name

/-- A reason phrase that survives being sent on a line and trimmed. -/
structure Sendable (s : HttpStatus) : Prop where
  name_ne_nil : s.name ≠ []
  plain : Plain s.name
  last_notSpace : ∀ b ∈ s.name.getLast?, isSpace b = false

instance (s : HttpStatus) : Decidable s.Sendable :=
  decidable_of_iff (s.name ≠ [] ∧ Plain s.name ∧ s.name.getLast?.any isSpace = false)
    ⟨fun h => ⟨h.1, h.2.1, fun b hb => by simpa [Option.mem_def.mp hb] using h.2.2⟩,
      fun h => ⟨h.name_ne_nil, h.plain, by
        cases hlast : s.name.getLast? with
        | none => rfl
        | some b => exact h.last_notSpace b hlast⟩⟩

end HttpStatus

/-- `Response::SetStartline`: the status it stores, or `none` when it reads outside its strings. -/
def setStartline (startline : Str) : Option HttpStatus :=
  let start := match startline.findIdx? (· = space) with
    | some pos => pos + 1
    | none => 0
  let str := cstr (startline.drop start)
  let (statusCode, unread) := strtol 10 str
  let pos2 := start + (str.length - unread.length)
  if startline.length < pos2 + 1 then none
  else
    let statusString := (cstr (startline.drop (pos2 + 1))).rdropWhile isSpace
    if statusString = [] then none
    else some ⟨UInt16.ofNat (statusCode % 2 ^ 16).toNat, statusString⟩

/-- The start line `OResponseWriter::WriteStartLine` sends. -/
def statusLine (s : HttpStatus) : Str := lit "HTTP/1.1 " ++ (s.startString ++ crlf)

/-! ### The line end of a start line -/

theorem not_isDigit_of_isNewline {b : Byte} (h : isNewline b = true) :
    Numeral.isDigit 10 b = false := by
  rcases isNewline_iff.mp h with rfl | rfl <;> rfl

theorem strtol_append_lineEnd (s : Str) {t : Str} (ht : ∀ b ∈ t, isNewline b = true) :
    strtol 10 (s ++ t) = ((strtol 10 s).1, (strtol 10 s).2 ++ t) := by
  have hdigits : ∀ l : Str, (l ++ t).takeWhile (Numeral.isDigit 10) = l.takeWhile (Numeral.isDigit 10) :=
    fun l => List.takeWhile_append_of_head l fun b hb => not_isDigit_of_isNewline (ht b (List.mem_of_mem_head? hb))
  have hdrop : ∀ l : Str, (l ++ t).drop (l.takeWhile (Numeral.isDigit 10)).length
      = l.drop (l.takeWhile (Numeral.isDigit 10)).length ++ t := fun l =>
    List.drop_append_of_le_length (List.takeWhile_prefix _).length_le
  cases hbody : s.dropWhile isSpace with
  | nil =>
      have hspaces : (s ++ t).dropWhile isSpace = [] := by
        rw [List.dropWhile_append, hbody]
        exact List.dropWhile_eq_nil_iff.mpr fun b hb => isSpace_of_isNewline (ht b hb)
      simp [strtol, hbody, hspaces]
  | cons b rest =>
      have hspaces : (s ++ t).dropWhile isSpace = b :: (rest ++ t) := by
        rw [List.dropWhile_append, hbody]
        rfl
      simp only [strtol, hbody, hspaces, List.head?_cons, Option.some.injEq, List.tail_cons,
        show ¬ (10 : Nat) = 16 by decide, false_and, if_false]
      by_cases hsign : b = 45 ∨ b = 43
      · simp only [if_pos hsign, hdigits, hdrop]
        split <;> rfl
      · simp only [if_neg hsign, ← List.cons_append, hdigits, hdrop]
        split <;> rfl

theorem startline_from {s t : Str} {start : Nat} (hs : nul ∉ s) (hle : start ≤ s.length)
    (hnl : ∀ b ∈ t, isNewline b = true) :
    cstr ((s ++ t).drop start) = s.drop start ++ t ∧
      (cstr ((s ++ t).drop start)).rdropWhile isSpace = (s.drop start).rdropWhile isSpace := by
  have hnul : nul ∉ s.drop start ++ t := by
    rw [List.mem_append, not_or]
    exact ⟨fun h => hs (List.mem_of_mem_drop h), fun h => absurd (hnl nul h) (by decide)⟩
  rw [List.drop_append_of_le_length hle, cstr_eq_self hnul]
  exact ⟨rfl, List.rdropWhile_append_of_forall _ fun b hb => isSpace_of_isNewline (hnl b hb)⟩

theorem reason_append {s t : Str} {pos : Nat} (hs : nul ∉ s) (hle : pos ≤ s.length)
    (hnl : ∀ b ∈ t, isNewline b = true) :
    (cstr ((s ++ t).drop (pos + 1))).rdropWhile isSpace = (s.drop (pos + 1)).rdropWhile isSpace := by
  rcases Nat.lt_or_eq_of_le hle with hlt | rfl
  · exact (startline_from hs hlt hnl).2
  · have hall : ∀ b ∈ t.drop 1, isNewline b = true := fun b hb => hnl b (List.mem_of_mem_drop hb)
    rw [List.drop_length_add_append, List.drop_eq_nil_of_le (Nat.le_succ _)]
    exact (startline_from (s := []) (by simp) (Nat.zero_le _) hall).2

theorem status_from {s t : Str} {start : Nat} (hs : nul ∉ s) (hle : start ≤ s.length) (ht : t ≠ [])
    (hnl : ∀ b ∈ t, isNewline b = true) :
    (let str := cstr ((s ++ t).drop start)
      let (statusCode, unread) := strtol 10 str
      let pos2 := start + (str.length - unread.length)
      if (s ++ t).length < pos2 + 1 then none
      else
        let statusString := (cstr ((s ++ t).drop (pos2 + 1))).rdropWhile isSpace
        if statusString = [] then none
        else some (HttpStatus.mk (UInt16.ofNat (statusCode % 2 ^ 16).toNat) statusString))
      = let number := strtol 10 (s.drop start)
        let name := (s.drop (start + ((s.drop start).length - number.2.length) + 1)).rdropWhile isSpace
        if name = [] then none
        else some (HttpStatus.mk (UInt16.ofNat (number.1 % 2 ^ 16).toNat) name) := by
  have hpos := List.length_pos_of_ne_nil ht
  have hdrop := List.length_drop (i := start) (l := s)
  have hlast : start + ((s.drop start).length - (strtol 10 (s.drop start)).2.length) ≤ s.length := by
    omega
  simp only [(startline_from hs hle hnl).1, strtol_append_lineEnd _ hnl, List.length_append,
    Nat.add_sub_add_right]
  rw [if_neg (by omega), reason_append hs hlast hnl]

theorem findIdx_space_append (s : Str) {t : Str} (hnl : ∀ b ∈ t, isNewline b = true) :
    (s ++ t).findIdx? (· = space) = s.findIdx? (· = space) := by
  have hspace : t.findIdx? (· = space) = none := by
    rw [List.findIdx?_eq_none_iff]
    intro b hb
    rcases isNewline_iff.mp (hnl b hb) with rfl | rfl <;> rfl
  rw [List.findIdx?_append, hspace]
  simp

/-- **The line end of a start line does not matter**: it is trimmed with the reason phrase. -/
theorem setStartline_lineEnd {s t t' : Str} (hs : nul ∉ s) (ht : t ≠ []) (ht' : t' ≠ [])
    (hnl : ∀ b ∈ t, isNewline b = true) (hnl' : ∀ b ∈ t', isNewline b = true) :
    setStartline (s ++ t) = setStartline (s ++ t') := by
  cases hfind : s.findIdx? (· = space) with
  | none =>
      simp only [setStartline, findIdx_space_append s hnl, findIdx_space_append s hnl', hfind]
      have hle : 0 ≤ s.length := Nat.zero_le _
      exact (status_from hs hle ht hnl).trans (status_from hs hle ht' hnl').symm
  | some pos =>
      simp only [setStartline, findIdx_space_append s hnl, findIdx_space_append s hnl', hfind]
      have hle : pos + 1 ≤ s.length := (List.findIdx?_eq_some_iff_getElem.mp hfind).1
      exact (status_from hs hle ht hnl).trans (status_from hs hle ht' hnl').symm

/-! ### Status lines -/

theorem isDigit_space : Numeral.isDigit 10 space = false := by decide

theorem statusLine_injective {s t : HttpStatus} (h : statusLine s = statusLine t) : s = t := by
  have hstart : s.startString = t.startString :=
    List.append_cancel_right (List.append_cancel_left h)
  have hdigits : ∀ u : HttpStatus, u.startString.takeWhile (Numeral.isDigit 10) = decimal u.status.toNat := by
    intro u
    rw [HttpStatus.startString, List.append_assoc]
    refine Numeral.takeWhile_numeral_append (by decide) (by decide) _ fun b hb => ?_
    obtain rfl : space = b := by simpa [lit] using hb
    exact isDigit_space
  have hstatus : s.status = t.status := by
    apply UInt16.toNat_inj.mp
    refine Numeral.numeral_injective (show 2 ≤ 10 by decide) (by decide) ?_
    calc decimal s.status.toNat = s.startString.takeWhile (Numeral.isDigit 10) := (hdigits s).symm
      _ = t.startString.takeWhile (Numeral.isDigit 10) := by rw [hstart]
      _ = decimal t.status.toNat := hdigits t
  have hname : s.name = t.name := by
    rw [HttpStatus.startString, HttpStatus.startString, hstatus] at hstart
    exact List.append_cancel_left hstart
  cases s
  cases t
  simp_all

end Rikitiki
