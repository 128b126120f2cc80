import Rikitiki.Library.Numeral
import Rikitiki.Library.Separated

/-!
# Bytes, sizes and the C string functions

A `char` is a byte and a `std::string`, or a block of memory handed over with its length, a list of
them. Sizes are natural numbers: an object in memory is never as long as `2 ^ 64`, so `size_t` shows
only where the code subtracts below zero, casts, or compares with `(size_t)-1`, and there it is
written out (`sizeSub`, `npos`). The functions below are the library calls the parsers rest on.
-/

namespace Rikitiki

abbrev Byte := UInt8
abbrev Str := List Byte

/-- What is said of every byte of a text is decided along the text and not over all bytes. -/
instance (s : Str) (p : Byte → Prop) [DecidablePred p] : Decidable (∀ b ∈ s, p b) := List.decidableBAll p s

instance (b : Option Byte) (p : Byte → Prop) [DecidablePred p] : Decidable (∀ c ∈ b, p c) :=
  Option.decidableForallMem b

/-- The bytes of a string literal. -/
def lit (s : String) : Str := s.toList.map fun c => c.toNat.toUInt8

abbrev nul : Byte := 0
abbrev tab : Byte := 9
abbrev lf : Byte := 10
abbrev cr : Byte := 13
abbrev space : Byte := 32
abbrev colon : Byte := 58

def crlf : Str := [cr, lf]

/-- `(size_t)-1`. -/
def npos : Nat := 2 ^ 64 - 1

/-- `a - b` in `size_t`. -/
def sizeSub (a b : Nat) : Nat := if b ≤ a then a - b else a + 2 ^ 64 - b

theorem sizeSub_of_le {a b : Nat} (h : b ≤ a) : sizeSub a b = a - b := by
  rw [sizeSub, if_pos h]

/-- The C string in front of the first NUL. -/
def cstr (s : Str) : Str := s.takeWhile fun b => b ≠ nul

theorem cstr_eq_self {s : Str} (h : nul ∉ s) : cstr s = s :=
  List.takeWhile_eq_self_iff.mpr (List.forall_decide_ne h)

theorem cstr_append {s : Str} (h : nul ∉ s) (t : Str) : cstr (s ++ t) = s ++ cstr t :=
  List.takeWhile_append_of_pos (List.forall_decide_ne h)

/-! ### Character classes -/

def isNewline (b : Byte) : Bool := b == cr || b == lf

/-- `isspace`, and `iswspace` of a sign-extended `char`, in the "C" locale. -/
def isSpace (b : Byte) : Bool := b == space || (9 ≤ b && b ≤ 13)

/-- The two blanks `skipWhitespace` skips. -/
def isBlank (b : Byte) : Bool := b == space || b == tab

theorem isNewline_iff {b : Byte} : isNewline b = true ↔ b = cr ∨ b = lf := by simp [isNewline]

theorem isBlank_iff {b : Byte} : isBlank b = true ↔ b = space ∨ b = tab := by simp [isBlank]

theorem isSpace_of_isNewline {b : Byte} (h : isNewline b = true) : isSpace b = true := by
  rcases isNewline_iff.mp h with rfl | rfl <;> rfl

theorem isSpace_of_isBlank {b : Byte} (h : isBlank b = true) : isSpace b = true := by
  rcases isBlank_iff.mp h with rfl | rfl <;> rfl

/-! ### Searching -/

/-- `strpbrk(data, "\r\n")`: the offset of the first newline character in front of the first NUL. -/
def strpbrk : Str → Option Nat
  | [] => none
  | b :: rest => if b = nul then none else if isNewline b then some 0 else (strpbrk rest).map (· + 1)

/-- Text on one line of the wire: free of CR, LF and NUL. -/
def Plain (s : Str) : Prop := ∀ b ∈ s, isNewline b = false ∧ b ≠ nul

instance (s : Str) : Decidable (Plain s) := List.decidableBAll (fun b => isNewline b = false ∧ b ≠ nul) s

theorem Plain.nil : Plain [] := by simp [Plain]

theorem Plain.head_append {s : Str} (h : Plain s) (hne : s ≠ []) (t : Str) :
    ((s ++ t).head?).any isNewline = false := by
  cases s with
  | nil => exact absurd rfl hne
  | cons b s => exact (h b (by simp)).1

theorem plain_append {s t : Str} : Plain (s ++ t) ↔ Plain s ∧ Plain t := by
  simp only [Plain, List.mem_append]
  exact ⟨fun h => ⟨fun b hb => h b (.inl hb), fun b hb => h b (.inr hb)⟩,
    fun h b hb => hb.elim (h.1 b) (h.2 b)⟩

theorem Plain.nul_notMem {s : Str} (h : Plain s) : nul ∉ s := fun hn => (h nul hn).2 rfl

theorem strpbrk_plain_append {s : Str} (hs : Plain s) (t : Str) :
    strpbrk (s ++ t) = (strpbrk t).map (s.length + ·) := by
  induction s with
  | nil => simp
  | cons b s ih =>
      have hb := hs b (by simp)
      have ih := ih fun c hc => hs c (by simp [hc])
      simp only [List.cons_append, strpbrk, if_neg hb.2, hb.1, ih, List.length_cons]
      cases strpbrk t
      · simp
      · simp only [Option.map_some, Bool.false_eq_true, if_false]
        congr 1
        omega

theorem strpbrk_cons_newline {b : Byte} (hb : isNewline b = true) (t : Str) :
    strpbrk (b :: t) = some 0 := by
  have hn : b ≠ nul := by
    rintro rfl
    exact absurd hb (by decide)
  simp [strpbrk, hn, hb]

theorem strpbrk_eq_some {s : Str} {i : Nat} (h : strpbrk s = some i) :
    ∃ b t, s = s.take i ++ b :: t ∧ i < s.length ∧ Plain (s.take i) ∧ isNewline b = true := by
  induction s generalizing i with
  | nil => simp [strpbrk] at h
  | cons c s ih =>
      rw [strpbrk] at h
      split at h
      · simp at h
      · rename_i hc
        split at h
        · rename_i hnl
          obtain rfl : 0 = i := by simpa using h
          exact ⟨c, s, by simp, by simp, by simp [Plain], hnl⟩
        · rename_i hnl
          obtain ⟨j, hj, rfl⟩ := Option.map_eq_some_iff.mp h
          obtain ⟨b, t, hs, hlt, hplain, hb⟩ := ih hj
          refine ⟨b, t, by simpa using hs, by simpa using hlt, ?_, hb⟩
          intro d hd
          rcases List.mem_cons.mp (by simpa using hd) with rfl | hd
          · exact ⟨by simpa using hnl, hc⟩
          · exact hplain d hd

/-! ### Numbers in text -/

/-- `strtol` with the C library's clamping to a 64-bit `long`: the value and what the end pointer
leaves unread, which is all of `s` when no digit is found. -/
def strtol (base : Nat) (s : Str) : Int × Str :=
  let body := s.dropWhile isSpace
  let negative := body.head? = some 45
  let body := if body.head? = some 45 ∨ body.head? = some 43 then body.tail else body
  let body := if base = 16 ∧ (body.head? = some 48 ∧ (body[1]? = some 120 ∨ body[1]? = some 88) ∧
      (body[2]?.any (Numeral.isDigit 16))) then body.drop 2 else body
  let digits := body.takeWhile (Numeral.isDigit base)
  if digits = [] then (0, s)
  else
    let v : Int := Numeral.value base digits
    (max (-2 ^ 63) (min (2 ^ 63 - 1) (if negative then -v else v)), body.drop digits.length)

/-- `stream >> n` for a `size_t` holding `initial`, on a stream over `s`: nothing is stored when only
white space is left, `0` when no digit follows, the largest value when the numeral does not fit, and
a minus sign wraps. -/
def extractSize (s : Str) (initial : Nat) : Nat :=
  let body := s.dropWhile isSpace
  if body = [] then initial
  else
    let negative := body.head? = some 45
    let body := if body.head? = some 45 ∨ body.head? = some 43 then body.tail else body
    let v := Numeral.value 10 (body.takeWhile (Numeral.isDigit 10))
    if npos < v then npos else if negative then (2 ^ 64 - v) % 2 ^ 64 else v

/-- `stream >> str`: the first word of `s`. -/
def extractWord (s : Str) : Str := (s.dropWhile isSpace).takeWhile fun b => !isSpace b

/-- `stream << n` for an unsigned number. -/
def decimal (n : Nat) : Str := Numeral.numeral 10 n

/-- `stream << std::hex << n`. -/
def hexadecimal (n : Nat) : Str := Numeral.numeral 16 n

theorem decimal_zero : decimal 0 = lit "0" := by decide

theorem decimal_byte {n : Nat} {b : Byte} (hb : b ∈ decimal n) :
    isSpace b = false ∧ b ≠ 45 ∧ b ≠ 43 ∧ b ≠ nul := by
  obtain ⟨d, hd, rfl⟩ := Numeral.exists_digit_of_mem_numeral (by decide) hb
  have hall : ∀ e < 10, isSpace (Numeral.digit e) = false ∧ Numeral.digit e ≠ 45 ∧
      Numeral.digit e ≠ 43 ∧ Numeral.digit e ≠ nul := by decide
  exact hall d hd

theorem hexadecimal_byte {n : Nat} {b : Byte} (hb : b ∈ hexadecimal n) :
    isSpace b = false ∧ b ≠ nul := by
  obtain ⟨d, hd, rfl⟩ := Numeral.exists_digit_of_mem_numeral (by decide) hb
  have hall : ∀ e < 16, isSpace (Numeral.digit e) = false ∧ Numeral.digit e ≠ nul := by decide
  exact hall d hd

theorem strtol_decimal_append {n : Nat} (hn : n < 2 ^ 63) {rest : Str}
    (hrest : ∀ b ∈ rest.head?, Numeral.isDigit 10 b = false) :
    strtol 10 (decimal n ++ rest) = ((n : Int), rest) := by
  have hnil : decimal n ≠ [] := Numeral.numeral_ne_nil 10 n
  obtain ⟨b, tail, hb⟩ := List.exists_cons_of_ne_nil hnil
  have hfirst := decimal_byte (n := n) (b := b) (by rw [hb]; simp)
  have hdrop : (decimal n ++ rest).dropWhile isSpace = decimal n ++ rest := by
    rw [hb, List.cons_append, List.dropWhile_cons_of_neg (by simp [hfirst.1])]
  have hhead : (decimal n ++ rest).head? = some b := by rw [hb]; rfl
  have htake : (decimal n ++ rest).takeWhile (Numeral.isDigit 10) = decimal n :=
    Numeral.takeWhile_numeral_append (by decide) (by decide) n hrest
  have hvalue : Numeral.value 10 (decimal n) = n := Numeral.value_numeral (by decide) (by decide) n
  simp only [strtol, hdrop, hhead, Option.some.injEq, hfirst.2.1, hfirst.2.2.1, or_self, if_false,
    show ¬ ((10 : Nat) = 16) by decide, false_and, htake, hvalue, if_neg hnil, List.drop_left,
    Prod.mk.injEq, and_true]
  omega

theorem plain_of_notSpace {s : Str} (h : ∀ b ∈ s, isSpace b = false ∧ b ≠ nul) : Plain s := by
  intro b hb
  refine ⟨?_, (h b hb).2⟩
  cases hnl : isNewline b with
  | false => rfl
  | true => exact absurd (isSpace_of_isNewline hnl) (by simp [(h b hb).1])

theorem plain_decimal (n : Nat) : Plain (decimal n) :=
  plain_of_notSpace fun _ hb => ⟨(decimal_byte hb).1, (decimal_byte hb).2.2.2⟩

theorem plain_hexadecimal (n : Nat) : Plain (hexadecimal n) :=
  plain_of_notSpace fun _ hb => hexadecimal_byte hb

end Rikitiki
