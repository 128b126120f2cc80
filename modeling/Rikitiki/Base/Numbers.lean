import Rikitiki.Base.Bytes
import Rikitiki.Library.Separated

/-!
# The number at the beginning of a text

`strtol` and the extraction of a size pass over white space and a sign and read the digits behind them.
`unsigned` is what they read the digits from. A text that begins with a number is divided behind it in one
way only, which is where the end pointer of `strtol` is left.
-/

namespace Rikitiki

def unsigned (s : Str) : Str :=
  let body := s.dropWhile isSpace
  if body.head? = some 45 ∨ body.head? = some 43 then body.tail else body

/-- What `strtol` takes for a number: white space, a sign or none, and digits. -/
def IsNumber (number : Str) : Prop :=
  ∃ blanks sign digits, number = blanks ++ (sign ++ digits) ∧ (∀ b ∈ blanks, isSpace b = true) ∧
    sign ∈ [[], lit "+", lit "-"] ∧ digits ≠ [] ∧ ∀ b ∈ digits, Numeral.isDigit 10 b = true

/-- A text is divided behind the number it begins with, or at its start when it begins with none. -/
def EndsNumber (number rest : Str) : Prop :=
  IsNumber number ∧ (∀ b ∈ rest.head?, Numeral.isDigit 10 b = false) ∨
    number = [] ∧ ∀ front, IsNumber front → ¬ front <+: rest

theorem isDigit_byte {b : Byte} (h : Numeral.isDigit 10 b = true) :
    isSpace b = false ∧ b ≠ 45 ∧ b ≠ 43 ∧ b ≠ nul := by
  have hall : ∀ n < 256, Numeral.isDigit 10 n.toUInt8 = true →
      isSpace n.toUInt8 = false ∧ n.toUInt8 ≠ 45 ∧ n.toUInt8 ≠ 43 ∧ n.toUInt8 ≠ nul := by decide +kernel
  have hb : b.toNat.toUInt8 = b := UInt8.ofNat_toNat
  exact hb ▸ hall b.toNat b.toNat_lt (hb.symm ▸ h)

/-! ### White space and sign -/

theorem exists_unsigned (s : Str) :
    ∃ blanks sign, s = blanks ++ (sign ++ unsigned s) ∧ (∀ b ∈ blanks, isSpace b = true) ∧
      sign ∈ [[], lit "+", lit "-"] := by
  have hs : s = s.takeWhile isSpace ++ s.dropWhile isSpace := (List.takeWhile_append_dropWhile).symm
  have hblanks : ∀ b ∈ s.takeWhile isSpace, isSpace b = true := fun b => List.mem_takeWhile_imp
  by_cases hsign : (s.dropWhile isSpace).head? = some 45 ∨ (s.dropWhile isSpace).head? = some 43
  · cases hbody : s.dropWhile isSpace with
    | nil => simp [hbody] at hsign
    | cons b body =>
        rw [hbody] at hs hsign
        refine ⟨s.takeWhile isSpace, [b], ?_, hblanks, ?_⟩
        · rw [unsigned, hbody, if_pos hsign]
          exact hs
        · rcases hsign with hb | hb
          all_goals obtain rfl := Option.some.inj hb; decide
  · refine ⟨s.takeWhile isSpace, [], ?_, hblanks, by simp⟩
    rw [unsigned, if_neg hsign]
    exact hs

theorem unsigned_append {blanks sign rest : Str} {d : Byte} (hblanks : ∀ b ∈ blanks, isSpace b = true)
    (hsign : sign ∈ [[], lit "+", lit "-"]) (hd : Numeral.isDigit 10 d = true) :
    unsigned (blanks ++ (sign ++ d :: rest)) = d :: rest := by
  obtain ⟨hspace, hminus, hplus, -⟩ := isDigit_byte hd
  rw [unsigned, List.dropWhile_append_of_forall _ hblanks]
  rcases (by simpa [lit] using hsign : sign = [] ∨ sign = [43] ∨ sign = [45]) with rfl | rfl | rfl
  · rw [List.nil_append, List.dropWhile_cons_of_neg (by simp [hspace])]
    simp [hminus, hplus]
  · rw [List.singleton_append, List.dropWhile_cons_of_neg (by decide)]
    simp
  · rw [List.singleton_append, List.dropWhile_cons_of_neg (by decide)]
    simp

theorem strtol_snd (s : Str) :
    (strtol 10 s).2 = if (unsigned s).takeWhile (Numeral.isDigit 10) = [] then s
      else (unsigned s).dropWhile (Numeral.isDigit 10) := by
  have hdrop : ∀ l : Str, l.drop (l.takeWhile (Numeral.isDigit 10)).length =
      l.dropWhile (Numeral.isDigit 10) := by
    intro l
    nth_rewrite 2 [← List.takeWhile_append_dropWhile (p := Numeral.isDigit 10) (l := l)]
    exact List.drop_left
  simp only [strtol, show ¬ (10 : Nat) = 16 by decide, false_and, if_false]
  change (if (unsigned s).takeWhile (Numeral.isDigit 10) = [] then _ else _ : Int × Str).2 = _
  by_cases hdigits : (unsigned s).takeWhile (Numeral.isDigit 10) = []
  · rw [if_pos hdigits, if_pos hdigits]
  · rw [if_neg hdigits, if_neg hdigits]
    exact hdrop _

/-! ### Where a number ends -/

theorem IsNumber.nul_notMem {number : Str} (h : IsNumber number) : nul ∉ number := by
  obtain ⟨blanks, sign, digits, rfl, hblanks, hsign, -, hdigits⟩ := h
  rw [List.mem_append, List.mem_append]
  rintro (hn | hn | hn)
  · exact absurd (hblanks nul hn) (by decide)
  · have hall : ∀ sign ∈ [[], lit "+", lit "-"], nul ∉ sign := by decide
    exact hall sign hsign hn
  · exact absurd (hdigits nul hn) (by decide)

theorem EndsNumber.nul_notMem {number rest : Str} (h : EndsNumber number rest) : nul ∉ number := by
  rcases h with ⟨hnumber, -⟩ | ⟨rfl, -⟩
  · exact hnumber.nul_notMem
  · exact List.not_mem_nil

theorem exists_endsNumber (s : Str) : ∃ number rest, s = number ++ rest ∧ EndsNumber number rest := by
  by_cases h : ∃ front, IsNumber front ∧ front <+: s
  · obtain ⟨front, ⟨blanks, sign, digits, rfl, hblanks, hsign, hne, hdigits⟩, rest, rfl⟩ := h
    -- The digits go on as far as there are any.
    refine ⟨blanks ++ (sign ++ (digits ++ rest.takeWhile (Numeral.isDigit 10))),
      rest.dropWhile (Numeral.isDigit 10), by simp, .inl ⟨⟨blanks, sign, _, rfl, hblanks, hsign, ?_, ?_⟩, ?_⟩⟩
    · simp [hne]
    · intro b hb
      exact (List.mem_append.mp hb).elim (hdigits b) List.mem_takeWhile_imp
    · intro b hb
      have hnot := List.head?_dropWhile_not (Numeral.isDigit 10) rest
      rw [Option.mem_def.mp hb] at hnot
      simpa using hnot
  · exact ⟨[], s, rfl, .inr ⟨rfl, fun front hfront hprefix => h ⟨front, hfront, hprefix⟩⟩⟩

theorem endsNumber_decimal (n : Nat) {rest : Str} (hrest : ∀ b ∈ rest.head?, Numeral.isDigit 10 b = false) :
    EndsNumber (decimal n) rest := by
  have hdigits : ∀ b ∈ decimal n, Numeral.isDigit 10 b = true :=
    fun b hb => Numeral.isDigit_of_mem_numeral (by decide) (by decide) hb
  exact .inl ⟨⟨[], [], _, rfl, by simp, by simp, Numeral.numeral_ne_nil 10 _, hdigits⟩, hrest⟩

theorem EndsNumber.cstr {number rest : Str} (h : EndsNumber number rest) :
    EndsNumber number (cstr rest) := by
  have hprefix : Rikitiki.cstr rest <+: rest := List.takeWhile_prefix _
  rcases h with ⟨hnumber, hhead⟩ | ⟨hnil, hnone⟩
  · refine .inl ⟨hnumber, fun b hb => hhead b ?_⟩
    obtain ⟨behind, hrest⟩ := hprefix
    rw [← hrest, List.head?_append, Option.mem_def.mp hb]
    rfl
  · exact .inr ⟨hnil, fun front hfront hfrontPrefix => hnone front hfront (hfrontPrefix.trans hprefix)⟩

/-- **`strtol` stops where the number ends.** -/
theorem EndsNumber.strtol_unread {number rest : Str} (h : EndsNumber number rest) :
    (strtol 10 (number ++ rest)).2 = rest := by
  rcases h with ⟨⟨blanks, sign, digits, rfl, hblanks, hsign, hne, hdigits⟩, hhead⟩ | ⟨rfl, hnone⟩
  · obtain ⟨d, digits, rfl⟩ := List.exists_cons_of_ne_nil hne
    have hread : unsigned (blanks ++ (sign ++ d :: digits) ++ rest) = d :: digits ++ rest := by
      rw [List.append_assoc, List.append_assoc]
      exact unsigned_append hblanks hsign (hdigits d (by simp))
    have htake : (d :: digits ++ rest).takeWhile (Numeral.isDigit 10) = d :: digits := by
      rw [List.takeWhile_append_of_head _ hhead]
      exact List.takeWhile_eq_self_iff.mpr hdigits
    rw [strtol_snd, hread, htake, if_neg hne, List.dropWhile_append_of_forall _ hdigits]
    exact List.dropWhile_of_head hhead
  · rw [List.nil_append, strtol_snd, if_pos]
    by_contra hdigits
    obtain ⟨blanks, sign, hs, hblanks, hsign⟩ := exists_unsigned rest
    have hnumber : IsNumber (blanks ++ (sign ++ (unsigned rest).takeWhile (Numeral.isDigit 10))) :=
      ⟨blanks, sign, _, rfl, hblanks, hsign, hdigits, fun b => List.mem_takeWhile_imp⟩
    apply hnone _ hnumber
    refine ⟨(unsigned rest).dropWhile (Numeral.isDigit 10), ?_⟩
    rw [List.append_assoc, List.append_assoc, List.takeWhile_append_dropWhile]
    exact hs.symm

end Rikitiki
