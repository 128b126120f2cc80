import Mathlib.Data.Nat.Digits.Lemmas

/-!
# Numerals as bytes

Positional numerals written with the ASCII digits `0`-`9`, `a`-`z`, most significant digit first,
and their value. `value_numeral` is the round trip: what is written for `n` is worth `n`. The reading
side works on the longest run of digits in front of a byte string, which is what C's `strtol` and a
C++ stream extraction look at, so `takeWhile_numeral_append` says where such a run ends.
-/

namespace Numeral

/-- The digit a byte stands for in a base, if it is one. -/
def digitValue (base : Nat) (b : UInt8) : Option Nat :=
  let v := if 48 ≤ b ∧ b ≤ 57 then b.toNat - 48
    else if 65 ≤ b ∧ b ≤ 90 then b.toNat - 55
    else if 97 ≤ b ∧ b ≤ 122 then b.toNat - 87
    else base
  if v < base then some v else none

def isDigit (base : Nat) (b : UInt8) : Bool := (digitValue base b).isSome

def value (base : Nat) (ds : List UInt8) : Nat :=
  ds.foldl (fun acc b => acc * base + (digitValue base b).getD 0) 0

def digit (d : Nat) : UInt8 := if d < 10 then 48 + d.toUInt8 else 87 + d.toUInt8

/-- The numeral of `n`, without leading zeros. -/
def numeral (base n : Nat) : List UInt8 :=
  if n = 0 then [digit 0] else ((Nat.digits base n).map digit).reverse

theorem digitValue_digit {base d : Nat} (hd : d < base) (hbase : base ≤ 16) :
    digitValue base (digit d) = some d := by
  have hd16 : d < 16 := by omega
  have hcode : ∀ e < 16, (if 48 ≤ digit e ∧ digit e ≤ 57 then (digit e).toNat - 48
      else if 65 ≤ digit e ∧ digit e ≤ 90 then (digit e).toNat - 55
      else if 97 ≤ digit e ∧ digit e ≤ 122 then (digit e).toNat - 87 else 16) = e := by decide
  have hv := hcode d hd16
  have hne : ¬ (if 48 ≤ digit d ∧ digit d ≤ 57 then (digit d).toNat - 48
      else if 65 ≤ digit d ∧ digit d ≤ 90 then (digit d).toNat - 55
      else if 97 ≤ digit d ∧ digit d ≤ 122 then (digit d).toNat - 87 else 16) = 16 := by omega
  simp only [digitValue]
  split_ifs at hv hne ⊢ <;> simp_all

theorem isDigit_digit {base d : Nat} (hd : d < base) (hbase : base ≤ 16) :
    isDigit base (digit d) = true := by
  simp [isDigit, digitValue_digit hd hbase]

theorem value_append_singleton (base : Nat) (ds : List UInt8) (b : UInt8) :
    value base (ds ++ [b]) = value base ds * base + (digitValue base b).getD 0 := by
  simp [value]

theorem exists_digit_of_mem_numeral {base n : Nat} (hbase : 2 ≤ base) {b : UInt8}
    (hb : b ∈ numeral base n) : ∃ d < base, b = digit d := by
  rw [numeral] at hb
  split at hb
  · exact ⟨0, by omega, by simpa using hb⟩
  · rw [List.mem_reverse, List.mem_map] at hb
    obtain ⟨d, hd, rfl⟩ := hb
    exact ⟨d, Nat.digits_lt_base hbase hd, rfl⟩

theorem isDigit_of_mem_numeral {base n : Nat} (hbase : 2 ≤ base) (hle : base ≤ 16) {b : UInt8}
    (hb : b ∈ numeral base n) : isDigit base b = true := by
  obtain ⟨d, hd, rfl⟩ := exists_digit_of_mem_numeral hbase hb
  exact isDigit_digit hd hle

theorem numeral_ne_nil (base n : Nat) : numeral base n ≠ [] := by
  rw [numeral]
  split
  · simp
  · rename_i hn
    simp [Nat.digits_ne_nil_iff_ne_zero.mpr hn]

theorem value_map_digit_reverse {base : Nat} (hle : base ≤ 16) (ds : List Nat)
    (hds : ∀ d ∈ ds, d < base) : value base (ds.map digit).reverse = Nat.ofDigits base ds := by
  induction ds with
  | nil => rfl
  | cons d ds ih =>
      have hd := hds d (by simp)
      have ih := ih fun e he => hds e (by simp [he])
      simp only [List.map_cons, List.reverse_cons, value_append_singleton, ih,
        digitValue_digit hd hle, Option.getD_some, Nat.ofDigits_cons]
      ring

/-- **A numeral is worth the number it was written for.** -/
theorem value_numeral {base : Nat} (hbase : 2 ≤ base) (hle : base ≤ 16) (n : Nat) :
    value base (numeral base n) = n := by
  rw [numeral]
  split
  · rename_i hn
    simp [value, digitValue_digit (show 0 < base by omega) hle, hn]
  · rw [value_map_digit_reverse hle _ fun d hd => Nat.digits_lt_base hbase hd]
    exact Nat.ofDigits_digits base n

theorem takeWhile_numeral_append {base : Nat} (hbase : 2 ≤ base) (hle : base ≤ 16) (n : Nat)
    {rest : List UInt8} (hrest : ∀ b ∈ rest.head?, isDigit base b = false) :
    (numeral base n ++ rest).takeWhile (isDigit base) = numeral base n := by
  rw [List.takeWhile_append_of_pos fun b hb => isDigit_of_mem_numeral hbase hle hb]
  cases rest with
  | nil => simp
  | cons b rest => simp [hrest b (by simp)]

theorem numeral_injective {base : Nat} (hbase : 2 ≤ base) (hle : base ≤ 16) {m n : Nat}
    (h : numeral base m = numeral base n) : m = n := by
  have hv := congrArg (value base) h
  rwa [value_numeral hbase hle, value_numeral hbase hle] at hv

end Numeral
