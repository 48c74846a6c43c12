import AssemblyVersions.Text

set_option autoImplicit false

namespace AssemblyVersions.Decimal

def value? (text : Text) : Option Nat :=
  if text ≠ [] ∧ text.all Char.isDigit then some (Nat.ofDigitChars 10 text 0) else none

def numeral (n : Nat) : Text := Nat.toDigits 10 n

def wordBound : Nat := 18446744073709551616

-- Reads a word; one plus sign may stand before the digits.
def word? (text : Text) : Option Nat :=
  let digits := match text with
    | '+' :: rest => rest
    | _ => text
  (value? digits).filter (· < wordBound)

@[simp] theorem value_numeral (n : Nat) : value? (numeral n) = some n := by
  have digits : (Nat.toDigits 10 n).all Char.isDigit = true := by
    simp only [List.all_eq_true]
    intro c mem
    exact Nat.isDigit_of_mem_toDigits (by decide) (by decide) mem
  simp [value?, numeral, digits, Nat.toDigits_ne_nil, Nat.ofDigitChars_ten_toDigits]

end AssemblyVersions.Decimal
