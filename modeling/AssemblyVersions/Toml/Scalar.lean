import AssemblyVersions.Toml.Reader
import AssemblyVersions.Toml.Quoted
import AssemblyVersions.Text.Decimal

set_option autoImplicit false

namespace AssemblyVersions.Toml

-- Of floating-point numbers, dates and times no setting needs more than that they are valid.
inductive Scalar where
  | boolean (value : Bool)
  | integer (value : Int)
  | float
  | moment
deriving DecidableEq, Repr

namespace Scalar

-- The digits of a run in which single underscores may stand between digits.
def run? (isDigit : Char → Bool) : Text → Option Text
  | [] => none
  | [c] => if isDigit c then some [c] else none
  | c :: '_' :: rest => if isDigit c then (run? isDigit rest).map (c :: ·) else none
  | c :: rest => if isDigit c then (run? isDigit rest).map (c :: ·) else none

def decimal? (text : Text) : Option Text :=
  match text with
  | '0' :: _ :: _ => none
  | _ => run? Char.isDigit text

def unsigned (text : Text) : Text :=
  match text with
  | '+' :: rest => rest
  | '-' :: rest => rest
  | _ => text

def isNegative (text : Text) : Bool := text.head? == some '-'

def inRange (n : Int) : Option Int :=
  if -9223372036854775808 ≤ n ∧ n ≤ 9223372036854775807 then some n else none

def ofBase (base : Nat) (isDigit : Char → Bool) (text : Text) : Option Int := do
  let digits ← run? isDigit text
  inRange (digits.foldl (fun n c => n * base + (hexValue? c).getD 0) 0 : Nat)

def integer? (text : Text) : Option Int :=
  match text with
  | '0' :: 'x' :: rest => ofBase 16 (fun c => (hexValue? c).isSome) rest
  | '0' :: 'o' :: rest => ofBase 8 (fun c => '0' ≤ c && c ≤ '7') rest
  | '0' :: 'b' :: rest => ofBase 2 (fun c => c == '0' || c == '1') rest
  | _ => do
      let digits ← decimal? (unsigned text)
      let n : Int := Nat.ofDigitChars 10 digits 0
      inRange (if isNegative text then -n else n)

-- Whether `mantissa` times ten to the `exponent` rounds to infinity in double precision, which
-- is so from halfway between the greatest finite number and the next power of two.
def overflows (mantissa : Nat) (exponent : Int) : Bool :=
  let bound := Nat.pow 2 1024 - Nat.pow 2 970
  let magnitude : Int := (Decimal.numeral mantissa).length + exponent
  if mantissa = 0 || magnitude < 300 then false
  else if magnitude > 310 then true
  else if exponent ≥ 0 then bound ≤ mantissa * Nat.pow 10 exponent.toNat
  else bound * Nat.pow 10 (-exponent).toNat ≤ mantissa

def exponent? (text : Text) : Option Int :=
  match text with
  | [] => some 0
  | c :: rest =>
      if c == 'e' || c == 'E' then do
        let digits ← run? Char.isDigit (unsigned rest)
        let n : Int := Nat.ofDigitChars 10 digits 0
        some (if isNegative rest then -n else n)
      else none

def isMark (c : Char) : Bool := c == 'e' || c == 'E'

-- A decimal number with a fraction, an exponent or both, `inf` or `nan`. A positive number too
-- great for double precision is refused.
def isFloat (text : Text) : Bool :=
  let body := unsigned text
  if body == "inf".toList || body == "nan".toList then true
  else
    let whole := body.takeWhile fun c => c != '.' && !isMark c
    let rest := body.dropWhile fun c => c != '.' && !isMark c
    let parts := match rest with
      | '.' :: rest =>
          (run? Char.isDigit (rest.takeWhile (!isMark ·))).map (·, rest.dropWhile (!isMark ·))
      | [] => none
      | rest => some ([], rest)
    match decimal? whole, parts with
    | some whole, some (fraction, rest) =>
        match exponent? rest with
        | some exponent =>
            isNegative text ||
              !overflows (Nat.ofDigitChars 10 (whole ++ fraction) 0) (exponent - fraction.length)
        | none => false
    | _, _ => false

def pair? (least greatest : Nat) (tens ones : Char) : Option Nat :=
  if tens.isDigit && ones.isDigit then
    let n := Nat.ofDigitChars 10 [tens, ones] 0
    if least ≤ n ∧ n ≤ greatest then some n else none
  else none

def daysIn (year month : Nat) : Nat :=
  if month = 2 then
    if year % 4 = 0 ∧ (year % 100 ≠ 0 ∨ year % 400 = 0) then 29 else 28
  else if month ∈ [4, 6, 9, 11] then 30 else 31

def afterDate? (text : Text) : Option Text :=
  match text with
  | a :: b :: c :: d :: '-' :: e :: f :: '-' :: g :: h :: rest => do
      let century ← pair? 0 99 a b
      let year ← pair? 0 99 c d
      let month ← pair? 1 12 e f
      let _ ← pair? 1 (daysIn (century * 100 + year) month) g h
      some rest
  | _ => none

-- What follows a valid time of day, which is written as `07:32:00` with any number of decimals;
-- a minute may have a leap second.
def afterTime? (text : Text) : Option Text :=
  match text with
  | a :: b :: ':' :: c :: d :: ':' :: e :: f :: rest => do
      let _ ← pair? 0 23 a b
      let _ ← pair? 0 59 c d
      let _ ← pair? 0 60 e f
      match rest with
      | '.' :: decimals =>
          if (decimals.head?.any Char.isDigit) then some (decimals.dropWhile Char.isDigit) else none
      | _ => some rest
  | _ => none

def isOffset (text : Text) : Bool :=
  match text with
  | [c] => c == 'Z' || c == 'z'
  | [sign, a, b, ':', c, d] =>
      (sign == '+' || sign == '-') && (pair? 0 23 a b).isSome && (pair? 0 59 c d).isSome
  | _ => false

def isDatedTime (text : Text) : Bool :=
  match afterTime? text with
  | some rest => rest.isEmpty || isOffset rest
  | none => false

def isDate (text : Text) : Bool := afterDate? text == some []

def isMoment (text : Text) : Bool :=
  match afterDate? text with
  | some [] => true
  | some (c :: rest) => (c == 'T' || c == 't') && isDatedTime rest
  | none => afterTime? text == some []

def ofText? (text : Text) : Option Scalar :=
  if text == "true".toList then some (.boolean true)
  else if text == "false".toList then some (.boolean false)
  else if isMoment text then some .moment
  else if isFloat text then some .float
  else (integer? text).map .integer

def isWordChar (c : Char) : Bool :=
  c.isAlphanum || c == '+' || c == '-' || c == '_' || c == '.' || c == ':'

open Reader in
def reader : Reader Scalar := do
  let text ← nonemptyRun isWordChar
  if isDate text then
    perhaps do
      char ' '
      let time ← nonemptyRun isWordChar
      if isDatedTime time then pure () else failure
  match ofText? text with
  | some scalar => pure scalar
  | none => failure

end Scalar

end AssemblyVersions.Toml
