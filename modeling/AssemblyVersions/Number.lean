import AssemblyVersions.Kind
import AssemblyVersions.Text.Decimal

set_option autoImplicit false

namespace AssemblyVersions

structure Number where
  major : Text
  minor : Text
  build : Text
  revision : Text
deriving DecidableEq, Repr

namespace Number

def toText (number : Number) : Text :=
  number.major ++ '.' :: number.minor ++ '.' :: number.build ++ '.' :: number.revision

def digits (text : Text) : Text × Text :=
  (text.takeWhile Char.isDigit, text.dropWhile Char.isDigit)

def dotted? (text : Text) : Option (Text × Text) :=
  match digits text with
  | (run, '.' :: rest) => some (run, rest)
  | _ => none

def atStart? (text : Text) : Option (Number × Text) := do
  let (major, rest) ← dotted? text
  let (minor, rest) ← dotted? rest
  let (build, rest) ← dotted? rest
  let (revision, rest) := digits rest
  some (⟨major, minor, build, revision⟩, rest)

def find? : Text → Option Number
  | [] => none
  | c :: text =>
      match atStart? (c :: text) with
      | some (number, _) => some number
      | none => find? text

def IsComplete (number : Number) : Prop :=
  number.major ≠ [] ∧ number.minor ≠ [] ∧ number.build ≠ [] ∧ number.revision ≠ []

instance (number : Number) : Decidable number.IsComplete :=
  inferInstanceAs (Decidable (_ ∧ _ ∧ _ ∧ _))

def ofText? (text : Text) : Option Number :=
  match atStart? text with
  | some (number, []) => if number.IsComplete then some number else none
  | _ => none

def component (number : Number) : Part → Text
  | .build => number.build
  | .revision => number.revision

-- The number after the given one: the part grows by one, and a new build starts at revision
-- zero. There is none if the part is not a word or is the greatest one.
def next? (number : Number) (part : Part) : Option Number := do
  let value ← Decimal.word? (number.component part)
  if value + 1 < Decimal.wordBound then
    match part with
    | .build => some { number with build := Decimal.numeral (value + 1), revision := ['0'] }
    | .revision => some { number with revision := Decimal.numeral (value + 1) }
  else none

end Number

end AssemblyVersions
