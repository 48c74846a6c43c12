import AssemblyVersions.Number

set_option autoImplicit false

namespace AssemblyVersions

structure Declaration where
  kind : Kind
  value : Text
deriving DecidableEq, Repr

inductive Value where
  | numeric (number : Number)
  | plain
deriving DecidableEq, Repr

namespace Declaration

def opening (kind : Kind) : Text :=
  "[assembly: ".toList ++ kind.name ++ ['(', '"']

def closing : Text := ['"', ')', ']']

def toText (declaration : Declaration) : Text :=
  opening declaration.kind ++ declaration.value ++ closing

def ofKind? (kind : Kind) (line : Text) : Option Declaration := do
  let rest ← Text.after? (opening kind) line
  let _ ← Text.after? closing (rest.dropWhile (· != '"'))
  some ⟨kind, rest.takeWhile (· != '"')⟩

def ofLine? (line : Text) : Option Declaration :=
  Kind.all.findSome? fun kind => ofKind? kind line

-- The meaning of the declaration on `line`. A number is looked for in the value and then in the
-- whole line; a numeric kind without one declares nothing.
def meaning? (declaration : Declaration) (line : Text) : Option Value :=
  if declaration.kind.isNumeric then
    ((Number.find? declaration.value).or (Number.find? line)).map .numeric
  else some .plain

end Declaration

end AssemblyVersions
