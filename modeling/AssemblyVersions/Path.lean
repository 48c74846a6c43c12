import AssemblyVersions.Text

/-!
Paths. A path is shown as it was written and compared by its components: repeated and trailing
separators and inner dots do not count, a leading dot does, and `..` is not resolved.
-/

set_option autoImplicit false

namespace AssemblyVersions

structure Path where
  text : Text
deriving DecidableEq, Repr

namespace Path

inductive Component where
  | root
  | here
  | up
  | name (text : Text)
deriving DecidableEq, Repr

def pieces : Text → List Text
  | [] => [[]]
  | c :: rest =>
      if c = '/' then [] :: pieces rest
      else match pieces rest with
        | piece :: more => (c :: piece) :: more
        | [] => [[c]]

def Component.ofPiece? (piece : Text) : Option Component :=
  if piece = [] ∨ piece = ['.'] then none
  else if piece = ['.', '.'] then some .up
  else some (.name piece)

def isAbsolute (path : Path) : Bool := path.text.head? == some '/'

def components (path : Path) : List Component :=
  let named := (pieces path.text).filterMap Component.ofPiece?
  if path.isAbsolute then .root :: named
  else if (pieces path.text).head? = some ['.'] then .here :: named
  else named

def same (a b : Path) : Bool := a.components == b.components

-- The root comes first, then `.`, then `..`, then names in the order of their octets, which for
-- text is the order of its characters.
def Component.key : Component → Nat × Text
  | .root => (0, [])
  | .here => (1, [])
  | .up => (2, [])
  | .name text => (3, text)

def Component.order (a b : Component) : Ordering :=
  (compare a.key.1 b.key.1).then (compare a.key.2 b.key.2)

def order (a b : Path) : Ordering :=
  List.compareLex Component.order a.components b.components

def fileName? (path : Path) : Option Text :=
  match path.components.getLast? with
  | some (.name text) => some text
  | _ => none

def child (path : Path) (name : Text) : Path :=
  if path.text = [] ∨ path.text.getLast? = some '/' then ⟨path.text ++ name⟩
  else ⟨path.text ++ '/' :: name⟩

def isNamed (path : Path) (names : List Text) : Bool :=
  match path.fileName? with
  | some name => names.any fun wanted => Text.sameIgnoringCase wanted name
  | none => false

theorem same_iff {a b : Path} : a.same b ↔ a.components = b.components := by
  simp [same]

end Path

end AssemblyVersions
