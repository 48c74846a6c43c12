import AssemblyVersions.Text.Blank

set_option autoImplicit false

namespace AssemblyVersions

inductive Kind where
  | assembly
  | file
  | informational
deriving DecidableEq, Repr

namespace Kind

def all : List Kind := [.assembly, .file, .informational]

def name : Kind → Text
  | .assembly => "AssemblyVersion".toList
  | .file => "AssemblyFileVersion".toList
  | .informational => "AssemblyInformationalVersion".toList

def shortName : Kind → Text
  | .assembly => "av".toList
  | .file => "fv".toList
  | .informational => "iv".toList

def isNumeric : Kind → Bool
  | .informational => false
  | _ => true

def ofName? (text : Text) : Option Kind :=
  all.find? fun kind => kind.name == text

def ofShortName? (text : Text) : Option Kind :=
  all.find? fun kind => Text.sameIgnoringCase kind.shortName text.trim

theorem mem_all (kind : Kind) : kind ∈ all := by
  cases kind <;> decide

@[simp] theorem of_name_name (kind : Kind) : ofName? kind.name = some kind := by
  cases kind <;> decide

end Kind

inductive Part where
  | build
  | revision
deriving DecidableEq, Repr

namespace Part

def name : Part → Text
  | .build => "build".toList
  | .revision => "revision".toList

-- A part is named by its first letter or in full. No character outside ASCII has one of these
-- letters as its lower case, so only ASCII letters are folded.
def ofText? (text : Text) : Option Part :=
  let is (word : String) := Text.sameIgnoringCase text.trim word.toList
  if is "b" || is "build" then some .build
  else if is "r" || is "revision" then some .revision
  else none

end Part

end AssemblyVersions
