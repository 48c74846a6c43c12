import AssemblyVersions.Error
import AssemblyVersions.Text.Utf8
import AssemblyVersions.Toml.Document

set_option autoImplicit false

namespace AssemblyVersions

structure Search where
  fileNames : List Text := ["AssemblyInfo.cs".toList]
  followLinks : Bool := false
  maxDepth : Option Nat := none
deriving DecidableEq, Repr

structure Settings where
  search : Search := {}
  warnOnDuplicates : Bool := true
deriving DecidableEq, Repr

namespace Toml.Value

-- The values of the named fields. A table gives them by name, an array by position, and a date
-- or a time has none of them.
def fields? (names : List Text) : Value → Option (List (Option Value))
  | .table _ entries => some (names.map fun name => entries.lookup name)
  | .array items => some ((List.range names.length).map fun index => items[index]?)
  | .tables items => some ((List.range names.length).map fun index => items[index]?)
  | .scalar .moment => some (names.map fun _ => none)
  | _ => none

def boolean? : Value → Option Bool
  | .scalar (.boolean value) => some value
  | _ => none

def count? : Value → Option Nat
  | .scalar (.integer value) => if 0 ≤ value then some value.toNat else none
  | _ => none

def text? : Value → Option Text
  | .text value => some value
  | _ => none

def texts? : Value → Option (List Text)
  | .array items => items.mapM text?
  | _ => none

end Toml.Value

namespace Settings

def field {α : Type} (read? : Toml.Value → Option α) (default : α) : Option Toml.Value → Option α
  | none => some default
  | some value => read? value

def search? (value : Toml.Value) : Option Search := do
  let fields ← value.fields? ["file_names".toList, "follow_links".toList, "max_depth".toList]
  match fields with
  | [fileNames, followLinks, maxDepth] =>
      some
        { fileNames := ← field Toml.Value.texts? ({} : Search).fileNames fileNames
          followLinks := ← field Toml.Value.boolean? false followLinks
          maxDepth := ← field (fun value => value.count?.map some) none maxDepth }
  | _ => none

def warnOnDuplicates? (value : Toml.Value) : Option Bool := do
  let fields ← value.fields? ["warn_on_duplicates".toList]
  match fields with
  | [warnOnDuplicates] => field Toml.Value.boolean? true warnOnDuplicates
  | _ => none

def ofText? (text : Text) : Option Settings := do
  let root ← Toml.parse? text
  let search ← field search? {} (root.lookup "discovery".toList)
  let warnOnDuplicates ← field warnOnDuplicates? true (root.lookup "behavior".toList)
  some { search, warnOnDuplicates }

def parse (text : Text) : Except Error Settings :=
  match ofText? text with
  | some settings => .ok settings
  | none => .error (.settings "not a valid settings document".toList)

end Settings

end AssemblyVersions
