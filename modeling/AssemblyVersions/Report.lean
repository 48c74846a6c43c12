import AssemblyVersions.Record

set_option autoImplicit false

namespace AssemblyVersions

def amend {κ α : Type} [DecidableEq κ] (key : κ) (change : Option α → α) :
    List (κ × α) → List (κ × α)
  | [] => [(key, change none)]
  | (other, held) :: rest =>
      if other = key then (other, change (some held)) :: rest
      else (other, held) :: amend key change rest

abbrev Files := List Path

def Files.add (files : Files) (path : Path) : Files :=
  if files.any (Path.same · path) then files else files ++ [path]

abbrev Values := List (Text × Files)

structure Report where
  groups : List (Kind × Values)
deriving DecidableEq, Repr

namespace Report

def empty : Report := ⟨[]⟩

def add (report : Report) (record : Record) : Report :=
  ⟨amend record.kind
    (fun values => amend record.value
      (fun files => Files.add (files.getD []) record.path) (values.getD [])) report.groups⟩

def ofRecords (records : List Record) : Report := records.foldl add empty

def valuesOf (report : Report) (kind : Kind) : Values := (report.groups.lookup kind).getD []

def distinctCount (report : Report) (kind : Kind) : Nat := (report.valuesOf kind).length

def filesFor (report : Report) (kind : Kind) (value : Text) : Files :=
  ((report.valuesOf kind).lookup value).getD []

def isEmpty (report : Report) : Bool := report.groups.isEmpty

def isConsistent (report : Report) : Bool :=
  report.groups.all fun group => group.2.length ≤ 1

def inconsistent (report : Report) : List (Kind × Values) :=
  report.groups.filter fun group => 1 < group.2.length

def inconsistentNames (report : Report) : Text :=
  Text.joinWith ", ".toList (report.inconsistent.map fun group => group.1.name)

-- Values stand one step, files two steps to the right of their kind.
def listing (groups : List (Kind × Values)) : Text :=
  groups.flatMap fun (kind, values) =>
    kind.name ++ '\n' :: values.flatMap fun (value, files) =>
      "    ".toList ++ value ++ '\n' :: files.flatMap fun path =>
        "        ".toList ++ path.text ++ ['\n']

def text (report : Report) : Text :=
  if report.isEmpty then "No version declarations found.\n".toList else listing report.groups

def inconsistencyText (report : Report) : Text :=
  "Inconsistent versions detected.\n".toList ++ listing report.inconsistent

end Report

end AssemblyVersions
