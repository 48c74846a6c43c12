import AssemblyVersions.Record

/-!
Edits: new lines for a file from its lines, the records of its declarations and the updates asked
for. Each record takes the next update of its kind, or is written from its own value if none is
left, and updates that no record takes are added at the end. The change log and the warnings are
made on the same walk.
-/

set_option autoImplicit false

namespace AssemblyVersions

inductive Change where
  | replaced (line : Nat) (old new : Text)
  | added (line : Text)
deriving DecidableEq, Repr

namespace Change

def margin : Text := "    ".toList

def log : Change → Text
  | .replaced _ old new =>
      "Replacing:\n".toList ++ margin ++ old ++ "\nwith\n".toList ++ margin ++ new ++ ['\n']
  | .added line => "Adding:\n".toList ++ margin ++ line ++ ['\n']

end Change

-- A kind is declared again at `line`. With several updates of the kind this declaration takes one too,
-- whatever the wording says.
structure Warning where
  path : Path
  kind : Kind
  firstLine : Nat
  line : Nat
deriving DecidableEq, Repr

-- The wording counts lines from one.
def Warning.message (warning : Warning) : Text :=
  warning.path.text ++ ": ".toList ++ warning.kind.name ++ " declared again on line ".toList ++
    Decimal.numeral (warning.line + 1) ++ " (first on line ".toList ++
    Decimal.numeral (warning.firstLine + 1) ++ "); only the first is updated".toList

structure Edit where
  lines : List Text
  changes : List Change
  warnings : List Warning
deriving DecidableEq, Repr

namespace Edit

def isChanged (edit : Edit) : Bool := !edit.changes.isEmpty

def additions (pending : List Update) : Edit where
  lines := pending.map Update.declaration
  changes := pending.map fun update => .added update.declaration
  warnings := []

def written (record : Record) (pending : List Update) : Text :=
  match pending.find? (·.kind == record.kind) with
  | some update => update.declaration
  | none => record.declaration

def remaining (kind : Kind) (pending : List Update) : List Update :=
  pending.eraseP (·.kind == kind)

def replacement (index : Nat) (old new : Text) : List Change :=
  if new = old then [] else [.replaced index old new]

abbrev Seen := List (Kind × Nat)

def Seen.warning (seen : Seen) (path : Path) (kind : Kind) (index : Nat) : List Warning :=
  match seen.lookup kind with
  | some first => [⟨path, kind, first, index⟩]
  | none => []

def Seen.note (seen : Seen) (kind : Kind) (index : Nat) : Seen :=
  match seen.lookup kind with
  | some _ => seen
  | none => (kind, index) :: seen

-- Walks the lines from the one with the given index. Of several records at one line the first
-- given counts, and records at no line do not count.
def walk (path : Path) (records : List Record) : Nat → Seen → List Update → List Text → Edit
  | _, _, pending, [] => additions pending
  | index, seen, pending, line :: lines =>
      match records.find? (·.line == index) with
      | none =>
          let rest := walk path records (index + 1) seen pending lines
          { rest with lines := line :: rest.lines }
      | some record =>
          let new := written record pending
          let rest := walk path records (index + 1) (seen.note record.kind index)
            (remaining record.kind pending) lines
          { lines := new :: rest.lines
            changes := replacement index line new ++ rest.changes
            warnings := seen.warning path record.kind index ++ rest.warnings }

def ofRecords (path : Path) (lines : List Text) (records : List Record) (updates : List Update) :
    Edit :=
  walk path records 0 [] updates lines

end Edit

end AssemblyVersions
