import AssemblyVersions.Document
import AssemblyVersions.Edit
import AssemblyVersions.Plan
import AssemblyVersions.Store

set_option autoImplicit false

namespace AssemblyVersions

structure FileChanges where
  path : Path
  changes : List Change
  written : Bool
deriving DecidableEq, Repr

def FileChanges.log (file : FileChanges) : Text :=
  file.path.text ++ '\n' :: file.changes.flatMap Change.log

-- What a batch did. `version` is the value set, reached or found, if there is a single one.
structure Outcome where
  files : List FileChanges := []
  version : Option Text := none
  report : Option Report := none
  warnings : List Warning := []
deriving DecidableEq, Repr

def Outcome.changeCount (outcome : Outcome) : Nat :=
  (outcome.files.flatMap FileChanges.changes).length

structure Scanned where
  path : Path
  document : Document
  records : List Record
deriving DecidableEq, Repr

namespace Scanned

def ofBytes (path : Path) (bytes : Bytes) : Scanned :=
  let document := Document.ofBytes bytes
  ⟨path, document, Record.scan path document.texts⟩

def edit (file : Scanned) (updates : List Update) : Edit :=
  Edit.ofRecords file.path file.document.texts file.records updates

def edited (file : Scanned) (updates : List Update) : Bytes :=
  file.document.render (file.edit updates).lines

end Scanned

namespace Batch

variable {σ : Type} [Store σ]

def readFile (store : σ) (path : Path) : Except Error Scanned :=
  match Store.read store path with
  | .ok bytes => .ok (.ofBytes path bytes)
  | .error fault => .error (.readFailure path fault)

def readAll (store : σ) (paths : List Path) : Except Error (List Scanned) :=
  paths.mapM (readFile store)

def records (files : List Scanned) : List Record := files.flatMap Scanned.records

def changesOf (file : Scanned) (updates : List Update) (dryRun : Bool) : List FileChanges :=
  let edit := file.edit updates
  if edit.isChanged then [⟨file.path, edit.changes, !dryRun⟩] else []

def save (store : σ) (file : Scanned) (updates : List Update) (dryRun : Bool) : Except Error σ :=
  if (file.edit updates).isChanged && !dryRun then
    match Store.write store file.path (file.edited updates) with
    | .ok store => .ok store
    | .error fault => .error (.writeFailure file.path fault)
  else .ok store

-- Applies the updates file by file to the contents read at the start.
def applyAll (updates : List Update) (dryRun : Bool) :
    List Scanned → Outcome → σ → σ × Except Error Outcome
  | [], outcome, store => (store, .ok outcome)
  | file :: files, outcome, store =>
      match save store file updates dryRun with
      | .error error => (store, .error error)
      | .ok store =>
          applyAll updates dryRun files
            { outcome with
              files := outcome.files ++ changesOf file updates dryRun
              warnings := outcome.warnings ++ (file.edit updates).warnings } store

def singleValue : List Update → Option Text
  | [update] => some update.value
  | _ => none

inductive Task where
  | update (updates : List Update) (version : Option Text)
  | answer (outcome : Outcome)
deriving DecidableEq, Repr

def task (operation : Operation) (assigned : List Update) (records : List Record) :
    Except Error Task :=
  match operation with
  | .set _ => .ok (.update assigned (singleValue assigned))
  | .increment target part =>
      (Plan.increment records target part).map fun plan =>
        .update [plan.update] (some plan.update.value)
  | .report => .ok (.answer { report := some (Report.ofRecords records) })
  | .get kind =>
      match Record.first? records kind with
      | some record => .ok (.answer { version := some record.value })
      | none => .error (.noSuchVersion kind)

def assigned : Operation → Except Error (List Update)
  | .set assignment => Plan.set assignment
  | _ => .ok []

def prepare (operation : Operation) (paths : List Path) (store : σ) :
    Except Error (List Scanned × Task) := do
  let updates ← assigned operation
  let files ← readAll store paths
  let task ← task operation updates (records files)
  .ok (files, task)

def run (operation : Operation) (dryRun : Bool) (paths : List Path) (store : σ) :
    σ × Except Error Outcome :=
  match prepare operation paths store with
  | .error error => (store, .error error)
  | .ok (_, .answer outcome) => (store, .ok outcome)
  | .ok (files, .update updates version) =>
      applyAll updates dryRun files { version } store

end Batch

end AssemblyVersions
