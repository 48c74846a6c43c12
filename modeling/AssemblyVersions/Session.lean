import AssemblyVersions.Batch
import AssemblyVersions.CommandLine
import AssemblyVersions.Discovery

set_option autoImplicit false

namespace AssemblyVersions

structure Transcript where
  exitCode : Nat := 0
  output : Text := []
  errors : Text := []
deriving DecidableEq, Repr

namespace Settings

def fileName : Text := "asmver.toml".toList

def localPath : Path := ⟨'.' :: '/' :: fileName⟩

-- The settings file in the user's own folder, which hides it behind a dot.
def userPath (home : Path) : Path := home.child ('.' :: fileName)

def unreadable (path : Path) (fault : Fault) : Error :=
  .settings ("cannot read ".toList ++ path.text ++ ": ".toList ++ fault.message)

def readFrom (disk : Disk) (path : Path) : Except Error Settings :=
  match disk.read path with
  | .error fault => .error (unreadable path fault)
  | .ok bytes =>
      match Utf8.decode? bytes with
      | some text => parse text
      | none => .error (unreadable path .notUtf8)

-- The first there is of the file asked for, which must be there, the local file and the user's
-- file; without any of them the defaults.
def load (disk : Disk) (home : Option Path) (chosen : Option Path) : Except Error Settings :=
  match chosen with
  | some path => readFrom disk path
  | none =>
      if disk.has localPath then readFrom disk localPath
      else match home.map userPath with
        | some path => if disk.has path then readFrom disk path else .ok {}
        | none => .ok {}

end Settings

namespace Session

def status (text : Text) : Text := "→ ".toList ++ text ++ ['\n']

def success (text : Text) : Text := "✓ ".toList ++ text ++ ['\n']

def warning (warning : Warning) : Text := "⚠ WARNING: ".toList ++ warning.message ++ ['\n']

def failure (error : Error) : Text :=
  (error.report?.map Report.inconsistencyText).getD [] ++
    "ERROR: ".toList ++ error.message ++ ['\n']

def isGet : Operation → Bool
  | .get _ => true
  | _ => false

def opening (operation : Operation) (dryRun : Bool) (root : Path) (paths : List Path) : Text :=
  (if paths.isEmpty && !isGet operation then
    status ("No matching files found under ".toList ++ root.text) else []) ++
  (if dryRun && operation.isUpdate then
    status "Dry run: no files will be modified".toList else [])

def summary (outcome : Outcome) : Text :=
  Decimal.numeral outcome.changeCount ++ " change(s) in ".toList ++
    Decimal.numeral outcome.files.length ++ " file(s)".toList

def closing (operation : Operation) (dryRun : Bool) (outcome : Outcome) : Text :=
  match operation with
  | .report =>
      "\nVersions found\n".toList ++ (outcome.report.getD .empty).text
  | .get _ => (outcome.version.map fun version => version ++ ['\n']).getD []
  | _ =>
      outcome.files.flatMap FileChanges.log ++
        (if dryRun then status (summary outcome) else success (summary outcome)) ++
        (outcome.version.map fun version => status ("Version: ".toList ++ version)).getD []

def perform (settings : Settings) (operation : Operation) (dryRun : Bool) (root : Path)
    (disk : Disk) : Disk × Transcript :=
  match disk.find settings.search root with
  | .error error => (disk, { exitCode := 1, errors := failure error })
  | .ok paths =>
      let said := opening operation dryRun root paths
      match Batch.run operation dryRun paths disk with
      | (disk, .error error) => (disk, { exitCode := 1, output := said, errors := failure error })
      | (disk, .ok outcome) =>
          (disk,
            { output := said ++ closing operation dryRun outcome
              errors := if settings.warnOnDuplicates then outcome.warnings.flatMap warning
                else [] })

def run (arguments : Arguments) (home : Option Path) (disk : Disk) : Disk × Transcript :=
  let prepared := do
    let settings ← Settings.load disk home ((arguments.value? .settings).map Path.mk)
    let operation ← arguments.request.operation
    .ok (settings, operation)
  match prepared with
  | .error error => (disk, { exitCode := 1, errors := failure error })
  | .ok (settings, operation) =>
      perform settings operation (arguments.has .dryRun) arguments.root disk

def usage : Text := "Usage: asmver [OPTIONS] [ROOT]\n".toList

def synopsis (flag : Flag) : Text :=
  (match flag.short? with
    | some letter => ['-', letter, ',', ' ']
    | none => "    ".toList) ++
  "--".toList ++ flag.long ++
  (match flag.valueName? with
    | some name => ' ' :: '<' :: name ++ ['>']
    | none => [])

def help : Text :=
  let width := (Flag.all.map fun flag => (synopsis flag).length).foldl max 0
  let line (flag : Flag) : Text :=
    "  ".toList ++ synopsis flag ++ List.replicate (width - (synopsis flag).length + 2) ' ' ++
      flag.about ++ ['\n']
  "Set or increment the version declarations in AssemblyInfo.cs files\n\n".toList ++ usage ++
    "\nArguments:\n  [ROOT]  Base folder to scan [default: .]\n\nOptions:\n".toList ++
    Flag.all.flatMap line

def misuse (fault : Misuse) : Text :=
  let shown (flag : Flag) : Text := (synopsis flag).dropWhile (· == ' ')
  let reason := match fault with
    | .unexpected argument => "unexpected argument '".toList ++ argument ++ "' found".toList
    | .valueMissing flag =>
        "a value is required for '".toList ++ shown flag ++ "' but none was supplied".toList
    | .valueUnexpected flag => "no value is expected for '".toList ++ shown flag ++ ['\'']
    | .repeated flag =>
        "the argument '".toList ++ shown flag ++ "' cannot be used multiple times".toList
    | .emptyOperand => "a value is required for '[ROOT]' but none was supplied".toList
  "error: ".toList ++ reason ++ "\n\n".toList ++ usage ++
    "\nFor more information, try '--help'.\n".toList

def start (arguments : List Text) (home : Option Path) (disk : Disk) : Disk × Transcript :=
  match Invocation.parse arguments with
  | .run arguments => run arguments home disk
  | .help => (disk, { output := help })
  | .version => (disk, { output := "asmver 0.1.0\n".toList })
  | .misuse fault => (disk, { exitCode := 2, errors := misuse fault })

end Session

end AssemblyVersions
