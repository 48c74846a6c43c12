import AssemblyVersions.Operation

set_option autoImplicit false

namespace AssemblyVersions

inductive Flag where
  | assembly
  | file
  | informational
  | increment
  | report
  | get
  | dryRun
  | settings
  | verbose
  | help
  | version
deriving DecidableEq, Repr

namespace Flag

def all : List Flag :=
  [.assembly, .file, .informational, .increment, .report, .get, .dryRun, .settings, .verbose,
   .help, .version]

def long : Flag → Text
  | .assembly => "av".toList
  | .file => "fv".toList
  | .informational => "iv".toList
  | .increment => "inc".toList
  | .report => "report".toList
  | .get => "get".toList
  | .dryRun => "dry-run".toList
  | .settings => "config".toList
  | .verbose => "verbose".toList
  | .help => "help".toList
  | .version => "version".toList

def short? : Flag → Option Char
  | .assembly => none
  | .file => none
  | .informational => none
  | .increment => some 'i'
  | .report => some 'r'
  | .get => some 'g'
  | .dryRun => some 'd'
  | .settings => some 'c'
  | .verbose => some 'v'
  | .help => some 'h'
  | .version => some 'V'

def valueName? : Flag → Option Text
  | .assembly => some "VERSION".toList
  | .file => some "VERSION".toList
  | .informational => some "TEXT".toList
  | .increment => some "TARGET,PART".toList
  | .get => some "KIND".toList
  | .settings => some "CONFIG".toList
  | _ => none

def about : Flag → Text
  | .assembly =>
      "Set AssemblyVersion to a four part version number, e.g. --av 1.0.0.0".toList
  | .file =>
      "Set AssemblyFileVersion to a four part version number, e.g. --fv 1.0.0.0".toList
  | .informational =>
      "Set AssemblyInformationalVersion to any text, e.g. --iv \"1.0 beta\"".toList
  | .increment =>
      "Increment the build (b) or revision (r) of av or fv, e.g. --inc av,b".toList
  | .report => "List every distinct version found, per kind".toList
  | .get => "Print the first av, fv or iv value found".toList
  | .dryRun => "Preview changes without writing any file".toList
  | .settings => "Custom configuration file path".toList
  | .verbose => "Show diagnostic logging".toList
  | .help => "Print help".toList
  | .version => "Print version".toList

def takesValue (flag : Flag) : Bool := flag.valueName?.isSome

def ofLong? (name : Text) : Option Flag := all.find? fun flag => flag.long == name

def ofShort? (letter : Char) : Option Flag := all.find? fun flag => flag.short? == some letter

end Flag

structure Arguments where
  given : List (Flag × Text) := []
  operand : Option Text := none
deriving DecidableEq, Repr

inductive Misuse where
  | unexpected (argument : Text)
  | valueMissing (flag : Flag)
  | valueUnexpected (flag : Flag)
  | repeated (flag : Flag)
  | emptyOperand
deriving DecidableEq, Repr

inductive Invocation where
  | run (arguments : Arguments)
  | help
  | version
  | misuse (fault : Misuse)
deriving DecidableEq, Repr

namespace Arguments

def value? (arguments : Arguments) (flag : Flag) : Option Text := arguments.given.lookup flag

def has (arguments : Arguments) (flag : Flag) : Bool := (arguments.value? flag).isSome

def root (arguments : Arguments) : Path := ⟨arguments.operand.getD ['.']⟩

def request (arguments : Arguments) : Request where
  assignment :=
    ⟨arguments.value? .assembly, arguments.value? .file, arguments.value? .informational⟩
  increment := arguments.value? .increment
  report := arguments.has .report
  get := arguments.value? .get

abbrev Progress := Except Invocation Arguments

-- No flag may be given twice.
def add (arguments : Arguments) (flag : Flag) (value : Text) : Progress :=
  if flag = .help then .error .help
  else if flag = .version then .error .version
  else if arguments.has flag then .error (.misuse (.repeated flag))
  else .ok { arguments with given := arguments.given ++ [(flag, value)] }

def addOperand (arguments : Arguments) (text : Text) : Progress :=
  if arguments.operand.isSome then .error (.misuse (.unexpected text))
  else if text = [] then .error (.misuse .emptyOperand)
  else .ok { arguments with operand := some text }

-- A value in the same argument may have an equals sign before it.
def attached (text : Text) : Text :=
  match text with
  | '=' :: rest => rest
  | _ => text

-- Reads a cluster of short flags. The flag that is returned takes the next argument.
def addShort : Text → Arguments → Except Invocation (Arguments × Option Flag)
  | [], arguments => .ok (arguments, none)
  | letter :: rest, arguments =>
      match Flag.ofShort? letter with
      | none => .error (.misuse (.unexpected ['-', letter]))
      | some flag =>
          if flag.takesValue then
            if rest = [] then .ok (arguments, some flag)
            else (arguments.add flag (attached rest)).map fun arguments => (arguments, none)
          else match arguments.add flag [] with
            | .ok arguments => addShort rest arguments
            | .error ended => .error ended

def addLong (text : Text) (arguments : Arguments) :
    Except Invocation (Arguments × Option Flag) :=
  let name := text.takeWhile (· != '=')
  match Flag.ofLong? name, text.dropWhile (· != '=') with
  | none, _ => .error (.misuse (.unexpected ('-' :: '-' :: name)))
  | some flag, [] =>
      if flag.takesValue then .ok (arguments, some flag)
      else (arguments.add flag []).map fun arguments => (arguments, none)
  | some flag, _ :: value =>
      if flag.takesValue then (arguments.add flag value).map fun arguments => (arguments, none)
      else .error (.misuse (.valueUnexpected flag))

-- Reads one argument. A lone hyphen is an operand.
def addFlagOrOperand (argument : Text) (arguments : Arguments) :
    Except Invocation (Arguments × Option Flag) :=
  match argument with
  | '-' :: '-' :: rest => addLong rest arguments
  | '-' :: letter :: rest => addShort (letter :: rest) arguments
  | _ => (arguments.addOperand argument).map fun arguments => (arguments, none)

def isValue (argument : Text) : Bool := argument.head? != some '-' || argument == ['-']

def addOperands : List Text → Arguments → Invocation
  | [], arguments => .run arguments
  | argument :: rest, arguments =>
      match arguments.addOperand argument with
      | .ok arguments => addOperands rest arguments
      | .error ended => ended

def addAll : List Text → Arguments → Invocation
  | [], arguments => .run arguments
  | argument :: rest, arguments =>
      if argument = ['-', '-'] then addOperands rest arguments
      else match addFlagOrOperand argument arguments with
        | .error ended => ended
        | .ok (arguments, none) => addAll rest arguments
        | .ok (arguments, some flag) =>
            match rest with
            | [] => .misuse (.valueMissing flag)
            | value :: rest =>
                if isValue value then
                  match arguments.add flag value with
                  | .ok arguments => addAll rest arguments
                  | .error ended => ended
                else .misuse (.valueMissing flag)

end Arguments

namespace Invocation

def parse (arguments : List Text) : Invocation := Arguments.addAll arguments {}

end Invocation

end AssemblyVersions
