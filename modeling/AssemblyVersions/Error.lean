import AssemblyVersions.Report

set_option autoImplicit false

namespace AssemblyVersions

inductive Fault where
  | noSuchFile
  | readOnly
  | notFound
  | notADirectory
  | isADirectory
  | nameTooLong
  | tooManyLinks
  | nulInName
  | notUtf8
  | other (reason : Text)
deriving DecidableEq, Repr

-- A file held in memory is simply missing or protected; a disk's answers carry their number.
def Fault.message : Fault → Text
  | .noSuchFile => "no such file".toList
  | .readOnly => "read-only file".toList
  | .notFound => "No such file or directory (os error 2)".toList
  | .notADirectory => "Not a directory (os error 20)".toList
  | .isADirectory => "Is a directory (os error 21)".toList
  | .nameTooLong => "File name too long (os error 36)".toList
  | .tooManyLinks => "Too many levels of symbolic links (os error 40)".toList
  | .nulInName => "file name contained an unexpected NUL byte".toList
  | .notUtf8 => "stream did not contain valid UTF-8".toList
  | .other reason => reason

inductive Error where
  | conflictingOperation (reason : Text)
  | noOperation
  | inconsistentVersions (report : Report)
  | unknownIncrementTarget (target : Text)
  | invalidIncrementPart (part : Text)
  | unknownKind (name : Text)
  | invalidFormat (kind : Kind) (value : Text)
  | noSuchVersion (kind : Kind)
  | unparsableNumber (text : Text)
  | readFailure (path : Path) (fault : Fault)
  | writeFailure (path : Path) (fault : Fault)
  | discovery (reason : Text)
  | settings (reason : Text)
  | io (fault : Fault)
deriving DecidableEq, Repr

namespace Error

def message : Error → Text
  | .conflictingOperation reason => "Conflicting operations: ".toList ++ reason
  | .noOperation => "A version update, report or get must be selected".toList
  | .inconsistentVersions report =>
      "Inconsistent versions detected for ".toList ++ report.inconsistentNames ++
        "; make them consistent before incrementing".toList
  | .unknownIncrementTarget target =>
      "Increment target not recognised: '".toList ++ target ++ "' (expected av or fv)".toList
  | .invalidIncrementPart part =>
      "Invalid increment part: '".toList ++ part ++ "' (expected b or r)".toList
  | .unknownKind name =>
      "Unknown version kind: '".toList ++ name ++ "' (expected av, fv or iv)".toList
  | .invalidFormat kind value =>
      "Invalid ".toList ++ kind.name ++ " '".toList ++ value ++
        "': expected a four part version number such as 1.0.0.0".toList
  | .noSuchVersion kind => "No ".toList ++ kind.name ++ " declaration found".toList
  | .unparsableNumber text => "Unable to decode version number: '".toList ++ text ++ ['\'']
  | .readFailure path fault =>
      "Failed to read ".toList ++ path.text ++ ": ".toList ++ fault.message
  | .writeFailure path fault =>
      "Failed to write ".toList ++ path.text ++ ": ".toList ++ fault.message
  | .discovery reason => "File discovery failed: ".toList ++ reason
  | .settings reason => "Configuration error: ".toList ++ reason
  | .io fault => "I/O error: ".toList ++ fault.message

def report? : Error → Option Report
  | .inconsistentVersions report => some report
  | _ => none

end Error

end AssemblyVersions
