import AssemblyVersions.Error

set_option autoImplicit false

namespace AssemblyVersions

-- The values to set, one at most for each kind. An empty text is a value.
structure Assignment where
  assembly : Option Text := none
  file : Option Text := none
  informational : Option Text := none
deriving DecidableEq, Repr

namespace Assignment

def value? (assignment : Assignment) : Kind → Option Text
  | .assembly => assignment.assembly
  | .file => assignment.file
  | .informational => assignment.informational

-- The order in which values are checked and added to files.
def order : List Kind := [.file, .assembly, .informational]

def entries (assignment : Assignment) : List Update :=
  order.filterMap fun kind => (assignment.value? kind).map fun value => ⟨kind, value⟩

def count (assignment : Assignment) : Nat := assignment.entries.length

end Assignment

inductive Operation where
  | set (assignment : Assignment)
  | increment (target : Kind) (part : Part)
  | report
  | get (kind : Kind)
deriving DecidableEq, Repr

def Operation.isUpdate : Operation → Bool
  | .set _ => true
  | .increment .. => true
  | _ => false

def Part.parse (text : Text) : Except Error Part :=
  match Part.ofText? text with
  | some part => .ok part
  | none => .error (.invalidIncrementPart text)

namespace Operation

def cut (spec : Text) : Text × Text :=
  (spec.takeWhile (· != ','), (spec.dropWhile (· != ',')).drop 1)

-- Reads `TARGET,PART`. A bad part is reported before a bad target.
def parseIncrement (spec : Text) : Except Error (Kind × Part) := do
  let (target, part) := cut spec
  let part ← Part.parse part
  match (Kind.ofShortName? target).filter Kind.isNumeric with
  | some kind => .ok (kind, part)
  | none => .error (.unknownIncrementTarget target.trim)

end Operation

structure Request where
  assignment : Assignment := {}
  increment : Option Text := none
  report : Bool := false
  get : Option Text := none
deriving DecidableEq, Repr

namespace Request

def setting (request : Request) : Bool := request.assignment.count != 0

def operation (request : Request) : Except Error Operation :=
  let incrementing := request.increment.isSome
  if request.report && (request.setting || incrementing || request.get.isSome) then
    .error (.conflictingOperation "report cannot be combined with other options".toList)
  else if request.get.isSome && (request.setting || incrementing) then
    .error (.conflictingOperation "get cannot be combined with other options".toList)
  else if request.setting && incrementing then
    .error (.conflictingOperation
      "versions cannot be incremented while version numbers are being assigned".toList)
  else if request.report then .ok .report
  else match request.get, request.increment with
    | some name, _ =>
        match Kind.ofShortName? name with
        | some kind => .ok (.get kind)
        | none => .error (.unknownKind name)
    | none, some spec => (Operation.parseIncrement spec).map fun (kind, part) => .increment kind part
    | none, none =>
        if request.setting then .ok (.set request.assignment) else .error .noOperation

end Request

end AssemblyVersions
