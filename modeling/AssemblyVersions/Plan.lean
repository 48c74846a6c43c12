import AssemblyVersions.Operation

set_option autoImplicit false

namespace AssemblyVersions

def Number.increment (number : Number) (part : Part) : Except Error Number :=
  match number.next? part with
  | some next => .ok next
  | none => .error (.unparsableNumber (number.component part))

namespace Plan

def check (update : Update) : Except Error Update :=
  if update.kind.isNumeric ∧ (Number.ofText? update.value).isNone then
    .error (.invalidFormat update.kind update.value)
  else .ok update

def set (assignment : Assignment) : Except Error (List Update) := assignment.entries.mapM check

structure Increment where
  update : Update
  previous : Number
  next : Number
  source : Path
deriving DecidableEq, Repr

-- Every kind must have one value across all records. The number is that of the first record of the
-- target kind, which need not stand in the value.
def increment (records : List Record) (target : Kind) (part : Part) : Except Error Increment :=
  if !target.isNumeric then .error (.unknownIncrementTarget target.shortName)
  else
    let report := Report.ofRecords records
    if !report.isConsistent then .error (.inconsistentVersions report)
    else match Record.first? records target with
      | none => .error (.noSuchVersion target)
      | some record =>
          match record.number? with
          | none => .error (.unparsableNumber record.value)
          | some previous =>
              (previous.increment part).map fun next =>
                ⟨⟨target, next.toText⟩, previous, next, record.path⟩

end Plan

end AssemblyVersions
