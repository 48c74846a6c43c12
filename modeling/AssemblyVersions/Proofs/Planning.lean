import AssemblyVersions.Plan
import AssemblyVersions.Proofs.Consistency
import AssemblyVersions.Proofs.Rescan

set_option autoImplicit false

namespace AssemblyVersions

namespace Record

theorem number_of_scanned {path : Path} {base : Nat} {lines : List Text} {record : Record}
    (among : record ∈ scanFrom path base lines) (numeric : record.kind.isNumeric) :
    ∃ line, record.number? = (Number.find? record.value).or (Number.find? line) ∧
      record.number? ≠ none := by
  obtain ⟨line, -, read⟩ := of_mem_scan_from among
  obtain ⟨-, -, -, meant⟩ := of_line_eq_some.mp read
  rw [Declaration.meaning?, if_pos numeric] at meant
  obtain ⟨number, found, held⟩ := Option.map_eq_some_iff.mp meant
  refine ⟨line, ?_, ?_⟩
  · rw [found, number?, ← held]
  · rw [number?, ← held]
    exact Option.some_ne_none number

theorem number_of_numeric {path : Path} {base : Nat} {lines : List Text} {record : Record}
    (among : record ∈ scanFrom path base lines) (numeric : record.kind.isNumeric) :
    ∃ number, record.number? = some number ∧ number.OnlyDigits := by
  obtain ⟨line, held, present⟩ := number_of_scanned among numeric
  obtain ⟨number, same⟩ := Option.ne_none_iff_exists'.mp present
  refine ⟨number, same, ?_⟩
  rw [held, Option.or_eq_some_iff] at same
  rcases same with own | ⟨-, other⟩
  · exact Number.find_some own
  · exact Number.find_some other

def Numbered (records : List Record) : Prop :=
  ∀ record ∈ records, record.kind.isNumeric →
    ∃ number, record.number? = some number ∧ number.OnlyDigits

theorem numbered_of_files {files : List Scanned}
    (scanned : ∀ file ∈ files, ∃ path bytes, file = .ofBytes path bytes) :
    Numbered (Batch.records files) := by
  intro record among numeric
  obtain ⟨file, listed, inside⟩ := List.mem_flatMap.mp among
  obtain ⟨path, bytes, rfl⟩ := scanned file listed
  exact number_of_numeric inside numeric

theorem number_of_value {path : Path} {base : Nat} {lines : List Text} {record : Record}
    (among : record ∈ scanFrom path base lines) (numeric : record.kind.isNumeric) {number : Number}
    (found : Number.find? record.value = some number) : record.number? = some number := by
  obtain ⟨line, held, -⟩ := number_of_scanned among numeric
  rw [held, found, Option.some_or]

theorem first_eq_none {records : List Record} {kind : Kind} :
    first? records kind = none ↔ ∀ record ∈ records, record.kind ≠ kind := by
  rw [first?, List.find?_eq_none]
  refine forall₂_congr fun record _ => ?_
  rw [beq_iff_eq]

theorem first_eq_some {records : List Record} {kind : Kind} {record : Record}
    (first : first? records kind = some record) : record ∈ records ∧ record.kind = kind :=
  ⟨List.mem_of_find?_eq_some first, by simpa using List.find?_some first⟩

def Leads (records : List Record) (kind : Kind) (number : Number) : Prop :=
  ∃ record, first? records kind = some record ∧ record.number? = some number

theorem Leads.unique {records : List Record} {kind : Kind} {a b : Number}
    (left : Leads records kind a) (right : Leads records kind b) : a = b := by
  obtain ⟨record, first, held⟩ := left
  obtain ⟨other, again, kept⟩ := right
  rw [first] at again
  cases again
  rw [held] at kept
  exact Option.some.inj kept

theorem Numbered.leader {records : List Record} (numbered : Numbered records) {kind : Kind}
    (numeric : kind.isNumeric) (declared : ∃ record ∈ records, record.kind = kind) :
    ∃ number, Leads records kind number := by
  cases first : first? records kind with
  | none =>
      obtain ⟨record, among, same⟩ := declared
      exact absurd same (first_eq_none.mp first record among)
  | some record =>
      obtain ⟨among, same⟩ := first_eq_some first
      obtain ⟨number, held, -⟩ := numbered record among (by rw [same]; exact numeric)
      exact ⟨number, record, first, held⟩

theorem Numbered.digits {records : List Record} (numbered : Numbered records) {kind : Kind}
    (numeric : kind.isNumeric) {number : Number} (leads : Leads records kind number) :
    number.OnlyDigits := by
  obtain ⟨record, first, held⟩ := leads
  obtain ⟨among, same⟩ := first_eq_some first
  obtain ⟨other, again, plain⟩ := numbered record among (by rw [same]; exact numeric)
  rw [held] at again
  cases again
  exact plain

end Record

def Number.Grows (number : Number) (part : Part) (n : Nat) : Prop :=
  Decimal.value? (number.component part) = some n ∧ n ≤ 2 ^ 64 - 2

theorem Number.increment_grown {number : Number} (plain : number.OnlyDigits) {part : Part} {n : Nat}
    (grows : number.Grows part n) : number.increment part = .ok (number.grown n part) := by
  have next : number.next? part = some (number.grown n part) :=
    (next_eq_some_iff plain part).mpr ⟨n, grows.1, grows.2, rfl⟩
  rw [increment, next]

theorem Number.increment_stuck {number : Number} (plain : number.OnlyDigits) {part : Part}
    (stuck : ¬ ∃ n, number.Grows part n) :
    number.increment part = .error (.unparsableNumber (number.component part)) := by
  cases next : number.next? part with
  | none => rw [increment, next]
  | some grown =>
      obtain ⟨n, value, fits, -⟩ := (next_eq_some_iff plain part).mp next
      exact absurd ⟨n, value, fits⟩ stuck

namespace Plan

variable {records : List Record} {target : Kind}

theorem increment_disagreeing (numeric : target.isNumeric) (part : Part)
    (disagree : ¬ Record.Agree records) :
    increment records target part = .error (.inconsistentVersions (Report.ofRecords records)) := by
  rw [← Report.is_consistent_iff_agree, Bool.not_eq_true] at disagree
  simp [increment, numeric, disagree]

theorem increment_missing (numeric : target.isNumeric) (part : Part) (agree : Record.Agree records)
    (missing : Record.first? records target = none) :
    increment records target part = .error (.noSuchVersion target) := by
  rw [← Report.is_consistent_iff_agree] at agree
  simp [increment, numeric, agree, missing]

theorem increment_leading (numeric : target.isNumeric) (part : Part) (agree : Record.Agree records)
    {number : Number} (leads : Record.Leads records target number) :
    ∃ source, increment records target part = (number.increment part).map fun next =>
      ⟨⟨target, next.toText⟩, number, next, source⟩ := by
  obtain ⟨record, first, held⟩ := leads
  rw [← Report.is_consistent_iff_agree] at agree
  exact ⟨record.path, by simp [increment, numeric, agree, first, held]⟩

end Plan

end AssemblyVersions
