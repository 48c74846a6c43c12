import AssemblyVersions.Proofs.Planning

/-!
Increments of the same files in another order. The check before an increment compares the text
between the quotes, and the increment itself takes the number of the first record, which may stand in
the rest of the line. So the order decides only among files whose lines give one text two numbers.
-/

set_option autoImplicit false

namespace AssemblyVersions

namespace Record

theorem agree_congr {a b : List Record} (same : ∀ record, record ∈ a ↔ record ∈ b) :
    Agree a ↔ Agree b := by
  simp only [Agree, same]

theorem Leads.append {records : List Record} {kind : Kind} {number : Number}
    (leads : Leads records kind number) (more : List Record) :
    Leads (records ++ more) kind number := by
  obtain ⟨record, first, held⟩ := leads
  refine ⟨record, ?_, held⟩
  rw [first?] at first
  rw [first?, List.find?_append, first, Option.some_or]

theorem leads_of_files {files : List Scanned} {kind : Kind} {number : Number}
    (leads : Leads (Batch.records files) kind number) :
    ∃ file ∈ files, Leads file.records kind number := by
  obtain ⟨record, first, held⟩ := leads
  rw [first?, Batch.records, List.find?_flatMap] at first
  obtain ⟨file, listed, here⟩ := List.exists_of_findSome?_eq_some first
  exact ⟨file, listed, record, here, held⟩

end Record

namespace Plan

-- What two plans are compared by: the update and its number, or the sort of the error.
def verdict : Except Error Increment → Except Nat (Update × Number)
  | .ok plan => .ok (plan.update, plan.next)
  | .error error => .error error.ctorIdx

section Order

variable {a b : List Record} {target : Kind} {part : Part}

theorem verdict_eq_iff (numeric : target.isNumeric) (agree_a : Record.Agree a)
    (agree_b : Record.Agree b) {m n : Number} (leads_a : Record.Leads a target m)
    (leads_b : Record.Leads b target n) :
    verdict (increment a target part) = verdict (increment b target part) ↔
      m.next? part = n.next? part := by
  obtain ⟨source_a, plan_a⟩ := increment_leading numeric part agree_a leads_a
  obtain ⟨source_b, plan_b⟩ := increment_leading numeric part agree_b leads_b
  rw [plan_a, plan_b, Number.increment, Number.increment]
  cases m.next? part with
  | none =>
      cases n.next? part with
      | none => simp [Except.map, verdict, Error.ctorIdx]
      | some next => simp [Except.map, verdict]
  | some next =>
      cases n.next? part with
      | none => simp [Except.map, verdict]
      | some other =>
          simp only [Except.map, verdict, Except.ok.injEq, Prod.mk.injEq, Option.some.injEq]
          constructor
          · rintro ⟨-, same⟩
            exact same
          · rintro rfl
            exact ⟨rfl, rfl⟩

theorem verdict_of_same (numeric : target.isNumeric) (numbered_a : Record.Numbered a)
    (same : ∀ record, record ∈ a ↔ record ∈ b)
    (numbers : Record.Agree a → ∀ m n, Record.Leads a target m → Record.Leads b target n →
      m.next? part = n.next? part) :
    verdict (increment a target part) = verdict (increment b target part) := by
  by_cases agree : Record.Agree a
  · have agree_b := (Record.agree_congr same).mp agree
    by_cases declared : ∃ record ∈ a, record.kind = target
    · have numbered_b : Record.Numbered b := fun record among =>
        numbered_a record ((same record).mpr among)
      have declared_b : ∃ record ∈ b, record.kind = target := by
        obtain ⟨record, among, kind⟩ := declared
        exact ⟨record, (same record).mp among, kind⟩
      obtain ⟨m, leads_a⟩ := numbered_a.leader numeric declared
      obtain ⟨n, leads_b⟩ := numbered_b.leader numeric declared_b
      apply (verdict_eq_iff numeric agree agree_b leads_a leads_b).mpr
      exact numbers agree m n leads_a leads_b
    · push Not at declared
      have missing : Record.first? a target = none := Record.first_eq_none.mpr declared
      have missing_b : Record.first? b target = none := Record.first_eq_none.mpr fun record among =>
        declared record ((same record).mpr among)
      rw [increment_missing numeric part agree missing,
        increment_missing numeric part agree_b missing_b]
  · have disagree := mt (Record.agree_congr same).mpr agree
    rw [increment_disagreeing numeric part agree, increment_disagreeing numeric part disagree]
    rfl

end Order

def scanned (files : List (Path × Bytes)) : List Scanned :=
  files.map fun file => .ofBytes file.1 file.2

def ofFiles (files : List (Path × Bytes)) (target : Kind) (part : Part) : Except Error Increment :=
  increment (Batch.records (scanned files)) target part

section Files

variable {files other : List (Path × Bytes)} {target : Kind} {part : Part}

theorem numbered_scanned (files : List (Path × Bytes)) :
    Record.Numbered (Batch.records (scanned files)) := by
  apply Record.numbered_of_files
  intro file listed
  obtain ⟨source, -, rfl⟩ := List.mem_map.mp listed
  exact ⟨_, _, rfl⟩

theorem mem_records_of_perm (perm : files.Perm other) (record : Record) :
    record ∈ Batch.records (scanned files) ↔ record ∈ Batch.records (scanned other) :=
  ((perm.map _).flatMap_right _).mem_iff

theorem leads_in_front {file : Scanned} (listed : file ∈ scanned files) {number : Number}
    (leads : Record.Leads file.records target number) :
    ∃ order, files.Perm order ∧ Record.Leads (Batch.records (scanned order)) target number := by
  obtain ⟨source, among, rfl⟩ := List.mem_map.mp listed
  exact ⟨source :: files.erase source, List.perm_cons_erase among, leads.append _⟩

theorem verdict_of_perm (numeric : target.isNumeric) (perm : files.Perm other)
    (numbers : Record.Agree (Batch.records (scanned files)) →
      ∀ a ∈ scanned files, ∀ b ∈ scanned files, ∀ m n, Record.Leads a.records target m →
        Record.Leads b.records target n → m.next? part = n.next? part) :
    verdict (ofFiles files target part) = verdict (ofFiles other target part) := by
  apply verdict_of_same numeric (numbered_scanned files) (mem_records_of_perm perm)
  intro agree m n leads leads_other
  obtain ⟨a, listed, own⟩ := Record.leads_of_files leads
  obtain ⟨b, among, own_other⟩ := Record.leads_of_files leads_other
  have listed_too : b ∈ scanned files := (perm.map _).mem_iff.mpr among
  exact numbers agree a listed b listed_too m n own own_other

theorem same_next_of_same_verdicts (numeric : target.isNumeric)
    (same : ∀ other, files.Perm other →
      verdict (ofFiles files target part) = verdict (ofFiles other target part))
    (agree : Record.Agree (Batch.records (scanned files))) {a b : Scanned}
    (listed_a : a ∈ scanned files) (listed_b : b ∈ scanned files) {m n : Number}
    (leads_a : Record.Leads a.records target m) (leads_b : Record.Leads b.records target n) :
    m.next? part = n.next? part := by
  obtain ⟨order_a, perm_a, first_a⟩ := leads_in_front listed_a leads_a
  obtain ⟨order_b, perm_b, first_b⟩ := leads_in_front listed_b leads_b
  have agree_a := (Record.agree_congr (mem_records_of_perm perm_a)).mp agree
  have agree_b := (Record.agree_congr (mem_records_of_perm perm_b)).mp agree
  apply (verdict_eq_iff numeric agree_a agree_b first_a first_b).mp
  exact (same order_a perm_a).symm.trans (same order_b perm_b)

theorem find_of_leads (numeric : target.isNumeric) {file : Scanned} (listed : file ∈ scanned files)
    (held : ∀ record ∈ Batch.records (scanned files), record.kind = target →
      (Number.find? record.value).isSome) {number : Number}
    (leads : Record.Leads file.records target number) :
    ∃ record ∈ Batch.records (scanned files), record.kind = target ∧
      Number.find? record.value = some number := by
  obtain ⟨record, first, own⟩ := leads
  obtain ⟨inside, kind⟩ := Record.first_eq_some first
  have among : record ∈ Batch.records (scanned files) := List.mem_flatMap.mpr ⟨file, listed, inside⟩
  obtain ⟨found, read⟩ := Option.isSome_iff_exists.mp (held record among kind)
  obtain ⟨source, -, rfl⟩ := List.mem_map.mp listed
  have again := Record.number_of_value inside (by rw [kind]; exact numeric) read
  rw [own] at again
  exact ⟨record, among, kind, read.trans again.symm⟩

-- The order of the files does not matter exactly if the first numbers of files that agree have one
-- successor. They are one number if the texts that are compared hold the numbers.
theorem file_order_irrelevant_iff (numeric : target.isNumeric) (part : Part)
    (files : List (Path × Bytes)) :
    ((∀ other, files.Perm other →
        verdict (ofFiles files target part) = verdict (ofFiles other target part)) ↔
      (Record.Agree (Batch.records (scanned files)) →
        ∀ a ∈ scanned files, ∀ b ∈ scanned files, ∀ m n, Record.Leads a.records target m →
          Record.Leads b.records target n → m.next? part = n.next? part)) ∧
    ((∀ record ∈ Batch.records (scanned files), record.kind = target →
        (Number.find? record.value).isSome) →
      ∀ other, files.Perm other →
        verdict (ofFiles files target part) = verdict (ofFiles other target part)) := by
  refine ⟨⟨fun same agree a listed_a b listed_b m n leads_a leads_b => ?_,
    fun numbers other perm => verdict_of_perm numeric perm numbers⟩, fun held other perm => ?_⟩
  · exact same_next_of_same_verdicts numeric same agree listed_a listed_b leads_a leads_b
  · apply verdict_of_perm numeric perm
    intro agree a listed_a b listed_b m n leads_a leads_b
    obtain ⟨r, among_r, kind_r, read_r⟩ := find_of_leads numeric listed_a held leads_a
    obtain ⟨s, among_s, kind_s, read_s⟩ := find_of_leads numeric listed_b held leads_b
    have text : r.value = s.value := agree r among_r s among_s (kind_r.trans kind_s.symm)
    rw [text, read_s] at read_r
    rw [Option.some.inj read_r]

end Files

theorem file_order_relevant_for_number_in_comment :
    let first : Path × Bytes :=
      (⟨"A.cs".toList⟩, "[assembly: AssemblyVersion(\"x\")] // 1.0.0.0\n".toList.map Utf8.octet)
    let second : Path × Bytes :=
      (⟨"B.cs".toList⟩, "[assembly: AssemblyVersion(\"x\")] // 2.0.0.0\n".toList.map Utf8.octet)
    ¬ ∀ other, [first, second].Perm other →
      verdict (ofFiles [first, second] .assembly .revision) =
        verdict (ofFiles other .assembly .revision) := by
  intro first second same
  have numeric : Kind.isNumeric .assembly := rfl
  have agree : Record.Agree (Batch.records (scanned [first, second])) := by
    rw [← Report.is_consistent_iff_agree]
    decide +kernel
  have leads_first : Record.Leads (Scanned.ofBytes first.1 first.2).records .assembly
      ⟨['1'], ['0'], ['0'], ['0']⟩ :=
    ⟨⟨.assembly, ['x'], .numeric ⟨['1'], ['0'], ['0'], ['0']⟩, 0, first.1⟩, by decide +kernel, rfl⟩
  have leads_second : Record.Leads (Scanned.ofBytes second.1 second.2).records .assembly
      ⟨['2'], ['0'], ['0'], ['0']⟩ :=
    ⟨⟨.assembly, ['x'], .numeric ⟨['2'], ['0'], ['0'], ['0']⟩, 0, second.1⟩, by decide +kernel, rfl⟩
  obtain ⟨exactly, -⟩ := file_order_irrelevant_iff numeric .revision [first, second]
  have equal := exactly.mp same agree _ (List.mem_cons_self) _
    (List.mem_cons_of_mem _ List.mem_cons_self) _ _ leads_first leads_second
  exact absurd equal (by decide)

end Plan

end AssemblyVersions
