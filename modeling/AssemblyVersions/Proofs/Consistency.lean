import AssemblyVersions.Proofs.Grouping

set_option autoImplicit false

namespace AssemblyVersions

namespace Record

def ofKindAndValue (kind : Kind) (value : Text) (records : List Record) : List Record :=
  records.filter fun record => record.kind == kind && record.value == value

theorem of_kind_of_value (kind : Kind) (value : Text) (records : List Record) :
    (ofKind kind records).filter (fun record => record.value == value) =
      ofKindAndValue kind value records := by
  rw [ofKind, List.filter_filter, ofKindAndValue]
  exact List.filter_congr fun _ _ => Bool.and_comm _ _

def AgreeOn (kind : Kind) (records : List Record) : Prop :=
  ∀ a ∈ records, ∀ b ∈ records, a.kind = kind → b.kind = kind → a.value = b.value

instance (kind : Kind) (records : List Record) : Decidable (AgreeOn kind records) :=
  inferInstanceAs (Decidable (∀ a ∈ records, ∀ b ∈ records, a.kind = kind → b.kind = kind →
    a.value = b.value))

def Agree (records : List Record) : Prop :=
  ∀ a ∈ records, ∀ b ∈ records, a.kind = b.kind → a.value = b.value

theorem agree_iff {records : List Record} :
    Agree records ↔ ∀ record ∈ records, AgreeOn record.kind records := by
  constructor
  · intro agree _ _ a listed b among same_a same_b
    exact agree a listed b among (same_a.trans same_b.symm)
  · intro agree a listed b among same
    exact agree a listed a listed b among rfl same.symm

end Record

namespace Report

-- The files of the records, the first of those with equal components.
def filesOf (records : List Record) : Files := (records.map Record.path).eraseDupsBy Path.same

theorem files_of_eq (records : List Record) :
    filesOf records = firsts Path.components (records.map Record.path) := by
  rfl

theorem files_of_concat (records : List Record) (record : Record) :
    filesOf (records ++ [record]) = Files.add (filesOf records) record.path := by
  rw [files_of_eq, files_of_eq, List.map_append, List.map_singleton, firsts_concat, Files.add]
  refine if_congr ?_ rfl rfl
  rw [← mem_keys_firsts, List.any_eq_true, List.mem_map]
  simp only [Path.same_iff]

def grouping (records : List Record) : List (Kind × Values) :=
  groupedBy Record.kind (groupedBy Record.value filesOf) records

theorem values_concat (records : List Record) (record : Record) :
    groupedBy Record.value filesOf (records ++ [record]) =
      amend record.value (fun files => Files.add (files.getD []) record.path)
        (groupedBy Record.value filesOf records) :=
  grouped_by_concat Record.value (fun record files => Files.add files record.path) files_of_concat
    records record

theorem groups_of_records (records : List Record) :
    (ofRecords records).groups = grouping records := by
  induction records using List.reverseRecOn with
  | nil => rfl
  | append_singleton records record ih =>
      rw [ofRecords, List.foldl_append, grouping, grouped_by_concat _ _ values_concat]
      change amend _ _ (ofRecords records).groups = _
      rw [ih]
      rfl

theorem values_of_records (kind : Kind) (records : List Record) :
    (ofRecords records).valuesOf kind =
      groupedBy Record.value filesOf (Record.ofKind kind records) := by
  rw [valuesOf, groups_of_records]
  exact lookup_grouped_by Record.kind _ records kind

theorem files_for_records (kind : Kind) (value : Text) (records : List Record) :
    (ofRecords records).filesFor kind value =
      filesOf (Record.ofKindAndValue kind value records) := by
  rw [filesFor, values_of_records, ← Record.of_kind_of_value]
  exact lookup_grouped_by Record.value filesOf (Record.ofKind kind records) value

theorem distinct_count_records (kind : Kind) (records : List Record) :
    (ofRecords records).distinctCount kind =
      ((Record.ofKind kind records).map Record.value).eraseDups.length := by
  rw [distinctCount, values_of_records, groupedBy, List.length_map]

theorem mem_grouping {records : List Record} {group : Kind × Values} :
    group ∈ grouping records ↔ (∃ record ∈ records, record.kind = group.1) ∧
      group.2 = groupedBy Record.value filesOf (Record.ofKind group.1 records) := by
  obtain ⟨kind, values⟩ := group
  rw [grouping, groupedBy, List.mem_map]
  simp only [List.mem_eraseDups, List.mem_map, Prod.mk.injEq]
  constructor
  · rintro ⟨_, declared, rfl, rfl⟩
    exact ⟨declared, rfl⟩
  · rintro ⟨declared, rfl⟩
    exact ⟨kind, declared, rfl, rfl⟩

theorem values_le_one_iff (kind : Kind) (records : List Record) :
    (groupedBy Record.value filesOf (Record.ofKind kind records)).length ≤ 1 ↔
      Record.AgreeOn kind records := by
  rw [groupedBy, List.length_map, ← firsts_id, length_firsts_le_one]
  simp only [List.mem_map, Record.mem_of_kind, id]
  constructor
  · intro same a listed b among kind_a kind_b
    exact same _ ⟨a, ⟨listed, kind_a⟩, rfl⟩ _ ⟨b, ⟨among, kind_b⟩, rfl⟩
  · rintro agree _ ⟨a, ⟨listed, kind_a⟩, rfl⟩ _ ⟨b, ⟨among, kind_b⟩, rfl⟩
    exact agree a listed b among kind_a kind_b

theorem is_consistent_iff_agree (records : List Record) :
    (ofRecords records).isConsistent ↔ Record.Agree records := by
  rw [isConsistent, groups_of_records, List.all_eq_true, Record.agree_iff]
  constructor
  · intro all record listed
    rw [← values_le_one_iff]
    exact of_decide_eq_true (all (record.kind, _) (mem_grouping.mpr ⟨⟨record, listed, rfl⟩, rfl⟩))
  · intro agree group listed
    obtain ⟨⟨record, among, same⟩, values⟩ := mem_grouping.mp listed
    rw [decide_eq_true_eq, values, values_le_one_iff, ← same]
    exact agree record among

theorem inconsistent_of_records (records : List Record) :
    (ofRecords records).inconsistent =
      (grouping records).filter fun group => ¬ Record.AgreeOn group.1 records := by
  rw [inconsistent, groups_of_records]
  refine List.filter_congr fun group listed => ?_
  obtain ⟨-, values⟩ := mem_grouping.mp listed
  rw [decide_eq_decide, ← values_le_one_iff, ← values, not_le]

section Order

variable {records others : List Record}

theorem is_consistent_of_perm (perm : records.Perm others) :
    (ofRecords others).isConsistent = (ofRecords records).isConsistent := by
  rw [Bool.eq_iff_iff, is_consistent_iff_agree, is_consistent_iff_agree]
  simp only [Record.Agree, perm.mem_iff]

theorem distinct_count_of_perm (perm : records.Perm others) (kind : Kind) :
    (ofRecords others).distinctCount kind = (ofRecords records).distinctCount kind := by
  have kept := perm.symm.filter fun record : Record => record.kind == kind
  have values := keys_firsts_perm id (kept.map Record.value)
  rw [List.map_id, List.map_id] at values
  rw [distinct_count_records, distinct_count_records]
  exact values.length_eq

theorem files_for_of_perm (perm : records.Perm others) (kind : Kind) (value : Text) :
    (((ofRecords others).filesFor kind value).map Path.components).Perm
      (((ofRecords records).filesFor kind value).map Path.components) := by
  rw [files_for_records, files_for_records, files_of_eq, files_of_eq]
  have kept := perm.symm.filter fun record : Record => record.kind == kind && record.value == value
  exact keys_firsts_perm Path.components (kept.map Record.path)

end Order

-- The groups are those of the records, their kinds, values and files each once and in the order in
-- which they were first met; the verdict is about the records, and their order does not affect it.
theorem exactly_grouped (records : List Record) :
    (ofRecords records).groups = groupedBy Record.kind (groupedBy Record.value filesOf) records ∧
    OnceInOrder (records.map Record.kind) ((ofRecords records).groups.map Prod.fst) ∧
    (∀ kind,
      OnceInOrder ((Record.ofKind kind records).map Record.value)
        (((ofRecords records).valuesOf kind).map Prod.fst) ∧
      (ofRecords records).distinctCount kind =
        ((Record.ofKind kind records).map Record.value).eraseDups.length ∧
      ((ofRecords records).distinctCount kind = 0 ↔ ∀ record ∈ records, record.kind ≠ kind)) ∧
    (∀ kind value,
      (ofRecords records).filesFor kind value =
        ((Record.ofKindAndValue kind value records).map Record.path).eraseDupsBy Path.same ∧
      OnceInOrder
        (((Record.ofKindAndValue kind value records).map Record.path).map Path.components)
        (((ofRecords records).filesFor kind value).map Path.components) ∧
      ((ofRecords records).filesFor kind value = [] ↔
        ∀ record ∈ records, record.kind = kind → record.value ≠ value)) ∧
    ((ofRecords records).isConsistent ↔
      ∀ a ∈ records, ∀ b ∈ records, a.kind = b.kind → a.value = b.value) ∧
    (ofRecords records).inconsistent =
      (ofRecords records).groups.filter (fun group => ¬ Record.AgreeOn group.1 records) ∧
    ∀ others, records.Perm others →
      (ofRecords others).isConsistent = (ofRecords records).isConsistent ∧
      (∀ kind, (ofRecords others).distinctCount kind = (ofRecords records).distinctCount kind) ∧
      ∀ kind value, (((ofRecords others).filesFor kind value).map Path.components).Perm
        (((ofRecords records).filesFor kind value).map Path.components) := by
  refine ⟨groups_of_records records, ?_, fun kind => ⟨?_, distinct_count_records kind records, ?_⟩,
    fun kind value => ⟨files_for_records kind value records, ?_, ?_⟩,
    is_consistent_iff_agree records, ?_, fun others perm => ⟨is_consistent_of_perm perm,
      distinct_count_of_perm perm, files_for_of_perm perm⟩⟩
  · rw [groups_of_records, grouping, keys_grouped_by]
    exact once_in_order_erase_dups _
  · rw [values_of_records, keys_grouped_by]
    exact once_in_order_erase_dups _
  · rw [distinct_count_records, ← firsts_id, List.length_eq_zero_iff, firsts_eq_nil,
      List.map_eq_nil_iff, Record.ofKind, List.filter_eq_nil_iff]
    simp only [beq_iff_eq, ne_eq]
  · rw [files_for_records, files_of_eq]
    exact once_in_order_firsts Path.components _
  · rw [files_for_records, files_of_eq, firsts_eq_nil, List.map_eq_nil_iff, Record.ofKindAndValue,
      List.filter_eq_nil_iff]
    simp only [Bool.and_eq_true, beq_iff_eq, not_and, ne_eq]
  · rw [inconsistent_of_records, groups_of_records]

theorem exactly_grouped_with_repeated_file :
    let one : Path := ⟨"src//One.cs".toList⟩
    let again : Path := ⟨"src/One.cs".toList⟩
    let two : Path := ⟨"Two.cs".toList⟩
    let first : Record := ⟨.informational, "1.0 beta".toList, .plain, 0, one⟩
    let other : Record := ⟨.informational, "1.0".toList, .plain, 0, two⟩
    let file : Record :=
      ⟨.file, "1.0.0.0".toList, .numeric ⟨['1'], ['0'], ['0'], ['0']⟩, 1, two⟩
    let repeated : Record := ⟨.informational, "1.0 beta".toList, .plain, 2, again⟩
    let report := ofRecords [first, other, file, repeated]
    let reversed := ofRecords [repeated, file, other, first]
    report.groups = [(.informational, [(first.value, [one]), (other.value, [two])]),
      (.file, [(file.value, [two])])] ∧
    ¬ report.isConsistent ∧ report.inconsistent.map Prod.fst = [.informational] ∧
    report.distinctCount .assembly = 0 ∧ report.filesFor .file first.value = [] ∧
    [first, other, file, repeated].Perm [repeated, file, other, first] ∧
    reversed.isConsistent = report.isConsistent ∧
    ((reversed.filesFor .informational first.value).map Path.components).Perm
      ((report.filesFor .informational first.value).map Path.components) := by
  intro one again two first other file repeated report reversed
  have perm : [first, other, file, repeated].Perm [repeated, file, other, first] :=
    (List.reverse_perm [first, other, file, repeated]).symm
  obtain ⟨groups, -, kinds, values, verdict, disagreeing, orders⟩ :=
    exactly_grouped [first, other, file, repeated]
  obtain ⟨same_verdict, -, same_files⟩ := orders _ perm
  obtain ⟨-, -, uncounted⟩ := kinds .assembly
  obtain ⟨-, -, unlisted⟩ := values .file first.value
  refine ⟨?_, ?_, ?_, uncounted.mpr (by decide +kernel), unlisted.mpr (by decide +kernel), perm,
    same_verdict, same_files _ _⟩
  · rw [groups]
    decide +kernel
  · rw [verdict]
    decide +kernel
  · rw [disagreeing, groups]
    decide +kernel

end Report

end AssemblyVersions
