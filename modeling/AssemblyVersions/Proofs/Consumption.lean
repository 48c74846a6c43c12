import AssemblyVersions.Proofs.ScannedLines

set_option autoImplicit false

namespace AssemblyVersions

theorem Declaration.opening_begins_iff {kind : Kind} {declaration : Declaration} :
    opening kind <+: declaration.toText ↔ declaration.kind = kind := by
  constructor
  · rintro ⟨tail, begun⟩
    have whole := to_text_append declaration []
    rw [List.append_nil, ← begun, opening_eq, List.append_assoc, List.singleton_append] at whole
    have leads := first_cut (quote_not_mem_lead kind) (quote_not_mem_lead declaration.kind) whole
    exact (lead_injective leads.1).symm
  · rintro rfl
    exact ⟨declaration.value ++ closing, by rw [toText, List.append_assoc]⟩

theorem Declaration.to_text_value {kind : Kind} {a b : Text} :
    toText ⟨kind, a⟩ = toText ⟨kind, b⟩ ↔ a = b := by
  simp [toText]

namespace Edit

def addedOf (kind : Kind) (lines : List Text) (edit : Edit) : List Text :=
  (edit.lines.drop lines.length).filter (Declaration.opening kind).isPrefixOf

-- One update of the kind at most is consumed, by the kind's first record. The other records are
-- written from their own values, and one line is added if the kind is asked for and has no record.
structure ConsumedOnce (kind : Kind) (lines : List Text) (records : List Record)
    (updates : List Update) (edit : Edit) : Prop where
  first : ∀ record, (Record.ofKind kind records).head? = some record →
    edit.lines[record.line]? = some (match (ofKind kind updates).head? with
      | some update => update.declaration
      | none => record.declaration)
  later : ∀ record ∈ (Record.ofKind kind records).tail,
    edit.lines[record.line]? = some record.declaration
  added : (addedOf kind lines edit).length =
    if Record.ofKind kind records = [] ∧ ofKind kind updates ≠ [] then 1 else 0

theorem added_of_updates (kind : Kind) (updates : List Update) :
    (updates.map Update.declaration).filter (Declaration.opening kind).isPrefixOf =
      (ofKind kind updates).map Update.declaration := by
  rw [List.filter_map, ofKind]
  congr 1
  refine List.filter_congr fun update _ => ?_
  rw [Function.comp_apply, Bool.eq_iff_iff, List.isPrefixOf_iff_prefix, beq_iff_eq]
  exact Declaration.opening_begins_iff

theorem declaration_alike_iff {kind : Kind} {updates : List Update} {records : List Record}
    {update : Update} {record : Record} (asked : update ∈ ofKind kind updates)
    (found : record ∈ Record.ofKind kind records) :
    update.declaration = record.declaration ↔ update.value = record.value := by
  have left : update.kind = kind := by simpa using (List.mem_filter.mp asked).2
  have right : record.kind = kind := by simpa using (List.mem_filter.mp found).2
  rw [Update.declaration, Record.declaration, left, right]
  exact Declaration.to_text_value

theorem left_over_once_iff (asked : List Update) (found : List Record) :
    asked.length - found.length = (if found = [] ∧ asked ≠ [] then 1 else 0) ↔
      asked.length ≤ 1 ∨ asked.length ≤ found.length := by
  have some_found : found = [] ↔ found.length = 0 := List.length_eq_zero_iff.symm
  have some_asked : asked = [] ↔ asked.length = 0 := List.length_eq_zero_iff.symm
  simp only [ne_eq, some_found, some_asked]
  split <;> omega

section Scanned

variable (source path : Path) (lines : List Text) (updates : List Update)

theorem met_scanned (kind : Kind) :
    met (Record.scan source lines) lines.length kind =
      (Record.ofKind kind (Record.scan source lines)).length := by
  rw [met_eq_length, Record.counted_scan]

theorem line_of_place {kind : Kind} {place : Nat} {record : Record}
    (placed : (Record.ofKind kind (Record.scan source lines))[place]? = some record) :
    (ofRecords path lines (Record.scan source lines) updates).lines[record.line]? =
      some (match (ofKind kind updates)[place]? with
        | some update => update.declaration
        | none => record.declaration) := by
  obtain ⟨among, same⟩ := List.mem_filter.mp (List.mem_of_getElem? placed)
  obtain rfl : record.kind = kind := by simpa using same
  have within := Record.line_of_scan among
  have here : at? (Record.scan source lines) record.line = some record :=
    (Record.scan_from_increasing source 0 lines).at_line among
  have before : met (Record.scan source lines) record.line record.kind = place := by
    rw [← Record.counted_scan source lines] at placed
    exact met_of_place placed
  rw [lines_of_records, List.getElem?_append_left (by rwa [List.length_mapIdx]), List.getElem?_mapIdx,
    List.getElem?_eq_getElem within, Option.map_some, textAt, here]
  cases next : (ofKind record.kind updates)[place]? with
  | none => simp only [emitted, taken?, before, next]
  | some update => simp only [emitted, taken?, before, next]

theorem added_of_kind (kind : Kind) :
    addedOf kind lines (ofRecords path lines (Record.scan source lines) updates) =
      ((ofKind kind updates).drop (Record.ofKind kind (Record.scan source lines)).length).map
        Update.declaration := by
  rw [addedOf, lines_of_records, List.drop_left' (by rw [List.length_mapIdx]), added_of_updates,
    of_kind_unused, met_scanned]

end Scanned

-- What becomes of the updates of a kind: they are taken in order by the records of the kind, and those
-- that are left are added in order. It is as if one alone were consumed exactly if there is one at most,
-- or if a record takes each of them and those behind the first bring the values that are there.
theorem consumed_once_iff (source path : Path) (lines : List Text) (updates : List Update)
    (kind : Kind) :
    let records := Record.scan source lines
    let asked := ofKind kind updates
    let found := Record.ofKind kind records
    let edit := ofRecords path lines records updates
    (∀ (place : Nat) (record : Record), found[place]? = some record →
      edit.lines[record.line]? = some (match asked[place]? with
        | some update => update.declaration
        | none => record.declaration)) ∧
      addedOf kind lines edit = (asked.drop found.length).map Update.declaration ∧
      (ConsumedOnce kind lines records updates edit ↔
        asked.length ≤ 1 ∨ asked.length ≤ found.length ∧
          ∀ (place : Nat) (update : Update) (record : Record), 1 ≤ place →
            asked[place]? = some update → found[place]? = some record →
            update.value = record.value) := by
  intro records asked found edit
  have placed (place : Nat) (record : Record) (here : found[place]? = some record) :
      edit.lines[record.line]? = some (match asked[place]? with
        | some update => update.declaration
        | none => record.declaration) := line_of_place source path lines updates here
  have added : addedOf kind lines edit = (asked.drop found.length).map Update.declaration :=
    added_of_kind source path lines updates kind
  have size : (addedOf kind lines edit).length = asked.length - found.length := by
    rw [added, List.length_map, List.length_drop]
  have alike {place : Nat} {update : Update} {record : Record} (next : asked[place]? = some update)
      (here : found[place]? = some record) :
      update.declaration = record.declaration ↔ update.value = record.value :=
    declaration_alike_iff (List.mem_of_getElem? next) (List.mem_of_getElem? here)
  refine ⟨placed, added, fun once => ?_, fun spent => ⟨fun record here => ?_, fun record among => ?_, ?_⟩⟩
  · refine ((left_over_once_iff asked found).mp (size ▸ once.added)).imp_right fun enough => ?_
    refine ⟨enough, fun place update record behind next here => ?_⟩
    have held : found.tail[place - 1]? = some record := by
      rwa [List.getElem?_tail, Nat.sub_add_cancel behind]
    have own := once.later record (List.mem_of_getElem? held)
    have taken := placed place record here
    rw [own, next] at taken
    exact (alike next here).mp (Option.some.inj taken).symm
  · rw [List.head?_eq_getElem?] at here ⊢
    exact placed 0 record here
  · obtain ⟨place, here⟩ := List.mem_iff_getElem?.mp among
    rw [List.getElem?_tail] at here
    rw [placed (place + 1) record here]
    cases next : asked[place + 1]? with
    | none => rfl
    | some update =>
        have more := (List.getElem?_eq_some_iff.mp next).1
        rcases spent with single | ⟨-, same⟩
        · omega
        · exact congrArg some
            ((alike next here).mpr (same (place + 1) update record (by omega) next here))
  · exact size.trans ((left_over_once_iff asked found).mpr (spent.imp_right And.left))

-- The second record takes the second update, though the warning about it says that it is not updated.
theorem consumed_twice_by_two_records :
    let path : Path := ⟨"A.cs".toList⟩
    let old := "[assembly: AssemblyVersion(\"1.0.0.0\")]".toList
    let updates : List Update := [⟨.assembly, "2.0.0.0".toList⟩, ⟨.assembly, "3.0.0.0".toList⟩]
    let records := Record.scan path [old, old]
    let edit := ofRecords path [old, old] records updates
    edit.lines[0]? = some "[assembly: AssemblyVersion(\"2.0.0.0\")]".toList ∧
      edit.lines[1]? = some "[assembly: AssemblyVersion(\"3.0.0.0\")]".toList ∧
      edit.warnings.map Warning.message = ["A.cs: AssemblyVersion declared again on line 2 ".toList ++
        "(first on line 1); only the first is updated".toList] ∧
      ¬ ConsumedOnce .assembly [old, old] records updates edit := by
  intro path old updates records edit
  let record (line : Nat) : Record :=
    ⟨.assembly, "1.0.0.0".toList,
      .numeric ⟨"1".toList, "0".toList, "0".toList, "0".toList⟩, line, path⟩
  have found : Record.ofKind .assembly records = [record 0, record 1] := by decide +kernel
  obtain ⟨placed, -, once⟩ := consumed_once_iff path path [old, old] updates .assembly
  refine ⟨placed 0 (record 0) (congrArg (·[0]?) found), placed 1 (record 1) (congrArg (·[1]?) found),
    by decide +kernel, fun consumed => ?_⟩
  rcases once.mp consumed with single | ⟨-, same⟩
  · exact absurd single (by decide)
  · exact absurd
      (same 1 ⟨.assembly, "3.0.0.0".toList⟩ (record 1) (by decide) rfl (congrArg (·[1]?) found))
      (by decide)

end Edit

end AssemblyVersions
