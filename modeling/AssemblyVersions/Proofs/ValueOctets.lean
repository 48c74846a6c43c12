import AssemblyVersions.Proofs.Erased
import AssemblyVersions.Proofs.RoundTrip

set_option autoImplicit false

namespace AssemblyVersions

open Declaration

theorem Utf8.encode_decode_iff {bytes : Bytes} :
    encode (decode bytes) = bytes ↔ ∃ text, bytes = encode text := by
  constructor
  · exact fun same => ⟨decode bytes, same.symm⟩
  · rintro ⟨text, rfl⟩
    rw [decode_encode]

def keptValue (value tail : Bytes) : Bytes :=
  if tail = [] then value else Utf8.encode (Utf8.decode value)

theorem kept_value_iff {value tail : Bytes} :
    keptValue value tail = value ↔ tail = [] ∨ ∃ text, value = Utf8.encode text := by
  rw [← Utf8.encode_decode_iff, keptValue]
  by_cases bare : tail = []
  · simp [bare]
  · simp [bare]

theorem kept_value_quoteless {value : Bytes} (absent : 34 ∉ value) (tail : Bytes) :
    34 ∉ keptValue value tail := by
  rw [keptValue]
  split
  · exact absent
  · intro quote
    have decoded : '"' ∈ Utf8.decode value := (Utf8.mem_encode (by decide)).mp quote
    exact absent ((Utf8.mem_decode (by decide)).mp decoded)

theorem Record.at_of_mem_scan_from {path : Path} {base : Nat} {lines : List Text} {record : Record}
    (among : record ∈ scanFrom path base lines) :
    Edit.at? (scanFrom path base lines) record.line = some record := by
  induction lines generalizing base with
  | nil => cases among
  | cons line lines ih =>
      rw [scanFrom, Edit.at?, List.find?_append]
      rcases List.mem_append.mp among with now | later
      · have read := Option.mem_toList.mp now
        rw [read]
        simp
      · have after := line_of_scan_from later
        have apart : (ofLine? path base line).toList.find? (·.line == record.line) = none := by
          refine List.find?_eq_none.mpr fun other inside here => ?_
          have at_base := (of_line_eq_some.mp (Option.mem_toList.mp inside)).1
          have at_record := beq_iff_eq.mp here
          omega
        rw [apart, Option.none_or]
        exact ih later

namespace Scanned

variable {path : Path} {bytes : Bytes} {updates : List Update} {record : Record}

theorem line_of_record (among : record ∈ (ofBytes path bytes).records) :
    Edit.at? (ofBytes path bytes).records record.line = some record ∧
      ∃ line, (ofBytes path bytes).document.lines[record.line]? = some line ∧
        '"' ∉ record.value ∧ ∃ tail, line.text = record.declaration ++ tail := by
  have here : Edit.at? (ofBytes path bytes).records record.line = some record :=
    Record.at_of_mem_scan_from among
  refine ⟨here, ?_⟩
  cases at_index : (ofBytes path bytes).document.lines[record.line]? with
  | none =>
      have scanned : Edit.at? (ofBytes path bytes).records record.line = _ :=
        Record.at_scan path (ofBytes path bytes).document.texts record.line
      rw [here, Document.texts, List.getElem?_map, at_index] at scanned
      cases scanned
  | some line => exact ⟨line, rfl, declared_at at_index here⟩

theorem octets_of_untaken {line : Line} {value tail : Bytes}
    (here : Edit.at? (ofBytes path bytes).records record.line = some record)
    (untaken : Edit.taken? (ofBytes path bytes).records updates record = none)
    (split : line.bytes = leadBytes record.kind ++ 34 :: (value ++ (closingBytes ++ tail)))
    (valued : Utf8.decode value = record.value)
    (declared : line.text = record.declaration ++ Utf8.decode tail) :
    (ofBytes path bytes).octetsAt updates record.line line =
      leadBytes record.kind ++ 34 :: (keptValue value tail ++ closingBytes) := by
  have own : Edit.emitted (ofBytes path bytes).records updates record = record.declaration := by
    rw [Edit.emitted, untaken]
  simp only [octetsAt, here, own, keptValue]
  by_cases bare : tail = []
  · have same : line.text = record.declaration := by
      rw [declared, bare]
      exact List.append_nil _
    rw [if_pos same, if_pos bare, split, bare, List.append_nil]
  · have longer : line.text ≠ record.declaration := by
      rw [declared]
      intro same
      exact bare (Utf8.decode_eq_nil (List.append_right_eq_self.mp same))
    rw [if_neg longer, if_neg bare, Record.declaration, encode_form, valued]

-- Where the line of a record stands in the old and in the new content, and what its value is in both.
theorem value_octets_kept_iff (path : Path) (bytes : Bytes) (updates : List Update)
    (among : record ∈ (ofBytes path bytes).records)
    (untaken : Edit.taken? (ofBytes path bytes).records updates record = none) :
    let file := ofBytes path bytes
    let lines := file.document.lines
    let written := file.rewritten updates
    lines.flatMap Line.content = bytes ∧ written.flatMap Line.content = file.edited updates ∧
      ∃ line value tail new kept,
        lines[record.line]? = some line ∧
        line.bytes = leadBytes record.kind ++ 34 :: (value ++ (closingBytes ++ tail)) ∧ 34 ∉ value ∧
        written[record.line]? = some new ∧
        new.bytes = leadBytes record.kind ++ 34 :: (kept ++ closingBytes) ∧ 34 ∉ kept ∧
        (kept = value ↔ tail = [] ∨ ∃ text, value = Utf8.encode text) ∧
        ((∀ update ∈ updates, '\n' ∉ update.value) →
          (Document.ofBytes (file.edited updates)).lines[record.line]? = some new) := by
  intro file lines written
  obtain ⟨here, line, at_index, clear, after, declared⟩ := line_of_record among
  have form : line.text = (⟨record.kind, record.value⟩ : Declaration).toText ++ after := declared
  obtain ⟨value, tail, split, absent, valued, rest⟩ := Line.bytes_of_declared clear form
  rw [← rest] at declared
  have spelled : (file.lineAt updates record.line line).bytes =
      leadBytes record.kind ++ 34 :: (keptValue value tail ++ closingBytes) :=
    octets_of_untaken here untaken split valued declared
  have inside : record.line < lines.length := (List.getElem?_eq_some_iff.mp at_index).1
  have placed : written[record.line]? = some (file.lineAt updates record.line line) := by
    change (file.rewritten updates)[record.line]? = _
    rw [rewritten, List.getElem?_append_left (by simpa using inside), List.getElem?_mapIdx, at_index]
    rfl
  refine ⟨Document.content_of_bytes bytes, (edited_eq (Document.framed_split bytes) updates).symm,
    line, value, tail, _, keptValue value tail, at_index, split, absent, placed, spelled,
    kept_value_quoteless absent tail, kept_value_iff, fun feedless => ?_⟩
  have tight : (file.lineAt updates record.line line).settle = file.lineAt updates record.line line := by
    refine if_neg fun loose => ?_
    have bare := (octets_at_returned loose.2).1
    rw [here] at bare
    cases bare
  rw [lines_of_edited path bytes feedless, List.getElem?_map]
  exact (congrArg (Option.map Line.settle) placed).trans (congrArg some tight)

theorem value_octets_lost_before_comment :
    let path : Path := ⟨"A.cs".toList⟩
    let opening := "[assembly: AssemblyInformationalVersion(\"".toList.map Utf8.octet
    let bytes := opening ++ [0xA9] ++ "\")] // x\n".toList.map Utf8.octet
    let updates : List Update := [⟨.assembly, "1.0.0.0".toList⟩]
    let file := ofBytes path bytes
    let record : Record := ⟨.informational, [Char.ofNat 0xFFFD], .plain, 0, path⟩
    record ∈ file.records ∧ Edit.taken? file.records updates record = none ∧
      ∃ new kept, (file.rewritten updates)[0]? = some new ∧
        new.bytes = opening ++ (kept ++ closingBytes) ∧ 34 ∉ kept ∧ kept ≠ [0xA9] := by
  intro path opening bytes updates file record
  have among : record ∈ file.records := by decide +kernel
  have untaken : Edit.taken? file.records updates record = none := by decide +kernel
  obtain ⟨-, -, line, value, tail, new, kept, at_index, split, absent, placed, spelled, quoteless,
    same, -⟩ := value_octets_kept_iff path bytes updates among untaken
  have held : file.document.lines[0]? =
      some ⟨opening ++ [0xA9] ++ "\")] // x".toList.map Utf8.octet, some .lf⟩ := by decide +kernel
  obtain rfl := Option.some.inj (at_index.symm.trans held)
  obtain ⟨old_value, old_tail⟩ := Line.old_parts absent split
  have valued : value = [0xA9] := by
    rw [← old_value]
    decide +kernel
  have behind : tail ≠ [] := by
    rw [← old_tail]
    decide +kernel
  have garbled : ¬ ∃ text, value = Utf8.encode text := by
    rw [← Utf8.encode_decode_iff, valued]
    decide +kernel
  have begun : opening = leadBytes .informational ++ [34] := by decide +kernel
  refine ⟨among, untaken, new, kept, placed, ?_, quoteless, fun unchanged => ?_⟩
  · rw [spelled, begun]
    simp [record]
  · rcases same.mp (unchanged.trans valued.symm) with bare | text
    · exact behind bare
    · exact garbled text

end Scanned

end AssemblyVersions
