import AssemblyVersions.Proofs.Declaration
import AssemblyVersions.Proofs.Rewrite

set_option autoImplicit false

namespace AssemblyVersions

theorem Line.text_settle (line : Line) :
    line.settle.text = line.text ∨ line.text = line.settle.text ++ ['\r'] := by
  unfold Line.settle
  split
  · rename_i loose
    have joined : line.bytes.dropLast ++ [13] = line.bytes :=
      List.dropLast_append_getLast? 13 loose.2
    have ascii : Utf8.Ascii '\r' := by decide
    exact .inr ((congrArg Utf8.decode joined.symm).trans
      (Utf8.decode_append ascii line.bytes.dropLast []))
  · exact .inl rfl

namespace Record

theorem line_of_scan_from {path : Path} {base : Nat} {lines : List Text} {record : Record}
    (among : record ∈ scanFrom path base lines) : base ≤ record.line := by
  induction lines generalizing base with
  | nil => cases among
  | cons line lines ih =>
      rcases List.mem_append.mp among with now | later
      · have here := of_line_eq_some.mp (Option.mem_toList.mp now)
        exact Nat.le_of_eq here.1.symm
      · exact Nat.le_of_succ_le (ih later)

theorem of_mem_scan_from {path : Path} {base : Nat} {lines : List Text} {record : Record}
    (among : record ∈ scanFrom path base lines) :
    ∃ line ∈ lines, ofLine? path record.line line = some record := by
  induction lines generalizing base with
  | nil => cases among
  | cons line lines ih =>
      rcases List.mem_append.mp among with now | later
      · have read := Option.mem_toList.mp now
        refine ⟨line, List.mem_cons_self, ?_⟩
        rwa [(of_line_eq_some.mp read).1]
      · obtain ⟨other, inside, read⟩ := ih later
        exact ⟨other, List.mem_cons_of_mem line inside, read⟩

theorem at_scan_from (path : Path) (base offset : Nat) (lines : List Text) :
    Edit.at? (scanFrom path base lines) (base + offset) =
      lines[offset]?.bind (ofLine? path (base + offset)) := by
  induction lines generalizing base offset with
  | nil => rfl
  | cons line lines ih =>
      rw [Edit.at?, scanFrom, List.find?_append]
      cases offset with
      | zero =>
          cases read : ofLine? path base line with
          | none =>
              have nothing : (scanFrom path (base + 1) lines).find? (·.line == base) = none := by
                rw [List.find?_eq_none]
                intro record among here
                have later := line_of_scan_from among
                simp only [beq_iff_eq] at here
                omega
              simp [read, nothing]
          | some record =>
              have here := (of_line_eq_some.mp read).1
              simp [read, here]
      | succ offset =>
          have shifted : base + (offset + 1) = base + 1 + offset := by omega
          have apart : (ofLine? path base line).toList.find? (·.line == base + (offset + 1)) = none := by
            rw [List.find?_eq_none]
            intro record among here
            have at_base := (of_line_eq_some.mp (Option.mem_toList.mp among)).1
            simp only [beq_iff_eq] at here
            omega
          rw [apart, Option.none_or, shifted, List.getElem?_cons_succ]
          exact ih (base + 1) offset

@[simp] theorem at_scan (path : Path) (lines : List Text) (index : Nat) :
    Edit.at? (scan path lines) index = lines[index]?.bind (ofLine? path index) := by
  have whole := at_scan_from path 0 index lines
  rwa [Nat.zero_add] at whole

theorem scan_from_congr {path : Path} {a b : List Text} (same : a.length = b.length) (base : Nat)
    (each : ∀ index (left : index < a.length) (right : index < b.length),
      ofLine? path (base + index) a[index] = ofLine? path (base + index) b[index]) :
    scanFrom path base a = scanFrom path base b := by
  induction a generalizing base b with
  | nil =>
      cases b with
      | nil => rfl
      | cons line b => cases same
  | cons line a ih =>
      cases b with
      | nil => cases same
      | cons other b =>
          have now := each 0 (by simp) (by simp)
          have later := ih (by simpa using same) (base + 1) fun index left right => by
            have next := each (index + 1) (by simpa using left) (by simpa using right)
            simpa [Nat.add_right_comm, Nat.add_assoc] using next
          simp only [Nat.add_zero, List.getElem_cons_zero] at now
          rw [scanFrom, scanFrom, now, later]

@[simp] theorem of_settled_line (path : Path) (index : Nat) (line : Line) :
    ofLine? path index line.settle.text = ofLine? path index line.text := by
  rcases line.text_settle with same | cut
  · rw [same]
  · rw [cut, of_line_append_char (by decide) (by decide)]

end Record

namespace Document

theorem loose_map_idx {lines : List Line} (framed : Framed lines) (rewrite : Nat → Line → Line)
    {rest : List Line} (loose : Loose rest)
    (each : ∀ index, ∀ line ∈ lines, 10 ∉ (rewrite index line).bytes ∧
      ((rewrite index line).ending = none →
        line.ending = none ∧ (rewrite index line).bytes ≠ [] ∧ rest = [])) :
    Loose (lines.mapIdx rewrite ++ rest) := by
  induction lines generalizing rewrite with
  | nil => exact loose
  | cons line lines ih =>
      obtain ⟨-, final, later⟩ := framed
      obtain ⟨whole, closed⟩ := each 0 line List.mem_cons_self
      rw [List.mapIdx_cons, List.cons_append]
      refine ⟨whole, fun ending => ?_, ih later (fun index => rewrite (index + 1)) ?_⟩
      · obtain ⟨open_end, filled, last⟩ := closed ending
        rw [final open_end, last]
        exact ⟨filled, rfl⟩
      · intro index other among
        exact each (index + 1) other (List.mem_cons_of_mem line among)

theorem loose_added (ending : Ending) (last : Option Ending) {texts : List Text}
    (clear : ∀ text ∈ texts, '\n' ∉ text) (filled : ∀ text ∈ texts, text ≠ []) :
    Loose (addedLines ending last texts) := by
  induction texts with
  | nil => trivial
  | cons text texts ih =>
      have whole : (10 : UInt8) ∉ Utf8.encode text := fun among =>
        clear text List.mem_cons_self ((Utf8.mem_encode (by decide)).mp among)
      refine ⟨whole, fun open_end => ?_, ih ?_ ?_⟩
      · have final : texts = [] := by
          by_contra more
          simp [more] at open_end
        refine ⟨fun nothing => ?_, by rw [final]; rfl⟩
        exact Utf8.encode_filled (filled text List.mem_cons_self) nothing
      · exact fun other among => clear other (List.mem_cons_of_mem text among)
      · exact fun other among => filled other (List.mem_cons_of_mem text among)

end Document

namespace Scanned

@[simp] theorem text_of_line_at (file : Scanned) (updates : List Update) (index : Nat) (line : Line) :
    (file.lineAt updates index line).text = Edit.textAt file.records updates index line.text := by
  rw [Line.text, lineAt, ← bytes_for_text, Line.bytesFor]
  split
  · rename_i same
    exact same
  · exact Utf8.decode_encode _

@[simp] theorem texts_of_added (ending : Ending) (last : Option Ending) (texts : List Text) :
    (addedLines ending last texts).map Line.text = texts := by
  induction texts with
  | nil => rfl
  | cons text texts ih => simp [addedLines, ih, Line.text]

theorem texts_of_rewritten (file : Scanned) (updates : List Update) :
    (file.rewritten updates).map Line.text = (file.edit updates).lines := by
  rw [rewritten, List.map_append, texts_of_added, edit, Edit.lines_of_records, Document.texts,
    List.length_map]
  congr 1
  apply List.ext_getElem
  · simp
  · intro index left right
    simp

-- Neither a quote nor a line feed can be part of a value that is read.
theorem clear_of_record {path : Path} {bytes : Bytes} {record : Record}
    (among : record ∈ (ofBytes path bytes).records) : '"' ∉ record.value ∧ '\n' ∉ record.value := by
  obtain ⟨text, listed, read⟩ := Record.of_mem_scan_from among
  obtain ⟨-, -, declared, -⟩ := Record.of_line_eq_some.mp read
  obtain ⟨quoteless, tail, same⟩ := Declaration.of_line_eq_some.mp declared
  obtain ⟨line, inside, rfl⟩ := List.mem_map.mp listed
  have framed := Document.framed_of_mem (Document.framed_split bytes) inside
  refine ⟨quoteless, fun feed => framed.whole ?_⟩
  refine (Utf8.mem_decode (c := '\n') (by decide)).mp ?_
  change '\n' ∈ line.text
  rw [same]
  exact List.mem_append_left tail (Declaration.line_feed_mem.mpr feed)

theorem clear_emitted {records : List Record} {updates : List Update} {record : Record}
    (clear : ∀ update ∈ updates, '\n' ∉ update.value) (own : '\n' ∉ record.value) :
    '\n' ∉ Edit.emitted records updates record := by
  rw [Edit.emitted]
  split
  · rename_i update taken
    exact fun inside => clear update (Edit.mem_of_taken taken).1 (Declaration.line_feed_mem.mp inside)
  · exact fun inside => own (Declaration.line_feed_mem.mp inside)

theorem emitted_filled (records : List Record) (updates : List Update) (record : Record) :
    Edit.emitted records updates record ≠ [] := by
  rw [Edit.emitted]
  split <;> exact Declaration.filled_form _

theorem octets_at_loose {path : Path} {bytes : Bytes} {updates : List Update}
    (clear : ∀ update ∈ updates, '\n' ∉ update.value) (index : Nat) {line : Line}
    (framed : line.Framed) :
    10 ∉ (ofBytes path bytes).octetsAt updates index line ∧
      (line.ending = none → (ofBytes path bytes).octetsAt updates index line ≠ []) := by
  rw [octetsAt]
  cases here : Edit.at? (ofBytes path bytes).records index with
  | none => exact ⟨framed.whole, framed.present⟩
  | some record =>
      have own := (clear_of_record (List.mem_of_find?_eq_some here)).2
      dsimp only
      split
      · exact ⟨framed.whole, framed.present⟩
      · refine ⟨fun inside => ?_, fun _ => Utf8.encode_filled (emitted_filled _ _ _)⟩
        exact clear_emitted clear own ((Utf8.mem_encode (c := '\n') (by decide)).mp inside)

theorem rewritten_loose (path : Path) (bytes : Bytes) {updates : List Update}
    (clear : ∀ update ∈ updates, '\n' ∉ update.value) :
    Document.Loose ((ofBytes path bytes).rewritten updates) := by
  have framed := Document.framed_split bytes
  have added_clear : ∀ text ∈ (ofBytes path bytes).additions updates, '\n' ∉ text := by
    intro text among inside
    obtain ⟨update, unused, rfl⟩ := List.mem_map.mp among
    exact clear update (Edit.mem_of_unused unused) (Declaration.line_feed_mem.mp inside)
  have added_filled : ∀ text ∈ (ofBytes path bytes).additions updates, text ≠ [] := by
    intro text among
    obtain ⟨update, -, rfl⟩ := List.mem_map.mp among
    exact Declaration.filled_form _
  refine Document.loose_map_idx framed _ (Document.loose_added _ _ added_clear added_filled) ?_
  intro index line among
  have now := Document.framed_of_mem framed among
  obtain ⟨whole, filled⟩ := octets_at_loose clear index now
  refine ⟨whole, fun open_end => ?_⟩
  obtain ⟨own, follow⟩ := Option.or_eq_none_iff.mp open_end
  have alone : (ofBytes path bytes).additions updates = [] := by
    by_contra more
    simp [more] at follow
  exact ⟨own, filled own, by rw [alone]; rfl⟩

theorem texts_of_edited (path : Path) (bytes : Bytes) {updates : List Update}
    (clear : ∀ update ∈ updates, '\n' ∉ update.value) :
    (Document.ofBytes ((ofBytes path bytes).edited updates)).texts =
      ((ofBytes path bytes).rewritten updates).map fun line => line.settle.text := by
  have framed : Document.Framed (ofBytes path bytes).document.lines := Document.framed_split bytes
  have cut := Document.split_loose (rewritten_loose path bytes clear)
  rw [edited_eq framed, Document.texts, Document.ofBytes, cut, List.map_map]
  rfl

theorem scan_edited (path : Path) (bytes : Bytes) {updates : List Update}
    (clear : ∀ update ∈ updates, '\n' ∉ update.value) (at_path : Path) :
    Record.scan at_path (Document.ofBytes ((ofBytes path bytes).edited updates)).texts =
      Record.scan at_path ((ofBytes path bytes).edit updates).lines := by
  rw [texts_of_edited path bytes clear, ← texts_of_rewritten]
  apply Record.scan_from_congr (by simp)
  intro index left right
  simp

end Scanned

end AssemblyVersions
