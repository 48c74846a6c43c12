import AssemblyVersions.Proofs.Contents
import AssemblyVersions.Proofs.Occurrences

set_option autoImplicit false

namespace AssemblyVersions

namespace Document

-- Lines that can be told from their content: a condition on each line, and one on all but the last.
structure Separate (lines : List Line) : Prop where
  whole : ∀ line ∈ lines, 10 ∉ line.bytes
  closed : ∀ line ∈ lines.dropLast, line.ending ≠ none
  bare : ∀ line ∈ lines, line.ending = some .lf → line.bytes.getLast? ≠ some 13
  present : ∀ line, lines.getLast? = some line → line.ending = none → line.bytes ≠ []

theorem framed_of_separate {lines : List Line} (separate : Separate lines) : Framed lines := by
  induction lines with
  | nil => trivial
  | cons line lines ih =>
      obtain ⟨whole, closed, bare, present⟩ := separate
      simp only [List.forall_mem_cons] at whole bare
      cases lines with
      | nil => exact ⟨⟨whole.1, bare.1, present line rfl⟩, fun _ => rfl, trivial⟩
      | cons next lines =>
          simp only [List.dropLast_cons_cons, List.forall_mem_cons] at closed
          refine ⟨⟨whole.1, bare.1, fun open_end => absurd open_end closed.1⟩,
            fun open_end => absurd open_end closed.1, ih ⟨whole.2, closed.2, bare.2, ?_⟩⟩
          intro last final
          exact present last ((List.getLast?_cons_cons ..).trans final)

theorem separate_of_framed {lines : List Line} (framed : Framed lines) : Separate lines where
  whole line among := (framed_of_mem framed among).whole
  bare line among := (framed_of_mem framed among).bare
  present line final := (framed_of_mem framed (List.mem_of_getLast? final)).present
  closed := by
    induction lines with
    | nil => simp
    | cons line lines ih =>
        obtain ⟨-, final, later⟩ := framed
        cases lines with
        | nil => simp
        | cons next lines =>
            rw [List.dropLast_cons_cons, List.forall_mem_cons]
            refine ⟨fun open_end => ?_, ih later⟩
            cases final open_end

theorem majority_eq_crlf {document : Document} :
    document.majority = .crlf ↔ document.count .lf < document.count .crlf := by
  rw [majority]
  split
  · rename_i more
    exact ⟨fun _ => more, fun _ => rfl⟩
  · rename_i fewer
    constructor
    · intro impossible
      cases impossible
    · exact fun more => absurd more fewer

theorem is_terminated_eq (document : Document) :
    document.isTerminated = (document.lines.getLast?.map (·.ending.isSome)).getD true := by
  rw [isTerminated]
  cases document.lines.getLast? <;> rfl

theorem terminated_iff_last {document : Document} :
    document.isTerminated = true ↔
      ∀ line, document.lines.getLast? = some line → line.ending ≠ none := by
  rw [isTerminated]
  cases document.lines.getLast? with
  | none => simp
  | some line => simp [Option.isSome_iff_ne_none]

theorem index_of_open {lines : List Line} (framed : Framed lines) {index : Nat} {line : Line}
    (at_index : lines[index]? = some line) (open_end : line.ending = none) :
    index + 1 = lines.length := by
  induction lines generalizing index with
  | nil => cases at_index
  | cons first lines ih =>
      obtain ⟨-, final, later⟩ := framed
      cases index with
      | zero =>
          obtain rfl : first = line := Option.some.inj at_index
          rw [final open_end]
          rfl
      | succ index =>
          rw [List.length_cons, ih later at_index]

theorem returned_iff {lines : List Line} (framed : Framed lines) :
    (content ⟨lines⟩).getLast? = some 13 ↔
      ∃ (index : Nat) (line : Line), lines[index]? = some line ∧ line.ending = none ∧
        line.bytes.getLast? = some 13 := by
  rcases List.eq_nil_or_concat' lines with rfl | ⟨front, last, rfl⟩
  · simp [content]
  · have only {index : Nat} {line : Line} (at_index : (front ++ [last])[index]? = some line)
        (open_end : line.ending = none) : line = last := by
      have final := index_of_open framed at_index open_end
      rw [List.length_append, List.length_singleton, Nat.add_right_cancel_iff] at final
      rw [final, List.getElem?_concat_length] at at_index
      exact (Option.some.inj at_index).symm
    have now : last.Framed := framed_of_mem framed (by simp)
    have cut : content ⟨front ++ [last]⟩ = content ⟨front⟩ ++ last.content := by simp [content]
    rw [cut]
    cases own : last.ending with
    | some ending =>
        constructor
        · intro returned
          cases ending <;> simp [Line.content, own, Line.terminator, Ending.bytes] at returned
        · rintro ⟨index, line, at_index, open_end, -⟩
          rw [only at_index open_end, own] at open_end
          cases open_end
    | none =>
        have bare : last.content = last.bytes := by simp [Line.content, own, Line.terminator]
        rw [bare, List.getLast?_append_of_ne_nil _ (now.present own)]
        constructor
        · exact fun returned => ⟨front.length, last, List.getElem?_concat_length, own, returned⟩
        · rintro ⟨index, line, at_index, open_end, returned⟩
          rwa [only at_index open_end] at returned

-- Every content is its lines put together again, and the sequences of lines that are read from some
-- content are the separate ones. Each is read from its own content, with its own terminators.
theorem cut_inverts_join (bytes : Bytes) (lines : List Line) :
    let document := ofBytes (content ⟨lines⟩)
    (ofBytes bytes).render (ofBytes bytes).texts = bytes ∧
      (document.lines = lines ↔ Separate lines) ∧
      (Separate lines →
        document.texts = lines.map Line.text ∧
        (document.isTerminated = true ↔
          ∀ line, lines.getLast? = some line → line.ending ≠ none) ∧
        (document.majority = .crlf ↔
          lines.countP (·.ending == some .lf) < lines.countP (·.ending == some .crlf))) := by
  intro document
  have rendered : (ofBytes bytes).render (ofBytes bytes).texts = bytes :=
    (render_texts (framed_split bytes)).trans (content_of_bytes bytes)
  have back : document.lines = lines ↔ Separate lines := by
    constructor
    · intro same
      rw [← same]
      exact separate_of_framed (framed_split _)
    · exact fun separate => split_content (framed_of_separate separate)
  refine ⟨rendered, back, fun separate => ?_⟩
  have same := back.mpr separate
  refine ⟨?_, ?_, ?_⟩
  · rw [texts, same]
  · rw [terminated_iff_last, same]
  · rw [majority_eq_crlf, count, count, same]

theorem cut_inverts_join_of_mixed_lines :
    let lines : List Line :=
      [⟨[97, 13], some .crlf⟩, ⟨[], some .lf⟩, ⟨[0xA9, 13, 98], some .crlf⟩, ⟨[99, 13], none⟩]
    let document := ofBytes (content ⟨lines⟩)
    Separate lines ∧ document.lines = lines ∧ document.isTerminated = false ∧
      document.majority = .crlf := by
  intro lines document
  have separate : Separate lines :=
    { whole := by decide
      closed := by decide
      bare := by decide
      present := by
        rintro line ⟨⟩ -
        decide }
  obtain ⟨-, back, read⟩ := cut_inverts_join [] lines
  obtain ⟨-, terminated, majority⟩ := read separate
  refine ⟨separate, back.mpr separate, ?_, majority.mpr (by decide)⟩
  rw [← Bool.not_eq_true, terminated]
  exact fun closed => closed ⟨[99, 13], none⟩ rfl rfl

end Document

theorem Declaration.form_last (declaration : Declaration) :
    (Utf8.encode declaration.toText).getLast? = some 93 := by
  have cut : Utf8.encode declaration.toText =
      leadBytes declaration.kind ++ 34 :: (Utf8.encode declaration.value ++ [34, 41]) ++ [93] := by
    rw [encode_form]
    simp [closingBytes]
  rw [cut, List.getLast?_concat]

theorem Edit.emitted_form (records : List Record) (updates : List Update) (record : Record) :
    ∃ value, emitted records updates record = Declaration.toText ⟨record.kind, value⟩ := by
  rw [emitted]
  cases taken : taken? records updates record with
  | none => exact ⟨record.value, rfl⟩
  | some update => exact ⟨update.value, by rw [← (mem_of_taken taken).2]; rfl⟩

theorem Line.text_of_returned {line : Line} (returned : line.bytes.getLast? = some 13) :
    line.text = Utf8.decode line.bytes.dropLast ++ ['\r'] := by
  have joined : line.bytes.dropLast ++ [13] = line.bytes := List.dropLast_append_getLast? 13 returned
  exact (congrArg Utf8.decode joined.symm).trans
    (Utf8.decode_append (by decide : Utf8.Ascii '\r') line.bytes.dropLast [])

namespace Scanned

variable {path : Path} {bytes : Bytes} {updates : List Update}

-- The content ends in a carriage return, on a last line that declares nothing, and lines are added
-- after a line feed. What was the end of the line is then read as a part of its terminator.
structure Joins (file : Scanned) (updates : List Update) : Prop where
  returned : file.document.content.getLast? = some 13
  undeclared : ∀ record ∈ file.records, record.line + 1 ≠ file.document.lines.length
  feeding : file.document.majority = .lf
  added : file.document.lines.length < (file.edit updates).lines.length

theorem length_of_edit (file : Scanned) (updates : List Update) :
    (file.edit updates).lines.length =
      file.document.lines.length + (file.additions updates).length := by
  rw [← texts_of_rewritten, List.length_map, rewritten, List.length_append, List.length_mapIdx]
  congr 1
  rw [← List.length_map, texts_of_added]

theorem added_iff {file : Scanned} :
    file.document.lines.length < (file.edit updates).lines.length ↔ file.additions updates ≠ [] := by
  rw [length_of_edit, ← List.length_pos_iff]
  omega

theorem octets_at_returned {index : Nat} {line : Line}
    (returned : ((ofBytes path bytes).octetsAt updates index line).getLast? = some 13) :
    Edit.at? (ofBytes path bytes).records index = none ∧ line.bytes.getLast? = some 13 := by
  rw [octetsAt] at returned
  cases here : Edit.at? (ofBytes path bytes).records index with
  | none => exact ⟨rfl, by simpa only [here] using returned⟩
  | some record =>
      simp only [here] at returned
      obtain ⟨value, form⟩ := Edit.emitted_form (ofBytes path bytes).records updates record
      rw [form] at returned
      split at returned
      · rename_i same
        rw [Line.text_of_returned returned] at same
        have last := congrArg List.getLast? same
        simp [Declaration.toText, Declaration.closing] at last
      · rw [Declaration.form_last] at returned
        cases returned

theorem mem_added_lines {ending : Ending} {last : Option Ending} {texts : List Text} {line : Line}
    (among : line ∈ addedLines ending last texts) :
    ∃ text ∈ texts, line.bytes = Utf8.encode text := by
  induction texts with
  | nil => cases among
  | cons text texts ih =>
      rcases List.mem_cons.mp among with rfl | later
      · exact ⟨text, List.mem_cons_self, rfl⟩
      · obtain ⟨other, listed, same⟩ := ih later
        exact ⟨other, List.mem_cons_of_mem text listed, same⟩

theorem loose_at {index : Nat} {line : Line}
    (at_index : ((ofBytes path bytes).rewritten updates)[index]? = some line)
    (feeding : line.ending = some .lf) (returned : line.bytes.getLast? = some 13) :
    index + 1 = (ofBytes path bytes).document.lines.length ∧ (ofBytes path bytes).Joins updates := by
  have framed : Document.Framed (ofBytes path bytes).document.lines := Document.framed_split bytes
  rw [rewritten, List.getElem?_append, List.length_mapIdx, List.getElem?_mapIdx] at at_index
  split at at_index
  · obtain ⟨old, held, rfl⟩ := Option.map_eq_some_iff.mp at_index
    obtain ⟨bare, ended⟩ := octets_at_returned returned
    rw [lineAt] at feeding
    cases own : old.ending with
    | some ending =>
        simp only [own, Option.some_or] at feeding
        have tight := (Document.framed_of_mem framed (List.mem_of_getElem? held)).bare
        exact absurd ended (tight (own.trans feeding))
    | none =>
        have final := Document.index_of_open framed held own
        simp only [own, Option.none_or] at feeding
        split at feeding
        · cases feeding
        · rename_i more
          refine ⟨final, ?_, ?_, Option.some.inj feeding, added_iff.mpr more⟩
          · exact (Document.returned_iff framed).mpr ⟨index, old, held, own, ended⟩
          · rintro record among here
            have other : record.line ≠ index := by
              rintro rfl
              exact List.find?_eq_none.mp bare record among (beq_self_eq_true _)
            omega
  · obtain ⟨text, among, written⟩ := mem_added_lines (List.mem_of_getElem? at_index)
    obtain ⟨update, -, rfl⟩ := List.mem_map.mp among
    rw [written, Update.declaration, Declaration.form_last] at returned
    cases returned

theorem joins_at (joins : (ofBytes path bytes).Joins updates) :
    ∃ (index : Nat) (line : Line), index + 1 = (ofBytes path bytes).document.lines.length ∧
      ((ofBytes path bytes).rewritten updates)[index]? = some line ∧ line.ending = some .lf ∧
      line.bytes.getLast? = some 13 := by
  have framed : Document.Framed (ofBytes path bytes).document.lines := Document.framed_split bytes
  obtain ⟨index, line, held, own, returned⟩ := (Document.returned_iff framed).mp joins.returned
  have final := Document.index_of_open framed held own
  have inside : index < (ofBytes path bytes).document.lines.length := by omega
  have bare : Edit.at? (ofBytes path bytes).records index = none := by
    refine List.find?_eq_none.mpr fun record among here => joins.undeclared record among ?_
    rw [beq_iff_eq.mp here, final]
  refine ⟨index, (ofBytes path bytes).lineAt updates index line, final, ?_, ?_, ?_⟩
  · rw [rewritten, List.getElem?_append_left (by simpa using inside), List.getElem?_mapIdx, held]
    rfl
  · rw [lineAt, own, Option.none_or, if_neg (added_iff.mp joins.added), joins.feeding]
  · rw [lineAt, octetsAt, bare]
    exact returned

theorem lines_of_edited (path : Path) (bytes : Bytes)
    (clear : ∀ update ∈ updates, '\n' ∉ update.value) :
    (Document.ofBytes ((ofBytes path bytes).edited updates)).lines =
      ((ofBytes path bytes).rewritten updates).map Line.settle := by
  have framed : Document.Framed (ofBytes path bytes).document.lines := Document.framed_split bytes
  rw [edited_eq framed]
  exact Document.split_loose (rewritten_loose path bytes clear)

theorem settle_at {index : Nat} {line : Line}
    (at_index : ((ofBytes path bytes).rewritten updates)[index]? = some line)
    (apart : ¬ (index + 1 = (ofBytes path bytes).document.lines.length ∧
      (ofBytes path bytes).Joins updates)) : line.settle = line :=
  if_neg fun loose => apart (loose_at at_index loose.1 loose.2)

theorem lines_of_apart (clear : ∀ update ∈ updates, '\n' ∉ update.value)
    (apart : ¬ (ofBytes path bytes).Joins updates) :
    (Document.ofBytes ((ofBytes path bytes).edited updates)).lines =
      (ofBytes path bytes).rewritten updates := by
  rw [lines_of_edited path bytes clear]
  apply List.ext_getElem?
  intro index
  rw [List.getElem?_map]
  cases at_index : ((ofBytes path bytes).rewritten updates)[index]? with
  | none => rfl
  | some line => exact congrArg some (settle_at at_index fun joined => apart joined.2)

theorem texts_of_joined (clear : ∀ update ∈ updates, '\n' ∉ update.value)
    (joins : (ofBytes path bytes).Joins updates) :
    ∃ text, ((ofBytes path bytes).edit updates).lines[(ofBytes path bytes).document.lines.length - 1]? =
        some (text ++ ['\r']) ∧
      (Document.ofBytes ((ofBytes path bytes).edited updates)).texts =
        ((ofBytes path bytes).edit updates).lines.set
          ((ofBytes path bytes).document.lines.length - 1) text := by
  obtain ⟨last, line, final, held, feeding, returned⟩ := joins_at joins
  have place : (ofBytes path bytes).document.lines.length - 1 = last := by omega
  have settled : line.settle = ⟨line.bytes.dropLast, some .crlf⟩ := if_pos ⟨feeding, returned⟩
  rw [place, texts_of_edited path bytes clear, ← texts_of_rewritten]
  refine ⟨Utf8.decode line.bytes.dropLast, ?_, ?_⟩
  · rw [List.getElem?_map, held, Option.map_some, Line.text_of_returned returned]
  · apply List.ext_getElem?
    intro index
    rw [List.getElem?_map, List.getElem?_set]
    by_cases here : last = index
    · subst here
      obtain ⟨inside, -⟩ := List.getElem?_eq_some_iff.mp held
      rw [held, if_pos rfl, if_pos (by simpa using inside), Option.map_some, settled]
      rfl
    · rw [if_neg here, List.getElem?_map]
      cases at_index : ((ofBytes path bytes).rewritten updates)[index]? with
      | none => rfl
      | some other =>
          have apart := settle_at at_index fun joined => here (by omega)
          rw [Option.map_some, Option.map_some, apart]

theorem last_added {ending : Ending} {last : Option Ending} {texts : List Text} (more : texts ≠ []) :
    ∃ line, (addedLines ending last texts).getLast? = some line ∧ line.ending = last := by
  induction texts with
  | nil => exact absurd rfl more
  | cons text texts ih =>
      cases texts with
      | nil => exact ⟨_, rfl, rfl⟩
      | cons next texts =>
          obtain ⟨line, final, ends⟩ := ih (List.cons_ne_nil next texts)
          exact ⟨line, (List.getLast?_cons_cons ..).trans final, ends⟩

theorem terminated_rewritten (file : Scanned) (updates : List Update) :
    Document.isTerminated ⟨file.rewritten updates⟩ = file.document.isTerminated := by
  rw [Document.is_terminated_eq, rewritten]
  by_cases alone : file.additions updates = []
  · have kept : (file.document.lines.mapIdx (file.lineAt updates)).map (·.ending.isSome) =
        file.document.lines.map (·.ending.isSome) := by
      apply List.ext_getElem
      · simp
      · intro index left right
        simp [lineAt, alone]
    rw [alone, addedLines, List.append_nil, ← List.getLast?_map, kept, List.getLast?_map,
      Document.is_terminated_eq]
  · obtain ⟨line, final, ends⟩ : ∃ line, (addedLines file.document.majority file.document.lastEnding
        (file.additions updates)).getLast? = some line ∧ line.ending = file.document.lastEnding :=
      last_added alone
    rw [List.getLast?_append, final, Option.some_or, Option.map_some, Option.getD_some, ends,
      Document.lastEnding]
    cases file.document.isTerminated <;> rfl

theorem terminated_edited (path : Path) (bytes : Bytes)
    (clear : ∀ update ∈ updates, '\n' ∉ update.value) :
    (Document.ofBytes ((ofBytes path bytes).edited updates)).isTerminated =
      (Document.ofBytes bytes).isTerminated := by
  have kept : ((ofBytes path bytes).rewritten updates).map (·.settle.ending.isSome) =
      ((ofBytes path bytes).rewritten updates).map (·.ending.isSome) := by
    refine List.map_congr_left fun line _ => ?_
    rw [Bool.eq_iff_iff, Option.isSome_iff_ne_none, Option.isSome_iff_ne_none]
    exact not_congr line.ending_settle
  rw [Document.is_terminated_eq, lines_of_edited path bytes clear, ← List.getLast?_map, List.map_map]
  change (((ofBytes path bytes).rewritten updates).map (·.settle.ending.isSome)).getLast?.getD true = _
  rw [kept, List.getLast?_map]
  exact (Document.is_terminated_eq ⟨(ofBytes path bytes).rewritten updates⟩).symm.trans
    (terminated_rewritten _ updates)

-- The lines that an edit has made are read back from the new content, except where a carriage return
-- and the line feed after it are read as one terminator: there the line has lost its last character.
theorem edited_lines_read_back (path : Path) (bytes : Bytes)
    (clear : ∀ update ∈ updates, '\n' ∉ update.value) :
    let file := ofBytes path bytes
    let out := (file.edit updates).lines
    let again := Document.ofBytes (file.edited updates)
    let last := file.document.lines.length - 1
    again.isTerminated = file.document.isTerminated ∧
      (again.texts = out ↔ ¬ file.Joins updates) ∧
      (file.Joins updates →
        ∃ text, out[last]? = some (text ++ ['\r']) ∧ again.texts = out.set last text) := by
  intro file out again last
  refine ⟨terminated_edited path bytes clear, ⟨fun same joins => ?_, fun apart => ?_⟩,
    texts_of_joined clear⟩
  · obtain ⟨text, held, read⟩ := texts_of_joined clear joins
    have kept : out.set last text = out := read.symm.trans same
    obtain ⟨inside, -⟩ := List.getElem?_eq_some_iff.mp held
    have now : out[last]? = some text := by
      rw [← kept, List.getElem?_set_self inside]
    have longer := Option.some.inj (now.symm.trans held)
    simp at longer
  · have lines : again.lines = file.rewritten updates := lines_of_apart clear apart
    rw [Document.texts, lines]
    exact texts_of_rewritten file updates

theorem edited_lines_joined_by_line_feed :
    let path : Path := ⟨"A.cs".toList⟩
    let bytes := "// end\r".toList.map Utf8.octet
    let updates : List Update := [⟨.file, "1.0.0.0".toList⟩]
    let form := "[assembly: AssemblyFileVersion(\"1.0.0.0\")]".toList
    let file := ofBytes path bytes
    (∀ update ∈ updates, '\n' ∉ update.value) ∧
      (file.edit updates).lines = ["// end\r".toList, form] ∧
      (Document.ofBytes (file.edited updates)).isTerminated = false ∧
      (Document.ofBytes (file.edited updates)).texts = ["// end".toList, form] := by
  intro path bytes updates form file
  have clear : ∀ update ∈ updates, '\n' ∉ update.value := by decide +kernel
  have lines : (file.edit updates).lines = ["// end\r".toList, form] := by decide +kernel
  have joins : file.Joins updates :=
    { returned := by decide +kernel
      undeclared := by decide +kernel
      feeding := by decide +kernel
      added := by decide +kernel }
  obtain ⟨terminated, -, joined⟩ := edited_lines_read_back path bytes clear
  obtain ⟨text, held, read⟩ := joined joins
  refine ⟨clear, lines, terminated.trans (by decide +kernel), ?_⟩
  have short : text = "// end".toList := by
    have whole : "// end\r".toList = text ++ ['\r'] := by
      rw [lines] at held
      exact Option.some.inj held
    exact (List.append_cancel_right whole).symm
  rw [read, lines, short]
  rfl

end Scanned

end AssemblyVersions
