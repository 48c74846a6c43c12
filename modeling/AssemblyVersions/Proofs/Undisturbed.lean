import AssemblyVersions.Proofs.Difference
import AssemblyVersions.Proofs.Erased

set_option autoImplicit false

namespace AssemblyVersions

namespace Line

theorem text_of_bytes_for (line : Line) (text : Text) (ending : Option Ending) :
    (⟨line.bytesFor text, ending⟩ : Line).text = text := by
  rw [Line.text, bytesFor]
  split
  · rename_i same
    exact same
  · exact Utf8.decode_encode text

-- Writing one text after another differs from writing the last one at once only if that is the text
-- that the line had at the start, with octets that are not its UTF-8.
theorem bytes_for_twice (line : Line) (first last : Text) (ending : Option Ending) :
    (⟨line.bytesFor first, ending⟩ : Line).bytesFor last = line.bytesFor last ↔
      (last = line.text → first = line.text ∨ line.bytes = Utf8.encode line.text) := by
  rw [bytesFor, text_of_bytes_for]
  by_cases back : last = line.text
  · subst back
    have own : line.bytesFor line.text = line.bytes := if_pos rfl
    rw [own, imp_iff_right rfl]
    by_cases kept : first = line.text
    · rw [if_pos kept, kept, own]
      simp
    · rw [if_neg kept, or_iff_right kept, eq_comm]
  · have written : line.bytesFor last = Utf8.encode last := if_neg (Ne.symm back)
    refine iff_of_true ?_ fun impossible => absurd impossible back
    split
    · rename_i same
      rw [same]
    · exact written.symm

theorem feedless_bytes_for (line : Line) {text : Text} (clear : '\n' ∉ text) : 10 ∉ line.bytesFor text := by
  intro feed
  have decoded : '\n' ∈ (⟨line.bytesFor text, none⟩ : Line).text :=
    (Utf8.mem_decode (by decide)).mpr feed
  rw [text_of_bytes_for] at decoded
  exact clear decoded

end Line

theorem Document.map_idx_of_content {lines : List Line} (framed : Framed lines) {a b : Nat → Line → Line}
    (alike : ∀ index line, lines[index]? = some line →
      a index line = b index line ∨ 10 ∉ (a index line).bytes ∧ 10 ∉ (b index line).bytes)
    (ends : ∀ index line, (a index line).ending = (b index line).ending ∧
      ((a index line).ending = none → line.ending = none))
    (same : (lines.mapIdx a).flatMap Line.content = (lines.mapIdx b).flatMap Line.content) :
    lines.mapIdx a = lines.mapIdx b := by
  induction lines generalizing a b with
  | nil => rfl
  | cons line lines ih =>
      obtain ⟨-, final, later⟩ := framed
      have rest := ih later (a := fun index => a (index + 1)) (b := fun index => b (index + 1))
        (fun index other held => alike (index + 1) other (by simpa using held))
        fun index => ends (index + 1)
      rw [List.mapIdx_cons, List.mapIdx_cons, List.flatMap_cons, List.flatMap_cons] at same
      rw [List.mapIdx_cons, List.mapIdx_cons]
      obtain ⟨ending, open_end⟩ := ends 0 line
      rcases alike 0 line rfl with here | ⟨left, right⟩
      · rw [here] at same ⊢
        rw [rest (List.append_cancel_left same)]
      · cases own : (a 0 line).ending with
        | none =>
            have alone : lines = [] := final (open_end own)
            subst alone
            have bytes : (a 0 line).bytes = (b 0 line).bytes := by
              simpa [Line.content, own, ← ending, Line.terminator] using same
            exact congrArg (· :: _) (congrArg₂ Line.mk bytes ending)
        | some kept =>
            obtain ⟨here, there⟩ := Line.content_cut left right own ending same
            rw [here, rest there]

namespace Scanned

theorem text_at_line (file : Scanned) (updates : List Update) {index : Nat} {line : Line}
    (held : file.document.lines[index]? = some line) :
    (file.edit updates).lines[index]? = some (Edit.textAt file.records updates index line.text) := by
  have inside : index < file.document.lines.length := (List.getElem?_eq_some_iff.mp held).1
  rw [edit, Edit.lines_of_records, Document.texts, List.getElem?_append_left (by simpa using inside),
    List.getElem?_mapIdx, List.getElem?_map, held]
  rfl

theorem bytes_at (file : Scanned) (updates : List Update) (index : Nat) (line : Line) :
    (file.lineAt updates index line).bytes =
      line.bytesFor (Edit.textAt file.records updates index line.text) :=
  (bytes_for_text file updates index line).symm

def lineInTurn (file : Scanned) (first whole : List Update) (index : Nat) (line : Line) : Line where
  bytes := (file.lineAt first index line).bytesFor (Edit.textAt file.records whole index line.text)
  ending := (file.lineAt whole index line).ending

theorem line_in_turn_iff {file : Scanned} {first whole : List Update} {index : Nat} {line : Line} :
    file.lineInTurn first whole index line = file.lineAt whole index line ↔
      (Edit.textAt file.records whole index line.text = line.text →
        Edit.textAt file.records first index line.text = line.text ∨
          line.bytes = Utf8.encode line.text) := by
  have twice := Line.bytes_for_twice line (Edit.textAt file.records first index line.text)
    (Edit.textAt file.records whole index line.text) (file.lineAt first index line).ending
  rw [← bytes_at, ← bytes_at] at twice
  rw [← twice, lineInTurn, Line.mk.injEq, and_iff_left rfl]

theorem line_in_turn_alike {file : Scanned} {first whole : List Update}
    (framed : Document.Framed file.document.lines) (index : Nat) (line : Line)
    (held : file.document.lines[index]? = some line) :
    file.lineInTurn first whole index line = file.lineAt whole index line ∨
      10 ∉ (file.lineInTurn first whole index line).bytes ∧
        10 ∉ (file.lineAt whole index line).bytes := by
  by_cases back : Edit.textAt file.records whole index line.text = line.text
  · have feedless : '\n' ∉ line.text := fun feed =>
      (Document.framed_of_mem framed (List.mem_of_getElem? held)).whole
        ((Utf8.mem_decode (by decide)).mp feed)
    refine .inr ⟨?_, ?_⟩
    · rw [lineInTurn, back]
      exact Line.feedless_bytes_for _ feedless
    · rw [bytes_at, back]
      exact line.feedless_bytes_for feedless
  · exact .inl (line_in_turn_iff.mpr fun same => absurd same back)

-- What the whole edit leaves as it is, the first part of it leaves as well; it may write a line anew
-- only if that gives the same octets.
def Undisturbed (file : Scanned) (first whole : List Update) : Prop :=
  ∀ (index : Nat) (line : Line), file.document.lines[index]? = some line →
    (file.edit whole).lines[index]? = some line.text →
      (file.edit first).lines[index]? = some line.text ∨ line.bytes = Utf8.encode line.text

theorem undisturbed_iff {file : Scanned} {first whole : List Update} :
    file.Undisturbed first whole ↔
      ∀ (index : Nat) (line : Line), file.document.lines[index]? = some line →
        file.lineInTurn first whole index line = file.lineAt whole index line := by
  refine forall₂_congr fun index line => imp_congr_right fun held => ?_
  rw [text_at_line file whole held, text_at_line file first held, Option.some_inj, Option.some_inj,
    line_in_turn_iff]

theorem emitted_of_append (records : List Record) (first more : List Update) (record : Record) :
    Edit.emitted records first record = Edit.emitted records (first ++ more) record ∨
      Edit.emitted records first record = record.declaration := by
  cases taken : Edit.taken? records first record with
  | none => exact .inr (by rw [Edit.emitted, taken])
  | some update =>
      have also : Edit.taken? records (first ++ more) record = some update := by
        rw [Edit.taken?] at taken ⊢
        rw [Edit.of_kind_append, List.getElem?_append_left (List.getElem?_eq_some_iff.mp taken).1, taken]
      exact .inl (by rw [Edit.emitted, Edit.emitted, taken, also])

-- A line that is written as it was, without a quote in the value, has no other value and nothing behind it.
theorem undisturbed_of_quoteless (path : Path) (bytes : Bytes) {first more : List Update}
    (clear : ∀ update ∈ first ++ more, '"' ∉ update.value) :
    (ofBytes path bytes).Undisturbed first (first ++ more) := by
  refine fun index line held same => .inl ?_
  rw [text_at_line _ _ held, Option.some_inj, Edit.textAt] at same
  rw [text_at_line _ _ held, Option.some_inj, Edit.textAt]
  cases here : Edit.at? (ofBytes path bytes).records index with
  | none => rfl
  | some record =>
      simp only [here] at same ⊢
      rcases emitted_of_append (ofBytes path bytes).records first more record with whole | own
      · rw [whole, same]
      · rw [own]
        cases taken : Edit.taken? (ofBytes path bytes).records (first ++ more) record with
        | none => rwa [Edit.emitted, taken] at same
        | some update =>
            let written : Declaration := ⟨update.kind, update.value⟩
            have spelled : line.text = written.toText := by
              rw [← same, Edit.emitted, taken]
              rfl
            have plain : '"' ∉ written.value := clear update (Edit.mem_of_taken taken).1
            have read := Declaration.of_line_append plain []
            rw [List.append_nil, ← spelled, read_at held here] at read
            rw [spelled]
            exact congrArg Declaration.toText (Option.some.inj read)

end Scanned

end AssemblyVersions
