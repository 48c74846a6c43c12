import AssemblyVersions.Batch
import AssemblyVersions.Proofs.EditLines
import AssemblyVersions.Proofs.Framing

set_option autoImplicit false

namespace AssemblyVersions

namespace Scanned

def octetsAt (file : Scanned) (updates : List Update) (index : Nat) (line : Line) : Bytes :=
  match Edit.at? file.records index with
  | none => line.bytes
  | some record =>
      let declaration := Edit.emitted file.records updates record
      if line.text = declaration then line.bytes else Utf8.encode declaration

def additions (file : Scanned) (updates : List Update) : List Text :=
  (Edit.unused (Edit.met file.records file.document.lines.length) updates).map Update.declaration

def lineAt (file : Scanned) (updates : List Update) (index : Nat) (line : Line) : Line where
  bytes := file.octetsAt updates index line
  ending :=
    line.ending.or (if file.additions updates = [] then none else some file.document.majority)

end Scanned

def addedLines (ending : Ending) (last : Option Ending) : List Text → List Line
  | [] => []
  | text :: texts =>
      ⟨Utf8.encode text, if texts = [] then last else some ending⟩ :: addedLines ending last texts

namespace Document

def lastEnding (document : Document) : Option Ending :=
  if document.isTerminated then some document.majority else none

theorem render_added (ending : Ending) (last : Option Ending) (texts : List Text) :
    renderLines ending last [] texts = (addedLines ending last texts).flatMap Line.content := by
  induction texts with
  | nil => rfl
  | cons text texts ih => simp [renderLines, addedLines, Line.content, ih]

theorem render_lines {ending : Ending} {last : Option Ending} {lines : List Line}
    (framed : Framed lines) (silent : ∀ line ∈ lines, line.ending = none → last = none)
    (rewrite : Nat → Text → Text) (more : List Text) :
    renderLines ending last lines ((lines.map Line.text).mapIdx rewrite ++ more) =
      (lines.mapIdx fun index line =>
        (⟨line.bytesFor (rewrite index line.text),
          line.ending.or (if more = [] then none else some ending)⟩ : Line)).flatMap Line.content ++
        (addedLines ending last more).flatMap Line.content := by
  induction lines generalizing rewrite with
  | nil => simpa using render_added ending last more
  | cons line lines ih =>
      obtain ⟨-, final, later⟩ := framed
      have quiet := silent line List.mem_cons_self
      have rest := ih later (fun other among => silent other (List.mem_cons_of_mem line among))
        fun index => rewrite (index + 1)
      simp only [List.map_cons, List.mapIdx_cons, List.cons_append, renderLines, rest,
        List.flatMap_cons, Line.content, List.append_assoc]
      cases open_end : line.ending with
      | some own => rfl
      | none => simp [final open_end, quiet open_end]

theorem framed_of_mem {lines : List Line} (framed : Framed lines) {line : Line}
    (among : line ∈ lines) : line.Framed := by
  induction lines with
  | nil => cases among
  | cons first lines ih =>
      obtain ⟨now, -, later⟩ := framed
      rcases List.mem_cons.mp among with rfl | among
      · exact now
      · exact ih later among

theorem last_of_open {lines : List Line} (framed : Framed lines) {line : Line}
    (among : line ∈ lines) (open_end : line.ending = none) : lines.getLast? = some line := by
  induction lines with
  | nil => cases among
  | cons first lines ih =>
      obtain ⟨-, final, later⟩ := framed
      rcases List.mem_cons.mp among with rfl | among
      · rw [final open_end]
        rfl
      · rw [List.getLast?_cons, ih later among]
        rfl

theorem terminated_iff (bytes : Bytes) :
    (ofBytes bytes).isTerminated = true ↔ bytes = [] ∨ bytes.getLast? = some 10 := by
  have joined := content_of_bytes bytes
  have framed := framed_split bytes
  simp only [content, ofBytes, isTerminated] at joined ⊢
  rcases List.eq_nil_or_concat' (split bytes) with none_left | ⟨front, line, cut⟩
  · have empty : bytes = [] := by rw [← joined, none_left, List.flatMap_nil]
    rw [empty]
    simp [split]
  · have now : line.Framed := framed_of_mem framed (by simp [cut])
    rw [cut, List.flatMap_append, List.flatMap_singleton] at joined
    rw [cut, List.getLast?_concat, ← joined]
    cases ending : line.ending with
    | some own => cases own <;> simp [Line.content, ending, Line.terminator, Ending.bytes]
    | none =>
        have filled := now.present ending
        have unended : line.bytes.getLast? ≠ some 10 := fun last =>
          now.whole (List.mem_of_getLast? last)
        simp [Line.content, ending, Line.terminator, filled, unended]

end Document

namespace Scanned

@[simp] theorem bytes_for_text (file : Scanned) (updates : List Update) (index : Nat) (line : Line) :
    line.bytesFor (Edit.textAt file.records updates index line.text) =
      file.octetsAt updates index line := by
  rw [octetsAt, Edit.textAt]
  cases Edit.at? file.records index with
  | none => exact if_pos rfl
  | some record => rfl

def rewritten (file : Scanned) (updates : List Update) : List Line :=
  file.document.lines.mapIdx (file.lineAt updates) ++
    addedLines file.document.majority file.document.lastEnding (file.additions updates)

theorem edited_eq {file : Scanned} (framed : Document.Framed file.document.lines)
    (updates : List Update) :
    file.edited updates = (file.rewritten updates).flatMap Line.content := by
  have silent : ∀ line ∈ file.document.lines,
      line.ending = none → file.document.lastEnding = none := by
    intro line among open_end
    simp [Document.lastEnding, Document.isTerminated, Document.last_of_open framed among open_end,
      open_end]
  rw [edited, edit, Edit.lines_of_records, Document.render, Document.texts, List.length_map]
  change Document.renderLines _ file.document.lastEnding _ _ = _
  rw [Document.render_lines framed silent, rewritten, List.flatMap_append]
  simp only [bytes_for_text]
  rfl

-- Every line is accounted for. The content comes from its lines, the new content from the same lines
-- at the same places and then the added ones; each line keeps its octets or takes its declaration's.
theorem edited_byte_exact (path : Path) (bytes : Bytes) (updates : List Update) :
    let file := ofBytes path bytes
    let lines := file.document.lines
    let added := file.additions updates
    let majority := file.document.majority
    let last := if bytes ≠ [] ∧ bytes.getLast? ≠ some 10 then none else some majority
    Document.Framed lines ∧ lines.flatMap Line.content = bytes ∧
      (file.edit updates).lines =
        (lines.map Line.text).mapIdx (Edit.textAt file.records updates) ++ added ∧
      file.edited updates =
        (lines.mapIdx (file.lineAt updates) ++ addedLines majority last added).flatMap
          Line.content := by
  intro file lines added majority last
  have framed : Document.Framed file.document.lines := Document.framed_split bytes
  have ended : file.document.lastEnding = last := by
    have terminated := Document.terminated_iff bytes
    rw [Document.lastEnding]
    by_cases open_end : bytes ≠ [] ∧ bytes.getLast? ≠ some 10
    · have unended : ¬ file.document.isTerminated = true := fun ends =>
        (terminated.mp ends).elim open_end.1 open_end.2
      rw [if_neg unended]
      exact (if_pos open_end).symm
    · have ends : file.document.isTerminated = true := terminated.mpr (by tauto)
      rw [if_pos ends]
      exact (if_neg open_end).symm
  refine ⟨framed, Document.content_of_bytes bytes, ?_, ?_⟩
  · rw [edit, Edit.lines_of_records, Document.texts, List.length_map]
    rfl
  · rw [edited_eq framed, rewritten, ended]

end Scanned

end AssemblyVersions
