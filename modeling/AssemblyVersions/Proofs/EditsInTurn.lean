import AssemblyVersions.Proofs.ReadBack
import AssemblyVersions.Proofs.RoundTrip
import AssemblyVersions.Proofs.Undisturbed

set_option autoImplicit false

namespace AssemblyVersions

theorem Update.Readable.read_declaration {update : Update} (readable : update.Readable) (path : Path)
    (index : Nat) :
    ∃ record, Record.ofLine? path index update.declaration = some record ∧
      record.kind = update.kind ∧ record.declaration = update.declaration := by
  obtain ⟨record, read, kind, value⟩ := readable.read path index
  refine ⟨record, read, kind, ?_⟩
  rw [Record.declaration, kind, value]
  rfl

section Endings

variable {ending : Ending} {last : Option Ending}

theorem added_lines_append (a b : List Text) :
    addedLines ending last (a ++ b) =
      addedLines ending (if b = [] then last else some ending) a ++ addedLines ending last b := by
  induction a with
  | nil => rfl
  | cons text a ih =>
      rw [List.cons_append, addedLines, addedLines, ih, List.cons_append]
      cases a with
      | nil => simp
      | cons next a => simp

theorem added_lines_ended (more : Option Ending) (texts : List Text) :
    (addedLines ending last texts).map (fun line => ⟨line.bytes, line.ending.or more⟩) =
      addedLines ending (last.or more) texts := by
  induction texts with
  | nil => rfl
  | cons text texts ih =>
      rw [addedLines, addedLines, List.map_cons, ih]
      cases texts <;> rfl

end Endings

theorem ending_of_added {ending : Ending} {last : Option Ending} {texts : List Text} {line : Line}
    (among : line ∈ addedLines ending last texts) : line.ending = last ∨ line.ending = some ending := by
  induction texts with
  | nil => cases among
  | cons text texts ih =>
      rcases List.mem_cons.mp among with rfl | later
      · cases texts with
        | nil => exact .inl rfl
        | cons next texts => exact .inr rfl
      · exact ih later

namespace Scanned

theorem count_rewritten (file : Scanned) (updates : List Update) (ending : Ending) :
    file.document.count ending ≤ Document.count ⟨file.rewritten updates⟩ ending ∧
      (ending ≠ file.document.majority →
        Document.count ⟨file.rewritten updates⟩ ending = file.document.count ending) := by
  have old : (file.document.lines.mapIdx (file.lineAt updates)).map Line.ending =
      file.document.lines.map fun line =>
        line.ending.or (if file.additions updates = [] then none else some file.document.majority) := by
    apply List.ext_getElem
    · simp
    · intro index left right
      simp [lineAt]
  have counted : Document.count ⟨file.rewritten updates⟩ ending =
      (file.document.lines.countP fun line => line.ending.or
        (if file.additions updates = [] then none else some file.document.majority) == some ending) +
      (addedLines file.document.majority file.document.lastEnding
        (file.additions updates)).countP (·.ending == some ending) := by
    have parts := congrArg (List.countP (· == some ending)) old
    rw [List.countP_map, List.countP_map] at parts
    rw [Document.count, rewritten, List.countP_append]
    exact congrArg (· + _) parts
  rw [counted, Document.count]
  constructor
  · refine Nat.le_add_right_of_le (List.countP_mono_left fun line _ own => ?_)
    rw [beq_iff_eq.mp own]
    exact beq_self_eq_true _
  · intro other
    have none_added : (addedLines file.document.majority file.document.lastEnding
        (file.additions updates)).countP (·.ending == some ending) = 0 := by
      refine List.countP_eq_zero.mpr fun line among own => ?_
      have given := beq_iff_eq.mp own
      rcases ending_of_added among with last | more
      · rw [last, Document.lastEnding] at given
        split at given
        · exact other (Option.some.inj given).symm
        · cases given
      · exact other (Option.some.inj (given.symm.trans more))
    rw [none_added, Nat.add_zero]
    refine List.countP_congr fun line _ => ?_
    cases own : line.ending with
    | some kept => rfl
    | none =>
        rw [Option.none_or]
        split
        · rfl
        · simp [Ne.symm other]

theorem majority_rewritten (file : Scanned) (updates : List Update) :
    Document.majority ⟨file.rewritten updates⟩ = file.document.majority := by
  obtain ⟨more_lf, same_lf⟩ := file.count_rewritten updates .lf
  obtain ⟨more_crlf, same_crlf⟩ := file.count_rewritten updates .crlf
  cases held : file.document.majority with
  | crlf =>
      have ahead := Document.majority_eq_crlf.mp held
      rw [held] at same_lf
      rw [Document.majority_eq_crlf, same_lf (by decide)]
      omega
  | lf =>
      have behind : ¬ file.document.majority = .crlf := by simp [held]
      rw [Document.majority_eq_crlf] at behind
      rw [held] at same_crlf
      rw [Document.majority, if_neg]
      rw [same_crlf (by decide)]
      omega

-- Contents that keep their records when they are edited, and their lines when others are added.
structure Steady (file : Scanned) : Prop where
  numbered : ∀ record ∈ file.records, record.kind.isNumeric → (Number.find? record.value).isSome
  closed : file.document.content.getLast? ≠ some 13

def after (path : Path) (bytes : Bytes) (updates : List Update) : Scanned :=
  ofBytes path ((ofBytes path bytes).edited updates)

section InTurn

variable {path : Path} {bytes : Bytes} {first more : List Update}
  (steady : (ofBytes path bytes).Steady)
  (clear : ∀ update ∈ first, update.Readable ∧ '\n' ∉ update.value)

include steady clear

theorem lines_after :
    (after path bytes first).document.lines = (ofBytes path bytes).rewritten first :=
  lines_of_apart (fun update among => (clear update among).2) fun joins => steady.closed joins.returned

theorem texts_after :
    (after path bytes first).document.texts = ((ofBytes path bytes).edit first).lines := by
  rw [Document.texts, lines_after steady clear, texts_of_rewritten]

theorem at_after (index : Nat) :
    Edit.at? (after path bytes first).records index =
      ((ofBytes path bytes).edit first).lines[index]?.bind (Record.ofLine? path index) := by
  rw [← texts_after steady clear]
  exact Record.at_scan path _ index

theorem emitted_readable {index : Nat} {record : Record}
    (here : Edit.at? (ofBytes path bytes).records index = some record) :
    ∃ update : Update, update.Readable ∧ update.kind = record.kind ∧
      Edit.emitted (ofBytes path bytes).records first record = update.declaration := by
  cases taken : Edit.taken? (ofBytes path bytes).records first record with
  | some update =>
      obtain ⟨asked, same⟩ := Edit.mem_of_taken taken
      exact ⟨update, (clear update asked).1, same, by rw [Edit.emitted, taken]⟩
  | none =>
      have among := List.mem_of_find?_eq_some here
      exact ⟨⟨record.kind, record.value⟩, ⟨(clear_of_record among).1, steady.numbered record among⟩,
        rfl, by rw [Edit.emitted, taken]; rfl⟩

theorem at_old_line {index : Nat} {line : Line}
    (held : (ofBytes path bytes).document.lines[index]? = some line) :
    (Edit.at? (after path bytes first).records index).map (fun record =>
        (record.kind, record.declaration)) =
      (Edit.at? (ofBytes path bytes).records index).map fun record =>
        (record.kind, Edit.emitted (ofBytes path bytes).records first record) := by
  rw [at_after steady clear, text_at_line _ _ held, Option.bind_some, Edit.textAt]
  cases here : Edit.at? (ofBytes path bytes).records index with
  | none =>
      have scanned : Edit.at? (ofBytes path bytes).records index = _ :=
        Record.at_scan path (ofBytes path bytes).document.texts index
      rw [here, Document.texts, List.getElem?_map, held] at scanned
      exact congrArg _ scanned.symm
  | some record =>
      obtain ⟨update, readable, same, written⟩ := emitted_readable steady clear here
      obtain ⟨again, read, kind, declared⟩ := readable.read_declaration path index
      simp only [written, read, Option.map_some, kind, same, declared]

theorem at_added_line {index : Nat}
    (beyond : (ofBytes path bytes).document.lines.length ≤ index) {record : Record}
    (here : Edit.at? (after path bytes first).records index = some record) :
    (∃ update ∈ first, update.kind = record.kind) ∧
      ((ofBytes path bytes).edit first).lines[index]? = some record.declaration := by
  rw [at_after steady clear] at here
  obtain ⟨text, held, read⟩ := Option.bind_eq_some_iff.mp here
  have added : text ∈ (ofBytes path bytes).additions first := by
    rw [← texts_of_rewritten, rewritten, List.map_append, texts_of_added,
      List.getElem?_append_right (by simpa using beyond)] at held
    exact List.mem_of_getElem? held
  obtain ⟨update, unused, rfl⟩ := List.mem_map.mp added
  have asked := Edit.mem_of_unused unused
  obtain ⟨again, reread, kind, declared⟩ := (clear update asked).1.read_declaration path index
  obtain rfl := Option.some.inj (reread.symm.trans read)
  exact ⟨⟨update, asked, kind.symm⟩, by rw [held, declared]⟩

theorem met_after {index : Nat}
    (within : index ≤ (ofBytes path bytes).document.lines.length) (kind : Kind) :
    Edit.met (after path bytes first).records index kind =
      Edit.met (ofBytes path bytes).records index kind := by
  induction index with
  | zero => rfl
  | succ index ih =>
      have held := List.getElem?_eq_getElem within
      have kinds := congrArg (Option.map Prod.fst) (at_old_line steady clear held)
      rw [Option.map_map, Option.map_map] at kinds
      have same := congrArg (Option.any (· == kind)) kinds
      rw [Option.any_map, Option.any_map] at same
      rw [Edit.met, Edit.met, ih (Nat.le_of_succ_le within)]
      exact congrArg (fun counts => _ + if counts = true then 1 else 0) same

theorem met_at_end {kind : Kind}
    (unasked : ∀ update ∈ first, update.kind ≠ kind) (extra : Nat) :
    Edit.met (after path bytes first).records
        ((ofBytes path bytes).document.lines.length + extra) kind =
      Edit.met (ofBytes path bytes).records (ofBytes path bytes).document.lines.length kind := by
  induction extra with
  | zero => exact met_after steady clear (Nat.le_refl _) kind
  | succ extra ih =>
      have absent : (Edit.at? (after path bytes first).records
          ((ofBytes path bytes).document.lines.length + extra)).any (·.kind == kind) = false := by
        rw [Option.any_eq_false]
        intro record here
        obtain ⟨⟨update, asked, same⟩, -⟩ := at_added_line steady clear (Nat.le_add_right ..) here
        simpa [← same] using unasked update asked
      rw [← Nat.add_assoc, Edit.met, ih, absent]
      rfl

theorem framing_after :
    (after path bytes first).document.majority = (ofBytes path bytes).document.majority ∧
      (after path bytes first).document.lastEnding = (ofBytes path bytes).document.lastEnding := by
  have document : (after path bytes first).document = ⟨(ofBytes path bytes).rewritten first⟩ :=
    congrArg Document.mk (lines_after steady clear)
  refine ⟨by rw [document, majority_rewritten], ?_⟩
  rw [document, Document.lastEnding, terminated_rewritten, majority_rewritten, Document.lastEnding]

variable (apart : ∀ a ∈ first, ∀ b ∈ more, a.kind ≠ b.kind)

include apart

theorem text_in_turn {index : Nat} {line : Line}
    (held : (ofBytes path bytes).document.lines[index]? = some line) :
    Edit.textAt (after path bytes first).records more index
        (Edit.textAt (ofBytes path bytes).records first index line.text) =
      Edit.textAt (ofBytes path bytes).records (first ++ more) index line.text := by
  have old := at_old_line steady clear held
  rw [Edit.textAt, Edit.textAt, Edit.textAt]
  cases here : Edit.at? (ofBytes path bytes).records index with
  | none =>
      rw [here, Option.map_none, Option.map_eq_none_iff] at old
      rw [old]
  | some record =>
      rw [here, Option.map_some, Option.map_eq_some_iff] at old
      obtain ⟨again, read, same⟩ := old
      obtain ⟨kind, written⟩ := Prod.mk.inj same
      have within : index ≤ (ofBytes path bytes).document.lines.length :=
        Nat.le_of_lt (List.getElem?_eq_some_iff.mp held).1
      have counted := met_after steady clear within record.kind
      have second : Edit.taken? (after path bytes first).records more again =
          (Edit.ofKind record.kind more)[Edit.met (ofBytes path bytes).records index record.kind]? := by
        rw [Edit.taken?, kind, Edit.line_of_at read, counted]
      have whole : Edit.taken? (ofBytes path bytes).records (first ++ more) record =
          (Edit.ofKind record.kind first ++ Edit.ofKind record.kind more)[Edit.met
            (ofBytes path bytes).records index record.kind]? := by
        rw [Edit.taken?, Edit.line_of_at here, Edit.of_kind_append]
      have before : Edit.taken? (ofBytes path bytes).records first record =
          (Edit.ofKind record.kind first)[Edit.met
            (ofBytes path bytes).records index record.kind]? := by
        rw [Edit.taken?, Edit.line_of_at here]
      simp only [read]
      rcases Edit.of_kind_apart apart record.kind with unasked | unasked
      · rw [unasked, List.nil_append, ← second] at whole
        rw [unasked, List.getElem?_nil] at before
        rw [Edit.emitted, before] at written
        rw [Edit.emitted, Edit.emitted, whole, written]
      · rw [unasked, List.append_nil, ← before] at whole
        rw [unasked, List.getElem?_nil] at second
        rw [Edit.emitted, second, written, Edit.emitted, Edit.emitted, whole]

theorem text_of_added {index : Nat} {text : Text}
    (beyond : (ofBytes path bytes).document.lines.length ≤ index)
    (held : ((ofBytes path bytes).edit first).lines[index]? = some text) :
    Edit.textAt (after path bytes first).records more index text = text := by
  rw [Edit.textAt]
  cases here : Edit.at? (after path bytes first).records index with
  | none => rfl
  | some record =>
      obtain ⟨⟨update, asked, same⟩, declared⟩ := at_added_line steady clear beyond here
      have unasked : Edit.ofKind record.kind more = [] :=
        Edit.of_kind_eq_nil fun other inside => same ▸ Ne.symm (apart update asked other inside)
      have untaken : Edit.taken? (after path bytes first).records more record = none := by
        rw [Edit.taken?, unasked, List.getElem?_nil]
      simp only [Edit.emitted, untaken]
      exact Option.some.inj (declared.symm.trans held)

theorem additions_in_turn :
    (ofBytes path bytes).additions (first ++ more) =
      (ofBytes path bytes).additions first ++ (after path bytes first).additions more := by
  have size : (after path bytes first).document.lines.length =
      (ofBytes path bytes).document.lines.length + ((ofBytes path bytes).additions first).length := by
    rw [← length_of_edit, ← texts_after steady clear, Document.texts, List.length_map]
  have counts : Edit.unused (Edit.met (after path bytes first).records
        (after path bytes first).document.lines.length) more =
      Edit.unused (Edit.met (ofBytes path bytes).records
        (ofBytes path bytes).document.lines.length) more := by
    refine Edit.unused_congr fun update inside => ?_
    rw [size]
    exact met_at_end steady clear (fun other asked => apart other asked update inside) _
  rw [additions, additions, additions, counts, Edit.unused_append _ apart, List.map_append]

theorem old_line_in_turn {index : Nat} {line : Line}
    (held : (ofBytes path bytes).document.lines[index]? = some line) :
    (after path bytes first).lineAt more index ((ofBytes path bytes).lineAt first index line) =
      (ofBytes path bytes).lineInTurn first (first ++ more) index line := by
  have text := text_of_line_at (ofBytes path bytes) first index line
  have written := bytes_for_text (after path bytes first) more index
    ((ofBytes path bytes).lineAt first index line)
  rw [text, text_in_turn steady clear apart held] at written
  have ends : ((ofBytes path bytes).lineAt first index line).ending.or
        (if (after path bytes first).additions more = [] then none
          else some (after path bytes first).document.majority) =
      ((ofBytes path bytes).lineAt (first ++ more) index line).ending := by
    rw [(framing_after steady clear).1, lineAt, lineAt, additions_in_turn steady clear apart]
    cases line.ending with
    | some own => rfl
    | none =>
        cases (ofBytes path bytes).additions first <;>
          cases (after path bytes first).additions more <;> rfl
  rw [lineInTurn, written, ← ends]
  rfl

theorem added_lines_in_turn :
    let file := ofBytes path bytes
    let added := addedLines file.document.majority file.document.lastEnding
    ((added (file.additions first)).mapIdx fun index =>
        (after path bytes first).lineAt more (index + file.document.lines.length)) ++
        added ((after path bytes first).additions more) =
      added (file.additions (first ++ more)) := by
  intro file added
  let last := if (after path bytes first).additions more = [] then none
    else some file.document.majority
  have kept : ((added (file.additions first)).mapIdx fun index =>
        (after path bytes first).lineAt more (index + file.document.lines.length)) =
      (added (file.additions first)).map fun line => ⟨line.bytes, line.ending.or last⟩ := by
    apply List.ext_getElem?
    intro index
    rw [List.getElem?_mapIdx, List.getElem?_map]
    cases held : (added (file.additions first))[index]? with
    | none => rfl
    | some line =>
        have place : ((ofBytes path bytes).edit first).lines[index + file.document.lines.length]? =
            some line.text := by
          rw [← texts_of_rewritten, List.getElem?_map, rewritten,
            List.getElem?_append_right (by simp [file]), List.length_mapIdx, Nat.add_sub_cancel]
          exact congrArg (Option.map Line.text) held
        have same := text_of_added steady clear apart (Nat.le_add_left ..) place
        have written := bytes_for_text (after path bytes first) more
          (index + file.document.lines.length) line
        rw [same, Line.bytesFor, if_pos rfl] at written
        rw [Option.map_some, Option.map_some, lineAt, ← written, (framing_after steady clear).1]
  rw [kept, additions_in_turn steady clear apart]
  simp only [added]
  rw [added_lines_ended, added_lines_append]
  congr 2
  by_cases none_left : (after path bytes first).additions more = []
  · simp [last, none_left]
  · simp only [last, if_neg none_left, Document.lastEnding]
    split <;> rfl

theorem rewritten_in_turn :
    let file := ofBytes path bytes
    (after path bytes first).rewritten more =
      file.document.lines.mapIdx (file.lineInTurn first (first ++ more)) ++
        addedLines file.document.majority file.document.lastEnding
          (file.additions (first ++ more)) := by
  intro file
  obtain ⟨majority, last⟩ := framing_after steady clear
  rw [rewritten, lines_after steady clear, majority, last, rewritten, List.mapIdx_append,
    List.append_assoc, List.length_mapIdx, added_lines_in_turn steady clear apart]
  congr 1
  apply List.ext_getElem?
  intro index
  rw [List.getElem?_mapIdx, List.getElem?_mapIdx, List.getElem?_mapIdx]
  cases held : (ofBytes path bytes).document.lines[index]? with
  | none => rfl
  | some line =>
      exact congrArg some (old_line_in_turn steady clear apart held)

-- One edit after another gives the content of one edit with all the updates, except where a line that
-- ends as it was holds octets that the first edit did not keep.
theorem edited_append_iff :
    (after path bytes first).edited more = (ofBytes path bytes).edited (first ++ more) ↔
      (ofBytes path bytes).Undisturbed first (first ++ more) := by
  have framed : Document.Framed (ofBytes path bytes).document.lines := Document.framed_split bytes
  have framed_after : Document.Framed (after path bytes first).document.lines := Document.framed_split _
  rw [edited_eq framed, edited_eq framed_after, rewritten_in_turn steady clear apart, rewritten,
    List.flatMap_append, List.flatMap_append, List.append_cancel_right_eq, undisturbed_iff]
  constructor
  · intro same index line held
    have lines := Document.map_idx_of_content framed (line_in_turn_alike framed)
      (fun index line => ⟨rfl, fun open_end => (Option.or_eq_none_iff.mp open_end).1⟩) same
    have at_index := congrArg (·[index]?) lines
    simp only [List.getElem?_mapIdx, held] at at_index
    exact Option.some.inj at_index
  · intro undisturbed
    congr 1
    apply List.ext_getElem?
    intro index
    rw [List.getElem?_mapIdx, List.getElem?_mapIdx]
    cases held : (ofBytes path bytes).document.lines[index]? with
    | none => rfl
    | some line => exact congrArg some (undisturbed index line held)

end InTurn

end Scanned

end AssemblyVersions
