import AssemblyVersions.Proofs.FileMap
import AssemblyVersions.Proofs.ReadBack

set_option autoImplicit false

namespace AssemblyVersions

def Canonical (line : Text) : Prop :=
  ∀ declaration, Declaration.ofLine? line = some declaration →
    (declaration.meaning? line).isSome → line = declaration.toText

namespace Canonical

theorem form {declaration : Declaration} (clear : '"' ∉ declaration.value) :
    Canonical declaration.toText := by
  intro other read _
  have own := Declaration.of_line_append clear []
  rw [List.append_nil, read] at own
  rw [Option.some.inj own]

theorem of_none {path : Path} {index : Nat} {line : Text}
    (nothing : Record.ofLine? path index line = none) : Canonical line := by
  intro declaration read meant
  obtain ⟨meaning, same⟩ := Option.isSome_iff_exists.mp meant
  have record : Record.ofLine? path index line =
      some ⟨declaration.kind, declaration.value, meaning, index, path⟩ :=
    Record.of_line_eq_some.mpr ⟨rfl, rfl, read, same⟩
  rw [nothing] at record
  cases record

theorem eq_declaration {path : Path} {index : Nat} {line : Text} (canonical : Canonical line)
    {record : Record} (read : Record.ofLine? path index line = some record) :
    line = record.declaration := by
  obtain ⟨-, -, declared, meant⟩ := Record.of_line_eq_some.mp read
  exact canonical _ declared (by rw [meant]; rfl)

theorem settle {line : Line} (canonical : Canonical line.text) : Canonical line.settle.text := by
  rcases line.text_settle with same | cut
  · rwa [same]
  · intro declaration read meant
    rw [cut] at canonical
    have whole := canonical declaration
      ((Declaration.of_line_append_char (by decide) _).trans read)
      (by rwa [Declaration.meaning_append (by decide)])
    have last := congrArg List.getLast? whole
    simp [Declaration.toText, Declaration.closing] at last

end Canonical

namespace Scanned

theorem canonical_edit (path : Path) (bytes : Bytes) {updates : List Update}
    (clear : ∀ update ∈ updates, '"' ∉ update.value) :
    ∀ line ∈ ((ofBytes path bytes).edit updates).lines, Canonical line := by
  intro line among
  rw [edit, Edit.lines_of_records] at among
  rcases List.mem_append.mp among with kept | added
  · obtain ⟨index, inside, rfl⟩ := List.mem_mapIdx.mp kept
    rw [Edit.textAt]
    cases here : Edit.at? (ofBytes path bytes).records index with
    | none =>
        have scanned : Edit.at? (ofBytes path bytes).records index = _ :=
          Record.at_scan path (ofBytes path bytes).document.texts index
        rw [here, List.getElem?_eq_getElem inside, Option.bind_some] at scanned
        exact .of_none scanned.symm
    | some record =>
        have own := (clear_of_record (List.mem_of_find?_eq_some here)).1
        dsimp only
        rw [Edit.emitted]
        split
        · rename_i update taken
          exact .form (clear update (Edit.mem_of_taken taken).1)
        · exact .form own
  · obtain ⟨update, unused, rfl⟩ := List.mem_map.mp added
    exact .form (clear update (Edit.mem_of_unused unused))

theorem canonical_edited (path : Path) (bytes : Bytes) {updates : List Update}
    (clear : ∀ update ∈ updates, '"' ∉ update.value ∧ '\n' ∉ update.value) :
    ∀ line ∈ (Document.ofBytes ((ofBytes path bytes).edited updates)).texts, Canonical line := by
  intro text among
  rw [texts_of_edited path bytes fun update listed => (clear update listed).2] at among
  obtain ⟨line, listed, rfl⟩ := List.mem_map.mp among
  apply Canonical.settle
  apply canonical_edit path bytes fun update listed => (clear update listed).1
  rw [← texts_of_rewritten]
  exact List.mem_map_of_mem listed

end Scanned

namespace Edit

theorem of_kind_eq_singleton {update : Update} {updates : List Update}
    (once : ∀ kind, (ofKind kind updates).length ≤ 1) (among : update ∈ updates) :
    ofKind update.kind updates = [update] := by
  have listed : update ∈ ofKind update.kind updates := by simpa [ofKind] using among
  have bound := once update.kind
  cases same : ofKind update.kind updates with
  | nil =>
      rw [same] at listed
      cases listed
  | cons first more =>
      rw [same] at bound listed
      have alone : more = [] := List.length_eq_zero_iff.mp (by simpa using bound)
      rw [alone] at listed ⊢
      rw [List.mem_singleton.mp listed]

theorem remaining_of_once (kind : Kind) {pending : List Update}
    (once : ∀ kind, (ofKind kind pending).length ≤ 1) :
    (∀ other, (ofKind other (remaining kind pending)).length ≤ 1) ∧
      ∀ update ∈ remaining kind pending, update ∈ pending ∧ update.kind ≠ kind := by
  have none_left : ofKind kind (remaining kind pending) = [] := by
    rw [of_kind_remaining, ← List.length_eq_zero_iff, List.length_tail]
    exact Nat.sub_eq_zero_of_le (once kind)
  refine ⟨fun other => ?_, fun update among => ⟨List.mem_of_mem_eraseP among, ?_⟩⟩
  · by_cases same : kind = other
    · subst same
      simp [none_left]
    · rw [of_kind_remaining_of_ne same]
      exact once other
  · rintro rfl
    have listed : update ∈ ofKind update.kind (remaining update.kind pending) := by
      simpa [ofKind] using among
    rw [none_left] at listed
    cases listed

theorem lines_of_canonical (path : Path) {at_path : Path} {records : List Record} {base : Nat} {seen : Seen}
    {pending : List Update} {lines : List Text} (canonical : ∀ line ∈ lines, Canonical line)
    (scanned : ∀ offset,
      at? records (base + offset) = lines[offset]?.bind (Record.ofLine? path (base + offset)))
    (once : ∀ kind, (ofKind kind pending).length ≤ 1)
    (first : ∀ update ∈ pending, (Record.first? (Record.scanFrom path base lines) update.kind).map
      Record.value = some update.value) :
    (walk at_path records base seen pending lines).lines = lines := by
  induction lines generalizing base seen pending with
  | nil =>
      cases pending with
      | nil => rfl
      | cons update pending => cases first update List.mem_cons_self
  | cons line lines ih =>
      have here : records.find? (·.line == base) = Record.ofLine? path base line := scanned 0
      have later : ∀ offset, at? records (base + 1 + offset) =
          lines[offset]?.bind (Record.ofLine? path (base + 1 + offset)) := by
        intro offset
        have next := scanned (offset + 1)
        have shifted : base + (offset + 1) = base + 1 + offset := by omega
        rwa [shifted, List.getElem?_cons_succ] at next
      have behind : ∀ other ∈ lines, Canonical other := fun other among =>
        canonical other (List.mem_cons_of_mem line among)
      cases read : Record.ofLine? path base line with
      | none =>
          rw [read] at here
          simp only [Record.scanFrom, read, Option.toList_none, List.nil_append] at first
          simp only [walk, here]
          rw [ih behind later once first]
      | some record =>
          rw [read] at here
          have own := (canonical line List.mem_cons_self).eq_declaration read
          have new : written record pending = line := by
            rw [own, written]
            split
            · rename_i update found
              have same : update.kind = record.kind := by simpa using List.find?_some found
              have value := first update (List.mem_of_find?_eq_some found)
              simp only [Record.scanFrom, read, Record.first?, same, Option.toList_some,
                List.cons_append, List.find?_cons, beq_self_eq_true, Option.map_some,
                Option.some.injEq] at value
              rw [Update.declaration, Record.declaration, same, value]
            · rfl
          obtain ⟨once_left, left⟩ := remaining_of_once record.kind once
          have first_left : ∀ update ∈ remaining record.kind pending,
              (Record.first? (Record.scanFrom path (base + 1) lines) update.kind).map Record.value =
                some update.value := by
            intro update among
            obtain ⟨listed, other⟩ := left update among
            have value := first update listed
            have apart : (record.kind == update.kind) = false := by simpa using Ne.symm other
            simpa only [Record.scanFrom, read, Record.first?, Option.toList_some, List.cons_append,
              List.nil_append, List.find?_cons, apart] using value
          simp only [walk, here]
          rw [new, ih behind later once_left first_left]

end Edit

namespace Scanned

theorem unchanged_of_edited (path : Path) (bytes : Bytes) {updates : List Update}
    (clear : ∀ update ∈ updates, update.Readable ∧ '\n' ∉ update.value)
    (once : ∀ kind, (Edit.ofKind kind updates).length ≤ 1) :
    ((ofBytes path ((ofBytes path bytes).edited updates)).edit updates).isChanged = false := by
  have canonical := canonical_edited path bytes fun update listed =>
    ⟨(clear update listed).1.quoteless, (clear update listed).2⟩
  have lines : ((ofBytes path ((ofBytes path bytes).edited updates)).edit updates).lines =
      (Document.ofBytes ((ofBytes path bytes).edited updates)).texts := by
    refine Edit.lines_of_canonical path canonical (fun offset => ?_) once ?_
    · rw [Nat.zero_add]
      exact Record.at_scan path _ offset
    · intro update listed
      exact first_of_edited path bytes (fun other among => (clear other among).2)
        (clear update listed).1 (Edit.of_kind_eq_singleton once listed)
  have silent : ((ofBytes path ((ofBytes path bytes).edited updates)).edit updates).changes = [] :=
    Edit.no_changes_of_lines lines
  rw [Edit.isChanged, silent]
  rfl

end Scanned

namespace Assignment

theorem once_entries (assignment : Assignment) (kind : Kind) :
    (Edit.ofKind kind assignment.entries).length ≤ 1 := by
  rw [of_kind_entries, List.length_map]
  cases assignment.value? kind with
  | none => exact Nat.zero_le 1
  | some value => exact Nat.le_refl 1

theorem readable_entries {assignment : Assignment}
    (numbers : ∀ update ∈ assignment.entries,
      update.kind.isNumeric → (Number.ofText? update.value).isSome)
    (clear : ∀ value, assignment.informational = some value → '"' ∉ value ∧ '\n' ∉ value) :
    ∀ update ∈ assignment.entries, update.Readable ∧ '\n' ∉ update.value := by
  refine forall_entries numbers (fun _ fits => Update.readable_of_number fits) fun value supplied => ?_
  obtain ⟨quoteless, feedless⟩ := clear value supplied
  refine ⟨⟨quoteless, fun impossible => ?_⟩, feedless⟩
  cases impossible

end Assignment

namespace Batch

section Idempotence

variable {σ : Type} [Store σ] {paths : List Path} {same : Path → Path → Prop} {sound : σ → Prop}
  {store after : σ}

theorem saves_idle {updates : List Update} {files : List Scanned}
    (idle : ∀ file ∈ files, (file.edit updates).isChanged = false)
    (saves : Saves updates false store files after) : after = store := by
  induction saves with
  | done => rfl
  | more saved _ ih =>
      have here := idle _ List.mem_cons_self
      rw [save, here] at saved
      cases saved
      exact ih fun file among => idle file (List.mem_cons_of_mem _ among)

theorem apply_all_idle {updates : List Update} {files : List Scanned}
    (idle : ∀ file ∈ files, (file.edit updates).isChanged = false) (outcome : Outcome) (store : σ) :
    applyAll updates false files outcome store =
      (store, .ok (reported updates false files outcome)) := by
  rcases apply_all_cases updates false files outcome store with
    ⟨last, saves, ended⟩ | ⟨earlier, file, later, last, error, parts, -, refused, -⟩
  · rw [ended, saves_idle idle saves]
  · obtain ⟨-, changed, -⟩ := save_error refused
    have unchanged := idle file (by rw [parts]; exact List.mem_append_right _ List.mem_cons_self)
    rw [unchanged] at changed
    cases changed

-- After a set the same set succeeds without a change or a write, whatever the files held before.
theorem set_again_changes_nothing (replaces : Replaces paths same sound) (healthy : sound store)
    {assignment : Assignment}
    (clear : ∀ value, assignment.informational = some value → '"' ∉ value ∧ '\n' ∉ value)
    {outcome : Outcome} (ran : run (.set assignment) false paths store = (after, .ok outcome)) :
    ∃ again, run (.set assignment) false paths after = (after, .ok again) ∧ again.files = [] ∧
      again.changeCount = 0 ∧ again.version = outcome.version := by
  obtain ⟨updates, version, prepared, present, saves, rfl⟩ := saves_of_run rfl ran
  obtain ⟨-, mapped⟩ := mapped_of_saves replaces healthy present saves
  obtain ⟨assigned_updates, checked, -, planned⟩ := prepare_eq_ok.mp prepared
  cases planned
  obtain ⟨entries, numbers⟩ := Plan.checked_all checked
  subst entries
  have held (path : Path) (listed : path ∈ paths) :
      Store.read after path = .ok (newContent assignment.entries (contentOf store) path) :=
    mapped.replaced path listed path (replaces.itself path listed)
  have content (path : Path) (listed : path ∈ paths) :
      contentOf after path = newContent assignment.entries (contentOf store) path := by
    rw [contentOf, held path listed]
  have idle (path : Path) (listed : path ∈ paths) :
      ((Scanned.ofBytes path (contentOf after path)).edit assignment.entries).isChanged = false := by
    rw [content path listed]
    exact Scanned.unchanged_of_edited path (contentOf store path)
      (Assignment.readable_entries numbers clear) assignment.once_entries
  have read_again : readAll after paths = .ok (filesAt after paths) :=
    read_all_present fun path listed => by rw [held path listed, content path listed]
  have prepared_again : prepare (.set assignment) paths after =
      .ok (filesAt after paths, .update assignment.entries (singleValue assignment.entries)) :=
    prepare_eq_ok.mpr ⟨assignment.entries, checked, read_again, rfl⟩
  have no_files : (reported assignment.entries false (filesAt after paths)
      { version := singleValue assignment.entries }).files = [] := by
    rw [filesAt, files_of_reported, List.map_eq_nil_iff, List.filter_eq_nil_iff]
    intro path listed
    rw [changes, idle path listed]
    exact Bool.false_ne_true
  refine ⟨reported assignment.entries false (filesAt after paths)
    { version := singleValue assignment.entries }, ?_, no_files, ?_, rfl⟩
  · rw [run, prepared_again]
    refine apply_all_idle (fun file among => ?_) _ after
    obtain ⟨path, listed, rfl⟩ := List.mem_map.mp among
    exact idle path listed
  · rw [Outcome.changeCount, no_files]
    rfl

end Idempotence

theorem set_again_on_untidy_file :
    let path : Path := ⟨"A.cs".toList⟩
    let bytes := "[assembly: AssemblyVersion(\"x\")] // 1.0.0.0\r\n".toList.map Utf8.octet ++
      "[assembly: AssemblyVersion(\"1.0.0.0\")] \n".toList.map Utf8.octet ++ [0xA9, 13]
    let store : MemoryStore := { files := [(path, bytes)] }
    let operation : Operation :=
      .set { assembly := some "2.0.0.0".toList, informational := some "2.0 beta".toList }
    ∃ after outcome, run operation false [path] store = (after, .ok outcome) ∧
      outcome.changeCount = 3 ∧
      ∃ again, run operation false [path] after = (after, .ok again) ∧ again.files = [] := by
  intro path bytes store operation
  have count : (run operation false [path] store).2.toOption.map Outcome.changeCount = some 3 := by
    decide +kernel
  cases ended : (run operation false [path] store).2 with
  | error error =>
      rw [ended] at count
      cases count
  | ok outcome =>
      rw [ended] at count
      have ran : run operation false [path] store =
          ((run operation false [path] store).1, .ok outcome) := Prod.ext rfl ended
      have clear : ∀ value, some "2.0 beta".toList = some value → '"' ∉ value ∧ '\n' ∉ value := by
        rintro value ⟨⟩
        decide +kernel
      obtain ⟨again, ran_again, unlisted, -⟩ :=
        set_again_changes_nothing (MemoryStore.replaces_locked [path] []) rfl clear ran
      exact ⟨_, outcome, ran, Option.some.inj count, again, ran_again, unlisted⟩

end Batch

end AssemblyVersions
