import AssemblyVersions.Proofs.Rescan

set_option autoImplicit false

namespace AssemblyVersions.Edit

variable {path : Path} {kind : Kind}

-- Each record of a kind is read again from the line that is written for it.
def refill (path : Path) : List Record → List Update → List Record
  | [], _ => []
  | record :: records, updates =>
      (Record.ofLine? path record.line (written record updates)).toList ++
        refill path records updates.tail

@[simp] theorem of_kind_remaining (kind : Kind) (pending : List Update) :
    ofKind kind (remaining kind pending) = (ofKind kind pending).tail := by
  induction pending with
  | nil => rfl
  | cons update pending ih =>
      simp only [ofKind, remaining] at ih ⊢
      by_cases same : update.kind = kind
      · simp [same]
      · simp [same, ih]

theorem of_kind_remaining_of_ne {kind other : Kind} (apart : other ≠ kind) (pending : List Update) :
    ofKind kind (remaining other pending) = ofKind kind pending := by
  induction pending with
  | nil => rfl
  | cons update pending ih =>
      simp only [ofKind, remaining] at ih ⊢
      by_cases same : update.kind = other
      · simp [same, apart]
      · by_cases here : update.kind = kind
        · simp [here, Ne.symm apart, ih]
        · simp [same, here, ih]

@[simp] theorem written_of_kind (record : Record) (pending : List Update) :
    written record (ofKind record.kind pending) = written record pending := by
  have same : (ofKind record.kind pending).find? (·.kind == record.kind) =
      pending.find? (·.kind == record.kind) := by
    rw [← List.head?_filter, ← List.head?_filter, ofKind, List.filter_filter]
    simp only [Bool.and_self]
  rw [written, same, written]

theorem written_form (record : Record) (pending : List Update) :
    ∃ value, written record pending = Declaration.toText ⟨record.kind, value⟩ := by
  rw [written]
  split
  · rename_i update found
    have same : update.kind = record.kind := by simpa using List.find?_some found
    exact ⟨update.value, by rw [← same]; rfl⟩
  · exact ⟨record.value, rfl⟩

theorem records_of_form (kind : Kind) (path : Path) (index : Nat) (declaration : Declaration) :
    Record.ofKind kind (Record.ofLine? path index declaration.toText).toList =
      if declaration.kind = kind then (Record.ofLine? path index declaration.toText).toList else [] := by
  cases read : Record.ofLine? path index declaration.toText with
  | none => simp [Record.ofKind]
  | some record =>
      have same := Record.kind_of_form read
      by_cases here : declaration.kind = kind
      · simp [Record.ofKind, same, here]
      · simp [Record.ofKind, same, here]

theorem records_of_additions (kind : Kind) (path : Path) (base : Nat) {pending : List Update}
    (absent : ofKind kind pending = []) :
    Record.ofKind kind (Record.scanFrom path base (pending.map Update.declaration)) = [] := by
  induction pending generalizing base with
  | nil => rfl
  | cons update pending ih =>
      simp only [ofKind, List.filter_cons] at absent
      split at absent
      · cases absent
      · rename_i other
        have apart : ¬ update.kind = kind := by simpa using other
        rw [List.map_cons, Record.scanFrom, Record.of_kind_append, ih (base + 1) absent, List.append_nil,
          Update.declaration, records_of_form, if_neg apart]

theorem records_of_walk (at_path : Path) {records : List Record} {base : Nat} (seen : Seen)
    (pending : List Update) {lines : List Text}
    (scanned : ∀ offset,
      at? records (base + offset) = lines[offset]?.bind (Record.ofLine? path (base + offset))) :
    ∃ rest,
      ofKind kind rest =
        (ofKind kind pending).drop (Record.ofKind kind (Record.scanFrom path base lines)).length ∧
      Record.ofKind kind
          (Record.scanFrom path base (walk at_path records base seen pending lines).lines) =
        refill path (Record.ofKind kind (Record.scanFrom path base lines)) (ofKind kind pending) ++
          Record.ofKind kind
            (Record.scanFrom path (base + lines.length) (rest.map Update.declaration)) := by
  induction lines generalizing base seen pending with
  | nil => exact ⟨pending, rfl, rfl⟩
  | cons line lines ih =>
      have here : records.find? (·.line == base) = Record.ofLine? path base line := scanned 0
      have later : ∀ offset, at? records (base + 1 + offset) =
          lines[offset]?.bind (Record.ofLine? path (base + 1 + offset)) := by
        intro offset
        have next := scanned (offset + 1)
        have shifted : base + (offset + 1) = base + 1 + offset := by omega
        rwa [shifted, List.getElem?_cons_succ] at next
      have size : base + (lines.length + 1) = base + 1 + lines.length := by omega
      cases read : Record.ofLine? path base line with
      | none =>
          rw [read] at here
          obtain ⟨rest, left, same⟩ := ih seen pending later
          refine ⟨rest, ?_, ?_⟩
          · simpa only [Record.scanFrom, read, Option.toList_none, List.nil_append] using left
          · simpa only [walk, here, Record.scanFrom, read, Option.toList_none, List.nil_append,
              List.length_cons, size] using same
      | some record =>
          rw [read] at here
          obtain ⟨rest, left, same⟩ :=
            ih (seen.note record.kind base) (remaining record.kind pending) later
          have line_at := (Record.of_line_eq_some.mp read).1
          obtain ⟨value, form⟩ := written_form record pending
          by_cases mine : record.kind = kind
          · subst mine
            rw [of_kind_remaining] at left same
            refine ⟨rest, ?_, ?_⟩
            · rw [left, Record.scanFrom, read, Record.of_kind_append]
              simp [Record.ofKind]
            · simp only [walk, here, Record.scanFrom, read, Record.of_kind_append, same,
                List.length_cons, size]
              rw [form, records_of_form, if_pos rfl, ← form]
              simp [Record.ofKind, refill, line_at]
          · rw [of_kind_remaining_of_ne mine] at left same
            refine ⟨rest, ?_, ?_⟩
            · rw [left, Record.scanFrom, read, Record.of_kind_append]
              simp [Record.ofKind, mine]
            · simp only [walk, here, Record.scanFrom, read, Record.of_kind_append, same,
                List.length_cons, size]
              rw [form, records_of_form, if_neg mine]
              simp [Record.ofKind, mine]

theorem records_of_edit (at_path : Path) (lines : List Text) (updates : List Update) :
    ∃ rest,
      ofKind kind rest =
        (ofKind kind updates).drop (Record.ofKind kind (Record.scan path lines)).length ∧
      Record.ofKind kind
          (Record.scan path (ofRecords at_path lines (Record.scan path lines) updates).lines) =
        refill path (Record.ofKind kind (Record.scan path lines)) (ofKind kind updates) ++
          Record.ofKind kind (Record.scanFrom path lines.length (rest.map Update.declaration)) := by
  have scanned : ∀ offset, at? (Record.scan path lines) (0 + offset) =
      lines[offset]?.bind (Record.ofLine? path (0 + offset)) := by
    intro offset
    rw [Nat.zero_add, Record.at_scan]
  have walked : ∃ rest, ofKind kind rest = _ ∧ _ := records_of_walk at_path [] updates scanned
  rwa [Nat.zero_add] at walked

end AssemblyVersions.Edit
