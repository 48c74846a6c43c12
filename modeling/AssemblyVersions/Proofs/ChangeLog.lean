import AssemblyVersions.Proofs.Difference
import AssemblyVersions.Proofs.ScannedLines

set_option autoImplicit false

namespace AssemblyVersions

-- Makes a logged change. The line that a replacement names must still be the old one.
def Change.redo? (lines : List Text) : Change → Option (List Text)
  | .replaced index old new => if lines[index]? = some old then some (lines.set index new) else none
  | .added line => some (lines ++ [line])

namespace Edit

variable {path : Path} {records : List Record} {seen : Seen} {pending : List Update}

def differing (old new : List Text) : List Nat :=
  (List.range old.length).filter fun index => new[index]? != old[index]?

def replacedFrom (base : Nat) (old new : List Text) : List Change :=
  (differing old new).map fun index =>
    .replaced (base + index) (old.getD index []) (new.getD index [])

theorem mem_differing {old new : List Text} {index : Nat} :
    index ∈ differing old new ↔ index < old.length ∧ new[index]? ≠ old[index]? := by
  simp [differing]

theorem differing_increasing (old new : List Text) : (differing old new).Pairwise (· < ·) :=
  List.pairwise_lt_range.filter _

theorem differing_cons (a b : Text) (old new : List Text) :
    differing (a :: old) (b :: new) =
      (if b = a then [] else [0]) ++ (differing old new).map Nat.succ := by
  rw [differing, List.length_cons, List.range_succ_eq_map, List.filter_cons, List.filter_map]
  by_cases same : b = a
  · simp [same, differing, Function.comp_def]
  · simp [same, differing, Function.comp_def]

theorem replaced_from_cons (base : Nat) (a b : Text) (old new : List Text) :
    replacedFrom base (a :: old) (b :: new) =
      replacement base a b ++ replacedFrom (base + 1) old new := by
  rw [replacedFrom, differing_cons, List.map_append, List.map_map, replacement]
  congr 1
  · by_cases same : b = a
    · simp [same]
    · simp [same]
  · refine List.map_congr_left fun index _ => ?_
    simp [Nat.add_right_comm, Nat.add_assoc]

theorem changes_walk (base : Nat) (lines : List Text) :
    (walk path records base seen pending lines).changes =
      replacedFrom base lines (walk path records base seen pending lines).lines ++
        ((walk path records base seen pending lines).lines.drop lines.length).map .added := by
  induction lines generalizing base seen pending with
  | nil => simp [walk, additions, replacedFrom, differing]
  | cons line lines ih =>
      cases here : at? records base with
      | none =>
          have kept : replacement base line line = [] := if_pos rfl
          simp only [walk_free path here, replaced_from_cons, kept, List.nil_append, List.length_cons,
            List.drop_succ_cons]
          exact ih (base + 1)
      | some record =>
          simp only [walk_marked path here, replaced_from_cons, List.length_cons,
            List.drop_succ_cons, List.append_assoc, List.append_cancel_left_eq]
          exact ih (base + 1)

theorem redo_additions (lines : List Text) (pending : List Update) :
    (pending.map fun update => Change.added update.declaration).foldlM Change.redo? lines =
      some (lines ++ pending.map Update.declaration) := by
  induction pending generalizing lines with
  | nil => simp
  | cons update pending ih =>
      rw [List.map_cons, List.foldlM_cons, Change.redo?, Option.bind_eq_bind, Option.bind_some, ih]
      simp

-- Every replacement meets the line that it was logged for, since the log goes down the lines.
theorem redo_walk (seen : Seen) (pending : List Update) (front lines : List Text) :
    (walk path records front.length seen pending lines).changes.foldlM Change.redo? (front ++ lines) =
      some (front ++ (walk path records front.length seen pending lines).lines) := by
  induction lines generalizing front seen pending with
  | nil =>
      rw [List.append_nil]
      exact redo_additions front pending
  | cons line lines ih =>
      cases here : at? records front.length with
      | none =>
          have later := ih seen pending (front ++ [line])
          simp only [List.length_append, List.length_singleton, List.append_assoc,
            List.singleton_append] at later
          rw [walk_free path here]
          exact later
      | some record =>
          have later := ih (seen.note record.kind front.length) (remaining record.kind pending)
            (front ++ [written record pending])
          simp only [List.length_append, List.length_singleton, List.append_assoc,
            List.singleton_append] at later
          rw [walk_marked path here]
          dsimp only
          rw [replacement]
          by_cases same : written record pending = line
          · rw [same] at later
            rw [if_pos same, List.nil_append, same]
            exact later
          · have old : (front ++ line :: lines)[front.length]? = some line := by simp
            have next : (front ++ line :: lines).set front.length (written record pending) =
                front ++ written record pending :: lines := by simp
            rw [if_neg same, List.singleton_append, List.foldlM_cons, Change.redo?, if_pos old, next,
              Option.bind_eq_bind, Option.bind_some]
            exact later

def repetition? (path : Path) (records : List Record) (record : Record) : Option Warning :=
  match Record.first? records record.kind with
  | some first => if first = record then none else some ⟨path, record.kind, first.line, record.line⟩
  | none => none

theorem lookup_note (seen : Seen) (kind other : Kind) (index : Nat) :
    (seen.note kind index).lookup other =
      (seen.lookup other).or (if kind = other then some index else none) := by
  rw [Seen.note]
  by_cases same : kind = other
  · subst same
    cases held : List.lookup kind seen with
    | none => simp
    | some first => simp [held]
  · have apart : (other == kind) = false := beq_eq_false_iff_ne.mpr (Ne.symm same)
    cases List.lookup kind seen with
    | none => simp [List.lookup_cons, same, apart]
    | some first => simp [same]

theorem first_append (a b : List Record) (kind : Kind) :
    Record.first? (a ++ b) kind = (Record.first? a kind).or (Record.first? b kind) :=
  List.find?_append

theorem warning_eq_repetition (path : Path) {earlier : List Record} {record : Record}
    (noted : seen.lookup record.kind = (Record.first? earlier record.kind).map Record.line)
    (behind : ∀ one ∈ earlier, one.line < record.line) (later : List Record) :
    seen.warning path record.kind record.line =
      (repetition? path (earlier ++ record :: later) record).toList := by
  rw [Seen.warning, noted, repetition?, first_append]
  cases found : Record.first? earlier record.kind with
  | none => simp [Record.first?]
  | some first =>
      have before := behind first (List.mem_of_find?_eq_some found)
      have other : first ≠ record := by
        intro same
        rw [same] at before
        exact Nat.lt_irrefl _ before
      simp [other]

-- The table of the walk holds the line of the first record of each kind that it has met.
theorem warnings_walk (path : Path) (records : List Record) (pending : List Update)
    (lines : List Text) {earlier : List Record} {base : Nat}
    (noted : ∀ kind, seen.lookup kind = (Record.first? earlier kind).map Record.line)
    (behind : ∀ record ∈ earlier, record.line < base) :
    let later := (List.range' base lines.length).filterMap (at? records)
    (walk path records base seen pending lines).warnings =
      later.filterMap (repetition? path (earlier ++ later)) := by
  induction lines generalizing earlier base seen pending with
  | nil => rfl
  | cons line lines ih =>
      rw [List.length_cons, List.range'_succ, List.filterMap_cons]
      cases here : at? records base with
      | none =>
          simp only [walk_free path here]
          exact ih pending noted fun record among => Nat.lt_succ_of_lt (behind record among)
      | some record =>
          have line_at : record.line = base := line_of_at here
          have noted_next : ∀ kind, (seen.note record.kind base).lookup kind =
              (Record.first? (earlier ++ [record]) kind).map Record.line := by
            intro kind
            rw [lookup_note, noted, first_append, Option.map_or]
            by_cases same : record.kind = kind
            · simp [Record.first?, same, line_at]
            · simp [Record.first?, same]
          have behind_next : ∀ one ∈ earlier ++ [record], one.line < base + 1 := by
            intro one among
            rcases List.mem_append.mp among with before | last
            · exact Nat.lt_succ_of_lt (behind one before)
            · rw [List.mem_singleton.mp last, line_at]
              exact Nat.lt_succ_self base
          have rest := ih (remaining record.kind pending) noted_next behind_next
          simp only [List.append_assoc, List.singleton_append] at rest
          have now := warning_eq_repetition path (noted record.kind) (by rwa [line_at])
            ((List.range' (base + 1) lines.length).filterMap (at? records))
          rw [line_at] at now
          simp only [walk_marked path here]
          rw [rest, now, List.filterMap_cons]
          cases repetition? path _ record <;> rfl

theorem repetition_eq_some {record : Record} {warning : Warning} :
    repetition? path records record = some warning ↔
      ∃ first, Record.first? records record.kind = some first ∧ first ≠ record ∧
        warning = ⟨path, record.kind, first.line, record.line⟩ := by
  rw [repetition?]
  cases Record.first? records record.kind with
  | none => simp
  | some first =>
      by_cases same : first = record
      · simp [same]
      · simp only [if_neg same, Option.some.injEq]
        constructor
        · exact fun given => ⟨first, rfl, same, given.symm⟩
        · intro ⟨other, found, _, given⟩
          rw [given, found]

theorem warnings_of_scanned (source path : Path) (lines : List Text) (updates : List Update) :
    (ofRecords path lines (Record.scan source lines) updates).warnings =
      (Record.scan source lines).filterMap (repetition? path (Record.scan source lines)) := by
  have counts := Record.counted_scan source lines
  rw [counted, List.range_eq_range'] at counts
  have none_noted : ∀ kind, ([] : Seen).lookup kind = (Record.first? [] kind).map Record.line :=
    fun _ => rfl
  have none_behind : ∀ record ∈ ([] : List Record), record.line < 0 := fun _ among => by cases among
  have walked := warnings_walk path (Record.scan source lines) updates lines none_noted none_behind
  simp only [counts, List.nil_append] at walked
  exact walked

-- The log says all that an edit does to the lines: the places where they differ, in order, and the
-- lines behind them. The warnings say which records are not the first of their kind, in line order.
theorem log_is_difference (source path : Path) (lines : List Text) (updates : List Update) :
    let records := Record.scan source lines
    let edit := ofRecords path lines records updates
    lines.length ≤ edit.lines.length ∧
      (∃ places : List Nat, places.Pairwise (· < ·) ∧
        (∀ index, index ∈ places ↔
          index < lines.length ∧ edit.lines[index]? ≠ lines[index]?) ∧
        edit.changes =
          places.map (fun index =>
            .replaced index (lines.getD index []) (edit.lines.getD index [])) ++
            (edit.lines.drop lines.length).map .added) ∧
      edit.changes.foldlM Change.redo? lines = some edit.lines ∧
      (edit.changes = [] ↔ edit.lines = lines) ∧
      (edit.warnings.Pairwise fun a b => a.line < b.line) ∧
      ∀ warning, warning ∈ edit.warnings ↔
        ∃ record ∈ records, ∃ first, Record.first? records record.kind = some first ∧
          first ≠ record ∧ warning = ⟨path, record.kind, first.line, record.line⟩ := by
  intro records edit
  have written : edit.lines = lines.mapIdx (textAt records updates) ++
      (unused (met records lines.length) updates).map Update.declaration :=
    lines_of_records path lines records updates
  have size : lines.length ≤ edit.lines.length := by
    rw [written, List.length_append, List.length_mapIdx]
    exact Nat.le_add_right ..
  have logged : edit.changes =
      replacedFrom 0 lines edit.lines ++ (edit.lines.drop lines.length).map .added :=
    changes_walk 0 lines
  simp only [replacedFrom, Nat.zero_add] at logged
  have redone : edit.changes.foldlM Change.redo? lines = some edit.lines :=
    redo_walk [] updates [] lines
  have warned : edit.warnings = records.filterMap (repetition? path records) :=
    warnings_of_scanned source path lines updates
  refine ⟨size, ⟨differing lines edit.lines, differing_increasing lines edit.lines,
    fun _ => mem_differing, logged⟩, redone, ⟨fun silent => ?_, no_changes_of_lines⟩, ?_,
    fun warning => ?_⟩
  · rw [silent] at redone
    exact (Option.some.inj redone).symm
  · rw [warned]
    refine (Record.scan_from_increasing source 0 lines).filterMap _ ?_
    intro a b before first one second other
    obtain ⟨-, -, -, rfl⟩ := repetition_eq_some.mp one
    obtain ⟨-, -, -, rfl⟩ := repetition_eq_some.mp other
    exact before
  · rw [warned, List.mem_filterMap]
    exact exists_congr fun record => and_congr_right fun _ => repetition_eq_some

end Edit

end AssemblyVersions
