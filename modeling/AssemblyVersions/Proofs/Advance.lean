import AssemblyVersions.Proofs.Increment
import AssemblyVersions.Proofs.Untouched

set_option autoImplicit false

namespace AssemblyVersions

namespace Edit

variable {path : Path} {kind : Kind}

theorem values_of_additions (path : Path) (base : Nat) {pending : List Update}
    (readable : ∀ update ∈ ofKind kind pending, update.Readable) :
    (Record.ofKind kind (Record.scanFrom path base (pending.map Update.declaration))).map Record.value =
      (ofKind kind pending).map Update.value := by
  induction pending generalizing base with
  | nil => rfl
  | cons update pending ih =>
      rw [ofKind, List.filter_cons] at readable ⊢
      rw [List.map_cons, Record.scanFrom, Record.of_kind_append, List.map_append]
      split at readable
      · rename_i mine
        have same : update.kind = kind := beq_iff_eq.mp mine
        obtain ⟨record, read, kind_read, value⟩ :=
          (readable update List.mem_cons_self).read path base
        have later := ih (base + 1) fun other among =>
          readable other (List.mem_cons_of_mem update among)
        rw [if_pos mine, List.map_cons, later, read]
        simp [Record.ofKind, kind_read, same, value, ofKind]
      · rename_i apart
        have other : ¬ update.kind = kind := by simpa using apart
        rw [if_neg apart, ih (base + 1) readable, Update.declaration, records_of_form, if_neg other]
        rfl

theorem values_of_refill {records : List Record} {updates : List Update}
    (scanned : ∀ record ∈ records, record.kind = kind ∧ record.standsAlone ∧
      ∃ line, Record.ofLine? path record.line line = some record)
    (asked : ∀ update ∈ updates, update.kind = kind ∧ update.Readable) :
    (refill path records updates).map Record.value =
      (updates.take records.length).map Update.value ++
        (records.drop updates.length).map Record.value := by
  induction records generalizing updates with
  | nil => simp [refill]
  | cons record records ih =>
      obtain ⟨mine, alone, line, read⟩ := scanned record List.mem_cons_self
      have later := fun other among => scanned other (List.mem_cons_of_mem record among)
      cases updates with
      | nil =>
          have own : written record [] = record.declaration := rfl
          have rest := ih later asked
          rw [refill, own, Record.read_again read, if_pos alone, List.tail_nil, List.map_append, rest]
          simp
      | cons update updates =>
          obtain ⟨same, readable⟩ := asked update List.mem_cons_self
          obtain ⟨again, reread, -, value⟩ := readable.read path record.line
          have taken : written record (update :: updates) = update.declaration := by
            simp [written, mine, same]
          have rest := ih later fun other among => asked other (List.mem_cons_of_mem update among)
          rw [refill, taken, reread, List.tail_cons, List.map_append, rest]
          simp [value]

-- The updates of a kind replace its first values, and what is left of them is added.
theorem values_of_edit (at_path : Path) (lines : List Text) {updates : List Update}
    (readable : ∀ update ∈ ofKind kind updates, update.Readable)
    (alone : ∀ record ∈ Record.scan path lines, record.standsAlone) :
    (Record.ofKind kind
        (Record.scan path (ofRecords at_path lines (Record.scan path lines) updates).lines)).map
        Record.value =
      (ofKind kind updates).map Update.value ++
        ((Record.ofKind kind (Record.scan path lines)).drop (ofKind kind updates).length).map
          Record.value := by
  let old := Record.ofKind kind (Record.scan path lines)
  let asked := ofKind kind updates
  obtain ⟨rest, left, same⟩ : ∃ rest, ofKind kind rest = asked.drop old.length ∧
      Record.ofKind kind (Record.scan path _) = _ := records_of_edit at_path lines updates
  have scanned : ∀ record ∈ old, record.kind = kind ∧ record.standsAlone ∧
      ∃ line, Record.ofLine? path record.line line = some record := by
    intro record among
    obtain ⟨inside, mine⟩ := List.mem_filter.mp among
    obtain ⟨line, -, read⟩ := Record.of_mem_scan_from inside
    exact ⟨beq_iff_eq.mp mine, alone record inside, line, read⟩
  have own : ∀ update ∈ asked, update.kind = kind ∧ update.Readable := fun update among =>
    ⟨beq_iff_eq.mp (List.mem_filter.mp among).2, readable update among⟩
  have added : ∀ update ∈ ofKind kind rest, update.Readable := by
    intro update among
    rw [left] at among
    exact readable update (List.mem_of_mem_drop among)
  rw [same, List.map_append, values_of_refill scanned own, values_of_additions path _ added, left]
  -- Either all records take an update or all updates are taken.
  rcases Nat.le_total old.length asked.length with fewer | more
  · rw [List.drop_eq_nil_of_le fewer, List.map_nil, List.append_nil, List.append_nil,
      ← List.map_append, List.take_append_drop]
  · rw [List.take_of_length_le more, List.drop_eq_nil_of_le more, List.map_nil, List.append_nil]

end Edit

namespace Scanned

def valuesOf (file : Scanned) (kind : Kind) : List Text :=
  (Record.ofKind kind file.records).map Record.value

theorem values_of_edited (path : Path) (bytes : Bytes) {updates : List Update} {kind : Kind}
    (clear : ∀ update ∈ updates, '\n' ∉ update.value)
    (readable : ∀ update ∈ Edit.ofKind kind updates, update.Readable)
    (alone : ∀ record ∈ (ofBytes path bytes).records, record.standsAlone) :
    (ofBytes path ((ofBytes path bytes).edited updates)).valuesOf kind =
      (Edit.ofKind kind updates).map Update.value ++
        ((ofBytes path bytes).valuesOf kind).drop (Edit.ofKind kind updates).length := by
  rw [valuesOf, valuesOf, ← List.map_drop, ofBytes, scan_edited path bytes clear path]
  exact Edit.values_of_edit path (Document.ofBytes bytes).texts readable alone

end Scanned

namespace Batch

section Advance

variable {σ : Type} [Store σ] {paths : List Path} {same : Path → Path → Prop} {served : σ → Prop}
  {store after : σ}

structure Ready (paths : List Path) (store : σ) : Prop where
  single : ∀ path ∈ paths, ∀ kind,
    (Record.ofKind kind (Scanned.ofBytes path (contentOf store path)).records).length ≤ 1
  agree : Record.Agree (recordsAt store paths)
  strict : ∀ record ∈ recordsAt store paths, record.kind.isNumeric →
    (Number.ofText? record.value).isSome
  declared : ∀ kind : Kind, kind.isNumeric → ∃ record ∈ recordsAt store paths, record.kind = kind

def ReadAs (paths : List Path) (store : σ) (number : Kind → Number) : Prop :=
  ∀ record ∈ recordsAt store paths, record.kind.isNumeric →
    Number.ofText? record.value = some (number record.kind)

theorem Ready.read_as (ready : Ready paths store) : ∃ number, ReadAs paths store number := by
  have each (kind : Kind) : ∃ number, ∀ record ∈ recordsAt store paths, record.kind = kind →
      kind.isNumeric → Number.ofText? record.value = some number := by
    cases numeric : kind.isNumeric with
    | false => exact ⟨⟨[], [], [], []⟩, fun _ _ _ impossible => by cases impossible⟩
    | true =>
        obtain ⟨first, listed, named⟩ := ready.declared kind numeric
        obtain ⟨number, read⟩ := Option.isSome_iff_exists.mp
          (ready.strict first listed (by rw [named]; exact numeric))
        refine ⟨number, fun record among mine _ => ?_⟩
        rw [ready.agree record among first listed (mine.trans named.symm)]
        exact read
  choose number reads using each
  exact ⟨number, fun record among numeric => reads record.kind record among rfl numeric⟩

theorem mem_records_at {record : Record} :
    record ∈ recordsAt store paths ↔
      ∃ path ∈ paths, record ∈ (Scanned.ofBytes path (contentOf store path)).records := by
  rw [recordsAt, records, filesAt, List.flatMap_map, List.mem_flatMap]

theorem Ready.leads (ready : Ready paths store) {number : Kind → Number}
    (reads : ReadAs paths store number) {target : Kind} (numeric : target.isNumeric) :
    Record.Leads (recordsAt store paths) target (number target) := by
  obtain ⟨found, record, first, held⟩ :=
    (numbered_at store paths).leader numeric (ready.declared target numeric)
  obtain ⟨among, mine⟩ := Record.first_eq_some first
  obtain ⟨path, -, inside⟩ := mem_records_at.mp among
  have own : record.kind.isNumeric := by rw [mine]; exact numeric
  have read := reads record among own
  rw [mine] at read
  exact ⟨record, first, Record.number_of_value inside own (Number.of_text_some read).1⟩

theorem Ready.stands_alone (ready : Ready paths store) {path : Path} (listed : path ∈ paths) :
    ∀ record ∈ (Scanned.ofBytes path (contentOf store path)).records, record.standsAlone := by
  intro record inside
  cases numeric : record.kind.isNumeric with
  | false => simp [Record.standsAlone, numeric]
  | true =>
      have among := mem_records_at.mpr ⟨path, listed, inside⟩
      obtain ⟨number, read⟩ := Option.isSome_iff_exists.mp (ready.strict record among numeric)
      simp [Record.standsAlone, (Number.of_text_some read).1]

def Replaced (paths : List Path) (store after : σ) (target : Kind) (text : Text) : Prop :=
  ∀ path ∈ paths, ∀ kind,
    (Scanned.ofBytes path (contentOf after path)).valuesOf kind =
      if kind = target then [text]
      else (Scanned.ofBytes path (contentOf store path)).valuesOf kind

theorem mem_values_at {kind : Kind} {value : Text} :
    (∃ record ∈ recordsAt store paths, record.kind = kind ∧ record.value = value) ↔
      ∃ path ∈ paths, value ∈ (Scanned.ofBytes path (contentOf store path)).valuesOf kind := by
  simp only [mem_records_at, Scanned.valuesOf, Record.ofKind, List.mem_map, List.mem_filter,
    beq_iff_eq]
  constructor
  · rintro ⟨record, ⟨path, listed, inside⟩, mine, held⟩
    exact ⟨path, listed, record, ⟨inside, mine⟩, held⟩
  · rintro ⟨path, listed, record, ⟨inside, mine⟩, held⟩
    exact ⟨record, ⟨path, listed, inside⟩, mine, held⟩

namespace Replaced

variable {target : Kind} {text : Text}

theorem of_record (replaced : Replaced paths store after target text) {record : Record}
    (among : record ∈ recordsAt after paths) :
    (record.kind = target ∧ record.value = text) ∨
      record.kind ≠ target ∧
        ∃ old ∈ recordsAt store paths, old.kind = record.kind ∧ old.value = record.value := by
  obtain ⟨path, listed, held⟩ := mem_values_at.mp ⟨record, among, rfl, rfl⟩
  rw [replaced path listed] at held
  split at held
  · rename_i mine
    exact Or.inl ⟨mine, List.mem_singleton.mp held⟩
  · rename_i other
    exact Or.inr ⟨other, mem_values_at.mpr ⟨path, listed, held⟩⟩

theorem agree (replaced : Replaced paths store after target text)
    (before : Record.Agree (recordsAt store paths)) : Record.Agree (recordsAt after paths) := by
  intro a first b second alike
  rcases replaced.of_record first with ⟨mine, held⟩ | ⟨other, old, listed, kind_old, value_old⟩
  · rcases replaced.of_record second with ⟨-, kept⟩ | ⟨apart, -⟩
    · rw [held, kept]
    · exact absurd (alike.symm.trans mine) apart
  · rcases replaced.of_record second with ⟨mine, -⟩ | ⟨-, more, among, kind_more, value_more⟩
    · exact absurd (alike.trans mine) other
    · rw [← value_old, ← value_more]
      exact before old listed more among (by rw [kind_old, kind_more, alike])

theorem read_as (replaced : Replaced paths store after target text) {number : Kind → Number}
    (reads : ReadAs paths store number) {next : Number} (read : Number.ofText? text = some next) :
    ReadAs paths after (Function.update number target next) := by
  intro record among numeric
  rcases replaced.of_record among with ⟨mine, held⟩ | ⟨other, old, listed, kind_old, value_old⟩
  · rw [mine, held, Function.update_self]
    exact read
  · rw [Function.update_of_ne other, ← kind_old, ← value_old]
    exact reads old listed (by rw [kind_old]; exact numeric)

theorem ready (replaced : Replaced paths store after target text) (before : Ready paths store)
    {next : Number} (read : Number.ofText? text = some next) : Ready paths after where
  single path listed kind := by
    have size := congrArg List.length (replaced path listed kind)
    rw [Scanned.valuesOf, List.length_map] at size
    rw [size]
    split
    · exact le_refl 1
    · rw [Scanned.valuesOf, List.length_map]
      exact before.single path listed kind
  agree := replaced.agree before.agree
  strict := by
    obtain ⟨number, reads⟩ := before.read_as
    intro record among numeric
    rw [replaced.read_as reads read record among numeric]
    rfl
  declared kind numeric := by
    obtain ⟨record, among, mine⟩ := before.declared kind numeric
    obtain ⟨path, listed, held⟩ := mem_values_at.mp ⟨record, among, mine, rfl⟩
    have now := replaced path listed kind
    split at now
    · obtain ⟨again, there, same_kind, -⟩ :=
        mem_values_at.mpr ⟨path, listed, now.symm ▸ List.mem_singleton_self text⟩
      exact ⟨again, there, same_kind⟩
    · obtain ⟨again, there, same_kind, -⟩ := mem_values_at.mpr ⟨path, listed, now.symm ▸ held⟩
      exact ⟨again, there, same_kind⟩

end Replaced

theorem Ready.replaced (ready : Ready paths store) {update : Update}
    (fits : (Number.ofText? update.value).isSome)
    (contents : ∀ path ∈ paths,
      Store.read after path = .ok (newContent [update] (contentOf store) path)) :
    Replaced paths store after update.kind update.value := by
  obtain ⟨readable, feedless⟩ := Update.readable_of_number fits
  intro path listed kind
  have content : contentOf after path =
      (Scanned.ofBytes path (contentOf store path)).edited [update] := by
    rw [contentOf, contents path listed]
    rfl
  have every : ∀ asked ∈ Edit.ofKind kind [update], asked.Readable := by
    intro asked among
    rw [List.mem_singleton.mp (List.mem_of_mem_filter among)]
    exact readable
  rw [content, Scanned.values_of_edited path (contentOf store path) (by simpa using feedless) every
    (ready.stands_alone listed)]
  by_cases mine : kind = update.kind
  · have only : Edit.ofKind kind [update] = [update] := by simp [Edit.ofKind, mine]
    have few : ((Scanned.ofBytes path (contentOf store path)).valuesOf kind).length ≤ 1 := by
      rw [Scanned.valuesOf, List.length_map]
      exact ready.single path listed kind
    rw [if_pos mine, only, List.length_singleton, List.drop_eq_nil_of_le few]
    rfl
  · have none_asked : Edit.ofKind kind [update] = [] := by simp [Edit.ofKind, Ne.symm mine]
    rw [if_neg mine, none_asked]
    rfl

-- An increment whose part can grow succeeds, and the files are ready for another one.
theorem run_advanced (serves : Serves paths same served) (healthy : served store)
    (ready : Ready paths store) {number : Kind → Number} (reads : ReadAs paths store number)
    {target : Kind} (numeric : target.isNumeric) {part : Part} {n : Nat}
    (grows : (number target).Grows part n) :
    ∃ after outcome, run (.increment target part) false paths store = (after, .ok outcome) ∧
      served after ∧ Ready paths after ∧
        ReadAs paths after (Function.update number target ((number target).grown n part)) := by
  have leads := ready.leads reads numeric
  obtain ⟨record, among, mine⟩ := ready.declared target numeric
  have read := reads record among (by rw [mine]; exact numeric)
  rw [mine] at read
  obtain ⟨-, plain, complete⟩ := Number.of_text_eq_some.mp read
  obtain ⟨source, plan⟩ := Plan.increment_leading numeric part ready.agree leads
  rw [Number.increment_grown plain grows] at plan
  obtain ⟨after, outcome, ran, -, still, contents⟩ := run_planned serves healthy plan
  have next : Number.ofText? ((number target).grown n part).toText =
      some ((number target).grown n part) :=
    Number.of_text_eq_some.mpr ⟨rfl, plain.grown n part, complete.grown n part⟩
  have fits : (Number.ofText? ((number target).grown n part).toText).isSome := by
    rw [next]
    rfl
  have replaced : Replaced paths store after target _ := ready.replaced fits contents
  exact ⟨after, outcome, ran, still, replaced.ready ready next, replaced.read_as reads next⟩

end Advance

end Batch

end AssemblyVersions
