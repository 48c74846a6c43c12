import AssemblyVersions.Proofs.Difference
import AssemblyVersions.Proofs.Refusal

set_option autoImplicit false

namespace AssemblyVersions

theorem Replaces.mono {σ : Type} [Store σ] {paths : List Path} {same : Path → Path → Prop}
    {sound : σ → Prop} (replaces : Replaces paths same sound) {listed : List Path}
    (within : ∀ path ∈ listed, path ∈ paths) : Replaces listed same sound where
  itself path among := replaces.itself path (within path among)
  shared store healthy path among := replaces.shared store healthy path (within path among)
  written store next healthy path among := replaces.written store next healthy path (within path among)

namespace Batch

section FileMap

variable {σ : Type} [Store σ] {paths : List Path} {same : Path → Path → Prop} {sound : σ → Prop}
  {store after : σ} {updates : List Update}

structure Mapped (same : Path → Path → Prop) (updates : List Update) (store : σ) (listed : List Path)
    (after : σ) : Prop where
  replaced : ∀ path ∈ listed, ∀ asked, same path asked →
    Store.read after asked = .ok (newContent updates (contentOf store) path)
  kept : ∀ asked, (∀ path ∈ listed, ¬ same path asked) →
    Store.read after asked = Store.read store asked

def Named (same : Path → Path → Prop) (listed : List Path) (asked : Path) : Prop :=
  ∃ path ∈ listed, same path asked

theorem changes_eq (updates : List Update) (old : Path → Bytes) (path : Path) :
    changes updates old path = (newContent updates old path != old path) := by
  rw [Bool.eq_iff_iff, bne_iff_ne]
  exact Scanned.is_changed_iff path (old path) updates

theorem task_of_update {operation : Operation} (updating : operation.isUpdate)
    {assigned : List Update} {found : List Record} {job : Task}
    (planned : task operation assigned found = .ok job) :
    ∃ updates version, job = .update updates version := by
  cases operation with
  | set assignment =>
      cases planned
      exact ⟨_, _, rfl⟩
  | increment target part =>
      rw [task] at planned
      cases plan : Plan.increment found target part with
      | error error =>
          rw [plan] at planned
          cases planned
      | ok plan_found =>
          rw [plan] at planned
          cases planned
          exact ⟨_, _, rfl⟩
  | _ => cases updating

theorem saves_of_run {operation : Operation} (updating : operation.isUpdate) {outcome : Outcome}
    (ran : run operation false paths store = (after, .ok outcome)) :
    ∃ updates version,
      prepare operation paths store = .ok (filesAt store paths, .update updates version) ∧
      (∀ path ∈ paths, Store.read store path = .ok (contentOf store path)) ∧
      Saves updates false store (filesAt store paths) after ∧
      outcome = reported updates false (filesAt store paths) { version } := by
  cases prepared : prepare operation paths store with
  | error error =>
      rw [run, prepared] at ran
      cases ran
  | ok ready =>
      obtain ⟨files, job⟩ := ready
      obtain ⟨assigned, -, read, planned⟩ := prepare_eq_ok.mp prepared
      obtain ⟨rfl, present⟩ := read_all_eq_ok read
      obtain ⟨updates, version, rfl⟩ := task_of_update updating planned
      rw [run, prepared] at ran
      rcases apply_all_cases updates false (filesAt store paths) { version } store with
        ⟨last, saves, ended⟩ | ⟨_, _, _, _, _, _, _, _, stopped⟩
      · have same_end := ended.symm.trans ran
        cases same_end
        exact ⟨updates, version, rfl, present, saves, rfl⟩
      · have no_end := stopped.symm.trans ran
        cases no_end

theorem mapped_of_saves (replaces : Replaces paths same sound) (healthy : sound store)
    (present : ∀ path ∈ paths, Store.read store path = .ok (contentOf store path))
    (saves : Saves updates false store (filesAt store paths) after) :
    sound after ∧ Mapped same updates store paths after := by
  have saved := saved_of_saves replaces.overwrites healthy (fun _ listed => listed) saves
  refine ⟨saved.still, fun path listed asked linked => ?_, fun asked apart => ?_⟩
  · exact read_of_saved replaces.overwrites healthy present saved listed trivial linked
  · exact saved.kept asked trivial fun done among => apart done (List.mem_of_mem_filter among)

theorem files_of_reported (old : Path → Bytes) (paths : List Path) (version : Option Text) :
    (reported updates false (paths.map fun path => .ofBytes path (old path)) { version }).files =
      (paths.filter (changes updates old)).map fun path =>
        ⟨path, ((Scanned.ofBytes path (old path)).edit updates).changes, true⟩ := by
  simp only [reported, List.nil_append]
  induction paths with
  | nil => rfl
  | cons path paths ih =>
      rw [List.map_cons, List.flatMap_cons, ih, changesOf]
      cases changed : changes updates old path with
      | false =>
          rw [List.filter_cons_of_neg (by simp [changed])]
          rw [changes] at changed
          simp [changed]
      | true =>
          rw [List.filter_cons_of_pos changed]
          rw [changes] at changed
          simp only [changed, if_true]
          rfl

theorem set_mapped (replaces : Replaces paths same sound)
    (writable : ∀ store, sound store → ∀ path ∈ paths, ∀ bytes, ∃ next,
      Store.write store path bytes = .ok next)
    (healthy : sound store) (readable : ∀ path ∈ paths, ∃ bytes, Store.read store path = .ok bytes)
    {assignment : Assignment} (accepted : Plan.set assignment = .ok updates) :
    ∃ final result, run (.set assignment) false paths store = (final, .ok result) ∧ sound final ∧
      Mapped same updates store paths final := by
  obtain ⟨final, result, ran, -⟩ := run_set (replaces.serves writable) ⟨healthy, readable⟩ accepted
  obtain ⟨planned, version, prepared, present, saves, -⟩ := saves_of_run rfl ran
  have same_updates : planned = updates := by
    obtain ⟨assigned, checked, -, job⟩ := prepare_eq_ok.mp prepared
    cases job
    exact Except.ok.inj (checked.symm.trans accepted)
  subst same_updates
  exact ⟨final, result, ran, mapped_of_saves replaces healthy present saves⟩

theorem Mapped.congr {first second : List Path} {one two : σ}
    (left : Mapped same updates store first one) (right : Mapped same updates store second two)
    (within : ∀ path ∈ second, path ∈ first)
    (names : ∀ asked, Named same second asked ↔ Named same first asked) (asked : Path) :
    Store.read two asked = Store.read one asked := by
  by_cases named : Named same second asked
  · obtain ⟨path, listed, linked⟩ := named
    rw [right.replaced path listed asked linked, left.replaced path (within path listed) asked linked]
  · have unnamed : ¬ Named same first asked := mt (names asked).mpr named
    rw [right.kept asked fun path listed linked => named ⟨path, listed, linked⟩,
      left.kept asked fun path listed linked => unnamed ⟨path, listed, linked⟩]

-- Two batches on files that they do not share are one batch.
theorem Mapped.append {first second : List Path} {middle final : σ}
    (itself : ∀ path ∈ second, same path path)
    (left : Mapped same updates store first middle)
    (right : Mapped same updates middle second final)
    (apart : ∀ asked, Named same first asked → ¬ Named same second asked) :
    Mapped same updates store (first ++ second) final := by
  refine ⟨fun path listed asked linked => ?_, fun asked outside => ?_⟩
  · rcases List.mem_append.mp listed with early | late
    · have elsewhere := apart asked ⟨path, early, linked⟩
      rw [right.kept asked fun other among link => elsewhere ⟨other, among, link⟩,
        left.replaced path early asked linked]
    · have unwritten : contentOf middle path = contentOf store path := by
        rw [contentOf, contentOf, left.kept path fun other among link =>
          apart path ⟨other, among, link⟩ ⟨path, late, itself path late⟩]
      rw [right.replaced path late asked linked, newContent, newContent, unwritten]
  · rw [right.kept asked fun path late => outside path (List.mem_append_right first late),
      left.kept asked fun path early => outside path (List.mem_append_left second early)]

-- Each listed file ends with its own edit, and what is reported and written are the listed entries whose
-- content differs. A set ends in the same contents on every list that names the same files, also in two
-- parts.
theorem batch_is_file_map (replaces : Replaces paths same sound)
    (writable : ∀ store, sound store → ∀ path ∈ paths, ∀ bytes, ∃ next,
      Store.write store path bytes = .ok next)
    {log : σ → List Path}
    (logged : ∀ (store next : σ) (path : Path) (bytes : Bytes),
      Store.write store path bytes = .ok next → log next = log store ++ [path])
    (healthy : sound store) {operation : Operation} (updating : operation.isUpdate)
    {outcome : Outcome} (ran : run operation false paths store = (after, .ok outcome)) :
    ∃ updates version,
      prepare operation paths store = .ok (filesAt store paths, .update updates version) ∧
      let old := contentOf store
      let moved := paths.filter fun path => newContent updates old path != old path
      Mapped same updates store paths after ∧
      outcome.files = moved.map (fun path =>
        ⟨path, ((Scanned.ofBytes path (old path)).edit updates).changes, true⟩) ∧
      log after = log store ++ moved ∧
      ∀ assignment, operation = .set assignment →
        (∀ listed, (∀ path ∈ listed, path ∈ paths) →
          (∀ asked, Named same listed asked ↔ Named same paths asked) →
          ∃ final result, run operation false listed store = (final, .ok result) ∧
            ∀ asked, Store.read final asked = Store.read after asked) ∧
        ∀ first second, (∀ path ∈ first ++ second, path ∈ paths) →
          (∀ asked, Named same (first ++ second) asked ↔ Named same paths asked) →
          (∀ asked, Named same first asked → ¬ Named same second asked) →
          ∃ middle one final two, run operation false first store = (middle, .ok one) ∧
            run operation false second middle = (final, .ok two) ∧
            ∀ asked, Store.read final asked = Store.read after asked := by
  obtain ⟨updates, version, prepared, present, saves, rfl⟩ := saves_of_run updating ran
  obtain ⟨-, mapped⟩ := mapped_of_saves replaces healthy present saves
  have differs : changes updates (contentOf store) =
      fun path => newContent updates (contentOf store) path != contentOf store path :=
    funext (changes_eq updates (contentOf store))
  refine ⟨updates, version, prepared, mapped, ?_, ?_, ?_⟩
  · rw [filesAt, files_of_reported, differs]
  · rw [log_of_writes log Prod.fst logged (writes_of_saves saves), List.map_map, differs]
    exact congrArg (log store ++ ·) (List.map_id _)
  · rintro assignment rfl
    have accepted : Plan.set assignment = .ok updates := by
      obtain ⟨assigned, checked, -, job⟩ := prepare_eq_ok.mp prepared
      cases job
      exact checked
    have readable : ∀ path ∈ paths, ∃ bytes, Store.read store path = .ok bytes :=
      fun path listed => ⟨_, present path listed⟩
    have again (listed : List Path) (within : ∀ path ∈ listed, path ∈ paths) {start : σ}
        (fine : sound start) (held : ∀ path ∈ listed, ∃ bytes, Store.read start path = .ok bytes) :
        ∃ final result, run (.set assignment) false listed start = (final, .ok result) ∧
          sound final ∧ Mapped same updates start listed final :=
      set_mapped (replaces.mono within)
        (fun store fine path among => writable store fine path (within path among)) fine held accepted
    refine ⟨fun listed within names => ?_, fun first second within names apart => ?_⟩
    · obtain ⟨final, result, ran_again, -, mapped_again⟩ :=
        again listed within healthy fun path among => readable path (within path among)
      exact ⟨final, result, ran_again, mapped.congr mapped_again within names⟩
    · have early (path : Path) (among : path ∈ first) : path ∈ paths :=
        within path (List.mem_append_left second among)
      have late (path : Path) (among : path ∈ second) : path ∈ paths :=
        within path (List.mem_append_right first among)
      obtain ⟨middle, one, ran_one, fine, mapped_one⟩ :=
        again first early healthy fun path among => readable path (early path among)
      have itself : ∀ path ∈ second, same path path := fun path among =>
        replaces.itself path (late path among)
      have untouched : ∀ path ∈ second, Store.read middle path = Store.read store path := by
        intro path among
        exact mapped_one.kept path fun other listed linked =>
          apart path ⟨other, listed, linked⟩ ⟨path, among, itself path among⟩
      obtain ⟨final, two, ran_two, -, mapped_two⟩ := again second late fine fun path among => by
        rw [untouched path among]
        exact readable path (late path among)
      refine ⟨middle, one, final, two, ran_one, ran_two, ?_⟩
      exact mapped.congr (mapped_one.append itself mapped_two apart) within names

end FileMap

theorem batch_of_repeated_file :
    let first : Path := ⟨"A.cs".toList⟩
    let second : Path := ⟨"B.cs".toList⟩
    let store : MemoryStore :=
      { files := [(first, "[assembly: AssemblyVersion(\"1.0.0.0\")]\r\n".toList.map Utf8.octet),
                  (second, "[assembly: AssemblyVersion(\"2.0.0.0\")]\n".toList.map Utf8.octet)] }
    let operation : Operation := .set { assembly := some "2.0.0.0".toList }
    ∃ after outcome, run operation false [first, second, first] store = (after, .ok outcome) ∧
      outcome.files.map FileChanges.path = [first, first] ∧ after.writes = [first, first] ∧
      ∃ final result, run operation false [second, first] store = (final, .ok result) ∧
        ∀ asked, Store.read final asked = Store.read after asked := by
  intro first second store operation
  have succeeds : (run operation false [first, second, first] store).2.toOption.isSome := by
    decide +kernel
  cases ended : (run operation false [first, second, first] store).2 with
  | error error =>
      rw [ended] at succeeds
      cases succeeds
  | ok outcome =>
      have ran : run operation false [first, second, first] store =
          ((run operation false [first, second, first] store).1, .ok outcome) := Prod.ext rfl ended
      obtain ⟨updates, version, prepared, -, files, log, sets⟩ :=
        batch_is_file_map (MemoryStore.replaces_locked [first, second, first] [])
          (fun store sound path _ => MemoryStore.writable (by rw [MemoryStore.Writable, sound]; rfl))
          (fun _ _ _ _ => MemoryStore.logged) rfl rfl ran
      have moved : ([first, second, first].filter fun path =>
          newContent updates (contentOf store) path != contentOf store path) = [first, first] := by
        obtain ⟨assigned, checked, -, planned⟩ := prepare_eq_ok.mp prepared
        cases planned
        have accepted : Plan.set { assembly := some "2.0.0.0".toList } =
            .ok [⟨.assembly, "2.0.0.0".toList⟩] := by decide +kernel
        obtain rfl := Except.ok.inj (checked.symm.trans accepted)
        decide +kernel
      obtain ⟨other_lists, -⟩ := sets _ rfl
      refine ⟨_, outcome, ran, ?_, ?_, other_lists [second, first] (by simp) fun asked => ?_⟩
      · rw [files, moved]
        rfl
      · rw [log, moved]
        rfl
      · simp only [Named, List.mem_cons, List.not_mem_nil, or_false]
        grind

end Batch

end AssemblyVersions
