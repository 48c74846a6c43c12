import AssemblyVersions.Proofs.Saved

set_option autoImplicit false

namespace AssemblyVersions

theorem MemoryStore.writable_congr {a b : Path} (same : a.same b) (store : MemoryStore) :
    store.Writable a ↔ store.Writable b := by
  have equal := Path.same_iff.mp same
  simp [Writable, Path.same, equal]

namespace Batch

structure Wrote (updates : List Update) (old : Path → Bytes) (store : MemoryStore)
    (written : List Path) (after : MemoryStore) : Prop where
  locked : after.readOnly = store.readOnly
  log : after.writes = store.writes ++ written
  accepted : ∀ path ∈ written, store.Writable path
  replaced : ∀ asked, ∀ path ∈ written, path.same asked →
    after.read asked = .ok (newContent updates old asked)
  kept : ∀ asked, (∀ path ∈ written, ¬ path.same asked) → after.read asked = store.read asked

theorem content_congr {a b : Path} (same : a.same b) (store : MemoryStore) :
    contentOf store a = contentOf store b := by
  have reads : Store.read store a = Store.read store b := MemoryStore.read_congr same store
  rw [contentOf, contentOf, reads]

theorem wrote_of_saves {updates : List Update} {store after : MemoryStore} {paths : List Path}
    (saves : Saves updates false store (filesAt store paths) after) :
    Wrote updates (contentOf store) store (paths.filter (changes updates (contentOf store))) after := by
  have saved := saved_of_saves (MemoryStore.replaces_locked paths store.readOnly).overwrites rfl
    (fun _ listed => listed) saves
  refine ⟨saved.still, ?_, fun path among => ?_, fun asked path among same => ?_,
    fun asked => saved.kept asked trivial⟩
  · rw [log_of_writes MemoryStore.writes Prod.fst (fun _ _ _ _ => MemoryStore.logged)
      (writes_of_saves saves), List.map_map]
    exact congrArg (store.writes ++ ·) (List.map_id _)
  · obtain ⟨before, next, bytes, locked, wrote⟩ := saved.accepted path among
    have writable := (MemoryStore.write_eq_ok wrote).1
    rwa [MemoryStore.Writable, locked] at writable
  · rw [← new_content_congr (content_congr same store)]
    exact saved.replaced path among asked trivial same

theorem read_all_eq_ok {σ : Type} [Store σ] {store : σ} {paths : List Path} {files : List Scanned}
    (read : readAll store paths = .ok files) :
    files = filesAt store paths ∧
      ∀ path ∈ paths, Store.read store path = .ok (contentOf store path) := by
  induction paths generalizing files with
  | nil =>
      cases read
      exact ⟨rfl, fun _ nowhere => by cases nowhere⟩
  | cons path paths ih =>
      rw [readAll, List.mapM_cons, bind_eq_ok] at read
      obtain ⟨file, here, rest⟩ := read
      rw [bind_eq_ok] at rest
      obtain ⟨others, there, same⟩ := rest
      cases same
      obtain ⟨rfl, present⟩ := ih there
      have held : Store.read store path = .ok (contentOf store path) ∧
          file = .ofBytes path (contentOf store path) := by
        rw [readFile] at here
        split at here
        · rename_i bytes answer
          cases here
          simp [contentOf, answer]
        · cases here
      refine ⟨by rw [held.2]; rfl, fun other among => ?_⟩
      rcases List.mem_cons.mp among with rfl | among
      · exact held.1
      · exact present other among

structure StoppedAt (updates : List Update) (store after : MemoryStore) (earlier : List Path)
    (path : Path) : Prop where
  changed : changes updates (contentOf store) path
  refused : ¬ store.Writable path
  accepted : ∀ other ∈ earlier, changes updates (contentOf store) other → store.Writable other
  finished : ∀ other ∈ earlier,
    after.read other = .ok (newContent updates (contentOf store) other)
  untouched : after.read path = store.read path
  kept : ∀ other, (∀ done ∈ earlier, changes updates (contentOf store) done → ¬ done.same other) →
    after.read other = store.read other
  log : after.writes = store.writes ++ earlier.filter (changes updates (contentOf store))

theorem stopped_at {updates : List Update} {store after : MemoryStore} {earlier : List Path}
    {path : Path} (present : ∀ other ∈ earlier, store.read other = .ok (contentOf store other))
    (wrote : Wrote updates (contentOf store) store
      (earlier.filter (changes updates (contentOf store))) after)
    (changed : changes updates (contentOf store) path) (refused : ¬ after.Writable path) :
    StoppedAt updates store after earlier path := by
  have protected_first : ¬ store.Writable path := by
    rwa [MemoryStore.Writable, wrote.locked] at refused
  have accepted : ∀ other ∈ earlier, changes updates (contentOf store) other →
      store.Writable other := fun other among moved =>
    wrote.accepted other (List.mem_filter.mpr ⟨among, moved⟩)
  have kept : ∀ other, (∀ done ∈ earlier, changes updates (contentOf store) done →
      ¬ done.same other) → after.read other = store.read other := by
    intro other apart
    apply wrote.kept
    intro done among
    exact apart done (List.mem_of_mem_filter among) (List.mem_filter.mp among).2
  refine ⟨changed, protected_first, accepted, fun other among => ?_, ?_, kept, wrote.log⟩
  · by_cases moved : ∃ done ∈ earlier, changes updates (contentOf store) done ∧ done.same other
    · obtain ⟨done, listed, altered, same⟩ := moved
      exact wrote.replaced other done (List.mem_filter.mpr ⟨listed, altered⟩) same
    · have still : after.read other = store.read other :=
        kept other fun done listed altered same => moved ⟨done, listed, altered, same⟩
      have idle : changes updates (contentOf store) other = false := by
        rw [← Bool.not_eq_true]
        exact fun altered => moved ⟨other, among, altered, by simp [Path.same]⟩
      rw [still, present other among, newContent, Scanned.edited_of_unchanged other _ idle]
  · apply kept
    intro done among altered same
    exact protected_first ((MemoryStore.writable_congr same store).mp (accepted done among altered))

theorem unchanged_of_failure {σ : Type} [Store σ] {operation : Operation} {dryRun : Bool}
    {paths : List Path} {store after : σ} {error : Error}
    (failed : run operation dryRun paths store = (after, .error error))
    (early : error.isWriteFailure = false) : after = store := by
  rcases run_cases operation paths store with
    ⟨result, -, same⟩ | ⟨-, files, updates, version, -, writes⟩
  · rw [same] at failed
    cases failed
    rfl
  · rw [writes] at failed
    obtain ⟨_, _, _, -, -, unsaved⟩ := apply_all_error failed
    obtain ⟨-, -, _, -, rfl⟩ := save_error unsaved
    cases early

theorem stopped_of_refusal {operation : Operation} {dryRun : Bool} {paths : List Path}
    {store after : MemoryStore} {path : Path} {fault : Fault}
    (failed : run operation dryRun paths store = (after, .error (.writeFailure path fault))) :
    dryRun = false ∧ ∃ earlier later updates version, paths = earlier ++ path :: later ∧
      prepare operation paths store = .ok (filesAt store paths, .update updates version) ∧
      StoppedAt updates store after earlier path := by
  rcases run_cases operation paths store with
    ⟨result, writeless, same⟩ | ⟨-, files, updates, version, prepared, writes⟩
  · rw [same] at failed
    cases failed
    cases writeless.accepted _ rfl
  · rw [writes] at failed
    obtain ⟨before, file, behind, parts, saves, unsaved⟩ := apply_all_error failed
    obtain ⟨rfl, changed, reason, answer, same⟩ := save_error unsaved
    cases same
    obtain ⟨_, -, read, -⟩ := prepare_eq_ok.mp prepared
    obtain ⟨rfl, present⟩ := read_all_eq_ok read
    obtain ⟨earlier, later, rfl, rfl, here⟩ := files_at_eq_append parts
    have refused : ¬ after.Writable file.path := by
      intro writable
      obtain ⟨next, accepted, -⟩ := MemoryStore.write_writable writable (file.edited updates)
      have both : Store.write after file.path (file.edited updates) = .ok next := accepted
      rw [answer] at both
      cases both
    rw [here] at changed
    refine ⟨rfl, earlier, later, updates, version, rfl, prepared, ?_⟩
    exact stopped_at (fun other among => present other (List.mem_append_left _ among))
      (wrote_of_saves saves) changed refused

-- A failure before the writes leaves any store as it was. A refused write ends the batch at the first
-- file that needs a write and is protected; the files before it are finished.
theorem failed_batch_is_atomic :
    (∀ (σ : Type) [Store σ] (operation : Operation) (dryRun : Bool) (paths : List Path)
      (store after : σ) (error : Error),
      run operation dryRun paths store = (after, .error error) → error.isWriteFailure = false →
        after = store) ∧
    ∀ (operation : Operation) (dryRun : Bool) (paths : List Path) (store after : MemoryStore)
      (path : Path) (fault : Fault),
      run operation dryRun paths store = (after, .error (.writeFailure path fault)) →
        dryRun = false ∧ ∃ earlier later updates version, paths = earlier ++ path :: later ∧
          prepare operation paths store = .ok (filesAt store paths, .update updates version) ∧
          StoppedAt updates store after earlier path := by
  constructor
  · intro σ _ operation dryRun paths store after error failed early
    exact unchanged_of_failure failed early
  · intro operation dryRun paths store after path fault failed
    exact stopped_of_refusal failed

theorem failed_batch_at_protected_file :
    let first : Path := ⟨"A.cs".toList⟩
    let guarded : Path := ⟨"B.cs".toList⟩
    let missing : Path := ⟨"C.cs".toList⟩
    let content := "[assembly: AssemblyVersion(\"1.0.0.0\")]\n".toList.map Utf8.octet
    let store : MemoryStore :=
      { files := [(first, content), (guarded, content)], readOnly := [guarded] }
    let operation : Operation := .set { assembly := some "2.0.0.0".toList }
    (run operation false [first, guarded, missing] store =
        (store, .error (.readFailure missing .noSuchFile))) ∧
      ∃ after, run operation false [first, guarded, first] store =
          (after, .error (.writeFailure guarded .readOnly)) ∧
        ∃ earlier later updates version, [first, guarded, first] = earlier ++ guarded :: later ∧
          prepare operation [first, guarded, first] store =
            .ok (filesAt store [first, guarded, first], .update updates version) ∧
          StoppedAt updates store after earlier guarded := by
  intro first guarded missing content store operation
  obtain ⟨early, late⟩ := failed_batch_is_atomic
  have unread : (run operation false [first, guarded, missing] store).2 =
      .error (.readFailure missing .noSuchFile) := by decide +kernel
  have refused : (run operation false [first, guarded, first] store).2 =
      .error (.writeFailure guarded .readOnly) := by decide +kernel
  have kept := early MemoryStore operation false [first, guarded, missing] store _ _
    (Prod.ext rfl unread) rfl
  obtain ⟨-, stopped⟩ := late operation false [first, guarded, first] store _ guarded .readOnly
    (Prod.ext rfl refused)
  exact ⟨Prod.ext kept unread, _, Prod.ext rfl refused, stopped⟩

end Batch

end AssemblyVersions
