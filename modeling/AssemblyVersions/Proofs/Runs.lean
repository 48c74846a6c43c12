import AssemblyVersions.Batch
import AssemblyVersions.Proofs.Utf8
import Mathlib

set_option autoImplicit false

namespace AssemblyVersions

def Outcome.unwritten (outcome : Outcome) : Outcome :=
  { outcome with files := outcome.files.map fun file => { file with written := false } }

def Error.isWriteFailure : Error → Bool
  | .writeFailure .. => true
  | _ => false

section Except

variable {α β : Type}

@[simp] theorem bind_eq_ok {first : Except Error α} {next : α → Except Error β} {result : β} :
    (first >>= next) = .ok result ↔ ∃ value, first = .ok value ∧ next value = .ok result := by
  cases first with
  | error error => simp [bind, Except.bind]
  | ok value => simp [bind, Except.bind]

@[simp] theorem bind_eq_error {first : Except Error α} {next : α → Except Error β} {error : Error} :
    (first >>= next) = .error error ↔
      first = .error error ∨ ∃ value, first = .ok value ∧ next value = .error error := by
  cases first with
  | error other => simp [bind, Except.bind]
  | ok value => simp [bind, Except.bind]

theorem map_eq_error {convert : α → Except Error β} {items : List α} {error : Error}
    (failed : items.mapM convert = .error error) : ∃ item ∈ items, convert item = .error error := by
  induction items with
  | nil => cases failed
  | cons item items ih =>
      rw [List.mapM_cons, bind_eq_error] at failed
      rcases failed with here | ⟨value, -, later⟩
      · exact ⟨item, List.mem_cons_self, here⟩
      · rw [bind_eq_error] at later
        rcases later with there | ⟨values, -, impossible⟩
        · obtain ⟨other, among, refused⟩ := ih there
          exact ⟨other, List.mem_cons_of_mem item among, refused⟩
        · cases impossible

end Except

theorem Plan.increment_error {records : List Record} {target : Kind} {part : Part} {error : Error}
    (failed : Plan.increment records target part = .error error) : error.isWriteFailure = false := by
  rw [Plan.increment] at failed
  split at failed
  · cases failed
    rfl
  · dsimp only at failed
    split at failed
    · cases failed
      rfl
    · split at failed
      · cases failed
        rfl
      · split at failed
        · cases failed
          rfl
        · rename_i number _
          rw [Number.increment] at failed
          split at failed
          · cases failed
          · cases failed
            rfl

namespace Batch

section Runs

variable {σ : Type} [Store σ] {updates : List Update} {dryRun : Bool} {store after : σ}

def reported (updates : List Update) (dryRun : Bool) (files : List Scanned) (outcome : Outcome) :
    Outcome :=
  { outcome with
    files := outcome.files ++ files.flatMap fun file => changesOf file updates dryRun
    warnings := outcome.warnings ++ files.flatMap fun file => (file.edit updates).warnings }

theorem reported_cons (file : Scanned) (files : List Scanned) (outcome : Outcome) :
    reported updates dryRun files (reported updates dryRun [file] outcome) =
      reported updates dryRun (file :: files) outcome := by
  simp [reported]

theorem unwritten_reported (files : List Scanned) (version : Option Text) :
    (reported updates false files { version }).unwritten =
      reported updates true files { version } := by
  have each (file : Scanned) : (changesOf file updates false).map
      (fun done => { done with written := false }) = changesOf file updates true := by
    rw [changesOf, changesOf]
    split <;> rfl
  simp only [reported, Outcome.unwritten, List.nil_append, List.map_flatMap, each]

theorem written_reported (files : List Scanned) (version : Option Text) :
    ∀ file ∈ (reported updates false files { version }).files, file.written = true := by
  intro file among
  obtain ⟨scanned, -, here⟩ := List.mem_flatMap.mp among
  rw [changesOf] at here
  split at here
  · rw [List.mem_singleton.mp here]
    rfl
  · cases here

inductive Saves (updates : List Update) (dryRun : Bool) : σ → List Scanned → σ → Prop where
  | done (store : σ) : Saves updates dryRun store [] store
  | more {store next after : σ} {file : Scanned} {files : List Scanned}
      (saved : save store file updates dryRun = .ok next)
      (later : Saves updates dryRun next files after) : Saves updates dryRun store (file :: files) after

@[simp] theorem save_dry (store : σ) (file : Scanned) (updates : List Update) :
    save store file updates true = .ok store := by
  simp [save]

theorem saves_dry {files : List Scanned} (saves : Saves updates true store files after) :
    after = store := by
  induction saves with
  | done => rfl
  | more saved _ ih =>
      rw [save_dry] at saved
      cases saved
      exact ih

theorem save_error {file : Scanned} {error : Error}
    (refused : save store file updates dryRun = .error error) :
    dryRun = false ∧ (file.edit updates).isChanged ∧ ∃ fault,
      Store.write store file.path (file.edited updates) = .error fault ∧
        error = .writeFailure file.path fault := by
  rw [save] at refused
  split at refused
  · rename_i asked
    rw [Bool.and_eq_true, Bool.not_eq_true'] at asked
    split at refused
    · cases refused
    · rename_i fault answer
      cases refused
      exact ⟨asked.2, asked.1, fault, answer, rfl⟩
  · cases refused

theorem apply_all_cases (updates : List Update) (dryRun : Bool) (files : List Scanned)
    (outcome : Outcome) (store : σ) :
    (∃ after, Saves updates dryRun store files after ∧
      applyAll updates dryRun files outcome store =
        (after, .ok (reported updates dryRun files outcome))) ∨
    ∃ earlier file later after error, files = earlier ++ file :: later ∧
      Saves updates dryRun store earlier after ∧ save after file updates dryRun = .error error ∧
      applyAll updates dryRun files outcome store = (after, .error error) := by
  induction files generalizing outcome store with
  | nil =>
      have nothing : reported updates dryRun [] outcome = outcome := by simp [reported]
      refine Or.inl ⟨store, .done store, ?_⟩
      rw [nothing, applyAll]
  | cons file files ih =>
      cases saved : save store file updates dryRun with
      | error error =>
          refine Or.inr ⟨[], file, files, store, error, rfl, .done store, saved, ?_⟩
          rw [applyAll, saved]
      | ok next =>
          have step : applyAll updates dryRun (file :: files) outcome store =
              applyAll updates dryRun files (reported updates dryRun [file] outcome) next := by
            rw [applyAll, saved]
            simp [reported]
          rw [step]
          rcases ih (reported updates dryRun [file] outcome) next with
            ⟨after, saves, ended⟩ | ⟨earlier, stopped, later, after, error, same, saves, refused, ended⟩
          · refine Or.inl ⟨after, .more saved saves, ?_⟩
            rw [ended, reported_cons]
          · exact Or.inr ⟨file :: earlier, stopped, later, after, error, by rw [same]; rfl,
              .more saved saves, refused, ended⟩

theorem apply_all_error {files : List Scanned} {outcome : Outcome} {error : Error}
    (failed : applyAll updates dryRun files outcome store = (after, .error error)) :
    ∃ earlier file later, files = earlier ++ file :: later ∧
      Saves updates dryRun store earlier after ∧ save after file updates dryRun = .error error := by
  rcases apply_all_cases updates dryRun files outcome store with
    ⟨last, -, ended⟩ | ⟨earlier, file, later, last, reason, same, saves, refused, ended⟩
  · rw [ended] at failed
    cases failed
  · rw [ended] at failed
    cases failed
    exact ⟨earlier, file, later, same, saves, refused⟩

theorem task_update {operation : Operation} {assigned : List Update} {records : List Record}
    {version : Option Text}
    (planned : task operation assigned records = .ok (.update updates version)) :
    operation.isUpdate := by
  cases operation with
  | set assignment => rfl
  | increment target part => rfl
  | report => cases planned
  | get kind =>
      rw [task] at planned
      split at planned <;> cases planned

theorem task_answer {operation : Operation} {assigned : List Update} {records : List Record}
    {outcome : Outcome} (answered : task operation assigned records = .ok (.answer outcome)) :
    outcome.files = [] := by
  cases operation with
  | set assignment => cases answered
  | increment target part =>
      rw [task] at answered
      cases planned : Plan.increment records target part with
      | error error =>
          rw [planned] at answered
          cases answered
      | ok plan =>
          rw [planned] at answered
          cases answered
  | report =>
      cases answered
      rfl
  | get kind =>
      rw [task] at answered
      split at answered
      · cases answered
        rfl
      · cases answered

theorem task_error {operation : Operation} {assigned : List Update} {records : List Record}
    {error : Error} (failed : task operation assigned records = .error error) :
    error.isWriteFailure = false := by
  cases operation with
  | set assignment => cases failed
  | increment target part =>
      rw [task] at failed
      cases planned : Plan.increment records target part with
      | error reason =>
          rw [planned] at failed
          cases failed
          exact Plan.increment_error planned
      | ok plan =>
          rw [planned] at failed
          cases failed
  | report => cases failed
  | get kind =>
      rw [task] at failed
      split at failed
      · cases failed
      · cases failed
        rfl

theorem prepare_eq_ok {operation : Operation} {paths : List Path} {files : List Scanned} {job : Task} :
    prepare operation paths store = .ok (files, job) ↔
      ∃ updates, assigned operation = .ok updates ∧ readAll store paths = .ok files ∧
        task operation updates (records files) = .ok job := by
  simp only [prepare, bind_eq_ok, Except.ok.injEq, Prod.mk.injEq]
  constructor
  · rintro ⟨updates, checked, _, read, _, planned, rfl, rfl⟩
    exact ⟨updates, checked, read, planned⟩
  · rintro ⟨updates, checked, read, planned⟩
    exact ⟨updates, checked, _, read, _, planned, rfl, rfl⟩

theorem prepare_error {operation : Operation} {paths : List Path} {error : Error}
    (failed : prepare operation paths store = .error error) : error.isWriteFailure = false := by
  simp only [prepare, bind_eq_error] at failed
  rcases failed with checked | ⟨updates, -, read | ⟨files, -, planned | ⟨job, -, impossible⟩⟩⟩
  · cases operation with
    | set assignment =>
        obtain ⟨update, -, refused⟩ := map_eq_error checked
        rw [Plan.check] at refused
        split at refused
        · cases refused
          rfl
        · cases refused
    | _ => cases checked
  · obtain ⟨path, -, refused⟩ := map_eq_error read
    rw [readFile] at refused
    split at refused
    · cases refused
    · cases refused
      rfl
  · exact task_error planned
  · cases impossible

structure Writeless (result : Except Error Outcome) : Prop where
  accepted : ∀ error, result = .error error → error.isWriteFailure = false
  unchanged : ∀ outcome, result = .ok outcome → outcome.files = []

theorem run_cases (operation : Operation) (paths : List Path) (store : σ) :
    (∃ result, Writeless result ∧
      ∀ dryRun, run operation dryRun paths store = (store, result)) ∨
    (operation.isUpdate ∧ ∃ files updates version,
      prepare operation paths store = .ok (files, .update updates version) ∧
      ∀ dryRun, run operation dryRun paths store = applyAll updates dryRun files { version } store) := by
  cases prepared : prepare operation paths store with
  | error error =>
      refine Or.inl ⟨.error error, ⟨fun other same => ?_, fun _ impossible => ?_⟩, fun dryRun => ?_⟩
      · cases same
        exact prepare_error prepared
      · cases impossible
      · rw [run, prepared]
  | ok ready =>
      obtain ⟨files, job⟩ := ready
      obtain ⟨_, -, -, planned⟩ := prepare_eq_ok.mp prepared
      cases job with
      | answer outcome =>
          refine Or.inl ⟨.ok outcome, ⟨fun _ impossible => ?_, fun other same => ?_⟩, fun dryRun => ?_⟩
          · cases impossible
          · cases same
            exact task_answer planned
          · rw [run, prepared]
      | update updates version =>
          refine Or.inr ⟨task_update planned, files, updates, version, rfl, fun dryRun => ?_⟩
          rw [run, prepared]

theorem run_dry {operation : Operation} {paths : List Path} {files : List Scanned}
    {version : Option Text}
    (writes : run operation true paths store = applyAll updates true files { version } store) :
    run operation true paths store = (store, .ok (reported updates true files { version })) := by
  rw [writes]
  rcases apply_all_cases updates true files { version } store with
    ⟨after, saves, ended⟩ | ⟨-, file, -, after, error, -, -, refused, -⟩
  · rw [ended, saves_dry saves]
  · rw [save_dry] at refused
    cases refused

theorem apply_all_real {files : List Scanned} {version : Option Text}
    {result : Except Error Outcome}
    (ended : applyAll updates false files { version } store = (after, result)) :
    result = .ok (reported updates false files { version }) ∨
      ∃ error, result = .error error ∧ error.isWriteFailure := by
  rcases apply_all_cases updates false files { version } store with
    ⟨last, -, done⟩ | ⟨earlier, file, later, last, error, -, -, refused, stopped⟩
  · rw [done] at ended
    cases ended
    exact Or.inl rfl
  · rw [stopped] at ended
    cases ended
    obtain ⟨-, -, fault, -, rfl⟩ := save_error refused
    exact Or.inr ⟨_, rfl, rfl⟩

-- A dry run touches nothing and reports what the run itself reports; only a refused write, which a
-- dry run never meets, makes them differ.
theorem dry_run_mirrors_run (operation : Operation) (paths : List Path) (store : σ) :
    let dry := run operation true paths store
    let real := run operation false paths store
    dry.1 = store ∧
      (∀ outcome, real.2 = .ok outcome →
        dry.2 = .ok outcome.unwritten ∧ ∀ file ∈ outcome.files, file.written = true) ∧
      (∀ error, real.2 = .error error → error.isWriteFailure = false → dry.2 = .error error) ∧
      (∀ error, real.2 = .error error → error.isWriteFailure → ∃ outcome, dry.2 = .ok outcome) ∧
      (operation.isUpdate = false → real = dry ∧ real.1 = store) := by
  intro dry real
  rcases run_cases operation paths store with
    ⟨result, writeless, same⟩ | ⟨updating, files, updates, version, -, writes⟩
  · have ended : real = (store, result) := same false
    have ended_dry : dry = (store, result) := same true
    rw [ended, ended_dry]
    refine ⟨rfl, fun outcome ok => ?_, fun _ failed _ => failed, fun error failed refused => ?_,
      fun _ => ⟨rfl, rfl⟩⟩
    · have nothing := writeless.unchanged outcome ok
      have kept : outcome.unwritten = outcome := by
        rw [Outcome.unwritten, nothing, List.map_nil, ← nothing]
      refine ⟨kept.symm ▸ ok, fun file among => ?_⟩
      rw [nothing] at among
      cases among
    · rw [writeless.accepted error failed] at refused
      cases refused
  · have ended_dry : dry = (store, .ok (reported updates true files { version })) :=
      run_dry (writes true)
    have ended : applyAll updates false files { version } store = (real.1, real.2) :=
      (writes false).symm
    have asked : operation.isUpdate ≠ false := by simp [updating]
    rw [ended_dry]
    refine ⟨rfl, fun outcome ok => ?_, fun error failed kept => ?_, fun _ _ _ => ⟨_, rfl⟩,
      fun asking => absurd asking asked⟩
    · rcases apply_all_real ended with done | ⟨error, stopped, -⟩
      · rw [done] at ok
        cases ok
        exact ⟨by rw [unwritten_reported], written_reported files version⟩
      · rw [stopped] at ok
        cases ok
    · rcases apply_all_real ended with done | ⟨other, stopped, refused⟩
      · rw [done] at failed
        cases failed
      · rw [stopped] at failed
        cases failed
        rw [refused] at kept
        cases kept

end Runs

theorem dry_run_of_file_listed_twice :
    let path : Path := ⟨"A.cs".toList⟩
    let store : MemoryStore :=
      { files := [(path, "[assembly: AssemblyVersion(\"1.0.0.0\")]\n".toList.map Utf8.octet)] }
    let operation : Operation := .set { assembly := some "2.0.0.0".toList }
    ∃ outcome, (run operation false [path, path] store).2 = .ok outcome ∧ outcome.files.length = 2 ∧
      run operation true [path, path] store = (store, .ok outcome.unwritten) := by
  intro path store operation
  have count : (run operation false [path, path] store).2.toOption.map (·.files.length) = some 2 := by
    decide +kernel
  cases ran : (run operation false [path, path] store).2 with
  | error error =>
      rw [ran] at count
      cases count
  | ok outcome =>
      obtain ⟨untouched, finished, -⟩ := dry_run_mirrors_run operation [path, path] store
      rw [ran] at count
      exact ⟨outcome, rfl, Option.some.inj count, Prod.ext untouched (finished outcome ran).1⟩

end Batch

end AssemblyVersions
