import AssemblyVersions.Proofs.Contents
import AssemblyVersions.Proofs.Runs

set_option autoImplicit false

namespace AssemblyVersions

section Writes

variable {σ : Type} [Store σ] {paths : List Path} {seen : Path → Prop} {same : Path → Path → Prop}
  {sound : σ → Prop} {store after : σ}

inductive Writes : σ → List (Path × Bytes) → σ → Prop where
  | done (store : σ) : Writes store [] store
  | more {store next after : σ} {path : Path} {bytes : Bytes} {rest : List (Path × Bytes)}
      (wrote : Store.write store path bytes = .ok next) (later : Writes next rest after) :
      Writes store ((path, bytes) :: rest) after

-- A log may keep whole writes or only a part of each, such as the path.
theorem log_of_writes {α : Type} (log : σ → List α) (kept : Path × Bytes → α)
    (logged : ∀ (store next : σ) (path : Path) (bytes : Bytes),
      Store.write store path bytes = .ok next → log next = log store ++ [kept (path, bytes)])
    {entries : List (Path × Bytes)} (writes : Writes store entries after) :
    log after = log store ++ entries.map kept := by
  induction writes with
  | done store => exact (List.append_nil _).symm
  | more wrote _ ih => rw [ih, logged _ _ _ _ wrote, List.append_assoc]; rfl

structure Saved (seen : Path → Prop) (same : Path → Path → Prop) (sound : σ → Prop) (new : Path → Bytes)
    (store : σ) (written : List Path) (after : σ) : Prop where
  still : sound after
  accepted : ∀ path ∈ written, ∃ before next bytes, sound before ∧
    Store.write before path bytes = .ok next
  replaced : ∀ path ∈ written, ∀ asked, seen asked → same path asked →
    Store.read after asked = .ok (new path)
  kept : ∀ asked, seen asked → (∀ path ∈ written, ¬ same path asked) →
    Store.read after asked = Store.read store asked

theorem saved_of_writes (overwrites : Overwrites paths seen same sound) {new : Path → Bytes}
    (agree : ∀ a ∈ paths, ∀ b ∈ paths, ∀ asked, seen asked → same a asked → same b asked →
      new a = new b)
    {written : List Path} (within : ∀ path ∈ written, path ∈ paths) (healthy : sound store)
    (writes : Writes store (written.map fun path => (path, new path)) after) :
    Saved seen same sound new store written after := by
  induction written generalizing store with
  | nil =>
      cases writes
      refine ⟨healthy, fun path nowhere => ?_, fun path nowhere => ?_, fun _ _ _ => rfl⟩
      · cases nowhere
      · cases nowhere
  | cons path written ih =>
      cases writes with
      | more wrote later =>
          have listed := within path List.mem_cons_self
          obtain ⟨sound_next, here, outside⟩ :=
            overwrites.written store _ healthy path listed _ wrote
          have rest := ih (fun other among => within other (List.mem_cons_of_mem path among))
            sound_next later
          refine ⟨rest.still, fun other among => ?_, fun other among asked heard linked => ?_,
            fun asked heard apart => ?_⟩
          · rcases List.mem_cons.mp among with rfl | among
            · exact ⟨store, _, _, healthy, wrote⟩
            · exact rest.accepted other among
          · -- The last write to the file counts, and all writes to it have one content.
            by_cases again : ∃ last ∈ written, same last asked
            · obtain ⟨last, done, linked_last⟩ := again
              have inside := within last (List.mem_cons_of_mem path done)
              rw [rest.replaced last done asked heard linked_last,
                agree last inside other (within other among) asked heard linked_last linked]
            · have first : other = path := by
                rcases List.mem_cons.mp among with same_path | among
                · exact same_path
                · exact absurd ⟨other, among, linked⟩ again
              subst first
              rw [rest.kept asked heard fun last done linked_last => again ⟨last, done, linked_last⟩,
                overwrites.shared _ sound_next other listed asked heard linked, here]
          · rw [rest.kept asked heard fun last done => apart last (List.mem_cons_of_mem path done),
              outside asked heard (apart path List.mem_cons_self)]

end Writes

namespace Batch

section Saves

variable {σ : Type} [Store σ] {paths : List Path} {seen : Path → Prop} {same : Path → Path → Prop}
  {sound : σ → Prop} {updates : List Update} {old : Path → Bytes} {store after : σ}

def changes (updates : List Update) (old : Path → Bytes) (path : Path) : Bool :=
  ((Scanned.ofBytes path (old path)).edit updates).isChanged

theorem writes_of_saves {listed : List Path}
    (saves : Saves updates false store (listed.map fun path => .ofBytes path (old path)) after) :
    Writes store ((listed.filter (changes updates old)).map fun path =>
      (path, newContent updates old path)) after := by
  induction listed generalizing store with
  | nil =>
      cases saves
      exact .done _
  | cons path listed ih =>
      cases saves with
      | more saved later =>
          have rest := ih later
          cases changed : changes updates old path with
          | false =>
              rw [List.filter_cons_of_neg (by simp [changed])]
              rw [changes] at changed
              simp only [save, changed, Bool.false_and, Bool.false_eq_true, if_false] at saved
              cases saved
              exact rest
          | true =>
              rw [List.filter_cons_of_pos changed]
              rw [changes] at changed
              simp only [save, changed, Bool.not_false, Bool.and_self, if_true] at saved
              split at saved
              · rename_i next answer
                cases saved
                exact .more answer rest
              · cases saved

theorem contents_agree (overwrites : Overwrites paths seen same sound) (healthy : sound store)
    (updates : List Update) :
    ∀ a ∈ paths, ∀ b ∈ paths, ∀ asked, seen asked → same a asked → same b asked →
      newContent updates (contentOf store) a = newContent updates (contentOf store) b := by
  intro a listed_a b listed_b asked heard left right
  apply new_content_congr
  rw [contentOf, contentOf, ← overwrites.shared store healthy a listed_a asked heard left,
    overwrites.shared store healthy b listed_b asked heard right]

theorem saved_of_saves (overwrites : Overwrites paths seen same sound) (healthy : sound store)
    {listed : List Path} (within : ∀ path ∈ listed, path ∈ paths)
    (saves : Saves updates false store (filesAt store listed) after) :
    Saved seen same sound (newContent updates (contentOf store)) store
      (listed.filter (changes updates (contentOf store))) after :=
  saved_of_writes overwrites (contents_agree overwrites healthy updates)
    (fun path among => within path (List.mem_of_mem_filter among)) healthy (writes_of_saves saves)

-- Files that were not written hold their new content already.
theorem read_of_saved (overwrites : Overwrites paths seen same sound) (healthy : sound store)
    (present : ∀ path ∈ paths, Store.read store path = .ok (contentOf store path))
    (saved : Saved seen same sound (newContent updates (contentOf store)) store
      (paths.filter (changes updates (contentOf store))) after)
    {path : Path} (listed : path ∈ paths) {asked : Path} (heard : seen asked)
    (linked : same path asked) :
    Store.read after asked = .ok (newContent updates (contentOf store) path) := by
  by_cases written : ∃ done ∈ paths.filter (changes updates (contentOf store)), same done asked
  · obtain ⟨done, among, linked_done⟩ := written
    rw [saved.replaced done among asked heard linked_done]
    exact congrArg Except.ok (contents_agree overwrites healthy updates done
      (List.mem_of_mem_filter among) path listed asked heard linked_done linked)
  · have idle : changes updates (contentOf store) path = false := by
      rw [← Bool.not_eq_true]
      exact fun changed => written ⟨path, List.mem_filter.mpr ⟨listed, changed⟩, linked⟩
    have unchanged : newContent updates (contentOf store) path = contentOf store path :=
      Scanned.edited_of_unchanged path _ idle
    rw [saved.kept asked heard fun done among linked_done => written ⟨done, among, linked_done⟩,
      overwrites.shared store healthy path listed asked heard linked, present path listed, unchanged]

theorem files_at_eq_append {before behind : List Scanned} {file : Scanned}
    (split : filesAt store paths = before ++ file :: behind) :
    ∃ earlier later, paths = earlier ++ file.path :: later ∧ before = filesAt store earlier ∧
      file = .ofBytes file.path (contentOf store file.path) := by
  rw [filesAt, List.map_eq_append_iff] at split
  obtain ⟨earlier, rest, rfl, front, back⟩ := split
  obtain ⟨path, later, rfl, here, -⟩ := List.map_eq_cons_iff.mp back
  subst here
  exact ⟨earlier, later, rfl, front.symm, rfl⟩

theorem saves_of_served {served : σ → Prop} (serves : Serves paths same served)
    (healthy : served store) (updates : List Update) (outcome : Outcome) :
    ∃ after, Saves updates false store (filesAt store paths) after ∧
      applyAll updates false (filesAt store paths) outcome store =
        (after, .ok (reported updates false (filesAt store paths) outcome)) := by
  rcases apply_all_cases updates false (filesAt store paths) outcome store with
    ended | ⟨before, file, behind, stopped, error, split, saves, refused, -⟩
  · exact ended
  · obtain ⟨earlier, later, rfl, rfl, -⟩ := files_at_eq_append split
    have saved := saved_of_saves serves.overwrites healthy
      (fun path among => List.mem_append_left _ among) saves
    obtain ⟨-, -, fault, answer, -⟩ := save_error refused
    obtain ⟨next, wrote, -⟩ := serves.writable stopped saved.still file.path
      (List.mem_append_right earlier List.mem_cons_self) (file.edited updates)
    cases answer.symm.trans wrote

theorem run_update {served : σ → Prop} (serves : Serves paths same served) (healthy : served store)
    {operation : Operation} {version : Option Text}
    (prepared : prepare operation paths store = .ok (filesAt store paths, .update updates version)) :
    ∃ after outcome, run operation false paths store = (after, .ok outcome) ∧
      outcome.version = version ∧ served after ∧
      ∀ path ∈ paths,
        Store.read after path = .ok (newContent updates (contentOf store) path) := by
  obtain ⟨after, saves, ended⟩ := saves_of_served serves healthy updates { version }
  have saved := saved_of_saves serves.overwrites healthy (fun _ listed => listed) saves
  refine ⟨after, reported updates false (filesAt store paths) { version }, ?_, rfl, saved.still,
    fun path listed => ?_⟩
  · rw [run, prepared]
    exact ended
  · exact read_of_saved serves.overwrites healthy (fun _ among => read_served serves healthy among)
      saved listed listed (serves.itself path listed)

theorem run_set {served : σ → Prop} (serves : Serves paths same served) (healthy : served store)
    {assignment : Assignment} (accepted : Plan.set assignment = .ok updates) :
    ∃ after outcome, run (.set assignment) false paths store = (after, .ok outcome) ∧
      outcome.version = singleValue updates ∧ served after ∧
      ∀ path ∈ paths,
        Store.read after path = .ok (newContent updates (contentOf store) path) := by
  apply run_update serves healthy
  rw [prepare, assigned, accepted, read_all_served serves healthy]
  rfl

end Saves

end Batch

end AssemblyVersions
