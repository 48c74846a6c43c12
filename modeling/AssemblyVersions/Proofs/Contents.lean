import AssemblyVersions.Proofs.Rescan

/-!
What a batch leaves in a store. All files are read before the first is written, so a file that is
listed twice, or under two paths, is written twice with the same content: each listed file ends
with the edit of what it held at the start.
-/

set_option autoImplicit false

namespace AssemblyVersions

-- Paths of a store that name files, present and writable. Paths are the `same` if they name one
-- file: a write to either replaces what both read and nothing else.
structure Serves {σ : Type} [Store σ] (paths : List Path) (same : Path → Path → Prop)
    (served : σ → Prop) : Prop where
  itself : ∀ path ∈ paths, same path path
  present : ∀ store, served store → ∀ path ∈ paths, ∃ bytes, Store.read store path = .ok bytes
  shared : ∀ store, served store → ∀ path ∈ paths, ∀ other ∈ paths, same path other →
    Store.read store path = Store.read store other
  writable : ∀ store, served store → ∀ path ∈ paths, ∀ bytes, ∃ next,
    Store.write store path bytes = .ok next ∧ served next ∧
      (∀ other ∈ paths, same path other → Store.read next other = .ok bytes) ∧
      ∀ other ∈ paths, ¬ same path other → Store.read next other = Store.read store other

-- What a write does if it succeeds: every path that names the file reads the new content, and every
-- other one what it read before. Which writes succeed is left open.
structure Replaces {σ : Type} [Store σ] (paths : List Path) (same : Path → Path → Prop)
    (sound : σ → Prop) : Prop where
  itself : ∀ path ∈ paths, same path path
  shared : ∀ store, sound store → ∀ path ∈ paths, ∀ asked, same path asked →
    Store.read store asked = Store.read store path
  written : ∀ store next, sound store → ∀ path ∈ paths, ∀ bytes,
    Store.write store path bytes = .ok next →
      sound next ∧ Store.read next path = .ok bytes ∧
        ∀ asked, ¬ same path asked → Store.read next asked = Store.read store asked

-- What a batch relies on for the `seen` paths. A store's law for all paths gives it, and so does the law
-- for the listed ones alone.
structure Overwrites {σ : Type} [Store σ] (paths : List Path) (seen : Path → Prop)
    (same : Path → Path → Prop) (sound : σ → Prop) : Prop where
  shared : ∀ store, sound store → ∀ path ∈ paths, ∀ asked, seen asked → same path asked →
    Store.read store asked = Store.read store path
  written : ∀ store next, sound store → ∀ path ∈ paths, ∀ bytes,
    Store.write store path bytes = .ok next →
      sound next ∧ Store.read next path = .ok bytes ∧
        ∀ asked, seen asked → ¬ same path asked → Store.read next asked = Store.read store asked

section Laws

variable {σ : Type} [Store σ] {paths : List Path} {same : Path → Path → Prop} {sound : σ → Prop}

theorem Replaces.overwrites (replaces : Replaces paths same sound) :
    Overwrites paths (fun _ => True) same sound where
  shared store healthy path listed asked _ := replaces.shared store healthy path listed asked
  written store next healthy path listed bytes wrote := by
    obtain ⟨still, here, outside⟩ := replaces.written store next healthy path listed bytes wrote
    exact ⟨still, here, fun asked _ => outside asked⟩

theorem Serves.overwrites (serves : Serves paths same sound) :
    Overwrites paths (· ∈ paths) same sound where
  shared store healthy path listed asked among linked :=
    (serves.shared store healthy path listed asked among linked).symm
  written store next healthy path listed bytes wrote := by
    obtain ⟨other, also, still, inside, outside⟩ := serves.writable store healthy path listed bytes
    obtain rfl := Except.ok.inj (wrote.symm.trans also)
    exact ⟨still, inside path listed (serves.itself path listed), outside⟩

theorem Replaces.serves (replaces : Replaces paths same sound)
    (writable : ∀ store, sound store → ∀ path ∈ paths, ∀ bytes, ∃ next,
      Store.write store path bytes = .ok next) :
    Serves paths same fun store =>
      sound store ∧ ∀ path ∈ paths, ∃ bytes, Store.read store path = .ok bytes where
  itself := replaces.itself
  present store served := served.2
  shared store served path listed other _ linked :=
    (replaces.shared store served.1 path listed other linked).symm
  writable store served path listed bytes := by
    obtain ⟨next, wrote⟩ := writable store served.1 path listed bytes
    obtain ⟨still, here, outside⟩ := replaces.written store next served.1 path listed bytes wrote
    have inside (other : Path) (linked : same path other) : Store.read next other = .ok bytes :=
      (replaces.shared next still path listed other linked).trans here
    refine ⟨next, wrote, ⟨still, fun other among => ?_⟩, fun other _ => inside other,
      fun other _ => outside other⟩
    by_cases linked : same path other
    · exact ⟨bytes, inside other linked⟩
    · rw [outside other linked]
      exact served.2 other among

end Laws

namespace MemoryStore

theorem find_congr {a b : Path} (same : a.same b) (files : List (Path × Bytes)) :
    find? a files = find? b files := by
  have equal := Path.same_iff.mp same
  induction files with
  | nil => rfl
  | cons entry rest ih =>
      obtain ⟨other, held⟩ := entry
      simp [find?, Path.same, equal, ih]

theorem read_congr {a b : Path} (same : a.same b) (store : MemoryStore) :
    store.read a = store.read b := by
  rw [read, read, find_congr same]

def Writable (store : MemoryStore) (path : Path) : Prop := store.readOnly.any (Path.same · path) = false

theorem write_writable {store : MemoryStore} {path : Path} (writable : store.Writable path)
    (bytes : Bytes) :
    ∃ next, store.write path bytes = .ok next ∧ next.readOnly = store.readOnly ∧
      next.writes = store.writes ++ [path] ∧
      ∀ asked, next.read asked = if path.same asked then .ok bytes else store.read asked := by
  refine ⟨{ store.insert path bytes with writes := store.writes ++ [path] }, ?_, rfl, rfl,
    fun asked => ?_⟩
  · rw [Writable] at writable
    simp [write, writable]
  · by_cases same : path.same asked
    · rw [if_pos same]
      have found : find? asked (place path bytes store.files) = some bytes := by
        rw [← find_congr same, find_place_self]
      simp [read, insert, found]
    · rw [if_neg same]
      simp [read, insert, same]

theorem writable {store : MemoryStore} {path : Path} (open_path : store.Writable path) (bytes : Bytes) :
    ∃ next, Store.write store path bytes = .ok next := by
  obtain ⟨next, wrote, -⟩ := write_writable open_path bytes
  exact ⟨next, wrote⟩

theorem write_eq_ok {store next : MemoryStore} {path : Path} {bytes : Bytes}
    (written : store.write path bytes = .ok next) :
    store.Writable path ∧ next.readOnly = store.readOnly ∧ next.writes = store.writes ++ [path] ∧
      ∀ asked, next.read asked = if path.same asked then .ok bytes else store.read asked := by
  cases locked : store.readOnly.any (Path.same · path) with
  | true => simp [write, locked] at written
  | false =>
      obtain ⟨other, again, rest⟩ := write_writable locked bytes
      rw [again] at written
      cases written
      exact ⟨locked, rest⟩

theorem logged {store next : MemoryStore} {path : Path} {bytes : Bytes}
    (written : Store.write store path bytes = .ok next) :
    next.writes = store.writes ++ [path] :=
  (write_eq_ok written).2.2.1

theorem replaces (paths : List Path) {sound : MemoryStore → Prop}
    (steady : ∀ store next, sound store → next.readOnly = store.readOnly → sound next) :
    Replaces paths (fun a b => a.same b = true) sound where
  itself path _ := by simp [Path.same]
  shared store _ path _ asked same := (read_congr same store).symm
  written store next sound path _ bytes wrote := by
    obtain ⟨-, kept, -, reads⟩ := write_eq_ok wrote
    refine ⟨steady store next sound kept, ?_, fun asked apart => (reads asked).trans (if_neg apart)⟩
    exact (reads path).trans (if_pos (by simp [Path.same]))

theorem replaces_locked (paths locked : List Path) :
    Replaces paths (fun a b => a.same b = true) fun store : MemoryStore => store.readOnly = locked :=
  replaces paths fun _ _ sound kept => kept.trans sound

def Served (paths : List Path) (store : MemoryStore) : Prop :=
  (∀ path ∈ paths, store.Writable path) ∧ ∀ path ∈ paths, ∃ bytes, Store.read store path = .ok bytes

theorem served_of_present {paths : List Path} {store : MemoryStore}
    (open_paths : ∀ path ∈ paths, store.Writable path)
    (present : ∀ path ∈ paths, (store.read path).toOption.isSome) : Served paths store := by
  refine ⟨open_paths, fun path listed => ?_⟩
  have some_bytes := present path listed
  change ∃ bytes, store.read path = .ok bytes
  cases held : store.read path with
  | ok bytes => exact ⟨bytes, rfl⟩
  | error fault =>
      rw [held] at some_bytes
      cases some_bytes

theorem serves (paths : List Path) : Serves paths (fun a b => a.same b = true) (Served paths) := by
  have steady (store next : MemoryStore) (open_paths : ∀ path ∈ paths, store.Writable path)
      (kept : next.readOnly = store.readOnly) : ∀ path ∈ paths, next.Writable path := by
    intro path listed
    rw [Writable, kept]
    exact open_paths path listed
  exact (replaces paths steady).serves fun store open_paths path listed bytes =>
    writable (open_paths path listed) bytes

end MemoryStore

namespace Edit

theorem lines_of_no_changes {path : Path} {records : List Record} {base : Nat} {seen : Seen}
    {pending : List Update} {lines : List Text}
    (silent : (walk path records base seen pending lines).changes = []) :
    (walk path records base seen pending lines).lines = lines := by
  induction lines generalizing base seen pending with
  | nil =>
      have empty : pending = [] := by simpa [walk, additions] using silent
      rw [empty]
      rfl
  | cons line lines ih =>
      rw [walk] at silent ⊢
      cases found : records.find? (·.line == base) with
      | none =>
          simp only [found] at silent ⊢
          rw [ih silent]
      | some record =>
          simp only [found, List.append_eq_nil_iff] at silent ⊢
          obtain ⟨same, later⟩ := silent
          rw [ih later]
          rw [replacement] at same
          split at same
          · rename_i equal
            rw [equal]
          · cases same

end Edit

namespace Record

def relocate (path : Path) (record : Record) : Record := { record with path := path }

theorem scan_from_relocated (path other : Path) (base : Nat) (lines : List Text) :
    scanFrom other base lines = (scanFrom path base lines).map (relocate other) := by
  induction lines generalizing base with
  | nil => rfl
  | cons line lines ih =>
      have here : ofLine? other base line = (ofLine? path base line).map (relocate other) := by
        rw [ofLine?, ofLine?]
        cases read : Declaration.ofLine? line with
        | none => rfl
        | some declaration =>
            cases meant : declaration.meaning? line with
            | none => simp [meant]
            | some meaning => simp [meant, relocate]
      rw [scanFrom, scanFrom, List.map_append, ← ih, here]
      cases ofLine? path base line <;> rfl

end Record

theorem Edit.lines_of_relocated (path other at_path : Path) (records : List Record) (base : Nat)
    (seen : Seen) (pending : List Update) (lines : List Text) :
    (walk other (records.map (Record.relocate at_path)) base seen pending lines).lines =
      (walk path records base seen pending lines).lines := by
  induction lines generalizing base seen pending with
  | nil => rfl
  | cons line lines ih =>
      have found : (records.map (Record.relocate at_path)).find? (·.line == base) =
          (records.find? (·.line == base)).map (Record.relocate at_path) := List.find?_map ..
      rw [walk, walk, found]
      cases records.find? (·.line == base) with
      | none => exact congrArg (line :: ·) (ih ..)
      | some record => exact congrArg (written record pending :: ·) (ih ..)

theorem Document.render_texts {lines : List Line} (framed : Framed lines) :
    render ⟨lines⟩ (lines.map Line.text) = lines.flatMap Line.content := by
  have same : (lines.map Line.text).mapIdx (fun _ text => text) ++ [] = lines.map Line.text := by
    rw [List.append_nil, List.mapIdx_eq_iff]
    intro index
    exact Option.map_id'.symm
  have silent : ∀ line ∈ lines, line.ending = none →
      (if isTerminated ⟨lines⟩ then some (majority ⟨lines⟩) else none) = none := by
    intro line among open_end
    simp [isTerminated, last_of_open framed among open_end, open_end]
  have kept : (lines.mapIdx fun _ line =>
      (⟨line.bytesFor line.text, line.ending.or none⟩ : Line)) = lines := by
    rw [List.mapIdx_eq_iff]
    intro index
    simp [Line.bytesFor]
  have rendered : renderLines (majority ⟨lines⟩) _ lines _ = _ :=
    render_lines framed silent (fun _ text => text) []
  rw [same] at rendered
  rw [render, rendered]
  simp only [if_true, kept, addedLines, List.flatMap_nil, List.append_nil]

namespace Scanned

theorem edited_of_unchanged (path : Path) (bytes : Bytes) {updates : List Update}
    (unchanged : ((ofBytes path bytes).edit updates).isChanged = false) :
    (ofBytes path bytes).edited updates = bytes := by
  have silent : ((ofBytes path bytes).edit updates).changes = [] := by
    simpa [Edit.isChanged] using unchanged
  have same : ((ofBytes path bytes).edit updates).lines = (Document.ofBytes bytes).texts :=
    Edit.lines_of_no_changes silent
  rw [edited, same]
  exact (Document.render_texts (Document.framed_split bytes)).trans (Document.content_of_bytes bytes)

theorem edited_at (path other : Path) (bytes : Bytes) (updates : List Update) :
    (ofBytes other bytes).edited updates = (ofBytes path bytes).edited updates := by
  have same : ((ofBytes other bytes).edit updates).lines =
      ((ofBytes path bytes).edit updates).lines := by
    simp only [edit, ofBytes, Edit.ofRecords, Record.scan]
    rw [Record.scan_from_relocated path other]
    exact Edit.lines_of_relocated ..
  rw [edited, same]
  rfl

end Scanned

namespace Batch

section Contents

variable {σ : Type} [Store σ] {paths : List Path} {same : Path → Path → Prop} {served : σ → Prop}

def newContent (updates : List Update) (old : Path → Bytes) (path : Path) : Bytes :=
  (Scanned.ofBytes path (old path)).edited updates

theorem new_content_congr {old : Path → Bytes} {path other : Path} (same : old path = old other)
    (updates : List Update) : newContent updates old path = newContent updates old other := by
  rw [newContent, newContent, same]
  exact Scanned.edited_at ..

theorem read_all_present {store : σ} {old : Path → Bytes} {listed : List Path}
    (present : ∀ path ∈ listed, Store.read store path = .ok (old path)) :
    readAll store listed = .ok (listed.map fun path => .ofBytes path (old path)) := by
  rw [readAll]
  induction listed with
  | nil => rfl
  | cons path listed ih =>
      have now : readFile store path = .ok (.ofBytes path (old path)) := by
        rw [readFile, present path List.mem_cons_self]
      rw [List.mapM_cons, now, ih fun other among => present other (List.mem_cons_of_mem path among)]
      rfl

def contentOf (store : σ) (path : Path) : Bytes :=
  match Store.read store path with
  | .ok bytes => bytes
  | .error _ => []

theorem read_served (serves : Serves paths same served) {store : σ} (healthy : served store)
    {path : Path} (listed : path ∈ paths) : Store.read store path = .ok (contentOf store path) := by
  obtain ⟨bytes, held⟩ := serves.present store healthy path listed
  rw [contentOf, held]

def filesAt (store : σ) (paths : List Path) : List Scanned :=
  paths.map fun path => .ofBytes path (contentOf store path)

theorem read_all_served (serves : Serves paths same served) {store : σ} (healthy : served store) :
    readAll store paths = .ok (filesAt store paths) :=
  read_all_present fun _ listed => read_served serves healthy listed

end Contents

end Batch

end AssemblyVersions
