import AssemblyVersions.Disk
import AssemblyVersions.Proofs.FileMap

set_option autoImplicit false

namespace AssemblyVersions

inductive Sight where
  | folder
  | file (bytes : Bytes)
  | link (target : Path)

def Node.sight : Node → Sight
  | .file bytes => .file bytes
  | .link target => .link target
  | .folder _ => .folder

namespace Folder

def sight? (root : Folder) (location : Location) (name : Text) : Option Sight :=
  ((root.at? location).bind (find? name)).map Node.sight

@[simp] theorem find_put_of_ne {name other : Text} (apart : other ≠ name) (node : Node)
    (folder : Folder) :
    (folder.put name node).find? other = folder.find? other := by
  match folder with
  | .nil => simp [put, find?, apart.symm]
  | .cons first held rest =>
      by_cases same : first = name
      · simp [put, find?, same, apart.symm]
      · simp [put, find?, same, find_put_of_ne apart node rest]

theorem sight_of_entry {root : Folder} {location : Location} {name : Text} {node : Node}
    (found : (root.at? location).bind (find? name) = some node) :
    root.sight? location name = some node.sight := by
  rw [sight?, found]
  rfl

theorem sight_cons (root : Folder) (step : Text) (location : Location) (name : Text) :
    root.sight? (step :: location) name =
      match root.find? step with
      | some (.folder inner) => inner.sight? location name
      | _ => none := by
  rw [sight?, at?]
  cases root.find? step with
  | none => rfl
  | some node => cases node <;> rfl

theorem sight_put {parent : Location} {name : Text} {root : Folder} {old : Bytes}
    (held : root.sight? parent name = some (.file old)) (bytes : Bytes) (location : Location)
    (asked : Text) :
    (root.putAt name (.file bytes) parent).sight? location asked =
      if location = parent ∧ asked = name then some (.file bytes) else root.sight? location asked := by
  induction parent generalizing root location with
  | nil =>
      rw [putAt]
      cases location with
      | nil =>
          by_cases same : asked = name
          · subst same
            simp [sight?, at?, Node.sight]
          · simp [sight?, at?, same]
      | cons step location =>
          rw [sight_cons, sight_cons]
          by_cases same : step = name
          · subst same
            rw [find_put_self]
            simp only [sight?, at?, Option.bind_some, Option.map_eq_some_iff] at held
            obtain ⟨node, found, seen⟩ := held
            rw [found]
            cases node with
            | folder entries => cases seen
            | _ => simp
          · rw [find_put_of_ne same]
            simp
  | cons first parent ih =>
      rw [sight_cons] at held
      split at held
      · rename_i inner found
        have opened : root.inner first = inner := by rw [Folder.inner, found]
        rw [putAt, opened]
        cases location with
        | nil =>
            by_cases same : asked = first
            · subst same
              simp [sight?, at?, found, Node.sight]
            · simp [sight?, at?, same]
        | cons step location =>
            rw [sight_cons, sight_cons]
            by_cases same : step = first
            · subst same
              rw [find_put_self, found]
              simp [ih held]
            · rw [find_put_of_ne same]
              simp [same]
      · cases held

end Folder

def Landing.refill (parent : Location) (name : Text) (bytes : Bytes) : Landing → Landing
  | .file location other held =>
      if location = parent ∧ other = name then .file location other bytes
      else .file location other held
  | landing => landing

namespace Disk

variable {parent : Location} {name : Text} {old : Bytes} {disk : Disk}

theorem follow_name (disk : Disk) (access : Access) (links : Nat) (here : Location) (asked : Text)
    (steps : List Step) :
    disk.follow access links here (.name asked :: steps) =
      if access = .write ∧ steps = [.separator] then .error .isADirectory
      else if nameBound ≤ (Utf8.encode asked).length then .error .nameTooLong
      else match disk.root.sight? here asked with
        | none => if steps = [] then .ok (.absent here asked) else .error .notFound
        | some .folder => disk.follow access links (here ++ [asked]) steps
        | some (.file bytes) =>
            if steps = [] then .ok (.file here asked bytes) else .error .notADirectory
        | some (.link target) =>
            match links with
            | 0 => .error .tooManyLinks
            | links + 1 => disk.follow access links here (target.steps ++ steps) := by
  rw [follow, Folder.sight?]
  cases (disk.root.at? here).bind (Folder.find? asked) with
  | none => rfl
  | some node => cases node <;> rfl

theorem sight_saved (held : disk.root.sight? parent name = some (.file old)) (path : Path)
    (bytes : Bytes) (here : Location) (asked : Text) :
    (disk.save parent name path bytes).root.sight? here asked =
      match disk.root.sight? here asked with
      | some (.file kept) => some (.file (if here = parent ∧ asked = name then bytes else kept))
      | other => other := by
  rw [save, Folder.sight_put held]
  by_cases place : here = parent ∧ asked = name
  · obtain ⟨rfl, rfl⟩ := place
    simp [held]
  · rw [if_neg place]
    cases disk.root.sight? here asked with
    | none => rfl
    | some sight => cases sight <;> simp [place]

theorem follow_saved (held : disk.root.sight? parent name = some (.file old)) (path : Path)
    (bytes : Bytes) (access : Access) (links : Nat) (here : Location) (steps : List Step) :
    (disk.save parent name path bytes).follow access links here steps =
      (disk.follow access links here steps).map (Landing.refill parent name bytes) := by
  have saved := sight_saved held path bytes
  induction links, here, steps using follow.induct disk access with
  | case1 links here => simp [follow, Except.map, Landing.refill]
  | case2 links here steps ih => simpa [follow] using ih
  | case3 links here steps ih => simpa [follow] using ih
  | case4 links here steps ih => simpa [follow] using ih
  | case5 links here steps ih => simpa [follow] using ih
  | case6 links here asked steps ended =>
      rw [follow_name, follow_name, if_pos ended, if_pos ended]
      rfl
  | case7 links here asked steps inner long =>
      rw [follow_name, follow_name, if_neg inner, if_neg inner, if_pos long, if_pos long]
      rfl
  | case8 links here asked short missing inner =>
      have seen : disk.root.sight? here asked = none := by rw [Folder.sight?, missing]; rfl
      simp [follow_name, saved, seen, short, Except.map, Landing.refill]
  | case9 links here asked steps inner short missing more =>
      have seen : disk.root.sight? here asked = none := by rw [Folder.sight?, missing]; rfl
      simp [follow_name, saved, seen, inner, short, more, Except.map]
  | case10 links here asked steps inner short entries found ih =>
      have seen : disk.root.sight? here asked = some .folder := Folder.sight_of_entry found
      simp only [follow_name, saved, seen, if_neg inner, if_neg short, ih]
  | case11 links here asked short kept found inner =>
      have seen : disk.root.sight? here asked = some (.file kept) := Folder.sight_of_entry found
      simp only [follow_name, saved, seen, if_neg inner, if_neg short, if_pos, Except.map,
        Landing.refill]
      split <;> rfl
  | case12 links here asked steps inner short kept found more =>
      have seen : disk.root.sight? here asked = some (.file kept) := Folder.sight_of_entry found
      simp only [follow_name, saved, seen, if_neg inner, if_neg short, if_neg more]
      rfl
  | case13 here asked steps inner short target found =>
      have seen : disk.root.sight? here asked = some (.link target) := Folder.sight_of_entry found
      simp only [follow_name, saved, seen, if_neg inner, if_neg short]
      rfl
  | case14 here asked steps inner short target found links ih =>
      have seen : disk.root.sight? here asked = some (.link target) := Folder.sight_of_entry found
      simp only [follow_name, saved, seen, if_neg inner, if_neg short, ih]

theorem sight_of_follow {access : Access} {links : Nat} {here : Location} {steps : List Step}
    {bytes : Bytes} (landed : disk.follow access links here steps = .ok (.file parent name bytes)) :
    disk.root.sight? parent name = some (.file bytes) := by
  induction links, here, steps using follow.induct disk access with
  | case1 links here => simp [follow] at landed
  | case2 links here steps ih => exact ih (by simpa [follow] using landed)
  | case3 links here steps ih => exact ih (by simpa [follow] using landed)
  | case4 links here steps ih => exact ih (by simpa [follow] using landed)
  | case5 links here steps ih => exact ih (by simpa [follow] using landed)
  | case6 links here asked steps ended => simp [follow, ended] at landed
  | case7 links here asked steps inner long => simp [follow, inner, long] at landed
  | case8 links here asked short missing inner => simp [follow, short, missing] at landed
  | case9 links here asked steps inner short missing more =>
      simp [follow, inner, short, missing, more] at landed
  | case10 links here asked steps inner short entries found ih =>
      rw [follow, if_neg inner, if_neg short, found] at landed
      exact ih landed
  | case11 links here asked short kept found inner =>
      simp only [follow, if_neg inner, if_neg short, found, if_true, Except.ok.injEq,
        Landing.file.injEq] at landed
      obtain ⟨rfl, rfl, rfl⟩ := landed
      exact Folder.sight_of_entry found
  | case12 links here asked steps inner short kept found more =>
      simp [follow, inner, short, found, more] at landed
  | case13 here asked steps inner short target found => simp [follow, inner, short, found] at landed
  | case14 here asked steps inner short target found links ih =>
      rw [follow, if_neg inner, if_neg short, found] at landed
      exact ih landed

theorem sight_of_resolve {access : Access} {path : Path} {bytes : Bytes}
    (landed : disk.resolve access path = .ok (.file parent name bytes)) :
    disk.root.sight? parent name = some (.file bytes) := by
  rw [resolve] at landed
  split at landed
  · cases landed
  · split at landed
    · cases landed
    · split at landed
      · cases landed
      · exact sight_of_follow landed

theorem resolve_saved (held : disk.root.sight? parent name = some (.file old)) (path : Path)
    (bytes : Bytes) (access : Access) (asked : Path) :
    (disk.save parent name path bytes).resolve access asked =
      (disk.resolve access asked).map (Landing.refill parent name bytes) := by
  rw [resolve, resolve]
  split
  · rfl
  · split
    · rfl
    · split
      · rfl
      · exact follow_saved held path bytes access linkBound disk.workingDirectory asked.steps

-- A path that is open for writing leads to the same place for reading.
theorem follow_of_write {links : Nat} {here : Location} {steps : List Step} {landing : Landing}
    (landed : disk.follow .write links here steps = .ok landing) :
    disk.follow .read links here steps = .ok landing := by
  induction links, here, steps using follow.induct disk .write with
  | case1 links here => simpa [follow] using landed
  | case2 links here steps ih => simpa [follow] using ih (by simpa [follow] using landed)
  | case3 links here steps ih => simpa [follow] using ih (by simpa [follow] using landed)
  | case4 links here steps ih => simpa [follow] using ih (by simpa [follow] using landed)
  | case5 links here steps ih => simpa [follow] using ih (by simpa [follow] using landed)
  | case6 links here asked steps ended => simp [follow, ended] at landed
  | case7 links here asked steps inner long =>
      rw [follow, if_neg inner, if_pos long] at landed
      cases landed
  | case8 links here asked short missing inner => simpa [follow, short, missing] using landed
  | case9 links here asked steps inner short missing more =>
      rw [follow, if_neg inner, if_neg short, missing] at landed
      simp [more] at landed
  | case10 links here asked steps inner short entries found ih =>
      rw [follow, if_neg inner, if_neg short, found] at landed
      simpa [follow, short, found] using ih landed
  | case11 links here asked short kept found inner => simpa [follow, short, found] using landed
  | case12 links here asked steps inner short kept found more =>
      rw [follow, if_neg inner, if_neg short, found] at landed
      simp [more] at landed
  | case13 here asked steps inner short target found =>
      rw [follow, if_neg inner, if_neg short, found] at landed
      cases landed
  | case14 here asked steps inner short target found links ih =>
      rw [follow, if_neg inner, if_neg short, found] at landed
      simpa [follow, short, found] using ih landed

theorem resolve_of_write {path : Path} {landing : Landing}
    (landed : disk.resolve .write path = .ok landing) : disk.resolve .read path = .ok landing := by
  rw [resolve] at landed ⊢
  split at landed
  · cases landed
  · split at landed
    · cases landed
    · split at landed
      · cases landed
      · rename_i clear filled short
        rw [if_neg clear, if_neg filled, if_neg short]
        exact follow_of_write landed

theorem read_placed {path : Path} {bytes : Bytes}
    (landed : disk.resolve .read path = .ok (.file parent name bytes)) : disk.read path = .ok bytes := by
  rw [read, landed]

def place? (disk : Disk) (access : Access) (path : Path) : Option (Location × Text) :=
  match disk.resolve access path with
  | .ok (.file parent name _) => some (parent, name)
  | _ => none

theorem place_eq_some {access : Access} {path : Path} :
    disk.place? access path = some (parent, name) ↔
      ∃ bytes, disk.resolve access path = .ok (.file parent name bytes) := by
  rw [place?]
  constructor
  · intro placed
    split at placed
    · rename_i bytes landed
      cases placed
      exact ⟨bytes, landed⟩
    · cases placed
  · rintro ⟨bytes, landed⟩
    rw [landed]

theorem place_is_some {access : Access} {path : Path} :
    (disk.place? access path).isSome ↔
      ∃ parent name bytes, disk.resolve access path = .ok (.file parent name bytes) := by
  simp only [Option.isSome_iff_exists, Prod.exists, place_eq_some]

theorem place_saved (held : disk.root.sight? parent name = some (.file old)) (path : Path)
    (bytes : Bytes) (access : Access) (asked : Path) :
    (disk.save parent name path bytes).place? access asked = disk.place? access asked := by
  rw [place?, place?, resolve_saved held]
  cases disk.resolve access asked with
  | error fault => rfl
  | ok landing =>
      cases landing with
      | file location other kept =>
          by_cases refilled : location = parent ∧ other = name
          · simp [Except.map, Landing.refill, refilled]
          · simp [Except.map, Landing.refill, refilled]
      | _ => rfl

theorem read_refilled (held : disk.root.sight? parent name = some (.file old)) {path : Path}
    (bytes : Bytes) {asked : Path} (apart : disk.place? .read asked ≠ some (parent, name)) :
    (disk.save parent name path bytes).read asked = disk.read asked := by
  rw [read, read, resolve_saved held]
  cases landed : disk.resolve .read asked with
  | error fault => rfl
  | ok landing =>
      cases landing with
      | file location other kept =>
          have elsewhere : ¬ (location = parent ∧ other = name) := by
            rintro ⟨rfl, rfl⟩
            exact apart (place_eq_some.mpr ⟨kept, landed⟩)
          simp [Except.map, Landing.refill, elsewhere]
      | _ => rfl

theorem write_eq_ok {disk next : Disk} {path : Path} {bytes : Bytes}
    (written : Store.write disk path bytes = .ok next) :
    ∃ parent name, next = disk.save parent name path bytes ∧
      ((∃ old, disk.resolve .write path = .ok (.file parent name old)) ∨
        disk.resolve .write path = .ok (.absent parent name)) := by
  change write disk path bytes = _ at written
  rw [write] at written
  split at written
  · rename_i landed
    cases written
    exact ⟨_, _, rfl, .inl ⟨_, landed⟩⟩
  · rename_i landed
    cases written
    exact ⟨_, _, rfl, .inr landed⟩
  · cases written
  · cases written

theorem logged {disk next : Disk} {path : Path} {bytes : Bytes}
    (written : Store.write disk path bytes = .ok next) : next.writes = disk.writes ++ [(path, bytes)] := by
  obtain ⟨parent, name, rfl, -⟩ := write_eq_ok written
  rfl

def KeepsPlaces (start disk : Disk) : Prop :=
  ∀ access path, disk.place? access path = start.place? access path

def NameOneFile (start : Disk) (a b : Path) : Prop :=
  (start.place? .read a).isSome ∧ start.place? .read a = start.place? .read b

theorem replaces (start : Disk) {paths : List Path}
    (present : ∀ path ∈ paths, (start.place? .read path).isSome) :
    Replaces paths start.NameOneFile start.KeepsPlaces where
  itself path listed := ⟨present path listed, rfl⟩
  shared disk sound path _ asked same := by
    obtain ⟨⟨parent, name⟩, here⟩ := Option.isSome_iff_exists.mp same.1
    obtain ⟨bytes, landed⟩ := place_eq_some.mp ((sound .read path).trans here)
    obtain ⟨others, landed_other⟩ := place_eq_some.mp ((sound .read asked).trans (same.2 ▸ here))
    have one := sight_of_resolve landed
    rw [sight_of_resolve landed_other] at one
    cases one
    exact (read_placed landed_other).trans (read_placed landed).symm
  written disk next sound path listed bytes wrote := by
    obtain ⟨parent, name, rfl, ⟨old, open_at⟩ | fresh⟩ := write_eq_ok wrote
    · have landed := resolve_of_write open_at
      have held := sight_of_resolve landed
      have here : start.place? .read path = some (parent, name) :=
        (sound .read path).symm.trans (place_eq_some.mpr ⟨old, landed⟩)
      have stays (access : Access) (asked : Path) :
          (disk.save parent name path bytes).place? access asked = start.place? access asked :=
        (place_saved held path bytes access asked).trans (sound access asked)
      refine ⟨stays, ?_, fun asked apart => read_refilled held bytes ?_⟩
      · have refilled : (disk.save parent name path bytes).resolve .read path =
            .ok (.file parent name bytes) := by
          rw [resolve_saved held, landed]
          simp [Except.map, Landing.refill]
        exact read_placed refilled
      · rw [sound .read asked]
        exact fun there => apart ⟨present path listed, here.trans there.symm⟩
    · have placed := present path listed
      rw [← sound .read path, place?, resolve_of_write fresh] at placed
      cases placed

theorem writable (start : Disk) {paths : List Path}
    (open_paths : ∀ path ∈ paths, (start.place? .write path).isSome) {disk : Disk}
    (sound : start.KeepsPlaces disk) {path : Path} (listed : path ∈ paths) (bytes : Bytes) :
    ∃ next, Store.write disk path bytes = .ok next := by
  have open_path := open_paths path listed
  rw [← sound .write path] at open_path
  obtain ⟨parent, name, old, landed⟩ := place_is_some.mp open_path
  refine ⟨disk.save parent name path bytes, ?_⟩
  change write disk path bytes = _
  rw [write, landed]

theorem place_of_write {path : Path} (open_path : (disk.place? .write path).isSome) :
    (disk.place? .read path).isSome := by
  obtain ⟨parent, name, bytes, landed⟩ := place_is_some.mp open_path
  exact place_is_some.mpr ⟨parent, name, bytes, resolve_of_write landed⟩

theorem serves (start : Disk) {paths : List Path}
    (open_paths : ∀ path ∈ paths, (start.place? .write path).isSome) :
    Serves paths start.NameOneFile fun disk =>
      start.KeepsPlaces disk ∧ ∀ path ∈ paths, ∃ bytes, Store.read disk path = .ok bytes :=
  (start.replaces fun path listed => place_of_write (open_paths path listed)).serves
    fun _ sound _ listed => start.writable open_paths sound listed

theorem place_iff_read {path : Path} :
    (disk.place? .read path).isSome ↔ ∃ bytes, Store.read disk path = .ok bytes := by
  rw [place_is_some]
  constructor
  · rintro ⟨parent, name, bytes, landed⟩
    exact ⟨bytes, read_placed landed⟩
  · rintro ⟨bytes, held⟩
    change disk.read path = _ at held
    rw [read] at held
    split at held
    · rename_i landed
      exact ⟨_, _, _, landed⟩
    · cases held
    · cases held
    · cases held

-- A finished update has put the edits behind every name of the listed files. Each path still names the
-- file that it named, and only files that change were written.
theorem update_finished {start after : Disk} {operation : Operation} (updating : operation.isUpdate)
    {paths : List Path} {outcome : Outcome}
    (ran : Batch.run operation false paths start = (after, .ok outcome)) :
    ∃ updates version,
      Batch.prepare operation paths start =
        .ok (Batch.filesAt start paths, .update updates version) ∧
      start.KeepsPlaces after ∧ Batch.Mapped start.NameOneFile updates start paths after ∧
      after.writes = start.writes ++
        (paths.filter (Batch.changes updates (Batch.contentOf start))).map fun path =>
          (path, Batch.newContent updates (Batch.contentOf start) path) := by
  obtain ⟨updates, version, prepared, held, saves, -⟩ := Batch.saves_of_run updating ran
  have present : ∀ path ∈ paths, (start.place? .read path).isSome :=
    fun path listed => place_iff_read.mpr ⟨_, held path listed⟩
  obtain ⟨sound, mapped⟩ :=
    Batch.mapped_of_saves (start.replaces present) (fun _ _ => rfl) held saves
  have log := log_of_writes Disk.writes id (fun _ _ _ _ => logged) (Batch.writes_of_saves saves)
  rw [List.map_id] at log
  exact ⟨updates, version, prepared, sound, mapped, log⟩

theorem update_finishes {start : Disk} {operation : Operation} {paths : List Path}
    (open_paths : ∀ path ∈ paths, (start.place? .write path).isSome) {files : List Scanned}
    {updates : List Update} {version : Option Text}
    (prepared : Batch.prepare operation paths start = .ok (files, .update updates version)) :
    ∃ after outcome, Batch.run operation false paths start = (after, .ok outcome) ∧
      outcome.version = version := by
  obtain ⟨assigned, -, read, -⟩ := Batch.prepare_eq_ok.mp prepared
  obtain ⟨rfl, held⟩ := Batch.read_all_eq_ok read
  have healthy : start.KeepsPlaces start ∧
      ∀ path ∈ paths, ∃ bytes, Store.read start path = .ok bytes :=
    ⟨fun _ _ => rfl, fun path listed => ⟨_, held path listed⟩⟩
  obtain ⟨after, outcome, ran, announced, -⟩ :=
    Batch.run_update (start.serves open_paths) healthy prepared
  exact ⟨after, outcome, ran, announced⟩

end Disk

end AssemblyVersions
