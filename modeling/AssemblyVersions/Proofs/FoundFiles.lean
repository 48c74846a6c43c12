import AssemblyVersions.Proofs.Findings

set_option autoImplicit false

namespace AssemblyVersions

structure Search.Finds (search : Search) (entries : Folder) (place : Location) : Prop where
  file : ∃ bytes, (Node.folder entries).under? place = some (.file bytes)
  named : ∃ name ∈ place.getLast?, ∃ wanted ∈ search.fileNames, Text.sameIgnoringCase wanted name
  near : Allows search.maxDepth place.length

structure Search.Lists (search : Search) (entries : Folder) (place : Location) : Prop where
  folder : ∃ inner, (Node.folder entries).under? place = some (.folder inner)
  near : Allows search.maxDepth (place.length + 1)

-- What is assumed of the directory walk: the root does not stand for standard input, and no path is
-- too long for a folder to be listed by it. `Disk.find_of_not_walks` is the other case.
structure Search.Walks (search : Search) (root : Path) (entries : Folder) : Prop where
  descends : Disk.isStandardInput root = false
  lists : ∀ place, search.Lists entries place → (root.below place).isTooLong = false

def Disk.FolderAt (disk : Disk) (root : Path) (entries : Folder) : Prop :=
  ∃ location, disk.resolve .read root = .ok (.folder location) ∧
    disk.root.at? location = some entries

theorem Search.holds_iff_finds {search : Search} {entries : Folder} {place : Location} :
    (Node.folder entries).Holds search search.maxDepth [] place ↔ search.Finds entries place := by
  have wants_iff (name : Text) :
      search.wants name = true ↔ ∃ wanted ∈ search.fileNames, Text.sameIgnoringCase wanted name :=
    List.any_eq_true
  cases last : place.getLast? with
  | none =>
      obtain rfl := List.getLast?_eq_none_iff.mp last
      exact iff_of_false Node.not_holds_folder fun finds => nomatch finds.named
  | some name =>
      constructor
      · intro holds
        have wanted := (wants_iff _).mp holds.wanted
        rw [last] at wanted
        exact ⟨holds.file, ⟨name, last, wanted⟩, holds.near⟩
      · intro finds
        obtain ⟨other, same, wanted⟩ := finds.named
        refine ⟨finds.file, (wants_iff _).mpr ?_, finds.near⟩
        rw [show place.getLast? = some other from same]
        exact wanted

theorem Search.stops_iff {search : Search} {root : Path} {entries : Folder} {place : Location} :
    (Node.folder entries).Stops search.maxDepth root place ↔
      search.Lists entries place ∧ (root.below place).isTooLong = true :=
  ⟨fun stops => ⟨⟨stops.folder, stops.entered⟩, stops.tooLong⟩,
    fun ⟨lists, tooLong⟩ => ⟨lists.folder, lists.near, tooLong⟩⟩

namespace Disk

variable {disk : Disk} {search : Search} {root : Path} {entries : Folder}

theorem FolderAt.filled (folder : disk.FolderAt root entries) : root.text ≠ [] := by
  obtain ⟨location, resolved, -⟩ := folder
  intro empty
  rw [resolve, if_pos empty] at resolved
  split at resolved <;> cases resolved

theorem FolderAt.find_tells (folder : disk.FolderAt root entries) (arranged : entries.Arranged)
    (unfollowed : search.followLinks = false) (descends : isStandardInput root = false) :
    ∃ finding : Finding,
      disk.find search root = finding.mapError (fun obstacle => .discovery obstacle.message) ∧
        Search.Tells root (search.Finds entries)
          (fun place => search.Lists entries place ∧ (root.below place).isTooLong = true) finding := by
  obtain ⟨location, resolved, held⟩ := folder
  have passed : disk.linkRule search = passOver := by
    rw [linkRule, unfollowed]
    rfl
  refine ⟨(Node.folder entries).find search passOver [] search.maxDepth ⟨root, location⟩ [], ?_, ?_⟩
  · rw [find, resolved]
    simp only [held, descends, passed, Bool.false_eq_true, if_false]
  · refine (Search.tells_congr (fun place => Search.holds_iff_finds) (fun place => Search.stops_iff)
      _).mp ?_
    exact (Node.folder entries).find_tells search arranged [] search.maxDepth ⟨root, location⟩ []

-- A search finds the wanted files and no others, whatever folders they are in, in the order of their
-- places and so of their paths.
theorem finds_wanted_in_order (folder : disk.FolderAt root entries) (arranged : entries.Arranged)
    (unfollowed : search.followLinks = false) (walks : search.Walks root entries) :
    ∃ places : List Location,
      disk.find search root = .ok (places.map root.below) ∧
        (∀ place, place ∈ places ↔ search.Finds entries place) ∧
        places.Pairwise Location.Before ∧
        (places.map root.below).Pairwise (fun a b => a.order b = .lt) ∧
        ∀ path ∈ places.map root.below, path.isNamed search.fileNames := by
  obtain ⟨finding, outcome, told⟩ := folder.find_tells arranged unfollowed walks.descends
  cases finding with
  | error obstacle =>
      obtain ⟨place, ⟨lists, tooLong⟩, -, -⟩ := told
      rw [walks.lists place lists] at tooLong
      cases tooLong
  | ok files =>
      obtain ⟨-, places, rfl, ordered, exactly⟩ := told
      have tree : (Node.folder entries).Arranged := arranged
      have proper : ∀ place ∈ places, ∀ name ∈ place, IsName name := by
        intro place held
        obtain ⟨bytes, found⟩ := ((exactly place).mp held).file
        exact Node.names_of_under tree found
      refine ⟨places, outcome, exactly, ordered, ?_, ?_⟩
      · exact List.pairwise_map.mpr (ordered.imp_of_mem fun held among before =>
          Path.order_below folder.filled (proper _ held) (proper _ among) before)
      · refine List.forall_mem_map.mpr fun place held => ?_
        obtain ⟨name, last, wanted⟩ := ((exactly place).mp held).named
        obtain ⟨parent, rfl⟩ := List.getLast?_eq_some_iff.mp last
        rw [Path.isNamed, Path.file_name_below folder.filled (proper _ held)]
        exact List.any_eq_true.mpr wanted

-- A hidden folder, a folder and a link that are named as the files are, spellings that differ in
-- case, and a file that lies too deep.
theorem finds_wanted_below_hidden_folder :
    let hidden : Folder :=
      .cons "a".toList (.folder (.cons "AssemblyInfo.cs".toList (.file []) .nil)) <|
        .cons "ASSEMBLYINFO.CS".toList (.file []) .nil
    let entries : Folder :=
      .cons "assemblyInfo.cs".toList (.link ⟨".git".toList⟩) <|
        .cons "AssemblyInfo.cs".toList (.folder (.cons "assemblyinfo.cs".toList (.file []) .nil)) <|
          .cons ".git".toList (.folder hidden) .nil
    let disk : Disk := { root := .cons "r".toList (.folder entries) .nil }
    let search : Search := { maxDepth := some 2 }
    let root : Path := ⟨"r".toList⟩
    disk.FolderAt root entries ∧ entries.Arranged ∧ search.followLinks = false ∧
      search.Walks root entries ∧
      ∃ places : List Location, disk.find search root = .ok (places.map root.below) ∧
        [".git".toList, "ASSEMBLYINFO.CS".toList] ∈ places ∧
        ["AssemblyInfo.cs".toList, "assemblyinfo.cs".toList] ∈ places ∧
        ["AssemblyInfo.cs".toList] ∉ places ∧ ["assemblyInfo.cs".toList] ∉ places ∧
        [".git".toList, "a".toList, "AssemblyInfo.cs".toList] ∉ places := by
  intro hidden entries disk search root
  have folder : disk.FolderAt root entries := ⟨["r".toList], by cbv, rfl⟩
  have arranged : entries.Arranged := by
    refine ⟨by decide, rfl, trivial, by decide, rfl, ⟨by decide, rfl, trivial, trivial⟩, by decide, rfl,
      ⟨by decide, rfl, ⟨by decide, rfl, trivial, trivial⟩, by decide, rfl, trivial, trivial⟩, trivial⟩
  have walks : search.Walks root entries := by
    refine ⟨by decide, fun place lists => ?_⟩
    obtain ⟨inner, found⟩ := lists.folder
    have short : place.length + 1 ≤ 2 := lists.near 2 rfl
    cases place with
    | nil => decide
    | cons step rest =>
        obtain rfl : rest = [] := List.eq_nil_of_length_eq_zero
          (Nat.le_zero.mp (Nat.le_of_succ_le_succ (Nat.le_of_succ_le_succ short)))
        obtain ⟨node, held, same⟩ := Node.under_cons_eq_some.mp found
        obtain rfl := Option.some.inj same
        obtain ⟨-, link⟩ | ⟨-, held⟩ := Folder.find_cons_eq_some.mp held
        · cases link
        obtain ⟨rfl, -⟩ | ⟨-, held⟩ := Folder.find_cons_eq_some.mp held
        · decide
        obtain ⟨rfl, -⟩ | ⟨-, none_held⟩ := Folder.find_cons_eq_some.mp held
        · decide
        · cases none_held
  obtain ⟨places, outcome, exactly, -, -⟩ := finds_wanted_in_order folder arranged rfl walks
  have allowed : ∀ {depth : Nat}, depth ≤ 2 → Allows search.maxDepth depth :=
    fun le bound held => Option.some.inj held ▸ le
  refine ⟨folder, arranged, rfl, walks, places, outcome, (exactly _).mpr ?_, (exactly _).mpr ?_,
    fun listed => ?_, fun listed => ?_, fun listed => ?_⟩
  · exact ⟨⟨[], rfl⟩, ⟨_, rfl, _, List.mem_singleton_self _, by decide⟩, allowed (by decide)⟩
  · exact ⟨⟨[], rfl⟩, ⟨_, rfl, _, List.mem_singleton_self _, by decide⟩, allowed (by decide)⟩
  · obtain ⟨bytes, found⟩ := ((exactly _).mp listed).file
    cases found
  · obtain ⟨bytes, found⟩ := ((exactly _).mp listed).file
    cases found
  · exact absurd (((exactly _).mp listed).near 2 rfl) (by decide)

-- The complement of `finds_wanted_in_order`: a root that stands for standard input has no files, and
-- otherwise the first folder in this order that cannot be listed is reported in place of any file.
theorem find_of_not_walks (folder : disk.FolderAt root entries) (arranged : entries.Arranged)
    (unfollowed : search.followLinks = false) (blocked : ¬ search.Walks root entries) :
    isStandardInput root = true ∧ disk.find search root = .ok [] ∨
      isStandardInput root = false ∧
        ∃ place, search.Lists entries place ∧ (root.below place).isTooLong = true ∧
          (∀ other, search.Lists entries other → other.Before place →
            (root.below other).isTooLong = false) ∧
          disk.find search root =
            .error (.discovery (Obstacle.unreachable (root.below place) .nameTooLong).message) := by
  cases descends : isStandardInput root with
  | true =>
      obtain ⟨location, resolved, held⟩ := folder
      refine .inl ⟨rfl, ?_⟩
      rw [find, resolved]
      simp only [held, descends, if_true]
  | false =>
      obtain ⟨finding, outcome, told⟩ := folder.find_tells arranged unfollowed descends
      refine .inr ⟨rfl, ?_⟩
      cases finding with
      | error obstacle =>
          obtain ⟨place, ⟨lists, tooLong⟩, least, rfl⟩ := told
          refine ⟨place, lists, tooLong, fun other listed before => ?_, outcome⟩
          exact eq_false_of_ne_true fun long => least other ⟨listed, long⟩ before
      | ok files =>
          have short (place : Location) (lists : search.Lists entries place) :
              (root.below place).isTooLong = false :=
            eq_false_of_ne_true fun long => told.1 place ⟨lists, long⟩
          exact absurd ⟨descends, short⟩ blocked

end Disk

end AssemblyVersions
