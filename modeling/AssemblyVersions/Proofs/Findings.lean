import AssemblyVersions.Discovery
import AssemblyVersions.Proofs.Places

set_option autoImplicit false

namespace AssemblyVersions

def Allows (levels : Option Nat) (depth : Nat) : Prop := ∀ bound ∈ levels, depth ≤ bound

theorem allows_below {levels : Option Nat} (entered : levels ≠ some 0) (depth : Nat) :
    Allows levels (depth + 1) ↔ Allows (levels.map (· - 1)) depth := by
  cases levels with
  | none => exact iff_of_true (fun _ none_left => nomatch none_left) fun _ none_left => nomatch none_left
  | some bound =>
      have positive : bound ≠ 0 := fun zero => entered (congrArg some zero)
      simp only [Allows, Option.map_some, Option.mem_some_iff, forall_eq']
      omega

@[simp] theorem allows_one_iff {levels : Option Nat} : Allows levels 1 ↔ levels ≠ some 0 := by
  cases levels with
  | none => exact iff_of_true (fun _ none_left => nomatch none_left) fun same => nomatch same
  | some bound =>
      simp only [Allows, Option.mem_some_iff, forall_eq', ne_eq, Option.some.injEq]
      omega

namespace Node

structure Holds (search : Search) (levels : Option Nat) (name : Text) (node : Node)
    (place : Location) : Prop where
  file : ∃ bytes, node.under? place = some (.file bytes)
  wanted : search.wants (place.getLast?.getD name) = true
  near : Allows levels place.length

structure Stops (levels : Option Nat) (path : Path) (node : Node) (place : Location) : Prop where
  folder : ∃ entries, node.under? place = some (.folder entries)
  entered : Allows levels (place.length + 1)
  tooLong : (path.below place).isTooLong = true

variable {search : Search} {levels : Option Nat} {path : Path} {entries : Folder} {name : Text}

theorem not_holds_folder : ¬ (folder entries).Holds search levels name [] := by
  rintro ⟨⟨bytes, same⟩, -, -⟩
  cases same

theorem holds_folder_cons (entered : levels ≠ some 0) {step : Text} {place : Location} :
    (folder entries).Holds search levels name (step :: place) ↔
      ∃ node, entries.find? step = some node ∧
        node.Holds search (levels.map (· - 1)) step place := by
  have last : (step :: place).getLast?.getD name = place.getLast?.getD step := by
    rw [List.getLast?_cons, Option.getD_some]
  constructor
  · rintro ⟨⟨bytes, found⟩, wanted, near⟩
    obtain ⟨node, held, inner⟩ := under_cons_eq_some.mp found
    exact ⟨node, held, ⟨bytes, inner⟩, last ▸ wanted, (allows_below entered _).mp near⟩
  · rintro ⟨node, held, ⟨bytes, inner⟩, wanted, near⟩
    exact ⟨⟨bytes, under_cons_eq_some.mpr ⟨node, held, inner⟩⟩, last ▸ wanted,
      (allows_below entered _).mpr near⟩

theorem stops_folder_cons (entered : levels ≠ some 0) {step : Text} {place : Location} :
    (folder entries).Stops levels path (step :: place) ↔
      ∃ node, entries.find? step = some node ∧
        node.Stops (levels.map (· - 1)) (path.child step) place := by
  constructor
  · rintro ⟨⟨inside, found⟩, near, tooLong⟩
    obtain ⟨node, held, inner⟩ := under_cons_eq_some.mp found
    exact ⟨node, held, ⟨inside, inner⟩, (allows_below entered _).mp near, tooLong⟩
  · rintro ⟨node, held, ⟨inside, inner⟩, near, tooLong⟩
    exact ⟨⟨inside, under_cons_eq_some.mpr ⟨node, held, inner⟩⟩, (allows_below entered _).mpr near,
      tooLong⟩

end Node

namespace Search

-- What a finding says, given the places below a path that are wanted and those that stop the search.
def Tells (path : Path) (wanted stops : Location → Prop) : Finding → Prop
  | .ok files =>
      (∀ place, ¬ stops place) ∧
        ∃ places : List Location, files = places.map path.below ∧
          places.Pairwise Location.Before ∧ ∀ place, place ∈ places ↔ wanted place
  | .error obstacle =>
      ∃ place, stops place ∧ (∀ other, stops other → ¬ other.Before place) ∧
        obstacle = .unreachable (path.below place) .nameTooLong

theorem tells_congr {path : Path} {wanted wanted' stops stops' : Location → Prop}
    (same : ∀ place, wanted place ↔ wanted' place) (alike : ∀ place, stops place ↔ stops' place)
    (finding : Finding) : Tells path wanted stops finding ↔ Tells path wanted' stops' finding := by
  rw [funext fun place => propext (same place), funext fun place => propext (alike place)]

theorem tells_nothing {path : Path} {wanted stops : Location → Prop}
    (unwanted : ∀ place, ¬ wanted place) (free : ∀ place, ¬ stops place) :
    Tells path wanted stops (.ok []) :=
  ⟨free, [], rfl, .nil, fun place => iff_of_false List.not_mem_nil (unwanted place)⟩

def joined (found : List (Text × Finding)) : Finding :=
  ((found.map Prod.snd).mapM id).map List.flatten

@[simp] theorem joined_error (name : Text) (obstacle : Obstacle) (found : List (Text × Finding)) :
    joined ((name, .error obstacle) :: found) = .error obstacle := by
  rw [joined, List.map_cons, List.mapM_cons]
  rfl

@[simp] theorem joined_ok (name : Text) (files : List Path) (found : List (Text × Finding)) :
    joined ((name, .ok files) :: found) = (joined found).map (files ++ ·) := by
  rw [joined, joined, List.map_cons, List.mapM_cons]
  cases (found.map Prod.snd).mapM id <;> rfl

def Among (found : List (Text × Finding)) (given : Location → Prop) : Location → Prop
  | [] => False
  | name :: place => name ∈ found.map Prod.fst ∧ given (name :: place)

def InTurn (found : List (Text × Finding)) : Prop :=
  found.Pairwise fun a b => Utf8.encode a.1 < Utf8.encode b.1

theorem not_among_nil (given : Location → Prop) (place : Location) : ¬ Among [] given place := by
  cases place with
  | nil => exact id
  | cons name place => exact fun held => List.not_mem_nil held.1

section Entry

variable {path : Path} {wanted stops given : Location → Prop} {name : Text} {finding : Finding}
  {found : List (Text × Finding)} {place : Location}

theorem among_cons :
    Among ((name, finding) :: found) given place ↔
      (∃ rest, place = name :: rest ∧ given (name :: rest)) ∨ Among found given place := by
  cases place with
  | nil => exact ⟨False.elim, fun either => either.elim (fun ⟨_, same, _⟩ => nomatch same) id⟩
  | cons step place =>
      rw [Among, List.map_cons, List.mem_cons, or_and_right]
      refine or_congr ?_ Iff.rfl
      constructor
      · rintro ⟨rfl, held⟩
        exact ⟨place, rfl, held⟩
      · rintro ⟨rest, same, held⟩
        cases same
        exact ⟨rfl, held⟩

theorem before_among (first : ∀ entry ∈ found, Utf8.encode name < Utf8.encode entry.1)
    (among : Among found given place) (rest : Location) : Location.Before (name :: rest) place := by
  cases place with
  | nil => exact among.elim
  | cons step place =>
      obtain ⟨entry, held, rfl⟩ := List.mem_map.mp among.1
      exact Location.before_cons.mpr (.inl (first entry held))

-- What stops the search at its first entry comes before all that would stop it later.
theorem stopped_at_first (first : ∀ entry ∈ found, Utf8.encode name < Utf8.encode entry.1)
    {obstacle : Obstacle}
    (here : Tells (path.child name) (fun rest => wanted (name :: rest))
      (fun rest => stops (name :: rest)) (.error obstacle)) :
    Tells path (Among ((name, finding) :: found) wanted) (Among ((name, finding) :: found) stops)
      (.error obstacle) := by
  obtain ⟨place, stop, least, same⟩ := here
  refine ⟨name :: place, among_cons.mpr (.inl ⟨place, rfl, stop⟩), ?_, same⟩
  intro other stopped before
  rcases among_cons.mp stopped with ⟨rest, rfl, held⟩ | later
  · rcases Location.before_cons.mp before with less | ⟨-, earlier⟩
    · exact List.lt_irrefl _ less
    · exact least rest held earlier
  · exact Location.before_asymm before (before_among first later place)

theorem stopped_later {obstacle : Obstacle} (free : ∀ rest, ¬ stops (name :: rest))
    (later : Tells path (Among found wanted) (Among found stops) (.error obstacle)) :
    Tells path (Among ((name, finding) :: found) wanted) (Among ((name, finding) :: found) stops)
      (.error obstacle) := by
  obtain ⟨place, stop, least, same⟩ := later
  refine ⟨place, among_cons.mpr (.inr stop), ?_, same⟩
  intro other stopped
  rcases among_cons.mp stopped with ⟨rest, -, held⟩ | after
  · exact absurd held (free rest)
  · exact least other after

theorem found_at_both (first : ∀ entry ∈ found, Utf8.encode name < Utf8.encode entry.1)
    {files more : List Path}
    (here : Tells (path.child name) (fun rest => wanted (name :: rest))
      (fun rest => stops (name :: rest)) (.ok files))
    (later : Tells path (Among found wanted) (Among found stops) (.ok more)) :
    Tells path (Among ((name, finding) :: found) wanted) (Among ((name, finding) :: found) stops)
      (.ok (files ++ more)) := by
  obtain ⟨free, places, rfl, ordered, exactly⟩ := here
  obtain ⟨unstopped, others, rfl, arranged, fully⟩ := later
  refine ⟨?_, places.map (name :: ·) ++ others, ?_, ?_, ?_⟩
  · intro place stopped
    rcases among_cons.mp stopped with ⟨rest, -, held⟩ | after
    · exact free rest held
    · exact unstopped place after
  · rw [List.map_append, List.map_map]
    rfl
  · refine List.pairwise_append.mpr ⟨?_, arranged, ?_⟩
    · exact List.pairwise_map.mpr (ordered.imp fun before =>
        Location.before_cons.mpr (.inr ⟨rfl, before⟩))
    · intro place held other after
      obtain ⟨rest, -, rfl⟩ := List.mem_map.mp held
      exact before_among first ((fully other).mp after) rest
  · intro place
    rw [List.mem_append, List.mem_map, fully, among_cons]
    refine or_congr ?_ Iff.rfl
    constructor
    · rintro ⟨rest, held, rfl⟩
      exact ⟨rest, rfl, (exactly rest).mp held⟩
    · rintro ⟨rest, rfl, held⟩
      exact ⟨rest, (exactly rest).mpr held, rfl⟩

end Entry

theorem tells_joined {path : Path} {wanted stops : Location → Prop} {found : List (Text × Finding)}
    (sorted : InTurn found)
    (each : ∀ entry ∈ found, Tells (path.child entry.1) (fun rest => wanted (entry.1 :: rest))
      (fun rest => stops (entry.1 :: rest)) entry.2) :
    Tells path (Among found wanted) (Among found stops) (joined found) := by
  induction found with
  | nil => exact tells_nothing (not_among_nil wanted) (not_among_nil stops)
  | cons entry found ih =>
      obtain ⟨name, finding⟩ := entry
      obtain ⟨first, sorted⟩ := List.pairwise_cons.mp sorted
      obtain ⟨here, each⟩ := List.forall_mem_cons.mp each
      have later := ih sorted each
      cases finding with
      | error obstacle =>
          rw [joined_error]
          exact stopped_at_first first here
      | ok files =>
          rw [joined_ok]
          cases outcome : joined found with
          | error obstacle =>
              rw [outcome] at later
              exact stopped_later here.1 later
          | ok more =>
              rw [outcome] at later
              exact found_at_both first here later

theorem by_name_trans (a b c : Text × Finding) (first : (compare a.1 b.1).isLE = true)
    (second : (compare b.1 c.1).isLE = true) : (compare a.1 c.1).isLE = true :=
  Std.TransCmp.isLE_trans first second

theorem by_name_total (a b : Text × Finding) :
    ((compare a.1 b.1).isLE || (compare b.1 a.1).isLE) = true := by
  cases order : compare a.1 b.1 with
  | lt => rfl
  | eq => rfl
  | gt =>
      rw [Std.OrientedCmp.lt_of_gt order]
      rfl

theorem in_turn_sorted {found : List (Text × Finding)} (apart : (found.map Prod.fst).Nodup) :
    InTurn (found.mergeSort fun a b => (compare a.1 b.1).isLE) := by
  have perm := List.mergeSort_perm found fun a b => (compare a.1 b.1).isLE
  have different := List.pairwise_map.mp ((perm.map Prod.fst).nodup_iff.mpr apart)
  have sorted := List.pairwise_mergeSort by_name_trans by_name_total found
  refine (sorted.and different).imp fun ⟨le, ne⟩ => Utf8.compare_eq_lt_iff.mp ?_
  rcases Ordering.isLE_iff_eq_lt_or_eq_eq.mp le with less | same
  · exact less
  · exact absurd (Std.LawfulEqCmp.eq_of_compare same) ne

-- A folder's findings tell of everything in it, in whatever order it holds its entries.
theorem tells_in_order {path : Path} {wanted stops : Location → Prop} {found : List (Text × Finding)}
    (apart : (found.map Prod.fst).Nodup)
    (each : ∀ entry ∈ found, Tells (path.child entry.1) (fun rest => wanted (entry.1 :: rest))
      (fun rest => stops (entry.1 :: rest)) entry.2)
    (wanted_among : ∀ place, wanted place ↔ Among found wanted place)
    (stops_among : ∀ place, stops place ↔ Among found stops place) :
    Tells path wanted stops (inOrder found) := by
  have perm := List.mergeSort_perm found fun a b => (compare a.1 b.1).isLE
  have among (given : Location → Prop) (place : Location) :
      Among (found.mergeSort fun a b => (compare a.1 b.1).isLE) given place ↔
        Among found given place := by
    cases place with
    | nil => exact Iff.rfl
    | cons name place => exact and_congr_left fun _ => (perm.map Prod.fst).mem_iff
  have told := tells_joined (in_turn_sorted apart) fun entry held => each entry (perm.mem_iff.mp held)
  exact (tells_congr (fun place => (among wanted place).trans (wanted_among place).symm)
    (fun place => (among stops place).trans (stops_among place).symm) _).mp told

end Search

section Walk

variable (search : Search) (rule : LinkRule) (trail : List Place) (levels : Option Nat)
  (place : Place)

theorem Folder.mem_find_each (entries : Folder) (name : Text) :
    name ∈ (entries.findEach search rule trail levels place).map Prod.fst ↔
      (entries.find? name).isSome := by
  match entries with
  | .nil => exact iff_of_false List.not_mem_nil Bool.false_ne_true
  | .cons other node rest =>
      rw [findEach, List.map_cons, List.mem_cons, rest.mem_find_each name, find?]
      by_cases same : other = name
      · rw [if_pos same]
        exact iff_of_true (.inl same.symm) rfl
      · rw [if_neg same, or_iff_right (Ne.symm same)]

theorem Folder.find_each_apart (entries : Folder) (arranged : entries.Arranged) :
    ((entries.findEach search rule trail levels place).map Prod.fst).Nodup := by
  match entries with
  | .nil => exact .nil
  | .cons name node rest =>
      obtain ⟨-, absent, -, arranged⟩ := arranged
      rw [findEach, List.map_cons, List.nodup_cons, mem_find_each, absent]
      exact ⟨Bool.false_ne_true, rest.find_each_apart arranged⟩

end Walk

section Entry

variable (search : Search) {levels : Option Nat} {path : Path} (name : Text)

theorem Search.tells_file (levels : Option Nat) (path : Path) (bytes : Bytes) :
    Tells path ((Node.file bytes).Holds search levels name) ((Node.file bytes).Stops levels path)
      (.ok (search.pick name path)) := by
  have leaf : ∀ entries, Node.file bytes ≠ .folder entries := fun _ same => nomatch same
  refine ⟨?_, if search.wants name then [[]] else [], ?_, ?_, fun place => ?_⟩
  · intro place stops
    obtain ⟨entries, found⟩ := stops.folder
    exact leaf entries (Node.eq_of_leaf leaf found).2.symm
  · rw [pick]
    split <;> rfl
  · split
    · exact List.pairwise_singleton _ _
    · exact .nil
  · by_cases wants : search.wants name
    · rw [if_pos wants, List.mem_singleton]
      refine ⟨fun here => ?_, fun held => ?_⟩
      · rw [here]
        exact ⟨⟨bytes, rfl⟩, wants, fun bound _ => Nat.zero_le bound⟩
      · obtain ⟨_, found⟩ := held.file
        exact (Node.eq_of_leaf leaf found).1
    · rw [if_neg wants]
      refine iff_of_false List.not_mem_nil fun held => ?_
      obtain ⟨_, found⟩ := held.file
      obtain rfl := (Node.eq_of_leaf leaf found).1
      exact wants held.wanted

theorem Search.tells_link (levels : Option Nat) (path : Path) (target : Path) :
    Tells path ((Node.link target).Holds search levels name) ((Node.link target).Stops levels path)
      (.ok []) := by
  have leaf : ∀ entries, Node.link target ≠ .folder entries := fun _ same => nomatch same
  refine tells_nothing (fun place held => ?_) fun place stops => ?_
  · obtain ⟨bytes, found⟩ := held.file
    cases (Node.eq_of_leaf leaf found).2
  · obtain ⟨entries, found⟩ := stops.folder
    cases (Node.eq_of_leaf leaf found).2

theorem Search.tells_unentered (path : Path) (entries : Folder) :
    Tells path ((Node.folder entries).Holds search (some 0) name)
      ((Node.folder entries).Stops (some 0) path) (.ok []) := by
  refine tells_nothing (fun place held => ?_) fun place stops => ?_
  · cases place with
    | nil => exact Node.not_holds_folder held
    | cons step place => exact Nat.not_succ_le_zero _ (held.near 0 rfl)
  · exact Nat.not_succ_le_zero _ (stops.entered 0 rfl)

theorem Search.tells_unlisted (entered : levels ≠ some 0) (tooLong : path.isTooLong = true)
    (entries : Folder) :
    Tells path ((Node.folder entries).Holds search levels name)
      ((Node.folder entries).Stops levels path) (.error (.unreachable path .nameTooLong)) :=
  ⟨[], ⟨⟨entries, rfl⟩, allows_one_iff.mpr entered, tooLong⟩,
    fun other _ => Location.not_before_nil other, rfl⟩

theorem Search.tells_listed (entered : levels ≠ some 0) (listed : ¬ path.isTooLong = true)
    {entries : Folder} {found : List (Text × Finding)}
    (names : ∀ step, step ∈ found.map Prod.fst ↔ (entries.find? step).isSome)
    (apart : (found.map Prod.fst).Nodup)
    (each : ∀ entry ∈ found, ∃ node, entries.find? entry.1 = some node ∧
      Tells (path.child entry.1) (node.Holds search (levels.map (· - 1)) entry.1)
        (node.Stops (levels.map (· - 1)) (path.child entry.1)) entry.2) :
    Tells path ((Node.folder entries).Holds search levels name)
      ((Node.folder entries).Stops levels path) (inOrder found) := by
  refine tells_in_order apart (fun entry among => ?_) (fun place => ?_) fun place => ?_
  · obtain ⟨node, held, told⟩ := each entry among
    refine (tells_congr (fun rest => ?_) (fun rest => ?_) _).mpr told
    · rw [Node.holds_folder_cons entered, held]
      simp only [Option.some.injEq, exists_eq_left']
    · rw [Node.stops_folder_cons entered, held]
      simp only [Option.some.injEq, exists_eq_left']
  · cases place with
    | nil => exact iff_of_false Node.not_holds_folder id
    | cons step place =>
        refine ⟨fun held => ⟨(names step).mpr ?_, held⟩, And.right⟩
        obtain ⟨node, inside, -⟩ := (Node.holds_folder_cons entered).mp held
        exact Option.isSome_of_eq_some inside
  · cases place with
    | nil => exact iff_of_false (fun stops => listed stops.tooLong) id
    | cons step place =>
        refine ⟨fun stops => ⟨(names step).mpr ?_, stops⟩, And.right⟩
        obtain ⟨node, inside, -⟩ := (Node.stops_folder_cons entered).mp stops
        exact Option.isSome_of_eq_some inside

end Entry

mutual
-- What is found at an entry tells of all that is below it: a file is its own place, and a folder is
-- listed before its entries are visited.
theorem Node.find_tells (search : Search) (node : Node) (arranged : node.Arranged)
    (trail : List Place) (levels : Option Nat) (place : Place) (name : Text) :
    Search.Tells place.path (node.Holds search levels name) (node.Stops levels place.path)
      (node.find search Disk.passOver trail levels place name) := by
  match node with
  | .file bytes => exact search.tells_file name levels place.path bytes
  | .link target => exact search.tells_link name levels place.path target
  | .folder entries =>
      rw [Node.find]
      by_cases unentered : levels = some 0
      · rw [if_pos unentered, unentered]
        exact search.tells_unentered name place.path entries
      · rw [if_neg unentered]
        by_cases tooLong : place.path.isTooLong
        · rw [if_pos tooLong]
          exact search.tells_unlisted name unentered tooLong entries
        · rw [if_neg tooLong]
          exact search.tells_listed name unentered tooLong
            (entries.mem_find_each search Disk.passOver (place :: trail) (levels.map (· - 1)) place)
            (entries.find_each_apart search Disk.passOver (place :: trail) (levels.map (· - 1)) place
              arranged)
            (entries.find_each_tells search arranged (place :: trail) (levels.map (· - 1)) place)
theorem Folder.find_each_tells (search : Search) (entries : Folder) (arranged : entries.Arranged)
    (trail : List Place) (levels : Option Nat) (place : Place) :
    ∀ entry ∈ entries.findEach search Disk.passOver trail levels place,
      ∃ node, entries.find? entry.1 = some node ∧
        Search.Tells (place.path.child entry.1) (node.Holds search levels entry.1)
          (node.Stops levels (place.path.child entry.1)) entry.2 := by
  match entries with
  | .nil => exact fun entry none_held => nomatch none_held
  | .cons name node rest =>
      obtain ⟨-, absent, arranged, rest_arranged⟩ := arranged
      rw [Folder.findEach, List.forall_mem_cons]
      refine ⟨⟨node, if_pos rfl, ?_⟩, fun entry held => ?_⟩
      · exact node.find_tells search arranged trail levels
          ⟨place.path.child name, place.location ++ [name]⟩ name
      · obtain ⟨inner, found, told⟩ :=
          rest.find_each_tells search rest_arranged trail levels place entry held
        refine ⟨inner, Folder.find_cons_eq_some.mpr (.inr ⟨fun same => ?_, found⟩), told⟩
        rw [← same, absent] at found
        cases found
end

end AssemblyVersions
