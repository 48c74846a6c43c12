import AssemblyVersions.Disk
import AssemblyVersions.Settings

set_option autoImplicit false

namespace AssemblyVersions

structure Place where
  path : Path
  location : Location
deriving DecidableEq, Repr

inductive Obstacle where
  | loop (link ancestor : Path)
  | unreachable (path : Path) (fault : Fault)
deriving DecidableEq, Repr

def Obstacle.message : Obstacle → Text
  | .loop link ancestor =>
      "File system loop found: ".toList ++ link.text ++ " points to an ancestor ".toList ++
        ancestor.text
  | .unreachable path fault =>
      path.text ++ ": IO error for operation on ".toList ++ path.text ++ ": ".toList ++
        fault.message

abbrev Finding := Except Obstacle (List Path)

namespace Search

def wants (search : Search) (name : Text) : Bool :=
  search.fileNames.any fun wanted => Text.sameIgnoringCase wanted name

def pick (search : Search) (name : Text) (path : Path) : List Path :=
  if search.wants name then [path] else []

-- The findings of a folder's entries in the order of the entries' names. The first obstacle in
-- this order ends the search.
def inOrder (found : List (Text × Finding)) : Finding :=
  (((found.mergeSort fun a b => (compare a.1 b.1).isLE).map Prod.snd).mapM id).map List.flatten

end Search

-- What a search does with a link, from the folders on the way to it, the number of levels that
-- may still be entered, the link's path and its name.
abbrev LinkRule := List Place → Option Nat → Path → Text → Finding

mutual
-- The files found at an entry. `trail` holds the folders on the way, innermost first, and
-- `levels` bounds how many further levels are entered. A folder is listed by its path, which must not
-- be too long; the files in it need no such path to be found.
def Node.find (search : Search) (rule : LinkRule) (trail : List Place) (levels : Option Nat)
    (place : Place) (name : Text) : Node → Finding
  | .file _ => .ok (search.pick name place.path)
  | .link _ => rule trail levels place.path name
  | .folder entries =>
      if levels = some 0 then .ok []
      else if place.path.isTooLong then .error (.unreachable place.path .nameTooLong)
      else Search.inOrder
        (entries.findEach search rule (place :: trail) (levels.map (· - 1)) place)
def Folder.findEach (search : Search) (rule : LinkRule) (trail : List Place)
    (levels : Option Nat) (place : Place) : Folder → List (Text × Finding)
  | .nil => []
  | .cons name node rest =>
      (name, node.find search rule trail levels
        ⟨place.path.child name, place.location ++ [name]⟩ name) ::
        rest.findEach search rule trail levels place
end

namespace Disk

def passOver : LinkRule := fun _ _ _ _ => .ok []

-- Follows a link to a file or into a folder, in which at most `links` further links are
-- followed one inside the other.
def enter (disk : Disk) (search : Search) : Nat → LinkRule
  | 0, _, _, _, _ => .ok []
  | links + 1, trail, levels, path, name =>
      match disk.resolve .read path with
      | .error fault => .error (.unreachable path fault)
      | .ok (.absent ..) => .error (.unreachable path .notFound)
      | .ok (.file ..) => .ok (search.pick name path)
      | .ok (.folder location) =>
          match trail.find? (·.location == location) with
          | some ancestor => .error (.loop path ancestor.path)
          | none =>
              match disk.root.at? location with
              | some entries =>
                  (Node.folder entries).find search (disk.enter search links) trail levels
                    ⟨path, location⟩ name
              | none => .ok []

-- Every link that is followed into a folder leads to one that is not on the way yet, so the
-- number of folders bounds how often that happens.
def linkRule (disk : Disk) (search : Search) : LinkRule :=
  if search.followLinks then disk.enter search (disk.root.folders + 2) else passOver

-- A root written as a lone hyphen stands for standard input, which has no files.
def isStandardInput (root : Path) : Bool := root.components == [.name ['-']]

def find (disk : Disk) (search : Search) (root : Path) : Except Error (List Path) :=
  match disk.resolve .read root with
  | .ok (.folder location) =>
      match disk.root.at? location with
      | some entries =>
          if isStandardInput root then .ok []
          else
            ((Node.folder entries).find search (disk.linkRule search) [] search.maxDepth
              ⟨root, location⟩ []).mapError fun obstacle => .discovery obstacle.message
      | none => .ok []
  | _ => .ok []

end Disk

end AssemblyVersions
