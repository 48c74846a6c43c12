import AssemblyVersions.Store
import AssemblyVersions.Text.Utf8

set_option autoImplicit false

namespace AssemblyVersions

mutual
inductive Node where
  | file (bytes : Bytes)
  | link (target : Path)
  | folder (entries : Folder)
inductive Folder where
  | nil
  | cons (name : Text) (node : Node) (rest : Folder)
end

abbrev Location := List Text

namespace Folder

def find? (name : Text) : Folder → Option Node
  | .nil => none
  | .cons other node rest => if other = name then some node else rest.find? name

def put (name : Text) (node : Node) : Folder → Folder
  | .nil => .cons name node .nil
  | .cons other held rest =>
      if other = name then .cons other node rest else .cons other held (rest.put name node)

def at? : Location → Folder → Option Folder
  | [], folder => some folder
  | name :: location, folder =>
      match folder.find? name with
      | some (.folder inner) => inner.at? location
      | _ => none

def inner (name : Text) (folder : Folder) : Folder :=
  match folder.find? name with
  | some (.folder inner) => inner
  | _ => .nil

def putAt (name : Text) (node : Node) : Location → Folder → Folder
  | [], folder => folder.put name node
  | step :: location, folder =>
      folder.put step (.folder ((folder.inner step).putAt name node location))

def makeAt : Location → Folder → Folder
  | [], folder => folder
  | step :: location, folder => folder.put step (.folder ((folder.inner step).makeAt location))

@[simp] theorem find_put_self (name : Text) (node : Node) (folder : Folder) :
    (folder.put name node).find? name = some node := by
  match folder with
  | .nil => simp [put, find?]
  | .cons other held rest =>
      by_cases same : other = name
      · simp [put, find?, same]
      · simp [put, find?, same, find_put_self name node rest]

end Folder

mutual
def Node.folders : Node → Nat
  | .file _ => 0
  | .link _ => 0
  | .folder entries => entries.folders + 1
def Folder.folders : Folder → Nat
  | .nil => 0
  | .cons _ node rest => node.folders + rest.folders
end

structure Disk where
  root : Folder := .nil
  workingDirectory : Location := []
  writes : List (Path × Bytes) := []

inductive Landing where
  | folder (location : Location)
  | file (parent : Location) (name : Text) (bytes : Bytes)
  | absent (parent : Location) (name : Text)
deriving DecidableEq, Repr

def Path.isTooLong (path : Path) : Bool := 4096 ≤ (Utf8.encode path.text).length

-- What resolution does at a piece of a path. Inner separators only divide the pieces; those that
-- end the path are one step, before which a folder must stand.
inductive Step where
  | root
  | here
  | up
  | name (text : Text)
  | separator
deriving DecidableEq, Repr

def Step.ofPiece? (piece : Text) : Option Step :=
  if piece = [] then none
  else if piece = ['.'] then some .here
  else if piece = ['.', '.'] then some .up
  else some (.name piece)

def Path.steps (path : Path) : List Step :=
  (if path.isAbsolute then [.root] else []) ++ (Path.pieces path.text).filterMap Step.ofPiece? ++
    (if path.text.getLast? = some '/' then [.separator] else [])

def Step.next (here : Location) : Step → Location
  | .root => []
  | .here => here
  | .separator => here
  | .up => here.dropLast
  | .name text => here ++ [text]

def Folder.makeAlong (folder : Folder) (here : Location) : List Step → Folder
  | [] => folder.makeAt here
  | step :: steps => (folder.makeAt here).makeAlong (step.next here) steps

inductive Access where
  | read
  | write
deriving DecidableEq, Repr

namespace Disk

def nameBound : Nat := 256

-- Follows the steps from a folder. At most `links` links are followed. What is written to must
-- not have a separator after its name, in the path or in the link that names it last; this is
-- refused whatever the folder holds under the name.
def follow (disk : Disk) (access : Access) (links : Nat) (here : Location) (steps : List Step) :
    Except Fault Landing :=
  match steps with
  | [] => .ok (.folder here)
  | .root :: steps => disk.follow access links [] steps
  | .here :: steps => disk.follow access links here steps
  | .separator :: steps => disk.follow access links here steps
  | .up :: steps => disk.follow access links here.dropLast steps
  | .name name :: steps =>
      if access = .write ∧ steps = [.separator] then .error .isADirectory
      else if nameBound ≤ (Utf8.encode name).length then .error .nameTooLong
      else match (disk.root.at? here).bind (Folder.find? name) with
        | none => if steps = [] then .ok (.absent here name) else .error .notFound
        | some (.folder _) => disk.follow access links (here ++ [name]) steps
        | some (.file bytes) =>
            if steps = [] then .ok (.file here name bytes) else .error .notADirectory
        | some (.link target) =>
            match links with
            | 0 => .error .tooManyLinks
            | links + 1 => disk.follow access links here (target.steps ++ steps)
termination_by (links, steps.length)

def linkBound : Nat := 40

def resolve (disk : Disk) (access : Access) (path : Path) : Except Fault Landing :=
  if path.text.contains '\x00' then .error .nulInName
  else if path.text = [] then .error .notFound
  else if path.isTooLong then .error .nameTooLong
  else disk.follow access linkBound disk.workingDirectory path.steps

def has (disk : Disk) (path : Path) : Bool :=
  match disk.resolve .read path with
  | .ok (.folder _) => true
  | .ok (.file ..) => true
  | _ => false

def read (disk : Disk) (path : Path) : Except Fault Bytes :=
  match disk.resolve .read path with
  | .ok (.file _ _ bytes) => .ok bytes
  | .ok (.folder _) => .error .isADirectory
  | .ok (.absent ..) => .error .notFound
  | .error fault => .error fault

def save (disk : Disk) (parent : Location) (name : Text) (path : Path) (bytes : Bytes) : Disk :=
  { disk with
    root := disk.root.putAt name (.file bytes) parent
    writes := disk.writes ++ [(path, bytes)] }

def write (disk : Disk) (path : Path) (bytes : Bytes) : Except Fault Disk :=
  match disk.resolve .write path with
  | .ok (.file parent name _) => .ok (disk.save parent name path bytes)
  | .ok (.absent parent name) => .ok (disk.save parent name path bytes)
  | .ok (.folder _) => .error .isADirectory
  | .error fault => .error fault

instance : Store Disk := ⟨read, write⟩

def addNode (disk : Disk) (path : Path) (node : Node) : Disk :=
  match path.steps.getLast? with
  | some (.name name) =>
      let way := path.steps.dropLast
      let parent := way.foldl Step.next disk.workingDirectory
      { disk with root := (disk.root.makeAlong disk.workingDirectory way).putAt name node parent }
  | _ => disk

def addLink (disk : Disk) (path target : Path) : Disk :=
  match disk.resolve .read path with
  | .ok (.absent parent name) =>
      { disk with root := disk.root.putAt name (.link target) parent }
  | _ => disk.addNode path (.link target)

def addFolder (disk : Disk) (path : Path) : Disk :=
  { disk with root := disk.root.makeAlong disk.workingDirectory path.steps }

end Disk

end AssemblyVersions
