import AssemblyVersions.Session

/-!
The program. It takes a picture of the part of the disk that a run can reach, runs the session on
the picture and makes the writes that the session made.
-/

set_option autoImplicit false

namespace AssemblyVersions.Program

def names (path : String) : Location :=
  (Path.pieces path.toList).filter (· ≠ [])

def octets (bytes : ByteArray) : Bytes := bytes.toList

def real? (path : String) : IO (Option String) := do
  try
    let resolved ← IO.FS.realPath path
    if ← resolved.pathExists then pure (some resolved.toString) else pure none
  catch _ => pure none

def put (disk : Disk) (path : String) (node : Node) : Disk :=
  disk.addNode ⟨path.toList⟩ node

def linkNode (target : Option String) : Node :=
  .link ⟨(target.getD "/dev/null/nowhere").toList⟩

def addFile (disk : Disk) (path : String) : IO Disk := do
  pure (put disk path (.file (octets (← IO.FS.readBinFile path))))

def addRoute (disk : Disk) (path : String) : IO Disk := do
  let mut disk := disk
  let mut walked := if path.startsWith "/" then "/" else "."
  for piece in Path.pieces path.toList do
    let some folder ← real? walked | return disk
    disk := disk.addFolder ⟨folder.toList⟩
    if piece = [] then continue
    let next := walked ++ "/" ++ String.ofList piece
    let target ← real? next
    if target != some (folder ++ "/" ++ String.ofList piece) then
      unless piece = ['.'] || piece = ['.', '.'] do
        if target.isSome then
          disk := put disk (folder ++ "/" ++ String.ofList piece) (linkNode target)
    walked := next
  let some place ← real? walked | return disk
  if ← (← IO.FS.realPath place).isDir then pure (disk.addFolder ⟨place.toList⟩)
  else addFile disk place

-- Adds everything under a folder at a real path, and under the folders that links lead to if the
-- search follows them. Only files that are searched for are added with their content.
partial def addTree (search : Search) (visited : IO.Ref (List String)) (disk : Disk)
    (folder : String) : IO Disk := do
  if (← visited.get).contains folder then return disk
  visited.modify (folder :: ·)
  let mut disk := disk.addFolder ⟨folder.toList⟩
  for entry in ← (← IO.FS.realPath folder).readDir do
    let path := entry.path.toString
    match (← entry.path.symlinkMetadata).type with
    | .dir => disk ← addTree search visited disk path
    | .symlink =>
        let target ← real? path
        disk := put disk path (linkNode target)
        if search.followLinks then
          if let some place := target then
            if ← entry.path.isDir then disk ← addTree search visited disk place
            else if search.wants entry.fileName.toList then disk ← addFile disk place
            else disk := put disk place (.file [])
    | _ =>
        if search.wants entry.fileName.toList then disk ← addFile disk path
        else if (disk.read ⟨path.toList⟩).isOk then pure ()
        else disk := put disk path (.file [])
  pure disk

def settingsHome : IO (Option Path) := do
  match ← IO.getEnv "XDG_CONFIG_HOME" with
  | some folder =>
      if folder.startsWith "/" then return some ⟨folder.toList⟩
  | none => pure ()
  return (← IO.getEnv "HOME").map fun home => ⟨(home ++ "/.config").toList⟩

def picture (arguments : Arguments) (home : Option Path) : IO Disk := do
  let mut disk : Disk := { workingDirectory := names (← IO.currentDir).toString }
  disk := disk.addFolder ⟨['.']⟩
  let chosen := (arguments.value? .settings).map Path.mk
  let candidates := chosen.toList ++ [Settings.localPath] ++ (home.map Settings.userPath).toList
  for path in candidates do
    disk ← addRoute disk (String.ofList path.text)
  match Settings.load disk home chosen with
  | .error _ => pure disk
  | .ok settings =>
      let root := String.ofList arguments.root.text
      match ← real? root with
      | some place =>
          disk ← addRoute disk root
          if ← (← IO.FS.realPath place).isDir then
            addTree settings.search (← IO.mkRef []) disk place
          else pure disk
      | none => pure disk

def print (transcript : Transcript) : IO UInt32 := do
  IO.print (String.ofList transcript.output)
  IO.eprint (String.ofList transcript.errors)
  pure (UInt32.ofNat transcript.exitCode)

def fail (error : Error) : IO UInt32 :=
  print { exitCode := 1, errors := Session.failure error }

def makeWrites : List (Path × Bytes) → IO (Option Error)
  | [] => pure none
  | (path, bytes) :: rest => do
      try
        IO.FS.writeBinFile (String.ofList path.text) ⟨bytes.toArray⟩
      catch refusal =>
        return some (.writeFailure path (.other refusal.toString.toList))
      makeWrites rest

def run (arguments : List Text) : IO UInt32 := do
  let home ← settingsHome
  match Invocation.parse arguments with
  | .run given =>
      try
        let disk ← picture given home
        let (after, transcript) := Session.start arguments home disk
        match ← makeWrites after.writes with
        | some error => fail error
        | none => print transcript
      catch refusal => fail (.io (.other refusal.toString.toList))
  | _ => print (Session.start arguments home {}).2

end AssemblyVersions.Program

def main (arguments : List String) : IO UInt32 :=
  AssemblyVersions.Program.run (arguments.map String.toList)
