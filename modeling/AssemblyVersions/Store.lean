import AssemblyVersions.Error

set_option autoImplicit false

namespace AssemblyVersions

class Store (σ : Type) where
  read : σ → Path → Except Fault Bytes
  write : σ → Path → Bytes → Except Fault σ

structure MemoryStore where
  files : List (Path × Bytes) := []
  writes : List Path := []
  readOnly : List Path := []
deriving DecidableEq, Repr

namespace MemoryStore

def find? (path : Path) : List (Path × Bytes) → Option Bytes
  | [] => none
  | (other, bytes) :: rest => if other.same path then some bytes else find? path rest

def place (path : Path) (bytes : Bytes) : List (Path × Bytes) → List (Path × Bytes)
  | [] => [(path, bytes)]
  | (other, held) :: rest =>
      if other.same path then (other, bytes) :: rest
      else if path.order other = .lt then (path, bytes) :: (other, held) :: rest
      else (other, held) :: place path bytes rest

def insert (store : MemoryStore) (path : Path) (bytes : Bytes) : MemoryStore :=
  { store with files := place path bytes store.files }

def paths (store : MemoryStore) : List Path := store.files.map (·.1)

def read (store : MemoryStore) (path : Path) : Except Fault Bytes :=
  match find? path store.files with
  | some bytes => .ok bytes
  | none => .error .noSuchFile

def write (store : MemoryStore) (path : Path) (bytes : Bytes) : Except Fault MemoryStore :=
  if store.readOnly.any (Path.same · path) then .error .readOnly
  else .ok { store.insert path bytes with writes := store.writes ++ [path] }

instance : Store MemoryStore := ⟨read, write⟩

@[simp] theorem find_place_self (path : Path) (bytes : Bytes) (files : List (Path × Bytes)) :
    find? path (place path bytes files) = some bytes := by
  have reflexive : path.same path := by simp [Path.same]
  induction files with
  | nil => simp [place, find?, reflexive]
  | cons entry rest ih =>
      obtain ⟨other, held⟩ := entry
      by_cases same : other.same path
      · simp [place, find?, same]
      · by_cases less : path.order other = .lt
        · simp [place, find?, same, less, reflexive]
        · simp [place, find?, same, less, ih]

@[simp] theorem find_place_of_not_same {path asked : Path} (different : ¬ path.same asked)
    (bytes : Bytes) (files : List (Path × Bytes)) :
    find? asked (place path bytes files) = find? asked files := by
  induction files with
  | nil => simp [place, find?, different]
  | cons entry rest ih =>
      obtain ⟨other, held⟩ := entry
      by_cases same : other.same path
      · have apart : ¬ other.same asked := by
          simp only [Path.same_iff] at same different ⊢
          exact fun equal => different (same ▸ equal)
        simp [place, find?, same, apart]
      · by_cases less : path.order other = .lt
        · simp [place, find?, same, less, different]
        · simp [place, find?, same, less, ih]

end MemoryStore

end AssemblyVersions
