import AssemblyVersions.Declaration
import AssemblyVersions.Path

set_option autoImplicit false

namespace AssemblyVersions

structure Record where
  kind : Kind
  value : Text
  meaning : Value
  line : Nat
  path : Path
deriving DecidableEq, Repr

namespace Record

def number? (record : Record) : Option Number :=
  match record.meaning with
  | .numeric number => some number
  | .plain => none

def declaration (record : Record) : Text :=
  Declaration.toText ⟨record.kind, record.value⟩

def ofLine? (path : Path) (index : Nat) (line : Text) : Option Record := do
  let declaration ← Declaration.ofLine? line
  let meaning ← declaration.meaning? line
  some ⟨declaration.kind, declaration.value, meaning, index, path⟩

def scanFrom (path : Path) : Nat → List Text → List Record
  | _, [] => []
  | index, line :: lines => (ofLine? path index line).toList ++ scanFrom path (index + 1) lines

def scan (path : Path) (lines : List Text) : List Record := scanFrom path 0 lines

def first? (records : List Record) (kind : Kind) : Option Record :=
  records.find? fun record => record.kind == kind

def ofKind (kind : Kind) (records : List Record) : List Record :=
  records.filter fun record => record.kind == kind

theorem first_of_kind (records : List Record) (kind : Kind) :
    first? records kind = (ofKind kind records).head? :=
  (List.head?_filter ..).symm

@[simp] theorem mem_of_kind {kind : Kind} {records : List Record} {record : Record} :
    record ∈ ofKind kind records ↔ record ∈ records ∧ record.kind = kind := by
  rw [ofKind, List.mem_filter, beq_iff_eq]

@[simp] theorem of_kind_append (kind : Kind) (a b : List Record) :
    ofKind kind (a ++ b) = ofKind kind a ++ ofKind kind b := List.filter_append ..

theorem scan_from_append (path : Path) (index : Nat) (a b : List Text) :
    scanFrom path index (a ++ b) = scanFrom path index a ++ scanFrom path (index + a.length) b := by
  induction a generalizing index with
  | nil => rfl
  | cons line a ih =>
      simp only [List.cons_append, scanFrom, ih, List.length_cons, List.append_assoc]
      rw [Nat.add_right_comm, Nat.add_assoc]

end Record

structure Update where
  kind : Kind
  value : Text
deriving DecidableEq, Repr

def Update.declaration (update : Update) : Text :=
  Declaration.toText ⟨update.kind, update.value⟩

end AssemblyVersions
