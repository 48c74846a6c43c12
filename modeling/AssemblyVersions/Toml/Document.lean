import AssemblyVersions.Toml.Scalar

/-!
TOML documents: keys, values and tables. A table is defined once, by a header, by the dotted keys
that name it or as an inline table, and is extended afterwards only in the ways that its form
allows.
-/

set_option autoImplicit false

namespace AssemblyVersions.Toml

-- How a table came to be: named on the way to another table's header, by dotted keys, by a
-- header of its own, or inline.
inductive Form where
  | implied
  | dotted
  | headed
  | inline
deriving DecidableEq, Repr

inductive Value where
  | text (value : Text)
  | scalar (value : Scalar)
  | array (items : List Value)
  | table (form : Form) (entries : List (Text × Value))
  | tables (items : List Value)

abbrev Entries := List (Text × Value)

namespace Entries

def place (key : Text) (value : Value) : Entries → Entries
  | [] => [(key, value)]
  | (other, held) :: rest =>
      if other = key then (other, value) :: rest else (other, held) :: place key value rest

-- Defines a dotted key. The tables on its way are made, or were made by earlier dotted keys; the
-- last one must be of this sort, or be the table in which the key is written, for which `allowed`
-- stands.
def define (value : Value) : List Text → Bool → Entries → Option Entries
  | [], _, _ => none
  | [key], allowed, entries =>
      if allowed && (entries.lookup key).isNone then some (entries ++ [(key, value)]) else none
  | step :: path, _, entries =>
      match entries.lookup step with
      | none => (define value path true []).map fun inner =>
          place step (.table .dotted inner) entries
      | some (.table .dotted held) => (define value path true held).map fun inner =>
          place step (.table .dotted inner) entries
      | some (.table .implied held) => (define value path false held).map fun inner =>
          place step (.table .implied inner) entries
      | some (.tables items) =>
          match items.getLast? with
          | some (.table form held) => (define value path false held).map fun inner =>
              place step (.tables (items.dropLast ++ [.table form inner])) entries
          | _ => none
      | some _ => none

-- Changes the table that a header's parents lead to. Of an array of tables the last one is
-- meant.
def within (change : Entries → Option Entries) : List Text → Entries → Option Entries
  | [], entries => change entries
  | step :: path, entries =>
      match entries.lookup step with
      | none => (within change path []).map fun inner =>
          place step (.table .implied inner) entries
      | some (.table .inline _) => none
      | some (.table form held) => (within change path held).map fun inner =>
          place step (.table form inner) entries
      | some (.tables items) =>
          match items.getLast? with
          | some (.table form held) => (within change path held).map fun inner =>
              place step (.tables (items.dropLast ++ [.table form inner])) entries
          | _ => none
      | some _ => none

end Entries

structure Pair where
  key : List Text
  value : Value

def Entries.defineAll (entries : Entries) (pairs : List Pair) : Option Entries :=
  pairs.foldlM (fun entries pair => entries.define pair.value pair.key true) entries

-- A header and the pairs below it. With `repeated` it adds a table to an array of tables.
structure Section where
  header : List Text
  repeated : Bool
  pairs : List Pair

namespace Section

-- Puts the section under its last key. A single table may have been implied before.
def addTo (part : Section) (key : Text) (parent : Entries) : Option Entries :=
  match part.repeated, parent.lookup key with
  | true, none => do
      let entries ← Entries.defineAll [] part.pairs
      some (parent.place key (.tables [.table .headed entries]))
  | true, some (.tables items) => do
      let entries ← Entries.defineAll [] part.pairs
      some (parent.place key (.tables (items ++ [.table .headed entries])))
  | false, none => do
      let entries ← Entries.defineAll [] part.pairs
      some (parent.place key (.table .headed entries))
  | false, some (.table .implied held) => do
      let entries ← Entries.defineAll held part.pairs
      some (parent.place key (.table .headed entries))
  | _, some _ => none

def add (entries : Entries) (part : Section) : Option Entries := do
  let key ← part.header.getLast?
  entries.within (part.addTo key) part.header.dropLast

end Section

namespace Reading

open Reader

def levels : Nat := 80

def isBareKey (c : Char) : Bool := c.isAlphanum || c == '_' || c == '-'

def simpleKey : Reader Text := basic <|> literal <|> nonemptyRun isBareKey

def key : Reader (List Text) := do
  blanks
  let first ← simpleKey
  let rest ← many (blanks *> char '.' *> blanks *> simpleKey)
  blanks
  if rest.length + 1 < levels then pure (first :: rest) else failure

def array (value : Reader Value) : Reader Value := do
  char '['
  let item := gap *> value <* gap
  let items ← (commaSeparated item <* perhaps (char ',' *> gap)) <|> (gap *> pure [])
  char ']'
  pure (.array items)

def pair (value : Reader Value) : Reader Pair := do
  let key ← key
  char '='
  blanks
  let value ← value
  pure ⟨key, value⟩

def inlineTable (value : Reader Value) : Reader Value := do
  char '\x7b'
  let pairs ← commaSeparated (pair value <* blanks) <|> (blanks *> pure [])
  char '\x7d'
  match Entries.defineAll [] pairs with
  | some entries => pure (.table .inline entries)
  | none => failure

def value : Nat → Reader Value
  | 0 => (.text <$> quoted) <|> (.scalar <$> Scalar.reader)
  | depth + 1 =>
      array (value depth) <|> inlineTable (value depth) <|> (.text <$> quoted) <|>
        (.scalar <$> Scalar.reader)

inductive Statement where
  | nothing
  | pair (pair : Pair)
  | header (path : List Text) (repeated : Bool)

def statement : Reader Statement := do
  blanks
  (newline *> pure .nothing) <|> (comment *> lineEnd *> pure .nothing) <|>
    (do word "[["; let path ← key; word "]]"; lineEnd; pure (.header path true)) <|>
    (do char '['; let path ← key; char ']'; lineEnd; pure (.header path false)) <|>
    (.pair <$> pair (value (levels - 1)) <* lineEnd)

def group : List Statement → List Pair × List Section
  | [] => ([], [])
  | .nothing :: rest => group rest
  | .pair pair :: rest =>
      let (pairs, sections) := group rest
      (pair :: pairs, sections)
  | .header path repeated :: rest =>
      let (pairs, sections) := group rest
      ([], ⟨path, repeated, pairs⟩ :: sections)

def statements : Reader (List Statement) :=
  perhaps (char (Char.ofNat 0xFEFF)) *> many statement <* blanks <* atEnd

end Reading

def parse? (text : Text) : Option Entries := do
  let (statements, _) ← Reading.statements text
  let (pairs, sections) := Reading.group statements
  let root ← Entries.defineAll [] pairs
  sections.foldlM Section.add root

end AssemblyVersions.Toml
