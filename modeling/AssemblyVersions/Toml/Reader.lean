import AssemblyVersions.Text

set_option autoImplicit false

namespace AssemblyVersions.Toml

abbrev Reader (α : Type) := StateT Text Option α

namespace Reader

variable {α : Type}

def satisfying (accepted : Char → Bool) : Reader Char
  | [] => none
  | c :: rest => if accepted c then some (c, rest) else none

def char (c : Char) : Reader Unit := fun text => (Text.after? [c] text).map fun rest => ((), rest)

def word (expected : String) : Reader Unit :=
  fun text => (Text.after? expected.toList text).map fun rest => ((), rest)

def run (accepted : Char → Bool) : Reader Text :=
  fun text => some (text.takeWhile accepted, text.dropWhile accepted)

def nonemptyRun (accepted : Char → Bool) : Reader Text := do
  let text ← run accepted
  if text.isEmpty then failure else pure text

def perhaps (reader : Reader Unit) : Reader Unit := reader <|> pure ()

def upTo (reader : Reader α) : Nat → Reader (List α)
  | 0 => pure []
  | bound + 1 =>
      (do
        let first ← reader
        let rest ← upTo reader bound
        pure (first :: rest)) <|> pure []

-- As often as the reader succeeds. It must take at least one character each time, so that the
-- length of the text bounds the number of times.
def many (reader : Reader α) : Reader (List α) := fun text => upTo reader text.length text

def atEnd : Reader Unit
  | [] => some ((), [])
  | _ => none

def commaSeparated (reader : Reader α) : Reader (List α) := do
  let first ← reader
  let rest ← many (char ',' *> reader)
  pure (first :: rest)

end Reader

open Reader

def isBlank (c : Char) : Bool := c == ' ' || c == '\t'

def blanks : Reader Unit := discard (run isBlank)

def newline : Reader Unit := char '\n' <|> word "\r\n"

-- Comments and strings admit a tab and no other control character.
def isPrintable (c : Char) : Bool := c == '\t' || (c.toNat ≥ 0x20 && c.toNat != 0x7F)

def comment : Reader Unit := char '#' *> discard (run isPrintable)

def lineEnd : Reader Unit := blanks *> perhaps comment *> (newline <|> atEnd)

def gap : Reader Unit :=
  blanks *> discard (many ((perhaps comment *> newline) *> blanks))

end AssemblyVersions.Toml
