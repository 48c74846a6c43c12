import AssemblyVersions.Toml.Reader

set_option autoImplicit false

namespace AssemblyVersions.Toml

open Reader

def hexValue? (c : Char) : Option Nat :=
  if '0' ≤ c ∧ c ≤ '9' then some (c.toNat - '0'.toNat)
  else if 'a' ≤ c ∧ c ≤ 'f' then some (c.toNat - 'a'.toNat + 10)
  else if 'A' ≤ c ∧ c ≤ 'F' then some (c.toNat - 'A'.toNat + 10)
  else none

def codePoint (count : Nat) : Reader Char := fun text => do
  let digits ← (text.take count).mapM hexValue?
  if digits.length = count then
    let n := digits.foldl (fun n digit => n * 16 + digit) 0
    if n.isValidChar then some (Char.ofNat n, text.drop count) else none
  else none

def escape : Reader Char := do
  char '\\'
  match ← satisfying fun _ => true with
  | 'b' => pure '\x08'
  | 't' => pure '\t'
  | 'n' => pure '\n'
  | 'f' => pure '\x0c'
  | 'r' => pure '\r'
  | '"' => pure '"'
  | '\\' => pure '\\'
  | 'u' => codePoint 4
  | 'U' => codePoint 8
  | _ => failure

def isBasic (c : Char) : Bool := isPrintable c && c != '"' && c != '\\'

def isLiteral (c : Char) : Bool := isPrintable c && c != '\''

def basic : Reader Text := do
  char '"'
  let text ← many (satisfying isBasic <|> escape)
  char '"'
  pure text

def literal : Reader Text := do
  char '\''
  let text ← run isLiteral
  char '\''
  pure text

-- A backslash at the end of a line removes the break and all white space that follows.
def lineContinuation : Reader Unit := do
  char '\\'
  blanks
  newline
  discard (many (newline <|> discard (satisfying isBlank)))

def innerQuote (quote : Char) : Reader Char := fun text =>
  if (Text.after? [quote, quote, quote] text).isSome then none
  else satisfying (· == quote) text

-- Three quotes, before which one or two more belong to the text.
def closingQuotes (quote : Char) : Reader Text :=
  let closing (extra : Nat) : Reader Text := do
    for _ in [0 : extra + 3] do char quote
    pure (List.replicate extra quote)
  closing 2 <|> closing 1 <|> closing 0

def multilineBasic : Reader Text := do
  word "\"\"\""
  perhaps newline
  let pieces ← many (
    (List.singleton <$> satisfying isBasic) <|> (newline *> pure ['\n']) <|>
    (lineContinuation *> pure []) <|> (List.singleton <$> escape) <|>
    (List.singleton <$> innerQuote '"'))
  let extra ← closingQuotes '"'
  pure (pieces.flatten ++ extra)

def multilineLiteral : Reader Text := do
  word "'''"
  perhaps newline
  let text ← many (satisfying isLiteral <|> (newline *> pure '\n') <|> innerQuote '\'')
  let extra ← closingQuotes '\''
  pure (text ++ extra)

def quoted : Reader Text := multilineBasic <|> basic <|> multilineLiteral <|> literal

end AssemblyVersions.Toml
