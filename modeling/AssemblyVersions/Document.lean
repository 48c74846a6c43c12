import AssemblyVersions.Text.Utf8

set_option autoImplicit false

namespace AssemblyVersions

inductive Ending where
  | lf
  | crlf
deriving DecidableEq, Repr

def Ending.bytes : Ending → Bytes
  | .lf => [10]
  | .crlf => [13, 10]

-- A line's octets without its terminator; only the last line of a content may have none.
structure Line where
  bytes : Bytes
  ending : Option Ending
deriving DecidableEq, Repr

namespace Line

def text (line : Line) : Text := Utf8.decode line.bytes

def terminator : Option Ending → Bytes
  | some ending => ending.bytes
  | none => []

def content (line : Line) : Bytes := line.bytes ++ terminator line.ending

def bytesFor (line : Line) (text : Text) : Bytes :=
  if line.text = text then line.bytes else Utf8.encode text

end Line

structure Document where
  lines : List Line
deriving DecidableEq, Repr

namespace Document

def extend (octet : UInt8) : List Line → List Line
  | [] => [⟨[octet], none⟩]
  | line :: lines => { line with bytes := octet :: line.bytes } :: lines

-- Lines end at a line feed. A carriage return directly before it belongs to the terminator, any
-- other one to the line.
def split : Bytes → List Line
  | [] => []
  | 10 :: rest => ⟨[], some .lf⟩ :: split rest
  | 13 :: 10 :: rest => ⟨[], some .crlf⟩ :: split rest
  | octet :: rest => extend octet (split rest)

def ofBytes (bytes : Bytes) : Document := ⟨split bytes⟩

def content (document : Document) : Bytes := document.lines.flatMap Line.content

def texts (document : Document) : List Text := document.lines.map Line.text

def count (document : Document) (ending : Ending) : Nat :=
  document.lines.countP fun line => line.ending == some ending

-- The terminator of added lines: the more frequent one, and a line feed on a tie.
def majority (document : Document) : Ending :=
  if document.count .lf < document.count .crlf then .crlf else .lf

def isTerminated (document : Document) : Bool :=
  match document.lines.getLast? with
  | some line => line.ending.isSome
  | none => true

-- Content for new texts of the lines. Further texts are added lines; `added` is their
-- terminator and `last` the one that ends the content when the last text needs one.
def renderLines (added : Ending) (last : Option Ending) : List Line → List Text → Bytes
  | _, [] => []
  | [], text :: texts =>
      Utf8.encode text ++ Line.terminator (if texts = [] then last else some added) ++
        renderLines added last [] texts
  | line :: lines, text :: texts =>
      line.bytesFor text ++
        Line.terminator (line.ending.or (if texts = [] then last else some added)) ++
        renderLines added last lines texts

def render (document : Document) (texts : List Text) : Bytes :=
  renderLines document.majority (if document.isTerminated then some document.majority else none)
    document.lines texts

@[simp] theorem content_extend (octet : UInt8) (lines : List Line) :
    (extend octet lines).flatMap Line.content = octet :: lines.flatMap Line.content := by
  cases lines <;> simp [extend, Line.content, Line.terminator]

@[simp] theorem content_of_bytes (bytes : Bytes) : (ofBytes bytes).content = bytes := by
  simp only [ofBytes, content]
  fun_induction split bytes with
  | case1 => rfl
  | case2 rest ih => simp [Line.content, Line.terminator, Ending.bytes, ih]
  | case3 rest ih => simp [Line.content, Line.terminator, Ending.bytes, ih]
  | case4 octet rest _ _ ih => rw [content_extend, ih]

end Document

end AssemblyVersions
