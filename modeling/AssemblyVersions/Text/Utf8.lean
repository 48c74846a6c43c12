import AssemblyVersions.Text

/-!
UTF-8. Encoding writes each character's octets; decoding steps once per octet and says what it
owes next, so that an octet that cannot continue a character ends the longest valid beginning
before it and is read afresh. Lossy decoding puts the replacement character there, strict decoding
refuses.
-/

set_option autoImplicit false

namespace AssemblyVersions.Utf8

def encode (text : Text) : Bytes := text.flatMap String.utf8EncodeChar

@[simp] theorem encode_nil : encode [] = [] := rfl

@[simp] theorem encode_append (a b : Text) : encode (a ++ b) = encode a ++ encode b := by
  simp [encode]

-- What may come next: a first octet, or one in a range that carries six more bits of the
-- character, after which `more` octets are owed.
inductive Owed where
  | first
  | next (more : Nat) (least greatest : UInt8) (bits : Nat)
deriving DecidableEq

def begin (octet : UInt8) : List (Option Char) × Owed :=
  if octet < 0x80 then ([some (Char.ofNat octet.toNat)], .first)
  else if octet < 0xC2 then ([none], .first)
  else if octet < 0xE0 then ([], .next 0 0x80 0xBF (octet.toNat - 0xC0))
  else if octet = 0xE0 then ([], .next 1 0xA0 0xBF 0)
  else if octet = 0xED then ([], .next 1 0x80 0x9F 0xD)
  else if octet < 0xF0 then ([], .next 1 0x80 0xBF (octet.toNat - 0xE0))
  else if octet = 0xF0 then ([], .next 2 0x90 0xBF 0)
  else if octet < 0xF4 then ([], .next 2 0x80 0xBF (octet.toNat - 0xF0))
  else if octet = 0xF4 then ([], .next 2 0x80 0x8F 4)
  else ([none], .first)

def step : Owed → UInt8 → List (Option Char) × Owed
  | .first, octet => begin octet
  | .next more least greatest bits, octet =>
      if least ≤ octet ∧ octet ≤ greatest then
        let bits := bits * 64 + (octet.toNat - 0x80)
        match more with
        | 0 => ([some (Char.ofNat bits)], .first)
        | more + 1 => ([], .next more 0x80 0xBF bits)
      else
        let (read, owed) := begin octet
        (none :: read, owed)

def readFrom : Owed → Bytes → List (Option Char)
  | .first, [] => []
  | .next .., [] => [none]
  | owed, octet :: rest => (step owed octet).1 ++ readFrom (step owed octet).2 rest

def read (bytes : Bytes) : List (Option Char) := readFrom .first bytes

-- Decoding of any content: every unreadable sequence becomes U+FFFD.
def decode (bytes : Bytes) : Text := (read bytes).map (·.getD (Char.ofNat 0xFFFD))

def decode? (bytes : Bytes) : Option Text := (read bytes).mapM id

end AssemblyVersions.Utf8
