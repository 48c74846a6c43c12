set_option autoImplicit false

namespace AssemblyVersions

abbrev Text := List Char

abbrev Bytes := List UInt8

namespace Text

-- Equality up to the case of the letters `A` to `Z`; every other character stands for itself.
def sameIgnoringCase (a b : Text) : Bool :=
  a.map Char.toLower == b.map Char.toLower

def after? : Text → Text → Option Text
  | [], text => some text
  | _ :: _, [] => none
  | c :: lead, d :: text => if c = d then after? lead text else none

@[simp] theorem after_append (lead rest : Text) : after? lead (lead ++ rest) = some rest := by
  induction lead with
  | nil => rfl
  | cons c lead ih => simp [after?, ih]

theorem eq_append_of_after {lead text rest : Text} (found : after? lead text = some rest) :
    text = lead ++ rest := by
  induction lead generalizing text with
  | nil => simpa [after?] using found
  | cons c lead ih =>
      cases text with
      | nil => simp [after?] at found
      | cons d text =>
          by_cases same : c = d
          · simp only [after?, if_pos same] at found
            rw [ih found, same]; rfl
          · simp [after?, if_neg same] at found

@[simp] theorem after_eq_some_iff {lead text rest : Text} :
    after? lead text = some rest ↔ text = lead ++ rest :=
  ⟨eq_append_of_after, fun same => same ▸ after_append lead rest⟩

def joinWith (separator : Text) : List Text → Text
  | [] => []
  | [piece] => piece
  | piece :: pieces => piece ++ separator ++ joinWith separator pieces

end Text

end AssemblyVersions
