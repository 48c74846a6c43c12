import AssemblyVersions.Record
import AssemblyVersions.Proofs.Number
import AssemblyVersions.Proofs.Utf8

set_option autoImplicit false

namespace AssemblyVersions

namespace Declaration

def lead (kind : Kind) : Text := "[assembly: ".toList ++ kind.name ++ ['(']

theorem opening_eq (kind : Kind) : opening kind = lead kind ++ ['"'] :=
  (List.append_assoc ("[assembly: ".toList ++ kind.name) ['('] ['"']).symm

theorem quote_not_mem_lead (kind : Kind) : '"' ∉ lead kind := by
  cases kind <;> decide +kernel

theorem lead_injective {a b : Kind} (same : lead a = lead b) : a = b := by
  revert same
  cases a <;> cases b <;> decide +kernel

theorem opening_ascii (kind : Kind) : ∀ c ∈ opening kind, Utf8.Ascii c := by
  have every : (opening kind).all fun c => decide (Utf8.Ascii c) := by cases kind <;> decide
  simpa using every

theorem opening_parts (kind : Kind) : ∀ c ∈ opening kind, Number.Parts c := by
  have every : (opening kind).all fun c => decide (Number.Parts c) := by cases kind <;> decide
  simpa using every

theorem to_text_append (declaration : Declaration) (tail : Text) :
    declaration.toText ++ tail =
      lead declaration.kind ++ '"' :: (declaration.value ++ '"' :: ')' :: ']' :: tail) := by
  simp [toText, opening_eq, closing]

-- The two quotes tell where kind and value end.
theorem to_text_inj {a b : Declaration} (left : '"' ∉ a.value) (right : '"' ∉ b.value)
    {tail rest : Text} (same : a.toText ++ tail = b.toText ++ rest) : a = b ∧ tail = rest := by
  rw [to_text_append, to_text_append] at same
  obtain ⟨leads, after⟩ :=
    first_cut (quote_not_mem_lead a.kind) (quote_not_mem_lead b.kind) same
  obtain ⟨values, tails⟩ := first_cut left right after
  obtain ⟨kind, value⟩ := a
  obtain ⟨_, _⟩ := b
  cases lead_injective leads
  cases (values : value = _)
  exact ⟨rfl, by simpa using tails⟩

theorem of_kind_append {declaration : Declaration} (clear : '"' ∉ declaration.value) (tail : Text) :
    ofKind? declaration.kind (declaration.toText ++ tail) = some declaration := by
  have open_value : ∀ c ∈ declaration.value, (c != '"') = true := by
    intro c among
    have other : c ≠ '"' := fun quote => clear (quote ▸ among)
    simpa using other
  have cut : declaration.toText ++ tail =
      opening declaration.kind ++ (declaration.value ++ '"' :: (')' :: ']' :: tail)) := by
    simp [toText, closing]
  have closed : Text.after? closing ('"' :: ')' :: ']' :: tail) = some tail :=
    Text.after_append closing tail
  simp [ofKind?, cut, List.dropWhile_append_of_pos open_value,
    List.takeWhile_append_of_pos open_value, closed]

theorem of_kind_some {kind : Kind} {line : Text} {declaration : Declaration}
    (read : ofKind? kind line = some declaration) :
    declaration.kind = kind ∧ '"' ∉ declaration.value ∧ ∃ tail, line = declaration.toText ++ tail := by
  simp only [ofKind?, Option.bind_eq_bind, Option.bind_eq_some_iff, Option.some.injEq] at read
  obtain ⟨rest, begun, tail, closed, rfl⟩ := read
  refine ⟨rfl, ?_, tail, ?_⟩
  · intro among
    have other := List.mem_takeWhile_imp among
    simp at other
  · rw [Text.eq_append_of_after begun]
    have parts : rest = rest.takeWhile (· != '"') ++ (closing ++ tail) := by
      rw [← Text.eq_append_of_after closed, List.takeWhile_append_dropWhile]
    simp only [toText, List.append_assoc]
    rw [← parts]

theorem of_line_append {declaration : Declaration} (clear : '"' ∉ declaration.value) (tail : Text) :
    ofLine? (declaration.toText ++ tail) = some declaration := by
  have only (kind : Kind) (other : Declaration)
      (read : ofKind? kind (declaration.toText ++ tail) = some other) : other = declaration := by
    obtain ⟨-, quoteless, rest, same⟩ := of_kind_some read
    exact (to_text_inj clear quoteless same).1.symm
  have here := of_kind_append clear tail
  obtain ⟨found, result⟩ : ∃ found, ofLine? (declaration.toText ++ tail) = some found := by
    rw [ofLine?, ← Option.isSome_iff_exists, List.findSome?_isSome_iff]
    exact ⟨declaration.kind, Kind.mem_all _, by rw [here]; rfl⟩
  obtain ⟨kind, -, read⟩ := List.exists_of_findSome?_eq_some result
  rw [result, only kind found read]

theorem of_line_eq_some {line : Text} {declaration : Declaration} :
    ofLine? line = some declaration ↔
      '"' ∉ declaration.value ∧ ∃ tail, line = declaration.toText ++ tail := by
  constructor
  · intro read
    obtain ⟨kind, -, read⟩ := List.exists_of_findSome?_eq_some read
    exact (of_kind_some read).2
  · rintro ⟨clear, tail, rfl⟩
    exact of_line_append clear tail

-- Nothing around the value can be part of a number.
@[simp] theorem find_in_form (declaration : Declaration) :
    Number.find? declaration.toText = Number.find? declaration.value := by
  have closed : Number.find? [')', ']'] = none := by decide
  have cut : declaration.toText =
      opening declaration.kind ++ (declaration.value ++ '"' :: [')', ']']) := by
    simp [toText, closing]
  rw [cut, Number.find_parted (opening_parts declaration.kind), Number.find_append (by decide), closed,
    Option.or_none]

def ownMeaning? (declaration : Declaration) : Option Value :=
  if declaration.kind.isNumeric then (Number.find? declaration.value).map .numeric else some .plain

@[simp] theorem meaning_in_form (declaration : Declaration) :
    declaration.meaning? declaration.toText = declaration.ownMeaning? := by
  simp [meaning?, ownMeaning?]

theorem meaning_append {c : Char} (parts : Number.Parts c) (declaration : Declaration) (line : Text) :
    declaration.meaning? (line ++ [c]) = declaration.meaning? line := by
  have same : Number.find? (line ++ [c]) = Number.find? line := by
    rw [Number.find_append parts]
    exact Option.or_none
  simp [meaning?, same]

theorem of_line_append_char {c : Char} (other : c ≠ ']') (line : Text) :
    ofLine? (line ++ [c]) = ofLine? line := by
  apply Option.ext
  intro declaration
  rw [of_line_eq_some, of_line_eq_some]
  refine and_congr_right fun _ => ?_
  constructor
  · rintro ⟨tail, same⟩
    rcases List.eq_nil_or_concat' tail with rfl | ⟨front, last, rfl⟩
    · have ends := congrArg List.getLast? same
      simp [toText, closing] at ends
      exact absurd ends other
    · refine ⟨front, ?_⟩
      rw [← List.append_assoc] at same
      exact (List.append_inj' same rfl).1
  · rintro ⟨tail, rfl⟩
    exact ⟨tail ++ [c], by rw [List.append_assoc]⟩

@[simp] theorem line_feed_mem {declaration : Declaration} :
    '\n' ∈ declaration.toText ↔ '\n' ∈ declaration.value := by
  have outside : '\n' ∉ opening declaration.kind := by
    cases declaration.kind <;> decide +kernel
  simp [toText, closing, outside]

theorem filled_form (declaration : Declaration) : declaration.toText ≠ [] := by
  simp [Declaration.toText, Declaration.closing]

end Declaration

namespace Record

theorem of_line_eq_some {path : Path} {index : Nat} {line : Text} {record : Record} :
    ofLine? path index line = some record ↔
      record.line = index ∧ record.path = path ∧
        Declaration.ofLine? line = some ⟨record.kind, record.value⟩ ∧
        Declaration.meaning? ⟨record.kind, record.value⟩ line = some record.meaning := by
  simp only [ofLine?, Option.bind_eq_bind, Option.bind_eq_some_iff, Option.some.injEq]
  constructor
  · rintro ⟨declaration, read, meaning, meant, rfl⟩
    exact ⟨rfl, rfl, read, meant⟩
  · rintro ⟨rfl, rfl, read, meant⟩
    exact ⟨_, read, _, meant, rfl⟩

theorem of_line_append_char {c : Char} (other : c ≠ ']') (parts : Number.Parts c) (path : Path)
    (index : Nat) (line : Text) : ofLine? path index (line ++ [c]) = ofLine? path index line := by
  simp [ofLine?, Declaration.of_line_append_char other, Declaration.meaning_append parts]

theorem of_form {declaration : Declaration} (clear : '"' ∉ declaration.value) (path : Path)
    (index : Nat) :
    ofLine? path index declaration.toText = declaration.ownMeaning?.map fun meaning =>
      ⟨declaration.kind, declaration.value, meaning, index, path⟩ := by
  have read := Declaration.of_line_append clear []
  rw [List.append_nil] at read
  cases meant : declaration.ownMeaning? <;> simp [ofLine?, read, meant]

theorem kind_of_form {declaration : Declaration} {path : Path} {index : Nat} {record : Record}
    (read : ofLine? path index declaration.toText = some record) :
    record.kind = declaration.kind := by
  obtain ⟨-, -, read, -⟩ := of_line_eq_some.mp read
  obtain ⟨clear, tail, same⟩ := Declaration.of_line_eq_some.mp read
  rw [Declaration.to_text_append ⟨record.kind, record.value⟩, ← List.append_nil declaration.toText,
    Declaration.to_text_append] at same
  have leads := first_cut (Declaration.quote_not_mem_lead _) (Declaration.quote_not_mem_lead _) same
  exact (Declaration.lead_injective leads.1).symm

end Record

end AssemblyVersions
