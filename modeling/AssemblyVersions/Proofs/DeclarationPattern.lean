import AssemblyVersions.Proofs.Declaration
import AssemblyVersions.Proofs.Pattern

set_option autoImplicit false

namespace AssemblyVersions.Declaration

def pattern : Pattern :=
  .seq (.oneOf ["[assembly: ".toList])
    (.seq (.group (.oneOf (Kind.all.map Kind.name)))
      (.seq (.oneOf ["(\"".toList])
        (.seq (.group (.run (· != '"'))) (.oneOf ["\")]".toList]))))

def ofGroups? : List Text → Option Declaration
  | [name, value] => (Kind.ofName? name).map fun kind => ⟨kind, value⟩
  | _ => none

def groups (declaration : Declaration) : List Text := [declaration.kind.name, declaration.value]

theorem of_groups (declaration : Declaration) : ofGroups? declaration.groups = some declaration := by
  simp [groups, ofGroups?]

theorem every_other_iff {value : Text} : (∀ c ∈ value, (c != '"') = true) ↔ '"' ∉ value := by
  constructor
  · intro every inside
    have other := every '"' inside
    simp at other
  · intro absent c among
    have other : c ≠ '"' := fun same => absent (same ▸ among)
    simpa using other

theorem to_text_parts (kind : Kind) (value : Text) : toText ⟨kind, value⟩ =
    "[assembly: ".toList ++ (kind.name ++ ("(\"".toList ++ (value ++ "\")]".toList))) := by
  have opened : opening kind = "[assembly: ".toList ++ (kind.name ++ "(\"".toList) :=
    List.append_assoc _ _ _
  have closed : closing = "\")]".toList := rfl
  simp only [toText, opened, closed, List.append_assoc]

theorem takes_iff {text : Text} {groups : List Text} :
    pattern.Takes text groups ↔ ∃ declaration : Declaration, '"' ∉ declaration.value ∧
      text = declaration.toText ∧ groups = declaration.groups := by
  simp only [pattern, Pattern.takes_seq_fixed, Pattern.takes_seq_group, Pattern.takes_one_of,
    Pattern.takes_run, List.mem_singleton, every_other_iff]
  constructor
  · rintro ⟨_, ⟨_, _, _, _, ⟨listed, rfl⟩, ⟨_, ⟨value, _, _, _, ⟨clear, rfl⟩, ⟨closed, rfl⟩, rfl, rfl⟩,
      rfl⟩, rfl, named⟩, form⟩
    obtain ⟨kind, -, rfl⟩ := List.mem_map.mp listed
    refine ⟨⟨kind, value⟩, clear, ?_, named⟩
    rw [form, closed, to_text_parts]
  · intro held
    obtain ⟨⟨kind, value⟩, clear, form, named⟩ := held
    have listed : kind.name ∈ Kind.all.map Kind.name := List.mem_map_of_mem (Kind.mem_all kind)
    exact ⟨_, ⟨kind.name, [], _, [value], ⟨listed, rfl⟩, ⟨_, ⟨value, [], _, [], ⟨clear, rfl⟩,
      ⟨rfl, rfl⟩, rfl, rfl⟩, rfl⟩, rfl, named⟩, form.trans (to_text_parts kind value)⟩

-- No line can be read in two ways, so it does not matter which reading is preferred.
theorem reading_unique {line : Text} {a b : Pattern.Reading} (first : a ∈ pattern.readings line)
    (second : b ∈ pattern.readings line) : a = b := by
  rw [Pattern.mem_readings, takes_iff] at first second
  obtain ⟨begun, declaration, clear, form, named⟩ := first
  obtain ⟨again, other, quoteless, shape, called⟩ := second
  rw [form] at begun
  rw [shape] at again
  obtain ⟨same, tails⟩ := to_text_inj clear quoteless (begun.symm.trans again)
  obtain ⟨_, _, _⟩ := a
  obtain ⟨_, _, _⟩ := b
  dsimp only at form named shape called tails
  rw [form, named, shape, called, same, tails]

theorem match_eq_of_line (line : Text) :
    (pattern.match? line).bind (fun reading => ofGroups? reading.groups) = ofLine? line := by
  have readings_of {reading : Pattern.Reading} (among : reading ∈ pattern.readings line) :
      ofGroups? reading.groups = ofLine? line := by
    rw [Pattern.mem_readings, takes_iff] at among
    obtain ⟨begun, declaration, clear, form, named⟩ := among
    rw [begun, form, named, of_groups, of_line_append clear]
  rw [Pattern.match?]
  cases found : (pattern.readings line).head? with
  | some reading => exact readings_of (List.mem_of_head? found)
  | none =>
      rw [List.head?_eq_none_iff] at found
      cases read : ofLine? line with
      | none => rfl
      | some declaration =>
          obtain ⟨clear, tail, begun⟩ := of_line_eq_some.mp read
          have among : ⟨declaration.toText, declaration.groups, tail⟩ ∈ pattern.readings line :=
            Pattern.mem_readings.mpr ⟨begun, takes_iff.mpr ⟨declaration, clear, rfl, rfl⟩⟩
          rw [found] at among
          cases among

-- A line is read by its pattern, and what is read is what the line begins with in its written form.
-- The value has no quote and nothing else is asked of it or of the rest of the line.
theorem line_declares_iff :
    (∀ line, ofLine? line =
      (pattern.match? line).bind fun reading => ofGroups? reading.groups) ∧
    (∀ (line : Text) (kind : Kind) (value : Text), ofLine? line = some ⟨kind, value⟩ ↔
      '"' ∉ value ∧ toText ⟨kind, value⟩ <+: line) ∧
    (∀ (kind : Kind) (value tail : Text),
      ofLine? (toText ⟨kind, value⟩ ++ tail) = some ⟨kind, value⟩ ↔ '"' ∉ value) ∧
    (∀ line, { declaration : Declaration |
      '"' ∉ declaration.value ∧ declaration.toText <+: line }.Subsingleton) ∧
    ∀ line, { reading | reading ∈ pattern.readings line }.Subsingleton := by
  have grammar (line : Text) (declaration : Declaration) : ofLine? line = some declaration ↔
      '"' ∉ declaration.value ∧ declaration.toText <+: line := by
    rw [of_line_eq_some]
    exact and_congr_right fun _ => exists_congr fun _ => eq_comm
  refine ⟨fun line => (match_eq_of_line line).symm, fun line kind value => grammar line ⟨kind, value⟩,
    fun kind value tail => ?_, fun line a first b second => ?_, fun line a first b second => ?_⟩
  · rw [grammar]
    exact and_iff_left (List.prefix_append _ tail)
  · have read := (grammar line a).mpr first
    rw [(grammar line b).mpr second] at read
    exact (Option.some.inj read).symm
  · exact reading_unique first second

end AssemblyVersions.Declaration
