import AssemblyVersions.Number
import Mathlib

set_option autoImplicit false

namespace AssemblyVersions.Number

-- No number lies across such a character.
def Parts (c : Char) : Prop := c.isDigit = false ∧ c ≠ '.'

instance (c : Char) : Decidable (Parts c) := inferInstanceAs (Decidable (_ ∧ _))

theorem digits_append {c : Char} (parts : Parts c) (text rest : Text) :
    digits (text ++ c :: rest) = ((digits text).1, (digits text).2 ++ c :: rest) := by
  have stop : ¬ c.isDigit := by simp [parts.1]
  induction text with
  | nil => simp [digits, stop]
  | cons d text ih =>
      simp only [digits, Prod.mk.injEq] at ih ⊢
      by_cases digit : d.isDigit
      · simp [digit, ih]
      · simp [digit]

theorem dotted_append {c : Char} (parts : Parts c) (text rest : Text) :
    dotted? (text ++ c :: rest) =
      (dotted? text).map fun (run, after) => (run, after ++ c :: rest) := by
  rw [dotted?, dotted?, digits_append parts]
  obtain ⟨run, after⟩ := digits text
  cases after with
  | nil =>
      have plain := parts.2
      simp only [List.nil_append]
      split
      · rename_i same
        exact absurd (by simp_all) plain
      · rfl
  | cons d after =>
      by_cases dot : d = '.'
      · simp [dot]
      · simp only [List.cons_append]
        split
        · simp_all
        · split <;> simp_all

theorem at_start_append {c : Char} (parts : Parts c) (text rest : Text) :
    atStart? (text ++ c :: rest) =
      (atStart? text).map fun (number, after) => (number, after ++ c :: rest) := by
  simp only [atStart?, dotted_append parts]
  cases dotted? text with
  | none => rfl
  | some first =>
      obtain ⟨major, text⟩ := first
      simp only [Option.map_some, Option.bind_eq_bind, Option.bind_some, dotted_append parts]
      cases dotted? text with
      | none => rfl
      | some second =>
          obtain ⟨minor, text⟩ := second
          simp only [Option.map_some, Option.bind_some, dotted_append parts]
          cases dotted? text with
          | none => rfl
          | some third => simp [digits_append parts]

theorem find_append {c : Char} (parts : Parts c) (text rest : Text) :
    find? (text ++ c :: rest) = (find? text).or (find? rest) := by
  induction text with
  | nil =>
      have none_here : atStart? (c :: rest) = none := at_start_append parts [] rest
      simp [find?, none_here]
  | cons d text ih =>
      rw [List.cons_append, find?, find?, ← List.cons_append, at_start_append parts]
      cases atStart? (d :: text) with
      | none => exact ih
      | some found => rfl

theorem find_parted {lead : Text} (parts : ∀ c ∈ lead, Parts c) (text : Text) :
    find? (lead ++ text) = find? text := by
  induction lead with
  | nil => rfl
  | cons c lead ih =>
      have here : find? ([] ++ c :: (lead ++ text)) = find? (lead ++ text) :=
        find_append (parts c List.mem_cons_self) [] (lead ++ text)
      rw [List.cons_append, ← ih fun d among => parts d (List.mem_cons_of_mem c among)]
      exact here

theorem dotted_some {text run rest : Text} (found : dotted? text = some (run, rest)) :
    text = run ++ '.' :: rest ∧ run.all Char.isDigit := by
  rw [dotted?] at found
  split at found
  · rename_i first after cut
    obtain ⟨rfl, rfl⟩ := Prod.mk.inj (Option.some.inj found)
    obtain ⟨front, back⟩ := Prod.mk.inj cut
    refine ⟨?_, ?_⟩
    · rw [← front, ← back, List.takeWhile_append_dropWhile]
    · rw [← front]
      exact List.all_takeWhile
  · cases found

structure OnlyDigits (number : Number) : Prop where
  major : number.major.all Char.isDigit
  minor : number.minor.all Char.isDigit
  build : number.build.all Char.isDigit
  revision : number.revision.all Char.isDigit

theorem OnlyDigits.text {number : Number} (plain : number.OnlyDigits) :
    ∀ c ∈ number.toText, c.isDigit ∨ c = '.' := by
  obtain ⟨major, minor, build, revision⟩ := plain
  simp only [List.all_eq_true] at major minor build revision
  intro c among
  simp only [toText, List.mem_append, List.mem_cons] at among
  grind

theorem OnlyDigits.component {number : Number} (plain : number.OnlyDigits) (part : Part) :
    (number.component part).all Char.isDigit := by
  cases part with
  | build => exact plain.build
  | revision => exact plain.revision

theorem at_start_some {text rest : Text} {number : Number}
    (found : atStart? text = some (number, rest)) :
    text = number.toText ++ rest ∧ number.OnlyDigits := by
  simp only [atStart?, Option.bind_eq_bind, Option.bind_eq_some_iff, Prod.exists] at found
  obtain ⟨major, afterMajor, readMajor, minor, afterMinor, readMinor, build, afterBuild, readBuild,
    done⟩ := found
  obtain ⟨atMajor, digitsMajor⟩ := dotted_some readMajor
  obtain ⟨atMinor, digitsMinor⟩ := dotted_some readMinor
  obtain ⟨atBuild, digitsBuild⟩ := dotted_some readBuild
  simp only [digits, Option.some.injEq, Prod.mk.injEq] at done
  obtain ⟨rfl, rfl⟩ := done
  refine ⟨?_, digitsMajor, digitsMinor, digitsBuild, List.all_takeWhile⟩
  simp [toText, atMajor, atMinor, atBuild, List.takeWhile_append_dropWhile]

theorem find_of_at_start {text rest : Text} {number : Number}
    (found : atStart? text = some (number, rest)) : find? text = some number := by
  cases text with
  | nil => cases found
  | cons c text => rw [find?, found]

theorem find_some {text : Text} {number : Number} (found : find? text = some number) :
    number.OnlyDigits := by
  induction text with
  | nil => cases found
  | cons c text ih =>
      rw [find?] at found
      split at found
      · rename_i whole rest start
        cases found
        exact (at_start_some start).2
      · exact ih found

@[simp] theorem dotted_run {run : Text} (digits_only : run.all Char.isDigit) (rest : Text) :
    dotted? (run ++ '.' :: rest) = some (run, rest) := by
  have dot : ('.' : Char).isDigit = false := by decide
  rw [List.all_eq_true] at digits_only
  rw [dotted?, digits, List.takeWhile_append_of_pos digits_only,
    List.dropWhile_append_of_pos digits_only]
  simp [dot]

@[simp] theorem at_start_to_text {number : Number} (plain : number.OnlyDigits) :
    atStart? number.toText = some (number, []) := by
  have last : digits number.revision = (number.revision, []) := by
    have every := List.all_eq_true.mp plain.revision
    rw [digits, List.takeWhile_eq_self_iff.mpr every, List.dropWhile_eq_nil_iff.mpr every]
  simp [atStart?, toText, plain.major, plain.minor, plain.build, last]

@[simp] theorem find_to_text {number : Number} (plain : number.OnlyDigits) :
    find? number.toText = some number :=
  find_of_at_start (at_start_to_text plain)

def Within (text : Text) : Prop :=
  ∃ (before : Text) (number : Number) (after : Text), number.OnlyDigits ∧
    text = before ++ (number.toText ++ after)

theorem Within.extend {text : Text} (within : Within text) (lead tail : Text) :
    Within (lead ++ (text ++ tail)) := by
  obtain ⟨before, number, after, plain, rfl⟩ := within
  exact ⟨lead ++ before, number, after ++ tail, plain, by simp only [List.append_assoc]⟩

theorem at_start_of_text {number : Number} (plain : number.OnlyDigits) (after : Text) :
    (atStart? (number.toText ++ after)).isSome := by
  simp [atStart?, toText, plain.major, plain.minor, plain.build]

theorem find_is_some_iff {text : Text} : (find? text).isSome ↔ Within text := by
  constructor
  · intro found
    induction text with
    | nil => cases found
    | cons c text ih =>
        rw [find?] at found
        split at found
        · rename_i number after start
          obtain ⟨same, plain⟩ := at_start_some start
          exact ⟨[], number, after, plain, same⟩
        · have later := (ih found).extend [c] []
          rwa [List.append_nil] at later
  · rintro ⟨before, number, after, plain, rfl⟩
    have here := at_start_of_text plain after
    induction before with
    | nil =>
        obtain ⟨⟨other, rest⟩, start⟩ := Option.isSome_iff_exists.mp here
        rw [List.nil_append, find_of_at_start start]
        rfl
    | cons c before ih =>
        rw [List.cons_append, find?]
        split
        · rfl
        · exact ih

theorem of_text_eq_some {text : Text} {number : Number} :
    ofText? text = some number ↔
      text = number.toText ∧ number.OnlyDigits ∧ number.IsComplete := by
  constructor
  · intro read
    rw [ofText?] at read
    split at read
    · rename_i whole start
      split at read
      · rename_i complete
        cases read
        obtain ⟨same, plain⟩ := at_start_some start
        rw [List.append_nil] at same
        exact ⟨same, plain, complete⟩
      · cases read
    · cases read
  · rintro ⟨rfl, plain, complete⟩
    rw [ofText?, at_start_to_text plain]
    exact if_pos complete

theorem of_text_some {text : Text} {number : Number} (read : ofText? text = some number) :
    find? text = some number ∧ ∀ c ∈ text, c.isDigit ∨ c = '.' := by
  obtain ⟨rfl, plain, -⟩ := of_text_eq_some.mp read
  exact ⟨find_to_text plain, plain.text⟩

def grown (number : Number) (n : Nat) : Part → Number
  | .build => { number with build := Decimal.numeral (n + 1), revision := ['0'] }
  | .revision => { number with revision := Decimal.numeral (n + 1) }

theorem numeral_digits (n : Nat) : (Decimal.numeral n).all Char.isDigit := by
  have value := Decimal.value_numeral n
  rw [Decimal.value?] at value
  split at value
  · rename_i digits_only
    exact digits_only.2
  · cases value

theorem OnlyDigits.grown {number : Number} (plain : number.OnlyDigits) (n : Nat) (part : Part) :
    (number.grown n part).OnlyDigits := by
  obtain ⟨major, minor, build, -⟩ := plain
  cases part with
  | build => exact ⟨major, minor, numeral_digits (n + 1), rfl⟩
  | revision => exact ⟨major, minor, build, numeral_digits (n + 1)⟩

theorem IsComplete.grown {number : Number} (complete : number.IsComplete) (n : Nat) (part : Part) :
    (number.grown n part).IsComplete := by
  have written : Decimal.numeral (n + 1) ≠ [] := Nat.toDigits_ne_nil
  obtain ⟨major, minor, build, -⟩ := complete
  cases part with
  | build => exact ⟨major, minor, written, List.cons_ne_nil '0' []⟩
  | revision => exact ⟨major, minor, build, written⟩

theorem is_digit_iff_range {c : Char} : c.isDigit ↔ 48 ≤ c.toNat ∧ c.toNat ≤ 57 := by
  simp only [Char.isDigit, Bool.and_eq_true, decide_eq_true_eq, ge_iff_le, UInt32.le_iff_toNat_le]
  rfl

theorem word_of_digits {run : Text} (digits_only : run.all Char.isDigit) :
    Decimal.word? run = (Decimal.value? run).filter (· < Decimal.wordBound) := by
  have plus : ('+' : Char).isDigit = false := by decide
  cases run with
  | nil => rfl
  | cons c rest =>
      have other : c ≠ '+' := by
        rintro rfl
        simp [plus] at digits_only
      simp [Decimal.word?, other]

theorem next_eq_some {number next : Number} {part : Part} :
    number.next? part = some next ↔
      ∃ n, Decimal.word? (number.component part) = some n ∧ n + 1 < 2 ^ 64 ∧
        next = number.grown n part := by
  have bound : Decimal.wordBound = 2 ^ 64 := rfl
  rw [next?, bound]
  simp only [Option.bind_eq_bind, Option.bind_eq_some_iff]
  refine exists_congr fun n => and_congr_right fun _ => ?_
  by_cases fits : n + 1 < 2 ^ 64
  · rw [if_pos fits, and_iff_right fits]
    cases part with
    | build => rw [Option.some.injEq, eq_comm, grown]
    | revision => rw [Option.some.injEq, eq_comm, grown]
  · rw [if_neg fits]
    exact iff_of_false (Option.some_ne_none next).symm fun grows => fits grows.1

theorem next_eq_some_iff {number next : Number} (plain : number.OnlyDigits) (part : Part) :
    number.next? part = some next ↔
      ∃ n, Decimal.value? (number.component part) = some n ∧ n ≤ 2 ^ 64 - 2 ∧
        next = number.grown n part := by
  have bound : Decimal.wordBound = 2 ^ 64 := rfl
  rw [next_eq_some, word_of_digits (plain.component part), bound]
  simp only [Option.filter_eq_some_iff, decide_eq_true_eq, and_assoc]
  refine exists_congr fun n => and_congr_right fun _ => ?_
  rw [← and_assoc]
  refine and_congr_left fun _ => ?_
  omega

end AssemblyVersions.Number
