import AssemblyVersions.Plan
import AssemblyVersions.Proofs.Number

set_option autoImplicit false

namespace AssemblyVersions

namespace Decimal

def digit (c : Char) : Nat := c.toNat - '0'.toNat

theorem digit_lt {c : Char} (plain : c.isDigit) : digit c < 10 := by
  have range := Number.is_digit_iff_range.mp plain
  have zero : '0'.toNat = 48 := rfl
  rw [digit, zero]
  omega

theorem digit_char_digit {c : Char} (plain : c.isDigit) : Nat.digitChar (digit c) = c := by
  have range := Number.is_digit_iff_range.mp plain
  have zero : '0'.toNat = 48 := rfl
  rw [← Char.toNat_inj, Nat.toNat_digitChar_of_lt_ten (digit_lt plain), digit, zero]
  omega

-- The number of a run of digits by their places: units last, tens before them, and so on.
def Denotes (text : Text) (n : Nat) : Prop :=
  text ≠ [] ∧ (∀ c ∈ text, c.isDigit) ∧ n = Nat.ofDigits 10 (text.reverse.map digit)

theorem of_digits_concat (text : Text) (c : Char) :
    Nat.ofDigits 10 ((text ++ [c]).reverse.map digit) =
      10 * Nat.ofDigits 10 (text.reverse.map digit) + digit c := by
  rw [List.reverse_append, List.reverse_singleton, List.singleton_append, List.map_cons,
    Nat.ofDigits_cons, Nat.add_comm]

theorem of_digit_chars_eq (text : Text) :
    Nat.ofDigitChars 10 text 0 = Nat.ofDigits 10 (text.reverse.map digit) := by
  induction text using List.reverseRecOn with
  | nil => rfl
  | append_singleton text c ih =>
      rw [of_digits_concat, ← ih, Nat.ofDigitChars_append]
      rfl

theorem value_eq_some {text : Text} {n : Nat} : value? text = some n ↔ Denotes text n := by
  rw [value?, of_digit_chars_eq, Denotes, ← and_assoc, ← List.all_eq_true]
  split
  · rename_i digits_only
    rw [and_iff_right digits_only, Option.some.injEq, eq_comm]
  · rename_i other
    exact iff_of_false (Option.some_ne_none n).symm fun denotes => other denotes.1

theorem numeral_bare {n : Nat} (positive : 0 < n) : (numeral n).head? ≠ some '0' := by
  induction n using Nat.strongRecOn with
  | ind n ih =>
      rw [numeral, Nat.toDigits_eq_if (by decide)]
      split
      · rw [List.head?_singleton, ne_eq, Option.some.injEq, Nat.digitChar_eq_zero]
        omega
      · rename_i large
        rw [List.head?_append_of_ne_nil _ Nat.toDigits_ne_nil]
        exact ih (n / 10) (by omega) (by omega)

theorem eq_numeral {text : Text} {n : Nat} (denotes : Denotes text n) (bare : text.head? ≠ some '0') :
    text = numeral n := by
  induction text using List.reverseRecOn generalizing n with
  | nil => exact absurd rfl denotes.1
  | append_singleton front c ih =>
      obtain ⟨-, plain, value⟩ := denotes
      rw [of_digits_concat] at value
      have last : c.isDigit := plain c (by simp)
      have unit : numeral (digit c) = [c] := by
        rw [numeral, Nat.toDigits_of_lt_base (digit_lt last), digit_char_digit last]
      cases front with
      | nil =>
          have nothing : Nat.ofDigits 10 (([] : Text).reverse.map digit) = 0 := rfl
          rw [value, nothing, Nat.mul_zero, Nat.zero_add, unit, List.nil_append]
      | cons d front =>
          have begun : Denotes (d :: front) (Nat.ofDigits 10 ((d :: front).reverse.map digit)) :=
            ⟨List.cons_ne_nil d front, fun e among => plain e (List.mem_append_left _ among), rfl⟩
          have same := ih begun bare
          have positive : 0 < Nat.ofDigits 10 ((d :: front).reverse.map digit) := by
            apply Nat.pos_of_ne_zero
            intro zero
            rw [zero] at same
            rw [same] at bare
            exact bare rfl
          rw [value, numeral, ← Nat.toDigits_append_toDigits (by decide) positive (digit_lt last)]
          exact congrArg₂ (· ++ ·) same unit.symm

theorem eq_numeral_iff {text : Text} {n : Nat} (positive : 0 < n) :
    text = numeral n ↔ Denotes text n ∧ text.head? ≠ some '0' := by
  constructor
  · rintro rfl
    exact ⟨value_eq_some.mp (value_numeral n), numeral_bare positive⟩
  · intro ⟨denotes, bare⟩
    exact eq_numeral denotes bare

def Spells (text : Text) (n : Nat) : Prop :=
  ∃ sign digits, text = sign ++ digits ∧ (sign = [] ∨ sign = ['+']) ∧ Denotes digits n

theorem word_eq_some {text : Text} {n : Nat} :
    word? text = some n ↔ Spells text n ∧ n < 2 ^ 64 := by
  have kept (digits : Text) : (value? digits).filter (· < wordBound) = some n ↔
      Denotes digits n ∧ n < 2 ^ 64 := by
    rw [Option.filter_eq_some_iff, value_eq_some, decide_eq_true_eq]
    rfl
  constructor
  · intro read
    cases text with
    | nil => cases read
    | cons c rest =>
        by_cases plus : c = '+'
        · subst plus
          obtain ⟨denotes, fits⟩ := (kept rest).mp read
          exact ⟨⟨['+'], rest, rfl, .inr rfl, denotes⟩, fits⟩
        · have unsigned : word? (c :: rest) = (value? (c :: rest)).filter (· < wordBound) := by
            simp [word?, plus]
          rw [unsigned, kept] at read
          exact ⟨⟨[], c :: rest, rfl, .inl rfl, read.1⟩, read.2⟩
  · rintro ⟨⟨sign, digits, rfl, rfl | rfl, denotes⟩, fits⟩
    · rw [List.nil_append, Number.word_of_digits (List.all_eq_true.mpr denotes.2.1), kept]
      exact ⟨denotes, fits⟩
    · exact (kept digits).mpr ⟨denotes, fits⟩

end Decimal

namespace Number

-- One more in the given part, written without a zero in front. A new build starts at revision zero and
-- all else keeps its text.
structure Succeeds (next number : Number) (part : Part) (n : Nat) : Prop where
  counted : Decimal.Denotes (next.component part) (n + 1)
  bare : (next.component part).head? ≠ some '0'
  major : next.major = number.major
  minor : next.minor = number.minor
  build : part = .revision → next.build = number.build
  reset : part = .build → next.revision = ['0']

theorem component_grown (number : Number) (n : Nat) (part : Part) :
    (number.grown n part).component part = Decimal.numeral (n + 1) := by
  cases part <;> rfl

theorem succeeds_iff {next number : Number} {part : Part} {n : Nat} :
    next.Succeeds number part n ↔ next = number.grown n part := by
  constructor
  · intro succeeds
    have written := Decimal.eq_numeral succeeds.counted succeeds.bare
    obtain ⟨major, minor, build, revision⟩ := next
    have first : major = number.major := succeeds.major
    have second : minor = number.minor := succeeds.minor
    cases part with
    | build =>
        have third : build = Decimal.numeral (n + 1) := written
        have last : revision = ['0'] := succeeds.reset rfl
        rw [first, second, third, last, grown]
    | revision =>
        have third : build = number.build := succeeds.build rfl
        have last : revision = Decimal.numeral (n + 1) := written
        rw [first, second, third, last, grown]
  · rintro rfl
    obtain ⟨counted, bare⟩ := (Decimal.eq_numeral_iff (Nat.succ_pos n)).mp (component_grown number n part)
    cases part with
    | build => exact ⟨counted, bare, rfl, rfl, fun other => (by cases other), fun _ => rfl⟩
    | revision => exact ⟨counted, bare, rfl, rfl, fun _ => rfl, fun other => (by cases other)⟩

theorem increment_eq_ok {number next : Number} {part : Part} :
    number.increment part = .ok next ↔
      ∃ n, Decimal.Spells (number.component part) n ∧ n + 1 < 2 ^ 64 ∧ next.Succeeds number part n := by
  have small {n : Nat} : Decimal.Spells (number.component part) n ∧ n + 1 < 2 ^ 64 ↔
      Decimal.word? (number.component part) = some n ∧ n + 1 < 2 ^ 64 := by
    rw [Decimal.word_eq_some, and_assoc]
    refine and_congr_right fun _ => ?_
    omega
  have stepped : number.increment part = .ok next ↔ number.next? part = some next := by
    rw [increment]
    cases number.next? part <;> simp
  rw [stepped, next_eq_some]
  refine exists_congr fun n => ?_
  rw [← and_assoc, ← and_assoc, small, succeeds_iff]

theorem increment_of_not_ok {number : Number} {part : Part}
    (stuck : ¬ ∃ next, number.increment part = .ok next) :
    number.increment part = .error (.unparsableNumber (number.component part)) := by
  rw [increment] at stuck ⊢
  cases next : number.next? part with
  | none => rfl
  | some grown =>
      rw [next] at stuck
      exact absurd ⟨grown, rfl⟩ stuck

-- A part of any text grows exactly if it spells a number below the greatest word, and then by one;
-- else its text is the error. Words are read before and after, so nothing wraps around.
theorem increment_by_one (number : Number) (part : Part) :
    (∀ next, number.increment part = .ok next ↔ ∃ n, Decimal.Spells (number.component part) n ∧
      n + 1 < 2 ^ 64 ∧ next.Succeeds number part n) ∧
    ((∃ next, number.increment part = .ok next) ↔
      ∃ n, Decimal.Spells (number.component part) n ∧ n + 1 < 2 ^ 64) ∧
    (∀ next, number.increment part = .ok next → ∃ n,
      Decimal.word? (number.component part) = some n ∧
        Decimal.word? (next.component part) = some (n + 1)) ∧
    ((¬ ∃ n, Decimal.Spells (number.component part) n ∧ n + 1 < 2 ^ 64) →
      number.increment part = .error (.unparsableNumber (number.component part))) ∧
    ∀ next, number.OnlyDigits → number.increment part = .ok next → find? next.toText = some next := by
  have gate : (∃ next, number.increment part = .ok next) ↔
      ∃ n, Decimal.Spells (number.component part) n ∧ n + 1 < 2 ^ 64 := by
    constructor
    · rintro ⟨next, grown⟩
      obtain ⟨n, spells, fits, -⟩ := increment_eq_ok.mp grown
      exact ⟨n, spells, fits⟩
    · rintro ⟨n, spells, fits⟩
      exact ⟨number.grown n part, increment_eq_ok.mpr ⟨n, spells, fits, succeeds_iff.mpr rfl⟩⟩
  refine ⟨fun next => increment_eq_ok, gate, fun next grown => ?_, fun stuck => ?_,
    fun next plain grown => ?_⟩
  · obtain ⟨n, spells, fits, succeeds⟩ := increment_eq_ok.mp grown
    have unsigned : Decimal.Spells (next.component part) (n + 1) :=
      ⟨[], _, rfl, .inl rfl, succeeds.counted⟩
    exact ⟨n, Decimal.word_eq_some.mpr ⟨spells, Nat.lt_of_succ_lt fits⟩,
      Decimal.word_eq_some.mpr ⟨unsigned, fits⟩⟩
  · exact increment_of_not_ok (mt gate.mp stuck)
  · obtain ⟨n, -, -, succeeds⟩ := increment_eq_ok.mp grown
    rw [succeeds_iff.mp succeeds]
    exact find_to_text (plain.grown n part)

theorem increment_by_one_at_bounds :
    let signed : Number := ⟨"01".toList, [], "+0041".toList, "x".toList⟩
    let greatest : Number := ⟨[], [], "18446744073709551615".toList, []⟩
    let sparse : Number := ⟨[], "007".toList, [], "0009".toList⟩
    signed.increment .build = .ok ⟨"01".toList, [], "42".toList, "0".toList⟩ ∧
      greatest.increment .build = .error (.unparsableNumber "18446744073709551615".toList) ∧
      sparse.increment .revision = .ok ⟨[], "007".toList, [], "10".toList⟩ ∧
      find? ".007..10".toList = some ⟨[], "007".toList, [], "10".toList⟩ := by
  intro signed greatest sparse
  obtain ⟨grows, -⟩ := increment_by_one signed .build
  obtain ⟨-, -, -, stuck, -⟩ := increment_by_one greatest .build
  obtain ⟨-, -, -, -, found⟩ := increment_by_one sparse .revision
  have spelled : Decimal.Spells "+0041".toList 41 :=
    ⟨['+'], "0041".toList, rfl, .inr rfl, Decimal.value_eq_some.mp (by decide +kernel)⟩
  have next : sparse.increment .revision = .ok ⟨[], "007".toList, [], "10".toList⟩ := by
    decide +kernel
  refine ⟨(grows _).mpr ⟨41, spelled, by decide, ?_⟩, stuck ?_, next, found _ ?_ next⟩
  · exact succeeds_iff.mpr (by decide)
  · rintro ⟨n, spells, fits⟩
    have word : Decimal.word? "18446744073709551615".toList = some 18446744073709551615 := by
      decide +kernel
    have same : Decimal.word? "18446744073709551615".toList = some n :=
      Decimal.word_eq_some.mpr ⟨spells, Nat.lt_of_succ_lt fits⟩
    rw [word] at same
    cases same
    exact absurd fits (by decide)
  · exact ⟨rfl, rfl, rfl, rfl⟩

end Number

end AssemblyVersions
