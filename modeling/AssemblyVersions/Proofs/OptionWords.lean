import AssemblyVersions.Kind
import Mathlib

set_option autoImplicit false

namespace AssemblyVersions

namespace Text

structure Trimmed (text middle : Text) : Prop where
  between : ∃ front back, text = front ++ middle ++ back ∧
    (∀ c ∈ front, isBlank c) ∧ ∀ c ∈ back, isBlank c
  start : ∀ c, middle.head? = some c → ¬ isBlank c
  stop : ∀ c, middle.getLast? = some c → ¬ isBlank c

theorem drop_blanks {front middle : Text} (blank : ∀ c ∈ front, isBlank c)
    (start : ∀ c, middle.head? = some c → ¬ isBlank c) :
    (front ++ middle).dropWhile isBlank = middle := by
  rw [List.dropWhile_append_of_pos blank]
  cases middle with
  | nil => rfl
  | cons c middle => exact List.dropWhile_cons_of_neg (start c rfl)

theorem head_of_dropped (text : Text) (c : Char)
    (first : (text.dropWhile isBlank).head? = some c) : ¬ isBlank c := by
  have refused := List.head?_dropWhile_not isBlank text
  rw [first] at refused
  simpa using refused

theorem trimmed_trim (text : Text) : Trimmed text text.trim := by
  have front : text.takeWhile isBlank ++ text.dropWhile isBlank = text :=
    List.takeWhile_append_dropWhile
  generalize inner : text.dropWhile isBlank = rest at front
  have back : (rest.reverse.takeWhile isBlank ++ rest.reverse.dropWhile isBlank).reverse = rest := by
    rw [List.takeWhile_append_dropWhile, List.reverse_reverse]
  rw [List.reverse_append] at back
  have whole : text.trim = (rest.reverse.dropWhile isBlank).reverse := by rw [trim, inner]
  refine ⟨⟨text.takeWhile isBlank, (rest.reverse.takeWhile isBlank).reverse, ?_,
    fun c => List.mem_takeWhile_imp, fun c among =>
      List.mem_takeWhile_imp (List.mem_reverse.mp among)⟩, fun c first => ?_, fun c last => ?_⟩
  · rw [whole, List.append_assoc, back, front]
  · -- The trimmed text begins the rest, which begins with no blank.
    refine head_of_dropped text c ?_
    rw [whole] at first
    rw [inner, ← back, List.head?_append, first]
    rfl
  · rw [whole, List.getLast?_reverse] at last
    exact head_of_dropped rest.reverse c last

theorem trim_eq_iff {text middle : Text} : text.trim = middle ↔ Trimmed text middle := by
  constructor
  · rintro rfl
    exact trimmed_trim text
  · rintro ⟨⟨front, back, rfl, before, behind⟩, start, stop⟩
    by_cases empty : middle = []
    · subst empty
      have blank : ∀ c ∈ front ++ back, isBlank c := fun c among =>
        (List.mem_append.mp among).elim (before c) (behind c)
      have dropped : (front ++ back ++ []).dropWhile isBlank = [] :=
        drop_blanks blank fun c none_first => nomatch none_first
      rw [List.append_nil] at dropped
      rw [trim, List.append_nil, dropped]
      rfl
    · obtain ⟨c, rest, rfl⟩ := List.exists_cons_of_ne_nil empty
      have inner : (front ++ (c :: rest ++ back)).dropWhile isBlank = c :: rest ++ back :=
        drop_blanks before start
      have outer : (back.reverse ++ (c :: rest).reverse).dropWhile isBlank = (c :: rest).reverse := by
        refine drop_blanks (fun d among => behind d (List.mem_reverse.mp among)) fun d last => ?_
        rw [List.head?_reverse] at last
        exact stop d last
      rw [trim, List.append_assoc, inner, List.reverse_append, outer, List.reverse_reverse]

theorem lower_of_beyond {c : Char} (large : 128 ≤ c.toNat) : c.toLower = c := by
  have capital : ¬ (c.val ≥ 'A'.val ∧ c.val ≤ 'Z'.val) := by
    rintro ⟨-, least⟩
    have bound : c.toNat ≤ 90 := UInt32.le_iff_toNat_le.mp least
    omega
  rw [Char.toLower, dif_neg capital]

-- Lower case as Unicode has it, where a character's own may depend on the text around it, as far as it
-- bears on ASCII words: beyond ASCII only the Kelvin sign has an ASCII text, a `k`, as its lower case.
structure Lowering where
  image : Text → Char → Text → Text
  ascii : ∀ before c after, c.toNat < 128 → image before c after = [c.toLower]
  beyond : ∀ before c after, 128 ≤ c.toNat → ∃ d ∈ image before c after, 128 ≤ d.toNat ∨ d = 'k'

namespace Lowering

def lowerBehind (lowering : Lowering) (before : Text) : Text → Text
  | [] => []
  | c :: after => lowering.image before c after ++ lowering.lowerBehind (before ++ [c]) after

def lower (lowering : Lowering) (text : Text) : Text := lowering.lowerBehind [] text

def simple : Lowering where
  image _ c _ :=
    if c = '\u212A' then ['k'] else if c = '\u0130' then ['i', '\u0307'] else [c.toLower]
  ascii _ c _ small := by
    have kelvin : c ≠ '\u212A' := by rintro rfl; exact absurd small (by decide)
    have dotted : c ≠ '\u0130' := by rintro rfl; exact absurd small (by decide)
    rw [if_neg kelvin, if_neg dotted]
  beyond _ c _ large := by
    split
    · exact ⟨'k', by simp⟩
    · split
      · exact ⟨'\u0307', by simp, by decide⟩
      · exact ⟨c.toLower, by simp, .inl (by rwa [lower_of_beyond large])⟩

-- A word of ASCII letters other than `k` is the lower case of what folding the ASCII letters makes it.
theorem lower_eq_iff (lowering : Lowering) {word : Text} (ascii : ∀ c ∈ word, c.toNat < 128)
    (other : 'k' ∉ word) (text : Text) :
    lowering.lower text = word ↔ text.map Char.toLower = word := by
  have general (before : Text) : lowering.lowerBehind before text = word ↔
      text.map Char.toLower = word := by
    induction text generalizing before word with
    | nil => rfl
    | cons c text ih =>
        rw [lowerBehind, List.map_cons]
        by_cases small : c.toNat < 128
        · rw [lowering.ascii before c text small, List.singleton_append]
          cases word with
          | nil => simp
          | cons d word =>
              rw [List.forall_mem_cons] at ascii
              rw [List.mem_cons, not_or] at other
              rw [List.cons.injEq, List.cons.injEq, ih ascii.2 other.2]
        · have large := Nat.le_of_not_lt small
          obtain ⟨d, among, outside⟩ := lowering.beyond before c text large
          constructor
          · intro same
            have inside : d ∈ word := same ▸ List.mem_append_left _ among
            rcases outside with far | rfl
            · exact absurd (ascii d inside) (Nat.not_lt_of_le far)
            · exact absurd inside other
          · intro same
            rw [lower_of_beyond large] at same
            exact absurd (ascii c (same ▸ List.mem_cons_self)) small
  exact general []

end Lowering

end Text

def Kind.Named (kind : Kind) (text : Text) : Prop :=
  ∃ word, Text.Trimmed text word ∧ Text.sameIgnoringCase word kind.shortName

def Part.words : Part → List Text
  | .build => ["b".toList, "build".toList]
  | .revision => ["r".toList, "revision".toList]

def Part.Spelled (lowering : Text.Lowering) (part : Part) (text : Text) : Prop :=
  ∃ word, Text.Trimmed text word ∧ lowering.lower word ∈ part.words

theorem Kind.short_name_low (kind : Kind) : kind.shortName.map Char.toLower = kind.shortName := by
  cases kind <;> rfl

theorem Kind.short_name_injective {a b : Kind} (same : a.shortName = b.shortName) : a = b := by
  revert same
  cases a <;> cases b <;> decide

theorem Kind.named_iff {kind : Kind} {text : Text} :
    kind.Named text ↔ text.trim.map Char.toLower = kind.shortName := by
  constructor
  · rintro ⟨word, trimmed, same⟩
    rw [Text.sameIgnoringCase, beq_iff_eq, short_name_low] at same
    rw [Text.trim_eq_iff.mpr trimmed, same]
  · intro same
    exact ⟨text.trim, Text.trimmed_trim text,
      by rw [Text.sameIgnoringCase, same, short_name_low, beq_self_eq_true]⟩

theorem Kind.of_short_name_eq_some {kind : Kind} {text : Text} :
    ofShortName? text = some kind ↔ kind.Named text := by
  rw [named_iff]
  constructor
  · intro found
    have same := List.find?_some found
    rw [Text.sameIgnoringCase, beq_iff_eq, short_name_low] at same
    exact same.symm
  · intro same
    have met : Text.sameIgnoringCase kind.shortName text.trim := by
      rw [Text.sameIgnoringCase, short_name_low, same, beq_self_eq_true]
    obtain ⟨other, found⟩ : ∃ other, ofShortName? text = some other := by
      rw [ofShortName?, ← Option.isSome_iff_exists, List.find?_isSome]
      exact ⟨kind, mem_all kind, met⟩
    have here := List.find?_some found
    rw [Text.sameIgnoringCase, beq_iff_eq, short_name_low, same] at here
    rw [found, short_name_injective here]

theorem Part.spelled_iff (lowering : Text.Lowering) {part : Part} {text : Text} :
    part.Spelled lowering text ↔ text.trim.map Char.toLower ∈ part.words := by
  have every : part.words.all fun word => word.all fun c => c.toNat < 128 && c != 'k' := by
    cases part <;> decide
  have plain (word : Text) (among : word ∈ part.words) :
      (∀ c ∈ word, c.toNat < 128) ∧ 'k' ∉ word := by
    have each := List.all_eq_true.mp (List.all_eq_true.mp every word among)
    simp only [Bool.and_eq_true, decide_eq_true_eq, bne_iff_ne] at each
    exact ⟨fun c inside => (each c inside).1, fun inside => (each 'k' inside).2 rfl⟩
  have same (word : Text) : lowering.lower word ∈ part.words ↔ word.map Char.toLower ∈ part.words := by
    constructor
    · intro among
      obtain ⟨ascii, other⟩ := plain _ among
      rwa [(lowering.lower_eq_iff ascii other word).mp rfl]
    · intro among
      obtain ⟨ascii, other⟩ := plain _ among
      rwa [(lowering.lower_eq_iff ascii other word).mpr rfl]
  constructor
  · rintro ⟨word, trimmed, among⟩
    rw [Text.trim_eq_iff.mpr trimmed]
    exact (same word).mp among
  · exact fun among => ⟨text.trim, Text.trimmed_trim text, (same text.trim).mpr among⟩

theorem Part.of_text_eq_some (lowering : Text.Lowering) {part : Part} {text : Text} :
    ofText? text = some part ↔ part.Spelled lowering text := by
  rw [spelled_iff, ofText?]
  generalize text.trim = word
  have folded (name : String) (low : name.toList.map Char.toLower = name.toList) :
      Text.sameIgnoringCase word name.toList = true ↔ word.map Char.toLower = name.toList := by
    rw [Text.sameIgnoringCase, beq_iff_eq, low]
  simp only [Bool.or_eq_true, folded "b" rfl, folded "build" rfl, folded "r" rfl, folded "revision" rfl]
  generalize word.map Char.toLower = small
  have apart : ¬ (small ∈ build.words ∧ small ∈ revision.words) := by
    rintro ⟨one, other⟩
    revert other
    simp only [words, List.mem_cons, List.not_mem_nil, or_false] at one
    rcases one with rfl | rfl <;> decide
  have first : small = "b".toList ∨ small = "build".toList ↔ small ∈ build.words := by simp [words]
  have second : small = "r".toList ∨ small = "revision".toList ↔ small ∈ revision.words := by
    simp [words]
  simp only [first, second]
  by_cases one : small ∈ build.words
  · have other : small ∉ revision.words := fun other => apart ⟨one, other⟩
    cases part <;> simp [one, other]
  · by_cases other : small ∈ revision.words
    · cases part <;> simp [one, other]
    · cases part <;> simp [one, other]

end AssemblyVersions
